import FtsUring.Shard.Start

/-!
# Sequences of insertions and deletions

A new shard is opened, and documents are inserted and deleted in any order. As long as the page
counter names valid pages every call succeeds, and the content of the shard is the one that
`ShardView.updates` computes.
-/

namespace FtsUring

open Foundation

/-- The calls that change a shard. -/
inductive ShardUpdate
  | insert (doc : Document)
  | delete (docId : UInt32)

/-- The content after a call. -/
def ShardView.update (view : ShardView) : ShardUpdate → ShardView
  | .insert doc => view.insertDocument doc
  | .delete docId => view.deleteDocument docId

/-- The content after a sequence of calls. -/
def ShardView.updates (view : ShardView) (updates : List ShardUpdate) : ShardView :=
  updates.foldl ShardView.update view

namespace ShardView

/-- One call more. -/
theorem updates_cons (view : ShardView) (update : ShardUpdate) (updates : List ShardUpdate) :
    view.updates (update :: updates) = (view.update update).updates updates := rfl

/-- Two sequences. -/
theorem updates_append (view : ShardView) (updates later : List ShardUpdate) :
    view.updates (updates ++ later) = (view.updates updates).updates later :=
  List.foldl_append

/-- A call takes pages only from the counter. -/
theorem nextPageId_le_update (view : ShardView) (update : ShardUpdate) :
    view.nextPageId ≤ (view.update update).nextPageId := by
  cases update with
  | insert doc => exact view.nextPageId_le_insertDocument doc
  | delete docId => exact le_refl _

/-- A sequence of calls takes pages only from the counter. -/
theorem nextPageId_le_updates (view : ShardView) (updates : List ShardUpdate) :
    view.nextPageId ≤ (view.updates updates).nextPageId := by
  induction updates generalizing view with
  | nil => exact le_refl _
  | cons update updates ih => exact (view.nextPageId_le_update update).trans (ih (view.update update))

/-- A call keeps the invariants. -/
theorem Valid.update {view : ShardView} (h : view.Valid) (update : ShardUpdate)
    (hfits : (view.update update).nextPageId ≤ invalidPageId) : (view.update update).Valid := by
  cases update with
  | insert doc => exact h.insertDocument doc hfits
  | delete docId => exact h.deleteDocument docId

/-- A property of contents that every call keeps, as long as the page counter names valid pages,
holds after every sequence of calls. -/
theorem updates_induction {property : ShardView → Prop} {view : ShardView} (hview : property view)
    {updates : List ShardUpdate} (hfits : (view.updates updates).nextPageId ≤ invalidPageId)
    (hstep : ∀ view update, property view → (view.update update).nextPageId ≤ invalidPageId →
      property (view.update update)) : property (view.updates updates) := by
  induction updates generalizing view with
  | nil => exact hview
  | cons update updates ih =>
    have hnow := (nextPageId_le_updates (view.update update) updates).trans hfits
    exact ih (hstep view update hview hnow) hfits

/-- A sequence of calls keeps the invariants. -/
theorem Valid.updates {view : ShardView} (h : view.Valid) {updates : List ShardUpdate}
    (hfits : (view.updates updates).nextPageId ≤ invalidPageId) : (view.updates updates).Valid :=
  updates_induction h hfits fun _ update hvalid => hvalid.update update

end ShardView

variable {F : Type} [Double F]

/-- Make one call; the answer is whether the return code is 0. -/
def ShardUpdate.run (shard : Shard F) : ShardUpdate → PageProgram (Bool × Shard F)
  | .insert doc => shardInsertDocument shard doc
  | .delete docId => do return (← shardDeleteDocument docId, shard)

/-- Make a sequence of calls. -/
def runUpdates : Shard F → List ShardUpdate → PageProgram (List Bool × Shard F)
  | shard, [] => return ([], shard)
  | shard, update :: updates => do
    let (ok, shard) ← update.run shard
    let (oks, shard) ← runUpdates shard updates
    return (ok :: oks, shard)

/-- The members of a shard after a call. -/
def Shard.afterUpdate (shard : Shard F) (view : ShardView) : ShardUpdate → Shard F
  | .insert doc => shard.afterInsert doc (view.insertDocument doc)
  | .delete _ => shard

/-- The members of a shard after a sequence of calls. -/
def Shard.afterUpdates (shard : Shard F) : ShardView → List ShardUpdate → Shard F
  | _, [] => shard
  | view, update :: updates =>
    (shard.afterUpdate view update).afterUpdates (view.update update) updates

/-- The members keep agreeing with the content. -/
theorem Shard.Matches.afterUpdate {shard : Shard F} {view : ShardView} (h : shard.Matches view)
    (update : ShardUpdate) : (shard.afterUpdate view update).Matches (view.update update) := by
  cases update with
  | insert doc => exact h.afterInsert doc
  | delete docId => exact ⟨h.activePage, h.nextDocId⟩

/-- The members agree with the content after every sequence of calls. -/
theorem Shard.Matches.afterUpdates {shard : Shard F} {view : ShardView} (h : shard.Matches view)
    (updates : List ShardUpdate) : (shard.afterUpdates view updates).Matches (view.updates updates) := by
  induction updates generalizing shard view with
  | nil => exact h
  | cons update updates ih => exact ih (h.afterUpdate update)

namespace ShardAt

variable {s : PageArray} {view : ShardView}

/-- One call. -/
theorem ensures_update (h : ShardAt s view) {shard : Shard F} (hmatches : shard.Matches view)
    (update : ShardUpdate) (hfits : (view.update update).nextPageId ≤ invalidPageId) :
    arrayHandler.Ensures (update.run shard) s fun result t =>
      result = (true, shard.afterUpdate view update) ∧ ShardAt t (view.update update) := by
  cases update with
  | insert doc => exact h.ensures_insertDocument hmatches doc hfits
  | delete docId =>
    refine (h.ensures_deleteDocument docId).bind ?_
    rintro deleted t ⟨rfl, ht⟩
    exact .pure ⟨rfl, ht⟩

/-- A sequence of calls. -/
theorem ensures_runUpdates (h : ShardAt s view) {shard : Shard F} (hmatches : shard.Matches view)
    {updates : List ShardUpdate} (hfits : (view.updates updates).nextPageId ≤ invalidPageId) :
    arrayHandler.Ensures (runUpdates shard updates) s fun result t =>
      result = (updates.map fun _ => true, shard.afterUpdates view updates) ∧
        ShardAt t (view.updates updates) := by
  induction updates generalizing s view shard with
  | nil => exact .pure ⟨rfl, h⟩
  | cons update updates ih =>
    have hnow := (ShardView.nextPageId_le_updates (view.update update) updates).trans hfits
    rw [runUpdates]
    refine (h.ensures_update hmatches update hnow).bind ?_
    rintro result t ⟨rfl, ht⟩
    refine (ih ht (hmatches.afterUpdate update) hfits).bind ?_
    rintro result u ⟨rfl, hu⟩
    exact .pure ⟨rfl, hu⟩

end ShardAt

/-! ## New shards -/

/-- Open a new shard and make a sequence of calls. -/
def runFreshShard (updates : List ShardUpdate) : PageProgram (Option (List Bool × Shard F)) := do
  match ← shardInit 0 none with
  | none => return none
  | some shard => return some (← runUpdates shard updates)

/-- The machine of a shard before it is opened: its pool is new, and the page counter holds
anything. -/
def newMachine (diskFd : ℤ) (wal : WALManager) (host : Host) (poolSize nextPageId : ℕ) : Machine :=
  ⟨bufferPoolInit diskFd (some wal) host poolSize, nextPageId⟩

/-- The pools over which a shard works: `pool_size * 2` does not wrap, and a page can be read
while another one is pinned. -/
structure UsablePool (diskFd : ℤ) (poolSize nextPageId : ℕ) : Prop where
  opened : 0 ≤ diskFd
  frames : 2 ≤ poolSize
  small : poolSize < 2 ^ 31
  counter : nextPageId < 2 ^ 32

/-- What a sequence of calls on a new shard leaves in the array of pages, whatever the pool. -/
theorem exec_runFreshShard {host : Host} (hfree : host.FaultFree) (hempty : host.dataFile = [])
    (wal : WALManager) {updates : List ShardUpdate}
    (hfits : (ShardView.fresh.updates updates).nextPageId ≤ invalidPageId) :
    ∃ s, ShardAt s (ShardView.fresh.updates updates) ∧
      ∀ diskFd poolSize nextPageId, UsablePool diskFd poolSize nextPageId →
        ∃ m, poolHandler.exec (runFreshShard (F := F) updates)
            (newMachine diskFd wal host poolSize nextPageId) =
              some (some (updates.map fun _ => true,
                Shard.initial.afterUpdates ShardView.fresh updates), m) ∧ Represents m s := by
  obtain ⟨start, hstart, hinit⟩ := @exec_shardInit_fresh F _ host hfree hempty wal
  obtain ⟨result, s, hexec, rfl, hs⟩ :=
    hstart.ensures_runUpdates (Shard.matches_initial (F := F)) hfits
  refine ⟨s, hs, fun diskFd poolSize nextPageId hpool => ?_⟩
  obtain ⟨opened, hopen, hopened⟩ := hinit diskFd poolSize nextPageId hpool.opened hpool.frames
    hpool.small hpool.counter
  obtain ⟨m, hrun, hm⟩ := poolHandler_simulates.exec hopened hexec
  refine ⟨m, ?_, hm⟩
  rw [runFreshShard, newMachine, Handler.exec_bind_of_eq _ hopen, Handler.exec_bind_of_eq _ hrun]
  rfl

end FtsUring
