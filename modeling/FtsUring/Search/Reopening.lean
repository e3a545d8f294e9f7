import FtsUring.Search.Runs
import FtsUring.Shard.Closing

/-!
# Closing a shard and opening it again

A shard that is closed and opened again has the same members, the same pages and the same answers to all
later calls, exactly when no posting page behind the active data page looks like a data page.
-/

namespace FtsUring

open Foundation

variable {F : Type} [Double F]

/-- After a sequence of calls on a new shard, closing it and opening its files again gives the shard
back: its members, the contents of its pages, and the answers to all later calls. -/
def ReopensIdentically (F : Type) [Double F] (m : Machine) (updates : List ShardUpdate) : Prop :=
  ∃ shard : Shard F, ∃ n, poolHandler.exec (runFreshShard updates) m =
      some (some (updates.map fun _ => true, shard), n) ∧
    ∀ diskFd poolSize nextPageId wal, UsablePool diskFd poolSize nextPageId →
      ∃ n', poolHandler.exec (shardInit (shardCloseWithPath shard n).2.dataFile.length
            (some (shardCloseWithPath shard n).1))
          (newMachine diskFd wal (shardCloseWithPath shard n).2 poolSize nextPageId) =
            some (some shard, n') ∧
        n'.nextPageId = n.nextPageId ∧
        (∀ pageId < n.nextPageId, n'.pageImage pageId = n.pageImage pageId) ∧
        ∀ operations : List (ShardOperation F),
          ShardOperation.Usable (updates.map ShardOperation.update ++ operations) →
            ∃ result k k', poolHandler.exec (runOperations shard operations) n = some (result, k) ∧
              poolHandler.exec (runOperations shard operations) n' = some (result, k')

omit [Double F] in
/-- The updates among updates. -/
theorem updates_map_update (updates : List ShardUpdate) (operations : List (ShardOperation F)) :
    ShardOperation.updates (updates.map ShardOperation.update ++ operations) =
      updates ++ ShardOperation.updates operations := by
  induction updates with
  | nil => rfl
  | cons update updates ih =>
    rw [List.map_cons, List.cons_append, List.cons_append, ← ih]
    rfl

section Pools

variable {host : Host} {wal : WALManager} {diskFd : ℤ} {poolSize nextPageId : ℕ}
  {updates : List ShardUpdate}

/-- Opening the files of a shard after a sequence of calls on a new one. -/
theorem exec_reopen {s : PageArray} {view : ShardView} (h : ShardAt s view) {n : Machine}
    (hn : Represents n s) (shard : Shard F) (hpool : UsablePool diskFd poolSize nextPageId)
    (wal : WALManager) :
    ∃ n' t, poolHandler.exec (shardInit (shardCloseWithPath shard n).2.dataFile.length
          (some (shardCloseWithPath shard n).1))
        (newMachine diskFd wal (shardCloseWithPath shard n).2 poolSize nextPageId) =
          some (some { shard with activeDataPageId := view.rediscoveredPage }, n') ∧
      Represents n' t ∧ ShardAt t view ∧
        ∀ pageId page, pageId < view.nextPageId → s.Holds pageId page → t.Holds pageId page := by
  obtain ⟨hfile, hfree⟩ := shardCloseWithPath_host shard hn.faultFree hn.wellFormed
  set host := (shardCloseWithPath shard n).2
  obtain ⟨hreopened, hholds, hpages⟩ := h.shardAt_reopened hn hfile wal
  have hsaved : (shardCloseWithPath shard n).1.nextPageId = UInt32.ofNat view.nextPageId := by
    rw [← h.counter, ← hn.nextPageId]
    rfl
  obtain ⟨n', hexec, hn'⟩ := poolHandler_simulates.exec
    (represents_bufferPoolInit hfree hpool.opened (some wal) hpool.small hpool.frames hpool.counter)
    (hreopened.exec_shardInit_reopened hpages hsaved nextPageId)
  exact ⟨n', _, hexec, hn', hreopened, hholds⟩

/-- When closing a shard and opening it again gives it back, the active page is found again. -/
theorem ReopensIdentically.rediscoveredPage_eq (hfree : host.FaultFree) (hempty : host.dataFile = [])
    (hpool : UsablePool diskFd poolSize nextPageId)
    (hfits : (ShardView.fresh.updates updates).nextPageId ≤ invalidPageId)
    (h : ReopensIdentically F (newMachine diskFd wal host poolSize nextPageId) updates) :
    (ShardView.fresh.updates updates).KeepsActivePage := by
  obtain ⟨s, hs, hrun⟩ := exec_runFreshShard (F := F) hfree hempty wal hfits
  obtain ⟨n, hexec, hn⟩ := hrun diskFd poolSize nextPageId hpool
  have hmatches := (Shard.matches_initial (F := F)).afterUpdates updates
  set shard := (Shard.initial : Shard F).afterUpdates ShardView.fresh updates
  rw [← hs.rediscoveredPage_eq_iff]
  obtain ⟨other, n₁, hexec₁, hall⟩ := h
  rw [hexec, Option.some.injEq, Prod.mk.injEq, Option.some.injEq, Prod.mk.injEq] at hexec₁
  obtain ⟨⟨-, rfl⟩, rfl⟩ := hexec₁
  obtain ⟨n', hreopen, -⟩ := hall diskFd poolSize nextPageId wal hpool
  obtain ⟨n₂, t, hreopen', -⟩ := exec_reopen hs hn shard hpool wal
  rw [hreopen, Option.some.injEq, Prod.mk.injEq, Option.some.injEq] at hreopen'
  have hactive := congrArg Shard.activeDataPageId hreopen'.1
  exact hactive.symm.trans hmatches.activePage

/-- Closing a shard and opening it again is the identity exactly when no posting page behind the active
data page looks like a data page. -/
theorem reopensIdentically_iff (hfree : host.FaultFree) (hempty : host.dataFile = []) (wal : WALManager)
    (hpool : UsablePool diskFd poolSize nextPageId)
    (hfits : (ShardView.fresh.updates updates).nextPageId ≤ invalidPageId) :
    ReopensIdentically F (newMachine diskFd wal host poolSize nextPageId) updates ↔
      (ShardView.fresh.updates updates).KeepsActivePage := by
  constructor
  · exact ReopensIdentically.rediscoveredPage_eq hfree hempty hpool hfits
  · intro hkeeps
    obtain ⟨s, hs, hrun⟩ := exec_runFreshShard (F := F) hfree hempty wal hfits
    obtain ⟨n, hexec, hn⟩ := hrun diskFd poolSize nextPageId hpool
    have hmatches := (Shard.matches_initial (F := F)).afterUpdates updates
    set shard := (Shard.initial : Shard F).afterUpdates ShardView.fresh updates
    set view := ShardView.fresh.updates updates with hview
    rw [← hs.rediscoveredPage_eq_iff] at hkeeps
    refine ⟨shard, n, hexec, fun diskFd' poolSize' nextPageId' wal' hpool' => ?_⟩
    obtain ⟨n', t, hreopen, hn', ht, hholds⟩ := exec_reopen hs hn shard hpool' wal'
    have hsame : { shard with activeDataPageId := view.rediscoveredPage } = shard := by
      rw [hkeeps, ← hmatches.activePage]
    rw [hsame] at hreopen
    refine ⟨n', hreopen, ?_, ?_, ?_⟩
    · rw [hn'.nextPageId, hn.nextPageId, ht.counter, hs.counter]
    · intro pageId hpage
      rw [hn.nextPageId, hs.counter] at hpage
      obtain ⟨page, hpageHolds⟩ := hs.exists_holds hpage
      have hvalid := hpage.trans_le hfits
      rw [hn.pageImage_eq hs.idle.touched hvalid hpageHolds,
        hn'.pageImage_eq ht.idle.touched hvalid (hholds pageId page hpage hpageHolds)]
    · intro operations husable
      have hafter := updates_map_update updates operations
      have hallFits := husable.fits
      rw [viewAfter, hafter, ShardView.updates_append, ← hview] at hallFits
      have hshort := husable.short
      rw [hafter, insertedDocuments, List.filterMap_append] at hshort
      have hindexed := Indexed.fresh.updates ShardView.valid_fresh hfits
      have hslots := ShardView.noRecordSlots_updates ShardView.valid_fresh ShardView.noRecordSlots_fresh
        (fun doc hdoc => hshort doc (List.mem_append_left _ hdoc)) hfits
      have hboth : ∀ {u : PageArray}, ShardAt u view → arrayHandler.Ensures
          (runOperations shard operations) u fun result _ => result = (view.answersTo operations,
            shard.afterUpdates view (ShardOperation.updates operations)) := by
        intro u hu
        have hat : IndexedShardAt u view _ := ⟨hu, hindexed, hslots⟩
        exact (hat.ensures_runOperations hmatches
          (fun operation hmem => husable.room operation (List.mem_append_right _ hmem))
          (fun doc hdoc => hshort doc (List.mem_append_right _ hdoc)) hallFits).mono fun _ _ h => h.1
      obtain ⟨result, u, hops, rfl⟩ := hboth hs
      obtain ⟨result', u', hops', rfl⟩ := hboth ht
      obtain ⟨k, hk, -⟩ := poolHandler_simulates.exec hn hops
      obtain ⟨k', hk', -⟩ := poolHandler_simulates.exec hn' hops'
      exact ⟨_, k, k', hk, hk'⟩

/-- A document and its deletion, in a pool of two frames. -/
theorem reopensIdentically_iff_two_frames :
    ReopensIdentically ℚ (newMachine 0 ⟨3, 0⟩ Host.empty 2 0)
        [.insert (.ofTerms 1 1 [7] (by decide)), .delete 0] ↔
      (ShardView.fresh.updates [.insert (.ofTerms 1 1 [7] (by decide)), .delete 0]).KeepsActivePage :=
  reopensIdentically_iff ⟨rfl, rfl, rfl, rfl⟩ rfl ⟨3, 0⟩ ⟨le_refl 0, le_refl 2, by decide, by decide⟩
    (by decide)

/-- The third document is the first one in data page 7, and the posting page of its term is page 8: it
is taken for the active data page. -/
theorem not_reopensIdentically :
    ¬ReopensIdentically ℚ (newMachine 0 ⟨3, 0⟩ Host.empty 2 0)
      [.insert (.ofTerms 1 1 [1, 2, 3] (by decide)), .insert (.ofTerms 2 1 [] (by decide)),
        .insert (.ofTerms 3 1 [9] (by decide))] := by
  intro h
  have hkeeps := h.rediscoveredPage_eq ⟨rfl, rfl, rfl, rfl⟩ rfl
    ⟨le_refl 0, le_refl 2, by decide, by decide⟩ (by decide)
  refine hkeeps 8 (by decide +kernel) ⟨9, [⟨2, 7, 0, [0]⟩], ?_, ⟨2, 7, 0, [0]⟩, rfl, rfl⟩
  decide +kernel

end Pools

end FtsUring
