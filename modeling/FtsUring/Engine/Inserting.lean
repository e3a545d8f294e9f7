import FtsUring.Engine.SmallShards

/-!
# Inserting documents into an engine

The files of a new engine are empty. Its documents are dealt out to the shards by the hashes of their node ids:
every document goes to exactly one shard, and each shard gets its documents in the order in which they were
inserted. As long as all shards are small, every insertion returns 0.

The statistics of a new engine say that there is no document, and they stay as they are. So a document has the same
score whatever else is inserted.
-/

namespace FtsUring

open Foundation

variable {F : Type} [Double F]

/-! ## Opening a new engine -/

omit [Double F] in
/-- The files of a shard that was never opened. -/
structure ShardFiles.IsNew (files : ShardFiles F) : Prop where
  faultFree : files.host.FaultFree
  empty : files.host.dataFile = []
  dataOpens : 0 ≤ files.dataFd
  logOpens : 0 ≤ files.walFd
  notSaved : files.saved = none

/-- The parameters with which a new engine scores. -/
def newEngineParams : Bm25fParams F where
  idf := 1
  avgdl := Vector.replicate maxFtsFields (Double.ofUInt32 10)
  weights := #v[10, 5, 2, 1].map Double.ofUInt32
  k1 := Double.ofUInt32 12 / Double.ofUInt32 10
  b := Double.ofUInt32 3 / Double.ofUInt32 4

/-- The weights of an engine. -/
theorem weights_newEngineParams :
    (#v[Double.ofUInt32 10, Double.ofUInt32 5, Double.ofUInt32 2, Double.ofUInt32 1] : Vector F 4) =
      newEngineParams.weights := by
  simp [newEngineParams]

/-- A shard is opened for the first time. -/
theorem openShard_new {files : ShardFiles F} (hnew : files.IsNew) {poolSize : ℕ} (hroom : 2 ≤ poolSize)
    (hsmall : poolSize < 2 ^ 31) : ∃ s : EngineShard F, openShard files poolSize = some (some s) ∧
      s.HoldsAfter [] ∧ s.shard = Shard.initial := by
  have hwal : walInit files.host files.walFd = (0, ⟨files.walFd, UInt64.ofNat files.host.walFile.length⟩) := by
    rw [walInit, if_neg (not_lt.mpr hnew.logOpens)]
  obtain ⟨pages, hpages, hinit⟩ := @exec_shardInit_fresh F _ files.host hnew.faultFree hnew.empty
    ⟨files.walFd, UInt64.ofNat files.host.walFile.length⟩
  obtain ⟨machine, hexec, hmachine⟩ := hinit files.dataFd poolSize 0 hnew.dataOpens hroom hsmall (by decide)
  refine ⟨⟨Shard.initial, machine⟩, ?_, ⟨⟨pages, hmachine, hpages⟩, Shard.matches_initial⟩, rfl⟩
  rw [openShard]
  simp only [if_neg (not_lt.mpr hnew.dataOpens), hwal, ne_eq, not_true_eq_false, if_false, hnew.empty, hnew.notSaved,
    List.length_nil]
  rw [newMachine, hexec]
  rfl

/-- All shards are opened for the first time. -/
theorem openShards_new {files : List (ShardFiles F)} (hnew : ∀ f ∈ files, f.IsNew) {poolSize : ℕ}
    (hroom : 2 ≤ poolSize) (hsmall : poolSize < 2 ^ 31) : ∃ shards : List (EngineShard F),
      openShards poolSize files = some (some shards) ∧
      List.Forall₂ EngineShard.HoldsAfter shards (files.map fun _ => []) ∧
      ∀ s ∈ shards, s.shard = Shard.initial := by
  induction files with
  | nil => exact ⟨[], rfl, .nil, by simp⟩
  | cons f files ih =>
    obtain ⟨s, hopen, hs, hmembers⟩ := openShard_new (hnew f List.mem_cons_self) hroom hsmall
    obtain ⟨shards, hopens, hshards, hinitial⟩ := ih fun other hother => hnew other (List.mem_cons_of_mem _ hother)
    refine ⟨s :: shards, ?_, .cons hs hshards, List.forall_mem_cons.mpr ⟨hmembers, hinitial⟩⟩
    rw [openShards, hopen, Option.bind_some, hopens]
    rfl

/-- New shards have no documents. -/
theorem totalDocs_eq_zero {shards : List (EngineShard F)} (hinitial : ∀ s ∈ shards, s.shard = Shard.initial) :
    totalDocs shards = 0 := by
  rw [totalDocs]
  induction shards with
  | nil => rfl
  | cons s shards ih =>
    rw [List.foldl_cons, hinitial s List.mem_cons_self]
    exact ih fun other hother => hinitial other (List.mem_cons_of_mem _ hother)

/-- A new engine is opened. -/
theorem engineInit_new {files : List (ShardFiles F)} (hfiles : files ≠ []) (hnew : ∀ f ∈ files, f.IsNew)
    {maxRamMb : UInt32} (hsmall : framesPerShard maxRamMb files.length < 2 ^ 31) : ∃ engine : UnifiedEngine F,
      engineInit files maxRamMb = some (some engine) ∧
      List.Forall₂ EngineShard.HoldsAfter engine.shards (files.map fun _ => []) ∧
      engine.params = newEngineParams ∧
      ∀ s ∈ engine.shards, s.shard = Shard.initial := by
  have hroom : 2 ≤ framesPerShard maxRamMb files.length := le_max_of_le_left (by decide)
  obtain ⟨shards, hopens, hshards, hinitial⟩ := openShards_new hnew hroom hsmall
  set opened : UnifiedEngine F := engineRecomputeGlobalStats
    ⟨shards, 0, Vector.replicate maxFtsFields 0, newEngineParams.weights, newEngineParams.k1, newEngineParams.b⟩
    with hopened
  refine ⟨opened, ?_, hshards, ?_, hinitial⟩
  · rw [engineInit, if_neg (mt List.length_eq_zero_iff.mp hfiles), hopens, weights_newEngineParams]
    rfl
  · have haverage : ∀ i, averageDl shards i = Double.ofUInt32 10 := by
      intro i
      rw [averageDl, totalDocs_eq_zero hinitial, if_neg (by decide)]
    simp only [hopened, UnifiedEngine.params, engineRecomputeGlobalStats, newEngineParams, Bm25fParams.mk.injEq,
      true_and, and_true]
    apply Vector.ext
    intro i hi
    rw [Vector.getElem_ofFn, haverage, Vector.getElem_replicate]

/-! ## Dealing out documents -/

/-- The documents of each shard, in the order of their insertion. -/
def routed (numShards : ℕ) (docs : List Document) : List (List ShardUpdate) :=
  (List.range numShards).map fun i =>
    (docs.filter fun doc => shardIndex doc.nodeId numShards = i).map .insert

/-- There is a list of documents for each shard. -/
theorem length_routed (numShards : ℕ) (docs : List Document) : (routed numShards docs).length = numShards := by
  rw [routed, List.length_map, List.length_range]

/-- Nothing was inserted. -/
theorem routed_nil (numShards : ℕ) : routed numShards [] = List.replicate numShards [] := by
  simp [routed]

/-- A document more goes to its shard. -/
theorem routed_concat (numShards : ℕ) (docs : List Document) (doc : Document) :
    routed numShards (docs ++ [doc]) =
      (routed numShards docs).modify (shardIndex doc.nodeId numShards) (· ++ [.insert doc]) := by
  apply List.ext_getElem?
  intro i
  rw [List.getElem?_modify, routed, routed, List.getElem?_map, List.getElem?_map]
  by_cases hi : i < numShards
  · rw [List.getElem?_range hi, Option.map_some, Option.map_some, List.filter_append]
    by_cases hshard : shardIndex doc.nodeId numShards = i
    · simp [hshard]
    · simp [hshard]
  · rw [List.getElem?_eq_none (by simpa using hi)]
    rfl

/-- The insertions alone. -/
theorem insertedDocuments_map_insert (docs : List Document) : insertedDocuments (docs.map .insert) = docs := by
  rw [insertedDocuments, List.filterMap_map]
  exact List.filterMap_some

/-- Nothing is deleted. -/
theorem deletedIds_map_insert (docs : List Document) : deletedIds (docs.map .insert) = [] := by
  rw [deletedIds, List.filterMap_map]
  exact List.filterMap_eq_nil_iff.mpr fun _ _ => rfl

/-- Dealing out the elements of a list by their keys. -/
theorem flatMap_filter_perm {α κ : Type} [DecidableEq κ] (key : α → κ) {keys : List κ} (hkeys : keys.Nodup)
    (l : List α) : (keys.flatMap fun k => l.filter fun x => key x = k).Perm (l.filter fun x => key x ∈ keys) := by
  induction keys with
  | nil => simp
  | cons k keys ih =>
    have hnot : k ∉ keys := (List.nodup_cons.mp hkeys).1
    have hfirst : (l.filter fun x => key x = k) =
        (l.filter fun x => key x ∈ k :: keys).filter fun x => key x = k := by
      rw [List.filter_filter]
      refine List.filter_congr fun x _ => ?_
      by_cases hx : key x = k
      · simp [hx]
      · simp [hx]
    have hrest : (l.filter fun x => key x ∈ keys) =
        (l.filter fun x => key x ∈ k :: keys).filter fun x => !decide (key x = k) := by
      rw [List.filter_filter]
      refine List.filter_congr fun x _ => ?_
      by_cases hx : key x = k
      · simp [hx, hnot]
      · simp [hx]
    rw [List.flatMap_cons]
    refine ((ih (List.nodup_cons.mp hkeys).2).append_left _).trans ?_
    rw [hfirst, hrest]
    exact List.filter_append_perm _ _

/-- Every document is in exactly one shard. -/
theorem flatMap_routed_perm {numShards : ℕ} (hshards : 0 < numShards) (docs : List Document) :
    ((routed numShards docs).flatMap insertedDocuments).Perm docs := by
  have hparts : (routed numShards docs).flatMap insertedDocuments =
      (List.range numShards).flatMap fun i => docs.filter fun doc => shardIndex doc.nodeId numShards = i := by
    rw [routed, List.flatMap_map]
    exact List.flatMap_congr fun i _ => insertedDocuments_map_insert _
  rw [hparts]
  refine (flatMap_filter_perm _ List.nodup_range docs).trans (List.Perm.of_eq ?_)
  rw [List.filter_eq_self]
  exact fun doc _ => decide_eq_true (List.mem_range.mpr (Nat.mod_lt _ hshards))

/-- All documents that were inserted are live when nothing is deleted. -/
theorem map_fst_liveDocuments_map_insert (docs : List Document) :
    (liveDocuments (docs.map .insert)).map Prod.fst = docs := by
  have hall : liveDocuments (docs.map .insert) = numberedDocuments docs := by
    rw [liveDocuments, insertedDocuments_map_insert, deletedIds_map_insert, List.filter_eq_self]
    exact fun entry _ => decide_eq_true List.not_mem_nil
  rw [hall, numberedDocuments, List.map_map]
  exact List.zipIdx_map_fst 0 docs

/-- The live documents of all shards are those that were inserted. -/
theorem flatMap_liveDocuments_routed_perm {numShards : ℕ} (hshards : 0 < numShards) (docs : List Document) :
    ((routed numShards docs).flatMap fun updates => (liveDocuments updates).map Prod.fst).Perm docs := by
  have hsame : (routed numShards docs).flatMap (fun updates => (liveDocuments updates).map Prod.fst) =
      (routed numShards docs).flatMap insertedDocuments := by
    refine List.flatMap_congr fun updates hupdates => ?_
    obtain ⟨i, -, rfl⟩ := List.mem_map.mp hupdates
    rw [map_fst_liveDocuments_map_insert, insertedDocuments_map_insert]
  rw [hsame]
  exact flatMap_routed_perm hshards docs

/-- When all documents have different nodes, those of a shard have. -/
theorem nodup_nodeId_routed {numShards : ℕ} {docs : List Document} (hnodes : (docs.map Document.nodeId).Nodup) :
    ∀ updates ∈ routed numShards docs, ((liveDocuments updates).map fun entry => entry.1.nodeId).Nodup := by
  intro updates hupdates
  obtain ⟨i, -, rfl⟩ := List.mem_map.mp hupdates
  have hpart := hnodes.sublist
    ((List.filter_sublist (p := fun doc => shardIndex doc.nodeId numShards = i)).map Document.nodeId)
  rwa [← map_fst_liveDocuments_map_insert (docs.filter _), List.map_map] at hpart

/-- A part of the documents goes to small shards when all of them do. -/
theorem SmallShard.of_sublist {docs : List Document} {part : List Document} (h : SmallShard (docs.map .insert))
    (hpart : part.Sublist docs) : SmallShard (part.map .insert) where
  few := by
    have hfew := h.few
    rw [insertedDocuments_map_insert] at hfew ⊢
    exact hpart.length_le.trans hfew
  deleted := by
    rw [deletedIds_map_insert]
    exact fun _ hdocId => absurd hdocId List.not_mem_nil
  terms := by
    have hterms := h.terms
    rw [insertedDocuments_map_insert] at hterms ⊢
    exact fun doc hdoc => hterms doc (hpart.subset hdoc)

/-- Few short documents go to small shards. -/
theorem smallShard_routed {numShards : ℕ} {docs : List Document} (hfew : docs.length ≤ tombstoneUsableBits)
    (hterms : ∀ doc ∈ docs, doc.termIds.length ≤ 1024) :
    ∀ updates ∈ routed numShards docs, SmallShard updates := by
  intro updates hupdates
  obtain ⟨i, -, rfl⟩ := List.mem_map.mp hupdates
  refine SmallShard.of_sublist ⟨?_, ?_, ?_⟩ List.filter_sublist
  · rwa [insertedDocuments_map_insert]
  · rw [deletedIds_map_insert]
    exact fun _ hdocId => absurd hdocId List.not_mem_nil
  · rwa [insertedDocuments_map_insert]

/-- The documents that were inserted so far go to small shards when all of them do. -/
theorem smallShard_routed_take {numShards : ℕ} {docs : List Document}
    (hsmall : ∀ updates ∈ routed numShards docs, SmallShard updates) (count : ℕ) :
    ∀ updates ∈ routed numShards (docs.take count), SmallShard updates := by
  intro updates hupdates
  obtain ⟨i, hi, rfl⟩ := List.mem_map.mp hupdates
  exact (hsmall _ (List.mem_map_of_mem hi)).of_sublist ((List.take_sublist count docs).filter _)

/-! ## Insertions -/

/-- Inserting a document into an engine. -/
theorem engineInsertDocument_spec {engine : UnifiedEngine F} {doc : Document} {s : EngineShard F} {view : ShardView}
    (hs : engine.shards[shardIndex doc.nodeId engine.shards.length]? = some s) (hholds : s.Holds view)
    (hfits : (view.insertDocument doc).nextPageId ≤ invalidPageId) :
    ∃ s' : EngineShard F, s'.Holds (view.insertDocument doc) ∧
      s'.shard = s.shard.afterInsert doc (view.insertDocument doc) ∧ engineInsertDocument engine doc =
        some (true, { engine with
          shards := engine.shards.set (shardIndex doc.nodeId engine.shards.length) s' }) := by
  obtain ⟨⟨pages, hm, hpages⟩, hmatches⟩ := hholds
  obtain ⟨result, t, hinsert, rfl, ht⟩ := hpages.ensures_insertDocument hmatches doc hfits
  obtain ⟨machine, hexec, hmachine⟩ := poolHandler_simulates.exec hm hinsert
  refine ⟨⟨_, machine⟩, ⟨⟨t, hmachine, ht⟩, hmatches.afterInsert doc⟩, rfl, ?_⟩
  rw [engineInsertDocument]
  dsimp only
  rw [hs]
  dsimp only
  rw [hexec]
  rfl

omit [Double F] in
/-- Replacing related elements at one place. -/
theorem exists_forall₂_set {α β : Type} {related : α → β → Prop} {front : List α} {back : List β}
    (h : List.Forall₂ related front back) {i : ℕ} (hi : i < front.length) :
    ∃ a b, front[i]? = some a ∧ back[i]? = some b ∧ related a b ∧
      ∀ a' change, related a' (change b) → List.Forall₂ related (front.set i a') (back.modify i change) := by
  induction h generalizing i with
  | nil => exact absurd hi (Nat.not_lt_zero _)
  | @cons a b front back hab hrest ih =>
    cases i with
    | zero =>
      refine ⟨a, b, rfl, rfl, hab, fun a' change hnew => ?_⟩
      exact .cons hnew hrest
    | succ i =>
      obtain ⟨a', b', ha', hb', hrelated, hset⟩ := ih (Nat.lt_of_succ_lt_succ hi)
      exact ⟨a', b', ha', hb', hrelated, fun other change hnew => .cons hab (hset other change hnew)⟩

/-- One insertion more. -/
theorem exists_insert_routed {engine : UnifiedEngine F} {docs : List Document} {doc : Document}
    (hshards : engine.shards ≠ [])
    (hholds : List.Forall₂ EngineShard.HoldsAfter engine.shards (routed engine.shards.length docs))
    (hsmall : ∀ updates ∈ routed engine.shards.length (docs ++ [doc]), SmallShard updates) :
    ∃ (s s' : EngineShard F) (view : ShardView),
      engine.shards[shardIndex doc.nodeId engine.shards.length]? = some s ∧
      s'.shard = s.shard.afterInsert doc view ∧
      engineInsertDocument engine doc = some (true, { engine with
        shards := engine.shards.set (shardIndex doc.nodeId engine.shards.length) s' }) ∧
      List.Forall₂ EngineShard.HoldsAfter (engine.shards.set (shardIndex doc.nodeId engine.shards.length) s')
        (routed engine.shards.length (docs ++ [doc])) := by
  have hlt : shardIndex doc.nodeId engine.shards.length < engine.shards.length :=
    Nat.mod_lt _ (List.length_pos_of_ne_nil hshards)
  obtain ⟨s, updates, hs, hupdates, hold, hset⟩ := exists_forall₂_set hholds hlt
  rw [routed_concat] at hsmall ⊢
  have hmem : updates ++ [.insert doc] ∈ (routed engine.shards.length docs).modify
      (shardIndex doc.nodeId engine.shards.length) (· ++ [.insert doc]) := by
    refine List.mem_of_getElem? (i := shardIndex doc.nodeId engine.shards.length) ?_
    rw [List.getElem?_modify_eq, hupdates]
    rfl
  have hview : ShardView.fresh.updates (updates ++ [.insert doc]) =
      (ShardView.fresh.updates updates).insertDocument doc := ShardView.updates_append _ _ _
  have hfits := (hsmall _ hmem).fits.le
  rw [hview] at hfits
  obtain ⟨s', hs', hmembers, hinsert⟩ := engineInsertDocument_spec hs hold hfits
  refine ⟨s, s', _, hs, hmembers, hinsert, hset s' _ ?_⟩
  rw [EngineShard.HoldsAfter, hview]
  exact hs'

/-- Documents that are inserted one after the other. -/
theorem engineStates_routed {engine : UnifiedEngine F} {before docs : List Document} (hshards : engine.shards ≠ [])
    (hholds : List.Forall₂ EngineShard.HoldsAfter engine.shards (routed engine.shards.length before))
    (hsmall : ∀ updates ∈ routed engine.shards.length (before ++ docs), SmallShard updates) :
    ∃ states : List (UnifiedEngine F), engineStates engine docs = some states ∧ states.length = docs.length + 1 ∧
      ∀ (count : ℕ) (state : UnifiedEngine F), states[count]? = some state →
        state.params = engine.params ∧ List.Forall₂ EngineShard.HoldsAfter state.shards
          (routed engine.shards.length (before ++ docs.take count)) := by
  induction docs generalizing engine before with
  | nil =>
    refine ⟨[engine], rfl, rfl, fun count state hstate => ?_⟩
    rw [List.mem_singleton.mp (List.mem_of_getElem? hstate), List.take_nil, List.append_nil]
    exact ⟨rfl, hholds⟩
  | cons doc docs ih =>
    have hsplit : before ++ doc :: docs = before ++ [doc] ++ docs := by simp
    rw [hsplit] at hsmall
    have hnext : ∀ updates ∈ routed engine.shards.length (before ++ [doc]), SmallShard updates := by
      have hprefix := smallShard_routed_take hsmall (before ++ [doc]).length
      rwa [List.take_left] at hprefix
    obtain ⟨-, s', -, -, -, hinsert, hafter⟩ := exists_insert_routed hshards hholds hnext
    set next : UnifiedEngine F := { engine with
      shards := engine.shards.set (shardIndex doc.nodeId engine.shards.length) s' } with hnextEq
    have hlength : next.shards.length = engine.shards.length := List.length_set
    have hparams : next.params = engine.params := rfl
    have hnonempty : next.shards ≠ [] := by
      rw [← List.length_pos_iff, hlength, List.length_pos_iff]
      exact hshards
    have hdealt : List.Forall₂ EngineShard.HoldsAfter next.shards (routed next.shards.length (before ++ [doc])) := by
      rw [hlength]
      exact hafter
    rw [← hlength] at hsmall
    obtain ⟨states, hstates, hcount, hall⟩ := ih hnonempty hdealt hsmall
    refine ⟨engine :: states, ?_, by rw [List.length_cons, hcount, List.length_cons], fun count state hstate => ?_⟩
    · rw [engineStates, hinsert, Option.bind_some]
      dsimp only
      rw [if_pos rfl, hstates]
      rfl
    · cases count with
      | zero =>
        rw [List.getElem?_cons_zero, Option.some.injEq] at hstate
        rw [← hstate, List.take_zero, List.append_nil]
        exact ⟨rfl, hholds⟩
      | succ count =>
        rw [List.getElem?_cons_succ] at hstate
        obtain ⟨hsame, hcontent⟩ := hall count state hstate
        rw [hlength, List.append_assoc] at hcontent
        exact ⟨hsame.trans hparams, hcontent⟩

/-- Documents that are inserted into a new engine. -/
theorem exists_engineStates_new {files : List (ShardFiles F)} (hfiles : files ≠ []) (hnew : ∀ f ∈ files, f.IsNew)
    {maxRamMb : UInt32} (hframes : framesPerShard maxRamMb files.length < 2 ^ 31) {docs : List Document}
    (hsmall : ∀ updates ∈ routed files.length docs, SmallShard updates) :
    ∃ (engine : UnifiedEngine F) (states : List (UnifiedEngine F)),
      engineInit files maxRamMb = some (some engine) ∧ engineStates engine docs = some states ∧
      states.length = docs.length + 1 ∧ ∀ (count : ℕ) (state : UnifiedEngine F), states[count]? = some state →
        state.params = newEngineParams ∧
        List.Forall₂ EngineShard.HoldsAfter state.shards (routed files.length (docs.take count)) := by
  obtain ⟨engine, hinit, hholds, hparams, -⟩ := engineInit_new hfiles hnew hframes
  have hlength : engine.shards.length = files.length := hholds.length_eq.trans (List.length_map _)
  have hfresh : (files.map fun _ => ([] : List ShardUpdate)) = routed engine.shards.length [] := by
    rw [routed_nil, hlength, List.map_const']
  have hshards : engine.shards ≠ [] := by
    rw [← List.length_pos_iff, hlength]
    exact List.length_pos_of_ne_nil hfiles
  rw [hfresh] at hholds
  rw [← hlength] at hsmall ⊢
  obtain ⟨states, hstates, hcount, hall⟩ := @engineStates_routed F _ engine [] docs hshards hholds hsmall
  refine ⟨engine, states, hinit, hstates, hcount, fun count state hstate => ?_⟩
  obtain ⟨hsame, hcontent⟩ := hall count state hstate
  exact ⟨hsame.trans hparams, hcontent⟩

/-- The engine after all insertions. -/
theorem exists_engine_inserted {files : List (ShardFiles F)} (hfiles : files ≠ []) (hnew : ∀ f ∈ files, f.IsNew)
    {maxRamMb : UInt32} (hframes : framesPerShard maxRamMb files.length < 2 ^ 31) {docs : List Document}
    (hsmall : ∀ updates ∈ routed files.length docs, SmallShard updates) :
    ∃ (engine final : UnifiedEngine F) (states : List (UnifiedEngine F)),
      engineInit files maxRamMb = some (some engine) ∧ engineStates engine docs = some states ∧
      states.getLast? = some final ∧ final.params = newEngineParams ∧
      List.Forall₂ EngineShard.HoldsAfter final.shards (routed files.length docs) := by
  obtain ⟨engine, states, hinit, hstates, hcount, hall⟩ :=
    @exists_engineStates_new F _ _ hfiles hnew _ hframes _ hsmall
  have hlast : docs.length < states.length := by omega
  have hfinal : states[docs.length]? = some states[docs.length] := List.getElem?_eq_getElem hlast
  obtain ⟨hparams, hholds⟩ := hall _ _ hfinal
  rw [List.take_length] at hholds
  refine ⟨engine, states[docs.length], states, hinit, hstates, ?_, hparams, hholds⟩
  rw [List.getLast?_eq_getElem?, hcount, Nat.add_sub_cancel, hfinal]

/-- In a new engine every insertion returns 0 as long as all shards are small. At any time each document so far is
in exactly one shard, which its node id selects, and the parameters of the scores are those of the empty engine. -/
theorem engineStates_new {files : List (ShardFiles F)} (hfiles : files ≠ []) (hnew : ∀ f ∈ files, f.IsNew)
    {maxRamMb : UInt32} (hframes : framesPerShard maxRamMb files.length < 2 ^ 31) {docs : List Document}
    (hsmall : ∀ updates ∈ routed files.length docs, SmallShard updates) :
    ∃ (engine : UnifiedEngine F) (states : List (UnifiedEngine F)),
      engineInit files maxRamMb = some (some engine) ∧ engineStates engine docs = some states ∧
      states.length = docs.length + 1 ∧ ∀ (count : ℕ) (state : UnifiedEngine F), states[count]? = some state →
        state.params = newEngineParams ∧
        List.Forall₂ EngineShard.HoldsAfter state.shards (routed files.length (docs.take count)) ∧
        ((routed files.length (docs.take count)).flatMap insertedDocuments).Perm (docs.take count) := by
  obtain ⟨engine, states, hinit, hstates, hcount, hall⟩ :=
    @exists_engineStates_new F _ _ hfiles hnew _ hframes _ hsmall
  refine ⟨engine, states, hinit, hstates, hcount, fun count state hstate => ?_⟩
  obtain ⟨hparams, hholds⟩ := hall count state hstate
  exact ⟨hparams, hholds, flatMap_routed_perm (List.length_pos_of_ne_nil hfiles) _⟩

/-- The files of a new engine with two shards. -/
def twoNewShards : List (ShardFiles F) := [⟨Host.empty, 3, 4, none⟩, ⟨Host.empty, 5, 6, none⟩]

omit [Double F] in
/-- They are new. -/
theorem isNew_twoNewShards : ∀ f ∈ (twoNewShards : List (ShardFiles F)), f.IsNew := by
  intro f hf
  simp only [twoNewShards, List.mem_cons, List.not_mem_nil, or_false] at hf
  obtain rfl | rfl := hf <;> exact ⟨⟨rfl, rfl, rfl, rfl⟩, rfl, by simp, by simp, rfl⟩

/-- The files of a new engine with one shard. -/
def oneNewShard : List (ShardFiles F) := [⟨Host.empty, 3, 4, none⟩]

omit [Double F] in
/-- They are new. -/
theorem isNew_oneNewShard : ∀ f ∈ (oneNewShard : List (ShardFiles F)), f.IsNew :=
  fun f hf => isNew_twoNewShards f (List.mem_of_mem_head? (List.mem_singleton.mp hf ▸ rfl))

/-- Two documents of two nodes. -/
def twoDocuments : List Document := [.ofTerms 1 1 [7] (by decide), .ofTerms 2 3 [9, 7] (by decide)]

/-- Two documents go to two new shards. -/
theorem engineStates_new_two_shards : ∃ (engine : UnifiedEngine ℚ) (states : List (UnifiedEngine ℚ)),
    engineInit twoNewShards 0 = some (some engine) ∧ engineStates engine twoDocuments = some states ∧
      states.length = 3 ∧ ∀ (count : ℕ) (state : UnifiedEngine ℚ), states[count]? = some state →
        state.params = newEngineParams ∧
        List.Forall₂ EngineShard.HoldsAfter state.shards (routed 2 (twoDocuments.take count)) ∧
        ((routed 2 (twoDocuments.take count)).flatMap insertedDocuments).Perm (twoDocuments.take count) :=
  engineStates_new (List.cons_ne_nil _ _) isNew_twoNewShards (by decide) (smallShard_routed (by decide) (by decide))

end FtsUring
