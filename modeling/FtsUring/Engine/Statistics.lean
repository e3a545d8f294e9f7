import FtsUring.Engine.Engine

/-!
# Corpus statistics

The statistics that every score is computed with are summed over the shards when an engine is opened, and
at no other time. They are current in all states of a run exactly when nothing is inserted.
-/

namespace FtsUring

open Foundation

variable {F : Type}

/-! ## Counting documents -/

/-- The number of documents in two groups of shards. -/
theorem totalDocs_append (shards more : List (EngineShard F)) :
    totalDocs (shards ++ more) = totalDocs shards + totalDocs more := by
  have hfrom : ∀ (total : UInt64) (shards : List (EngineShard F)),
      shards.foldl (fun total s => total + s.shard.totalDocs.toUInt64) total =
        total + totalDocs shards := by
    intro total shards
    induction shards generalizing total with
    | nil => exact (UInt64.add_zero total).symm
    | cons s shards ih =>
      rw [totalDocs, List.foldl_cons, List.foldl_cons, ih, ih, UInt64.zero_add, UInt64.add_assoc]
  rw [totalDocs, List.foldl_append, hfrom]
  rfl

/-- One document more in a shard changes the number of documents. -/
theorem totalDocs_set_ne {shards : List (EngineShard F)} {index : ℕ} {s s' : EngineShard F}
    (hs : shards[index]? = some s) (hcount : s'.shard.totalDocs = s.shard.totalDocs + 1) :
    totalDocs (shards.set index s') ≠ totalDocs shards := by
  obtain ⟨hlt, hget⟩ := List.getElem?_eq_some_iff.mp hs
  have hold : shards = shards.take index ++ s :: shards.drop (index + 1) := by
    conv_lhs => rw [← List.take_append_drop index shards, List.drop_eq_getElem_cons hlt, hget]
  have hnew : shards.set index s' = shards.take index ++ s' :: shards.drop (index + 1) :=
    List.set_eq_take_append_cons_drop.trans (if_pos hlt)
  have hone : ∀ (first : EngineShard F) (rest : List (EngineShard F)),
      totalDocs (first :: rest) = first.shard.totalDocs.toUInt64 + totalDocs rest := by
    intro first rest
    have hsplit := totalDocs_append [first] rest
    rwa [List.singleton_append, totalDocs.eq_1 [first], List.foldl_cons, List.foldl_nil,
      UInt64.zero_add] at hsplit
  rw [hnew]
  conv_rhs => rw [hold]
  rw [totalDocs_append, totalDocs_append, hone, hone, hcount]
  intro heq
  have hsame := (UInt64.add_left_inj _).mp ((UInt64.add_right_inj _).mp heq)
  have hnat := congrArg UInt64.toNat hsame
  rw [UInt32.toNat_toUInt64, UInt32.toNat_toUInt64, UInt32.toNat_add] at hnat
  have hone : UInt32.toNat 1 = 1 := rfl
  have hlimit := s.shard.totalDocs.toNat_lt
  omega

variable [Double F]

/-! ## Current statistics -/

/-- The statistics of the engine are those of its shards. -/
structure StatisticsCurrent (engine : UnifiedEngine F) : Prop where
  totalDocs : engine.globalTotalDocs = totalDocs engine.shards
  avgdl : ∀ i : Fin maxFtsFields, engine.globalAvgdl.get i = averageDl engine.shards i

/-- Summing the statistics makes them current. -/
theorem statisticsCurrent_recompute (engine : UnifiedEngine F) :
    StatisticsCurrent (engineRecomputeGlobalStats engine) :=
  ⟨rfl, fun i => Vector.getElem_ofFn i.isLt⟩

/-- An engine is opened with current statistics. -/
theorem statisticsCurrent_engineInit {files : List (ShardFiles F)} {maxRamMb : UInt32}
    {engine : UnifiedEngine F} (h : engineInit files maxRamMb = some (some engine)) :
    StatisticsCurrent engine := by
  rw [engineInit] at h
  split_ifs at h
  obtain ⟨opened, -, hopened⟩ := Option.map_eq_some_iff.mp h
  obtain ⟨shards, -, rfl⟩ := Option.map_eq_some_iff.mp hopened
  exact statisticsCurrent_recompute _

/-! ## One insertion -/

/-- An insertion that returns 0 counts one document, whatever the storage answers. -/
theorem shardInsertDocument_counts (shard : Shard F) (doc : Document) :
    (shardInsertDocument shard doc).Yields fun result =>
      result.1 = true → result.2.totalDocs = shard.totalDocs + 1 := by
  have hindex : ∀ (started : Shard F) (docId : UInt32), started.totalDocs = shard.totalDocs →
      (shardIndexDocument started doc docId).Yields fun result =>
        result.1 = true → result.2.totalDocs = shard.totalDocs + 1 := by
    intro started docId hsame
    rw [shardIndexDocument]
    refine .bind _ fun page => .bind _ fun _ => .bind _ fun _ => .bind _ fun _ => .pure ?_
    intro _
    rw [Shard.countDocument, hsame]
  rw [shardInsertDocument]
  refine .bind _ fun _ => .bind _ fun fetched => ?_
  split_ifs
  · exact .pure fun h => absurd h Bool.false_ne_true
  refine .bind _ fun page => ?_
  split_ifs
  · exact .bind _ fun _ => hindex _ _ rfl
  refine .bind _ fun _ => .bind _ fun newPageId => .bind _ fun written => ?_
  split_ifs
  · exact .pure fun h => absurd h Bool.false_ne_true
  refine .bind _ fun refetched => ?_
  split_ifs
  · exact .pure fun h => absurd h Bool.false_ne_true
  · exact .bind _ fun _ => .bind _ fun _ => hindex _ _ rfl

/-- After an insertion the statistics are not current. -/
theorem not_statisticsCurrent_insert {engine next : UnifiedEngine F} {doc : Document}
    (hcurrent : StatisticsCurrent engine) (hinsert : engineInsertDocument engine doc = some (true, next)) :
    ¬StatisticsCurrent next := by
  rw [engineInsertDocument] at hinsert
  dsimp only at hinsert
  split at hinsert
  · exact absurd hinsert nofun
  next s hs =>
    obtain ⟨⟨⟨ok, shard⟩, machine⟩, hexec, hnext⟩ := Option.map_eq_some_iff.mp hinsert
    rw [Prod.mk.injEq] at hnext
    obtain ⟨rfl, rfl⟩ := hnext
    have hcount : shard.totalDocs = s.shard.totalDocs + 1 :=
      (shardInsertDocument_counts s.shard doc).exec hexec rfl
    intro hnext
    have hset := @totalDocs_set_ne F engine.shards _ s ⟨shard, machine⟩ hs hcount
    exact hset (hnext.totalDocs.symm.trans hcurrent.totalDocs)

/-! ## Runs -/

/-- The statistics are current in all states of a run exactly when nothing is inserted. -/
theorem statisticsCurrent_iff {files : List (ShardFiles F)} {maxRamMb : UInt32}
    {engine : UnifiedEngine F} (hinit : engineInit files maxRamMb = some (some engine))
    {docs : List Document} {states : List (UnifiedEngine F)}
    (hrun : engineStates engine docs = some states) :
    (∀ state ∈ states, StatisticsCurrent state) ↔ docs = [] := by
  have hstart := statisticsCurrent_engineInit hinit
  cases docs with
  | nil =>
    rw [engineStates, Option.some.injEq] at hrun
    subst hrun
    refine ⟨fun _ => rfl, fun _ state hstate => ?_⟩
    rwa [List.mem_singleton.mp hstate]
  | cons doc docs =>
    refine iff_of_false (fun hall => ?_) (List.cons_ne_nil _ _)
    rw [engineStates] at hrun
    obtain ⟨⟨ok, next⟩, hinsert, hrest⟩ := Option.bind_eq_some_iff.mp hrun
    dsimp only at hrest
    split_ifs at hrest with hok
    obtain ⟨later, hlater, rfl⟩ := Option.map_eq_some_iff.mp hrest
    subst hok
    have hnext : next ∈ later := by
      cases docs with
      | nil =>
        rw [engineStates, Option.some.injEq] at hlater
        exact hlater ▸ List.mem_cons_self
      | cons doc docs =>
        rw [engineStates] at hlater
        obtain ⟨⟨ok, following⟩, -, hfollowing⟩ := Option.bind_eq_some_iff.mp hlater
        dsimp only at hfollowing
        split_ifs at hfollowing
        obtain ⟨others, -, rfl⟩ := Option.map_eq_some_iff.mp hfollowing
        exact List.mem_cons_self
    exact not_statisticsCurrent_insert hstart hinsert (hall next (List.mem_cons_of_mem _ hnext))

/-! ## A new engine -/

/-- The files of an engine with one shard before it is opened for the first time. -/
def newEngineFiles : List (ShardFiles F) := [⟨Host.empty, 0, 3, none⟩]

/-- A document is inserted into a new engine. -/
theorem exists_engineStates (doc : Document)
    (hfits : (ShardView.fresh.insertDocument doc).nextPageId ≤ invalidPageId) :
    ∃ engine next : UnifiedEngine F, engineInit newEngineFiles 0 = some (some engine) ∧
      engineInsertDocument engine doc = some (true, next) := by
  obtain ⟨s, hs, hinit⟩ := @exec_shardInit_fresh F _ Host.empty ⟨rfl, rfl, rfl, rfl⟩ rfl ⟨3, 0⟩
  obtain ⟨machine, hopen, hmachine⟩ := hinit 0 1024 0 (le_refl 0) (by decide) (by decide) (by decide)
  obtain ⟨result, t, hinsert, rfl, -⟩ :=
    hs.ensures_insertDocument (Shard.matches_initial (F := F)) doc hfits
  obtain ⟨machine', hexec, -⟩ := poolHandler_simulates.exec hmachine hinsert
  have hwal : walInit Host.empty 3 = (0, ⟨3, 0⟩) := rfl
  have hframes : framesPerShard 0 1 = 1024 := by decide
  have hshard : openShard ⟨Host.empty, 0, 3, (none : Option (ShardMetadata F))⟩ 1024 =
      some (some ⟨Shard.initial, machine⟩) := by
    have hopen' : poolHandler.exec (shardInit Host.empty.dataFile.length
        (none : Option (ShardMetadata F))) (newMachine 0 ⟨3, 0⟩ Host.empty 1024 0) =
          some (some Shard.initial, machine) := hopen
    rw [openShard]
    dsimp only
    rw [if_neg (lt_irrefl 0), hwal]
    dsimp only
    rw [if_neg fun h => h rfl, hopen']
    rfl
  have hopened : ∃ engine : UnifiedEngine F, engineInit newEngineFiles 0 = some (some engine) ∧
      engine.shards = [⟨Shard.initial, machine⟩] := by
    rw [engineInit, newEngineFiles, List.length_singleton, if_neg Nat.one_ne_zero, hframes, openShards,
      hshard]
    exact ⟨_, rfl, rfl⟩
  obtain ⟨engine, hengine, hshards⟩ := hopened
  have hindex : shardIndex doc.nodeId 1 = 0 := Nat.mod_one _
  have hinserted : ∃ next, engineInsertDocument engine doc = some (true, next) := by
    rw [engineInsertDocument, hshards, List.length_singleton]
    dsimp only
    rw [hindex, List.getElem?_cons_zero]
    dsimp only
    rw [hexec]
    exact ⟨_, rfl⟩
  obtain ⟨next, hnext⟩ := hinserted
  exact ⟨engine, next, hengine, hnext⟩

/-- One document in an engine with one shard. -/
theorem statisticsCurrent_iff_one_document : ∃ engine next : UnifiedEngine ℚ,
    engineInit newEngineFiles 0 = some (some engine) ∧
      ((∀ state ∈ [engine, next], StatisticsCurrent state) ↔
        [Document.ofTerms 1 1 [] (by decide)] = []) := by
  obtain ⟨engine, next, hinit, hinsert⟩ :=
    exists_engineStates (F := ℚ) (.ofTerms 1 1 [] (by decide)) (by decide)
  have hrun : engineStates engine [.ofTerms 1 1 [] (by decide)] = some [engine, next] := by
    rw [engineStates, hinsert]
    rfl
  exact ⟨engine, next, hinit, statisticsCurrent_iff hinit hrun⟩

/-- After the first document the statistics of a new engine still say that there is none. -/
theorem exists_not_statisticsCurrent : ∃ engine next : UnifiedEngine ℚ,
    engineInit newEngineFiles 0 = some (some engine) ∧
      engineStates engine [.ofTerms 1 1 [] (by decide)] = some [engine, next] ∧
        ¬StatisticsCurrent next := by
  obtain ⟨engine, next, hinit, hinsert⟩ :=
    exists_engineStates (F := ℚ) (.ofTerms 1 1 [] (by decide)) (by decide)
  refine ⟨engine, next, hinit, ?_, ?_⟩
  · rw [engineStates, hinsert]
    rfl
  · exact not_statisticsCurrent_insert (statisticsCurrent_engineInit hinit) hinsert

end FtsUring
