import FtsUring.Bridge.Registry
import Mathlib.Tactic

/-!
# Open engines

An engine is closed and freed when its last table is disconnected and at no other time, and the global engine
is never a freed one. Tables with the same path share an engine as long as the path that an engine keeps is
its whole path and the engine has a slot.
-/

namespace FtsUring

/-- The number of tables of an engine. -/
def Bridge.tableCount (b : Bridge) (engine : Address) : ℕ := b.tables.countP fun table => table.engine = engine

/-- The invariant of the bridge. -/
structure Bridge.Sound (b : Bridge) : Prop where
  /-- An engine is open while a table of it is connected. -/
  opened : ∀ engine, (b.memory engine).isSome ↔ 0 < b.tableCount engine
  /-- Engines in slots are open. -/
  live : ∀ i engine, b.Tracks i engine → (b.memory engine).isSome
  /-- An engine has one slot. -/
  distinct : ∀ i j engine, b.Tracks i engine → b.Tracks j engine → i = j
  /-- The count in a slot is the number of tables. -/
  counted : ∀ i engine, b.Tracks i engine → (b.gActiveEngines i).refCount.toInt = b.tableCount engine
  /-- An engine without a slot has one table. -/
  untracked : ∀ engine, (b.memory engine).isSome → (∀ i, ¬b.Tracks i engine) → b.tableCount engine = 1
  /-- The global engine is open. -/
  current : ∀ engine, b.gEngine = some engine → (b.memory engine).isSome
  /-- An engine keeps 255 characters of its path. -/
  basePath : ∀ engine opened, b.memory engine = some opened → opened.basePath = opened.directory.take 255
  /-- A table and its engine agree on these characters. -/
  paths : ∀ table ∈ b.tables, ∀ opened, b.memory table.engine = some opened →
    (connectPath table.argument).take 255 = opened.basePath
  /-- Before the slot of a table with a short path there is no engine of this path. -/
  first : ∀ table ∈ b.tables, (connectPath table.argument).length ≤ 255 → ∀ i j engine opened,
    b.Tracks i table.engine → b.Tracks j engine → b.memory engine = some opened →
      opened.directory = connectPath table.argument → i ≤ j

namespace Bridge

variable {b b' : Bridge}

/-- Nothing is connected. -/
theorem sound_start : Bridge.start.Sound where
  opened _ := by simp [start, tableCount]
  live := nofun
  distinct := nofun
  counted := nofun
  untracked := nofun
  current := nofun
  basePath := nofun
  paths := nofun
  first := nofun

/-- Counting one more without overflow. -/
theorem toInt_add_one {count : Int32} (h : count ≠ Int32.maxValue) : (count + 1).toInt = count.toInt + 1 := by
  have hlt : count.toInt < 2 ^ 31 - 1 := by
    refine lt_of_le_of_ne count.toInt_le fun heq => h (Int32.toInt_inj.mp heq)
  have hge := count.le_toInt
  rw [Int32.toInt_add, Int32.toInt_one, Int.bmod_eq_of_le] <;> omega

/-- Counting one less. -/
theorem toInt_sub_one {count : Int32} (h : 0 < count.toInt) : (count - 1).toInt = count.toInt - 1 := by
  have hlt := count.toInt_lt
  rw [Int32.toInt_sub, Int32.toInt_one, Int.bmod_eq_of_le] <;> omega

/-! ## Free memory and slots -/

/-- No table has an engine that is not open. -/
theorem Sound.tableCount_eq_zero (h : b.Sound) {engine : Address} (hfresh : b.memory engine = none) :
    b.tableCount engine = 0 := by
  by_contra hsome
  have hopen := (h.opened engine).mpr (Nat.pos_of_ne_zero hsome)
  rw [hfresh] at hopen
  exact absurd hopen nofun

/-- A table of a freed engine is not connected. -/
theorem Sound.engine_ne (h : b.Sound) {newEngine : Address} (hfresh : b.memory newEngine = none)
    {table : FtsUringVtab} (htable : table ∈ b.tables) : table.engine ≠ newEngine := by
  intro heq
  have hpositive : 0 < b.tableCount newEngine := List.countP_pos_iff.mpr ⟨table, htable, decide_eq_true heq⟩
  rw [h.tableCount_eq_zero hfresh] at hpositive
  exact absurd hpositive (lt_irrefl 0)

/-- The engine of a slot is not in free memory. -/
theorem Sound.ne_of_tracks (h : b.Sound) {engine : Address} (hfresh : b.memory engine = none)
    {i : Fin maxActiveEngines} {other : Address} (hi : b.Tracks i other) : other ≠ engine := by
  intro heq
  have hopen := h.live i other hi
  rw [heq, hfresh] at hopen
  exact absurd hopen nofun

/-- The engine of an open slot. -/
theorem slotPath_eq {i : Fin maxActiveEngines} {engine : Address} {opened : OpenEngine}
    (hi : b.Tracks i engine) (hopened : b.memory engine = some opened) :
    b.slotPath i = some opened.basePath := by
  rw [slotPath, show (b.gActiveEngines i).engine = some engine from hi, Option.bind_some, hopened]
  rfl

/-- A slot has the path for which its engine was opened if this path is short. -/
theorem Sound.slotPath_of_directory (h : b.Sound) {i : Fin maxActiveEngines} {engine : Address}
    {opened : OpenEngine} (hi : b.Tracks i engine) (hopened : b.memory engine = some opened)
    (hshort : opened.directory.length ≤ 255) : b.slotPath i = some opened.directory := by
  rw [slotPath_eq hi hopened, h.basePath engine opened hopened, List.take_of_length_le hshort]

/-- A slot of a table with a short path has this path. -/
theorem Sound.slotPath_of_table (h : b.Sound) {i : Fin maxActiveEngines} {table : FtsUringVtab}
    (htable : table ∈ b.tables) (hi : b.Tracks i table.engine)
    (hshort : (connectPath table.argument).length ≤ 255) : b.slotPath i = some (connectPath table.argument) := by
  obtain ⟨opened, hopened⟩ := Option.isSome_iff_exists.mp (h.live i _ hi)
  rw [slotPath_eq hi hopened, ← h.paths table htable opened hopened, List.take_of_length_le hshort]

/-! ## Connecting -/

/-- One table more. -/
theorem tableCount_addTable (b : Bridge) (engine : Address) (argument : Option CString) (other : Address) :
    (b.addTable engine argument).tableCount other =
      b.tableCount other + if engine = other then 1 else 0 := by
  rw [tableCount, addTable, List.countP_cons]
  by_cases h : engine = other <;> simp [h, tableCount]

/-- Connecting a table to an engine that is open. -/
theorem Sound.share (h : b.Sound) {i : Fin maxActiveEngines} {engine : Address}
    {argument : Option CString} (hi : b.Tracks i engine)
    (hpath : b.slotPath i = some (connectPath argument))
    (hearlier : ∀ j < i, b.slotPath j ≠ some (connectPath argument))
    (hroom : (b.gActiveEngines i).refCount ≠ Int32.maxValue) :
    ((b.shareEngine i engine).addTable engine argument).Sound := by
  set next := (b.shareEngine i engine).addTable engine argument with hnext
  have htracks : ∀ j other, next.Tracks j other ↔ b.Tracks j other := by
    intro j other
    change (Function.update b.gActiveEngines i _ j).engine = some other ↔ _
    by_cases hj : j = i
    · subst hj
      rw [Function.update_self, Tracks, show (b.gActiveEngines j).engine = some engine from hi]
    · rw [Function.update_of_ne hj, Tracks]
  have hcount : ∀ other, next.tableCount other =
      b.tableCount other + if engine = other then 1 else 0 :=
    tableCount_addTable (b.shareEngine i engine) engine argument
  have hmemory : next.memory = b.memory := rfl
  have hopen : (b.memory engine).isSome := h.live i engine hi
  constructor
  case opened =>
    intro other
    rw [hcount, hmemory, h.opened]
    split_ifs with hsame
    · subst hsame
      have := (h.opened engine).mp hopen
      omega
    · rw [Nat.add_zero]
  case live => exact fun j other hj => h.live j other ((htracks j other).mp hj)
  case distinct =>
    exact fun j k other hj hk => h.distinct j k other ((htracks j other).mp hj) ((htracks k other).mp hk)
  case counted =>
    intro j other hj
    have hold := (htracks j other).mp hj
    rw [hcount]
    change (Function.update b.gActiveEngines i _ j).refCount.toInt = _
    by_cases hsame : j = i
    · subst hsame
      obtain rfl : engine = other := Option.some.inj (hi.symm.trans hold)
      rw [Function.update_self, if_pos rfl, toInt_add_one hroom, h.counted j engine hi]
      push_cast
      rfl
    · have hne : engine ≠ other := by
        rintro rfl
        exact hsame (h.distinct j i engine hold hi)
      rw [Function.update_of_ne hsame, if_neg hne, h.counted j other hold, Nat.add_zero]
  case untracked =>
    intro other hother hno
    have hne : engine ≠ other := by
      rintro rfl
      exact hno i ((htracks i engine).mpr hi)
    rw [hcount, if_neg hne, Nat.add_zero]
    exact h.untracked other hother fun j hj => hno j ((htracks j other).mpr hj)
  case current =>
    intro other hother
    obtain rfl := Option.some.inj hother
    exact hopen
  case basePath => exact h.basePath
  case paths =>
    intro table htable opened hopened
    obtain rfl | htable := List.mem_cons.mp htable
    · have hsame := Option.some.inj ((slotPath_eq hi hopened).symm.trans hpath)
      rw [← hsame, h.basePath engine opened hopened, List.take_take, min_self]
    · exact h.paths table htable opened hopened
  case first =>
    intro table htable hshort j k other opened hj hk hopened hdirectory
    rw [htracks] at hj hk
    obtain rfl | htable := List.mem_cons.mp htable
    · obtain rfl := h.distinct j i engine hj hi
      by_contra hlt
      refine hearlier k (not_le.mp hlt) ?_
      rw [h.slotPath_of_directory hk hopened (hdirectory ▸ hshort), hdirectory]
    · exact h.first table htable hshort j k other opened hj hk hopened hdirectory

/-- The slots after an engine was opened: it may have one. -/
theorem exists_tracks_openEngine (b : Bridge) (path : CString) (engine : Address) :
    ∃ slot : Option (Fin maxActiveEngines), (∀ i ∈ slot, (b.gActiveEngines i).engine = none) ∧
      (∀ i ∈ slot, ((b.openEngine path engine).gActiveEngines i).refCount = 1) ∧
      (∀ j, j ∉ slot → (b.openEngine path engine).gActiveEngines j = b.gActiveEngines j) ∧
      ∀ j other, (b.openEngine path engine).Tracks j other ↔
        b.Tracks j other ∨ j ∈ slot ∧ other = engine := by
  cases hfree : b.freeSlot with
  | none =>
    have hsame : (b.openEngine path engine).gActiveEngines = b.gActiveEngines := by
      rw [openEngine, hfree]
      rfl
    refine ⟨none, by simp, by simp, fun j _ => by rw [hsame], fun j other => ?_⟩
    rw [Tracks, hsame]
    exact ⟨.inl, fun h => h.elim id fun hnone => by simpa using hnone.1⟩
  | some i =>
    have hslots : (b.openEngine path engine).gActiveEngines =
        Function.update b.gActiveEngines i ⟨some engine, 1⟩ := by
      rw [openEngine, hfree]
      rfl
    have hi : (b.gActiveEngines i).engine = none := by
      simpa using List.find?_some hfree
    refine ⟨some i, fun j hj => ?_, fun j hj => ?_, fun j hj => ?_, fun j other => ?_⟩
    · rwa [← Option.some.inj hj]
    · rw [← Option.some.inj hj, hslots, Function.update_self]
    · rw [hslots, Function.update_of_ne fun heq => hj (congrArg some heq.symm)]
    · rw [Tracks, hslots]
      by_cases hj : j = i
      · subst hj
        rw [Function.update_self, Tracks, hi]
        constructor
        · exact fun h => .inr ⟨rfl, (Option.some.inj h).symm⟩
        · rintro (hnone | ⟨-, rfl⟩)
          · cases hnone
          · rfl
      · rw [Function.update_of_ne hj]
        exact ⟨.inl, fun h => h.elim id fun hsome => absurd (Option.some.inj hsome.1).symm hj⟩

/-- Opening an engine changes the other globals in one way. -/
theorem openEngine_memory (b : Bridge) (path : CString) (engine : Address) :
    (b.openEngine path engine).memory = Function.update b.memory engine (some (engineAt path)) ∧
      (b.openEngine path engine).gEngine = some engine ∧ (b.openEngine path engine).tables = b.tables ∧
      (b.openEngine path engine).actions = b.actions ++ [.init engine path] := by
  rw [openEngine]
  cases b.freeSlot <;> exact ⟨rfl, rfl, rfl, rfl⟩

/-- Connecting a table for which an engine is opened. -/
theorem Sound.openEngine (h : b.Sound) {engine : Address} {argument : Option CString}
    (hfresh : b.memory engine = none) (hnowhere : ∀ i, b.slotPath i ≠ some (connectPath argument)) :
    ((b.openEngine (connectPath argument) engine).addTable engine argument).Sound := by
  obtain ⟨slot, hempty, hone, hsame, htracks⟩ :=
    exists_tracks_openEngine b (connectPath argument) engine
  obtain ⟨hmemory, hcurrent, htables, -⟩ := openEngine_memory b (connectPath argument) engine
  set opened := b.openEngine (connectPath argument) engine
  have hcount : ∀ other, (opened.addTable engine argument).tableCount other =
      b.tableCount other + if engine = other then 1 else 0 := by
    intro other
    rw [tableCount_addTable, tableCount, htables, tableCount]
  have hnone : b.tableCount engine = 0 := h.tableCount_eq_zero hfresh
  have huntracked : ∀ i, ¬b.Tracks i engine := fun i hi => h.ne_of_tracks hfresh hi rfl
  have hnew : opened.memory engine = some (engineAt (connectPath argument)) := by
    rw [hmemory, Function.update_self]
  have hold : ∀ other, other ≠ engine → opened.memory other = b.memory other := by
    intro other hne
    rw [hmemory, Function.update_of_ne hne]
  constructor
  case opened =>
    intro other
    change (opened.memory other).isSome ↔ _
    rw [hcount]
    by_cases heq : engine = other
    · rw [← heq, hnew, if_pos rfl]
      simp
    · rw [hold other (Ne.symm heq), if_neg heq, Nat.add_zero]
      exact h.opened other
  case live =>
    intro j other hj
    change (opened.memory other).isSome
    obtain hj | ⟨-, rfl⟩ := (htracks j other).mp hj
    · rw [hold other (h.ne_of_tracks hfresh hj)]
      exact h.live j other hj
    · rw [hnew]
      rfl
  case distinct =>
    intro j k other hj hk
    obtain hj | ⟨hin, heq⟩ := (htracks j other).mp hj
    · obtain hk | ⟨-, heq⟩ := (htracks k other).mp hk
      · exact h.distinct j k other hj hk
      · exact absurd (heq ▸ hj) (huntracked j)
    · obtain hk | ⟨hin', -⟩ := (htracks k other).mp hk
      · exact absurd (heq ▸ hk) (huntracked k)
      · exact Option.some.inj (hin.symm.trans hin')
  case counted =>
    intro j other hj
    change (opened.gActiveEngines j).refCount.toInt = _
    rw [hcount]
    obtain hj | ⟨hin, heq⟩ := (htracks j other).mp hj
    · have hslot : j ∉ slot := by
        intro hin
        exact absurd ((hempty j hin).symm.trans hj) nofun
      rw [hsame j hslot, if_neg (h.ne_of_tracks hfresh hj).symm, Nat.add_zero]
      exact h.counted j other hj
    · rw [hone j hin, heq, hnone, if_pos rfl]
      rfl
  case untracked =>
    intro other hother hno
    rw [hcount]
    by_cases heq : engine = other
    · rw [← heq, hnone, if_pos rfl]
    · rw [if_neg heq, Nat.add_zero]
      have hother : (opened.memory other).isSome := hother
      rw [hold other (Ne.symm heq)] at hother
      exact h.untracked other hother fun j hj => hno j ((htracks j other).mpr (.inl hj))
  case current =>
    intro other hother
    obtain rfl : engine = other := Option.some.inj (hcurrent.symm.trans hother)
    change (opened.memory engine).isSome
    rw [hnew]
    rfl
  case basePath =>
    intro other kept hkept
    have hkept : opened.memory other = some kept := hkept
    by_cases heq : other = engine
    · rw [heq, hnew, Option.some.injEq] at hkept
      rw [← hkept]
      rfl
    · rw [hold other heq] at hkept
      exact h.basePath other kept hkept
  case paths =>
    intro table htable kept hkept
    have hkept : opened.memory table.engine = some kept := hkept
    obtain rfl | htable := List.mem_cons.mp htable
    · rw [hnew, Option.some.injEq] at hkept
      rw [← hkept]
      rfl
    · rw [htables] at htable
      rw [hold _ (h.engine_ne hfresh htable)] at hkept
      exact h.paths table htable kept hkept
  case first =>
    intro table htable hshort j k other kept hj hk hkept hdirectory
    have hkept : opened.memory other = some kept := hkept
    obtain rfl | htable := List.mem_cons.mp htable
    · obtain hk | ⟨hk, -⟩ := (htracks k other).mp hk
      · rw [hold other (h.ne_of_tracks hfresh hk)] at hkept
        refine absurd ?_ (hnowhere k)
        rw [h.slotPath_of_directory hk hkept (hdirectory ▸ hshort), hdirectory]
      · obtain hj | ⟨hj, -⟩ := (htracks j engine).mp hj
        · exact absurd hj (huntracked j)
        · exact (Option.some.inj (hj.symm.trans hk)).le
    · rw [htables] at htable
      obtain hj | ⟨-, heq⟩ := (htracks j table.engine).mp hj
      · obtain hk | ⟨-, heq⟩ := (htracks k other).mp hk
        · rw [hold other (h.ne_of_tracks hfresh hk)] at hkept
          exact h.first table htable hshort j k other kept hj hk hkept hdirectory
        · -- the engine of the table has the same path, so the new one would not have been opened
          rw [heq, hnew, Option.some.injEq] at hkept
          have hpath : connectPath argument = connectPath table.argument :=
            (congrArg OpenEngine.directory hkept).trans hdirectory
          refine absurd ?_ (hnowhere j)
          rw [hpath]
          exact h.slotPath_of_table htable hj hshort
      · exact absurd heq (h.engine_ne hfresh htable)

/-! ## Disconnecting -/

/-- An engine was closed and freed, and its slot is free. -/
structure Releases (b b' : Bridge) (engine : Address) : Prop where
  memory : b'.memory = Function.update b.memory engine none
  tracks : ∀ i other, b'.Tracks i other ↔ b.Tracks i other ∧ other ≠ engine
  refCount : ∀ i other, b'.Tracks i other → (b'.gActiveEngines i).refCount = (b.gActiveEngines i).refCount
  current : ∀ other, b'.gEngine = some other →
    b.gEngine = some other ∧ other ≠ engine ∨ ∃ i, b'.Tracks i other
  actions : b'.actions = b.actions ++ [.close engine, .free engine]

/-- An engine has one table less. -/
structure Uncounts (b b' : Bridge) (engine : Address) : Prop where
  memory : b'.memory = b.memory
  tracks : ∀ i other, b'.Tracks i other ↔ b.Tracks i other
  refCount : ∀ i other, b'.Tracks i other → (b'.gActiveEngines i).refCount =
    (b.gActiveEngines i).refCount - if engine = other then 1 else 0
  current : b'.gEngine = b.gEngine
  actions : b'.actions = b.actions

/-- The first engine that has a slot has one. -/
theorem exists_tracks_firstActive {engine : Address} (h : b.firstActive = some engine) :
    ∃ i, b.Tracks i engine := by
  obtain ⟨i, -, hi⟩ := List.exists_of_findSome?_eq_some h
  exact ⟨i, hi⟩

/-- Releasing an engine with its slot. -/
theorem releases_releaseSlot {i : Fin maxActiveEngines} {engine : Address}
    (hopen : (b.memory engine).isSome) (hi : b.Tracks i engine) (hdistinct : ∀ j, b.Tracks j engine → j = i) :
    ∃ b', b.releaseSlot i engine = some b' ∧ b'.tables = b.tables ∧ b.Releases b' engine := by
  obtain ⟨opened, hopened⟩ := Option.isSome_iff_exists.mp hopen
  set freed : Bridge := { b with
    gActiveEngines := Function.update b.gActiveEngines i ⟨none, 0⟩
    memory := Function.update b.memory engine none
    actions := b.actions ++ [.close engine, .free engine] } with hfreed
  have hrun : b.releaseSlot i engine = some (freed.replaceCurrent engine) := by
    simp [releaseSlot, engineClose, sqlite3Free, setSlot, hopened, hfreed]
  have htracks : ∀ j other, freed.Tracks j other ↔ b.Tracks j other ∧ other ≠ engine := by
    intro j other
    change (Function.update b.gActiveEngines i ⟨none, 0⟩ j).engine = some other ↔ _
    by_cases hj : j = i
    · subst hj
      rw [Function.update_self]
      constructor
      · exact nofun
      · rintro ⟨hother, hne⟩
        exact absurd (Option.some.inj (hother.symm.trans hi)) hne
    · rw [Function.update_of_ne hj]
      refine ⟨fun hother => ⟨hother, ?_⟩, fun h => h.1⟩
      rintro rfl
      exact hj (hdistinct j hother)
  have hcount : ∀ j other, freed.Tracks j other →
      (freed.gActiveEngines j).refCount = (b.gActiveEngines j).refCount := by
    intro j other hother
    have hj : j ≠ i := by
      rintro rfl
      obtain ⟨hother, hne⟩ := (htracks j other).mp hother
      exact hne (Option.some.inj (hother.symm.trans hi))
    change (Function.update b.gActiveEngines i ⟨none, 0⟩ j).refCount = _
    rw [Function.update_of_ne hj]
  refine ⟨_, hrun, ?_⟩
  rw [replaceCurrent]
  split_ifs with hcurrent
  · exact ⟨rfl, rfl, htracks, hcount, fun other hother => .inr (exists_tracks_firstActive hother), rfl⟩
  · refine ⟨rfl, rfl, htracks, hcount, fun other hother => .inl ⟨hother, ?_⟩, rfl⟩
    rintro rfl
    exact hcurrent hother

/-- Releasing an engine without a slot. -/
theorem releases_releaseUntracked {engine : Address} (hopen : (b.memory engine).isSome)
    (hno : ∀ i, ¬b.Tracks i engine) :
    ∃ b', b.releaseUntracked engine = some b' ∧ b'.tables = b.tables ∧ b.Releases b' engine := by
  obtain ⟨opened, hopened⟩ := Option.isSome_iff_exists.mp hopen
  set freed : Bridge := { b with
    gEngine := if b.gEngine = some engine then none else b.gEngine
    memory := Function.update b.memory engine none
    actions := b.actions ++ [.close engine, .free engine] }
  have hrun : b.releaseUntracked engine = some freed := by
    rw [releaseUntracked, engineClose, hopened, Option.map_some, Option.bind_some, dropCurrent]
    by_cases hcurrent : b.gEngine = some engine
    · simp [sqlite3Free, hopened, freed, hcurrent]
    · simp [sqlite3Free, hopened, freed, hcurrent]
  refine ⟨_, hrun, rfl, rfl, fun i other => ⟨fun h => ⟨h, ?_⟩, fun h => h.1⟩, fun _ _ _ => rfl,
    fun other hother => .inl ?_, rfl⟩
  · rintro rfl
    exact hno i h
  · change (if b.gEngine = some engine then none else b.gEngine) = some other at hother
    split_ifs at hother with hcurrent
    refine ⟨hother, ?_⟩
    rintro rfl
    exact hcurrent hother

/-- Releasing an engine: it is freed when it has one table. -/
theorem Sound.exists_releaseEngine (h : b.Sound) {table : FtsUringVtab} (htable : table ∈ b.tables) :
    ∃ b', b.releaseEngine table.engine = some b' ∧ b'.tables = b.tables ∧
      (b.tableCount table.engine = 1 ∧ b.Releases b' table.engine ∨
        1 < b.tableCount table.engine ∧ b.Uncounts b' table.engine) := by
  have hpositive : 0 < b.tableCount table.engine :=
    List.countP_pos_iff.mpr ⟨table, htable, by simp⟩
  have hopen := (h.opened table.engine).mpr hpositive
  by_cases htracked : ∃ i, b.Tracks i table.engine
  · obtain ⟨i, hi⟩ := htracked
    have hdistinct : ∀ j, b.Tracks j table.engine → j = i := fun j hj => h.distinct j i _ hj hi
    rw [releaseEngine, slotOf_eq hi hdistinct]
    dsimp only
    have hcounted := h.counted i _ hi
    have hless := toInt_sub_one (show 0 < (b.gActiveEngines i).refCount.toInt by omega)
    split_ifs with hlast
    · obtain ⟨b', hrun, htables, hreleases⟩ := releases_releaseSlot hopen hi hdistinct
      rw [Int32.le_iff_toInt_le, hless, Int32.toInt_zero] at hlast
      exact ⟨b', hrun, htables, .inl ⟨by omega, hreleases⟩⟩
    · rw [Int32.le_iff_toInt_le, hless, Int32.toInt_zero] at hlast
      refine ⟨_, rfl, rfl, .inr ⟨by omega, rfl, fun j other => ?_, fun j other hother => ?_, rfl, rfl⟩⟩
      · change (Function.update b.gActiveEngines i _ j).engine = some other ↔ _
        by_cases hj : j = i
        · rw [hj, Function.update_self, Tracks, show (b.gActiveEngines i).engine = some table.engine from hi]
        · rw [Function.update_of_ne hj, Tracks]
      · change (Function.update b.gActiveEngines i _ j).engine = some other at hother
        change (Function.update b.gActiveEngines i _ j).refCount = _
        by_cases hj : j = i
        · subst hj
          rw [Function.update_self] at hother ⊢
          rw [if_pos (Option.some.inj hother)]
        · rw [Function.update_of_ne hj] at hother ⊢
          have hne : table.engine ≠ other := by
            rintro rfl
            exact hj (hdistinct j hother)
          rw [if_neg hne, Int32.sub_zero]
  · rw [not_exists] at htracked
    rw [releaseEngine, slotOf_eq_none htracked]
    obtain ⟨b', hrun, htables, hreleases⟩ := releases_releaseUntracked hopen htracked
    exact ⟨b', hrun, htables, .inl ⟨h.untracked _ hopen htracked, hreleases⟩⟩

/-- One table less. -/
theorem tableCount_erase {table : FtsUringVtab} (htable : table ∈ b.tables)
    (htables : b'.tables = b.tables.erase table) (engine : Address) :
    b'.tableCount engine = b.tableCount engine - if table.engine = engine then 1 else 0 := by
  rw [tableCount, htables, List.countP_erase, tableCount]
  by_cases h : table.engine = engine <;> simp [h, htable]

/-- Disconnecting the last table of an engine. -/
theorem Sound.release (h : b.Sound) {table : FtsUringVtab} (htable : table ∈ b.tables)
    (hlast : b.tableCount table.engine = 1) (hreleases : b.Releases b' table.engine)
    (htables : b'.tables = b.tables.erase table) : b'.Sound := by
  have hcount := tableCount_erase htable htables
  have hmemory : ∀ engine, engine ≠ table.engine → b'.memory engine = b.memory engine := by
    intro engine hne
    rw [hreleases.memory, Function.update_of_ne hne]
  have hfreed : b'.memory table.engine = none := by rw [hreleases.memory, Function.update_self]
  have hne : ∀ engine, (b'.memory engine).isSome → engine ≠ table.engine := by
    rintro engine hopen rfl
    rw [hfreed] at hopen
    exact absurd hopen nofun
  have hmem : ∀ other ∈ b'.tables, other ∈ b.tables := fun other hother =>
    List.mem_of_mem_erase (htables ▸ hother)
  have hlive : ∀ i engine, b'.Tracks i engine → (b'.memory engine).isSome := by
    intro i engine hi
    obtain ⟨hi, hother⟩ := (hreleases.tracks i engine).mp hi
    rw [hmemory engine hother]
    exact h.live i engine hi
  constructor
  case opened =>
    intro engine
    rw [hcount]
    by_cases hsame : table.engine = engine
    · rw [← hsame, hfreed, hlast, if_pos rfl]
      simp
    · rw [if_neg hsame, hmemory engine (Ne.symm hsame)]
      exact h.opened engine
  case live => exact hlive
  case distinct =>
    intro i j engine hi hj
    exact h.distinct i j engine ((hreleases.tracks i engine).mp hi).1 ((hreleases.tracks j engine).mp hj).1
  case counted =>
    intro i engine hi
    obtain ⟨hold, hother⟩ := (hreleases.tracks i engine).mp hi
    rw [hreleases.refCount i engine hi, hcount, if_neg (Ne.symm hother)]
    exact h.counted i engine hold
  case untracked =>
    intro engine hopen hno
    have hother := hne engine hopen
    rw [hmemory engine hother] at hopen
    rw [hcount, if_neg (Ne.symm hother)]
    exact h.untracked engine hopen fun i hi => hno i ((hreleases.tracks i engine).mpr ⟨hi, hother⟩)
  case current =>
    intro engine hcurrent
    obtain ⟨hold, hother⟩ | ⟨i, hi⟩ := hreleases.current engine hcurrent
    · rw [hmemory engine hother]
      exact h.current engine hold
    · exact hlive i engine hi
  case basePath =>
    intro engine opened hopened
    rw [hmemory engine (hne engine (Option.isSome_iff_exists.mpr ⟨opened, hopened⟩))] at hopened
    exact h.basePath engine opened hopened
  case paths =>
    intro other hother opened hopened
    rw [hmemory _ (hne _ (Option.isSome_iff_exists.mpr ⟨opened, hopened⟩))] at hopened
    exact h.paths other (hmem other hother) opened hopened
  case first =>
    intro other hother hshort i j engine opened hi hj hopened
    rw [hmemory _ (hne _ (Option.isSome_iff_exists.mpr ⟨opened, hopened⟩))] at hopened
    exact h.first other (hmem other hother) hshort i j engine opened
      ((hreleases.tracks i _).mp hi).1 ((hreleases.tracks j engine).mp hj).1 hopened

/-- Disconnecting another table of an engine. -/
theorem Sound.uncount (h : b.Sound) {table : FtsUringVtab} (htable : table ∈ b.tables)
    (hmore : 1 < b.tableCount table.engine) (huncounts : b.Uncounts b' table.engine)
    (htables : b'.tables = b.tables.erase table) : b'.Sound := by
  have hcount := tableCount_erase htable htables
  have hmem : ∀ other ∈ b'.tables, other ∈ b.tables := fun other hother =>
    List.mem_of_mem_erase (htables ▸ hother)
  constructor
  case opened =>
    intro engine
    rw [huncounts.memory, h.opened engine, hcount]
    split_ifs with hsame
    · subst hsame
      omega
    · rw [Nat.sub_zero]
  case live =>
    intro i engine hi
    rw [huncounts.memory]
    exact h.live i engine ((huncounts.tracks i engine).mp hi)
  case distinct =>
    intro i j engine hi hj
    exact h.distinct i j engine ((huncounts.tracks i engine).mp hi) ((huncounts.tracks j engine).mp hj)
  case counted =>
    intro i engine hi
    have hcounted := h.counted i engine ((huncounts.tracks i engine).mp hi)
    rw [huncounts.refCount i engine hi, hcount]
    split_ifs with hsame
    · subst hsame
      rw [toInt_sub_one (by omega), hcounted]
      omega
    · rw [Int32.sub_zero, Nat.sub_zero, hcounted]
  case untracked =>
    intro engine hopen hno
    rw [huncounts.memory] at hopen
    have hone := h.untracked engine hopen fun i hi => hno i ((huncounts.tracks i engine).mpr hi)
    have hother : table.engine ≠ engine := by
      rintro rfl
      omega
    rw [hcount, if_neg hother, Nat.sub_zero, hone]
  case current =>
    intro engine hcurrent
    rw [huncounts.memory]
    exact h.current engine (huncounts.current ▸ hcurrent)
  case basePath => exact fun engine opened hopened => h.basePath engine opened (huncounts.memory ▸ hopened)
  case paths =>
    exact fun other hother opened hopened => h.paths other (hmem other hother) opened (huncounts.memory ▸ hopened)
  case first =>
    intro other hother hshort i j engine opened hi hj hopened
    exact h.first other (hmem other hother) hshort i j engine opened ((huncounts.tracks i _).mp hi)
      ((huncounts.tracks j engine).mp hj) (huncounts.memory ▸ hopened)

/-- Disconnecting a table. -/
theorem Sound.exists_ftsDisconnect (h : b.Sound) {table : FtsUringVtab} (htable : table ∈ b.tables) :
    ∃ b', b.ftsDisconnect table = some b' ∧ b'.Sound ∧ b'.tables = b.tables.erase table ∧
      b'.actions = b.actions ++ if 0 < b'.tableCount table.engine then []
        else [.close table.engine, .free table.engine] := by
  obtain ⟨released, hrun, htables, hcases⟩ := h.exists_releaseEngine htable
  have hdisconnect : b.ftsDisconnect table = some { released with tables := b.tables.erase table } := by
    rw [ftsDisconnect, hrun, Option.map_some, htables]
  set next : Bridge := { released with tables := b.tables.erase table } with hnext
  have herased : next.tables = b.tables.erase table := rfl
  have hcount := tableCount_erase htable herased table.engine
  rw [if_pos rfl] at hcount
  refine ⟨next, hdisconnect, ?_, rfl, ?_⟩
  · obtain ⟨hlast, hreleases⟩ | ⟨hmore, huncounts⟩ := hcases
    · exact h.release htable hlast
        ⟨hreleases.memory, hreleases.tracks, hreleases.refCount, hreleases.current, hreleases.actions⟩ rfl
    · exact h.uncount htable hmore
        ⟨huncounts.memory, huncounts.tracks, huncounts.refCount, huncounts.current, huncounts.actions⟩ rfl
  · obtain ⟨hlast, hreleases⟩ | ⟨hmore, huncounts⟩ := hcases
    · rw [if_neg (by omega)]
      exact hreleases.actions
    · rw [if_pos (by omega), List.append_nil]
      exact huncounts.actions

/-- The engine that is found for the path of a call has room in its count for one more table. -/
def CountFits (b : Bridge) : BridgeCall → Prop
  | .connect argument _ => ∀ i engine, b.Finds (connectPath argument) (some (i, engine)) →
      b.tableCount engine < 2 ^ 31 - 1
  | .disconnect _ => True

/-- The count of an engine that is found is at its limit exactly when it has that many tables. -/
theorem Sound.refCount_eq_maxValue (h : b.Sound) {i : Fin maxActiveEngines} {engine : Address}
    (hi : b.Tracks i engine) :
    (b.gActiveEngines i).refCount = Int32.maxValue ↔ ¬b.tableCount engine < 2 ^ 31 - 1 := by
  have hcounted := h.counted i engine hi
  have hle := (b.gActiveEngines i).refCount.toInt_le
  rw [← Int32.toInt_inj]
  rw [Int32.toInt_maxValue] at hle ⊢
  omega

/-- Connecting a table. -/
theorem Sound.exists_ftsConnect (h : b.Sound) (argument : Option CString) {newEngine : Address}
    (hfresh : b.memory newEngine = none) (hfits : b.CountFits (.connect argument newEngine)) :
    ∃ b' engine, b.ftsConnect argument newEngine = some b' ∧ b'.Sound ∧
      b'.tables = ⟨engine, argument⟩ :: b.tables ∧
      ((∃ i, b.Finds (connectPath argument) (some (i, engine)) ∧ b'.actions = b.actions) ∨
        b.Finds (connectPath argument) none ∧ engine = newEngine ∧
          b'.actions = b.actions ++ [.init newEngine (connectPath argument)]) := by
  obtain ⟨found, hfind, hfinds⟩ := exists_findEngine h.live (connectPath argument)
  cases hfinds with
  | @found i engine htracks hpath hearlier =>
    have hroom : (b.gActiveEngines i).refCount ≠ Int32.maxValue := fun hfull =>
      (h.refCount_eq_maxValue htracks).mp hfull (hfits i engine (.found htracks hpath hearlier))
    refine ⟨(b.shareEngine i engine).addTable engine argument, engine, ?_, h.share htracks hpath hearlier hroom,
      rfl, .inl ⟨i, .found htracks hpath hearlier, rfl⟩⟩
    rw [ftsConnect, hfind]
    exact if_neg hroom
  | missing hnowhere =>
    obtain ⟨-, -, htables, hactions⟩ := openEngine_memory b (connectPath argument) newEngine
    refine ⟨(b.openEngine (connectPath argument) newEngine).addTable newEngine argument, newEngine, ?_,
      h.openEngine hfresh hnowhere, ?_, .inr ⟨.missing hnowhere, rfl, hactions⟩⟩
    · rw [ftsConnect, hfind]
      rfl
    · rw [addTable, htables]

/-- Connecting a table to an engine whose count is at its limit. -/
theorem Sound.ftsConnect_eq_none (h : b.Sound) {argument : Option CString} {newEngine : Address}
    (hfull : ¬b.CountFits (.connect argument newEngine)) : b.ftsConnect argument newEngine = none := by
  rw [CountFits] at hfull
  push Not at hfull
  obtain ⟨i, engine, hfinds, hlimit⟩ := hfull
  obtain ⟨found, hfind, hfinds'⟩ := exists_findEngine h.live (connectPath argument)
  obtain rfl := hfinds'.unique hfinds
  cases hfinds with
  | found htracks =>
    rw [ftsConnect, hfind]
    exact if_pos ((h.refCount_eq_maxValue htracks).mpr (not_lt.mpr hlimit))

end Bridge

end FtsUring
