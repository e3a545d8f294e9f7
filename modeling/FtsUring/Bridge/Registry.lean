import FtsUring.Lexicon.Lexicon
import Mathlib.Data.List.Count

/-!
# The registry of open engines

Connecting a virtual table opens an engine, or finds one that is open already: 64 slots hold engines with the
number of their tables. An engine is looked for by the path that it has kept, of which there are 255
characters. An engine that finds no slot is opened all the same.

`none` is a call whose behaviour is undefined: it uses memory after it was freed, or the number of tables of an
engine overflows. Allocations succeed. The event loop of the search is left out.
-/

namespace FtsUring

/-- `MAX_ACTIVE_ENGINES`. -/
abbrev maxActiveEngines : ℕ := 64

/-- What the allocator hands out. -/
abbrev Address : Type := ℕ

/-- An engine: the directory in which its shards were opened, and its `base_path`. -/
structure OpenEngine where
  directory : CString
  basePath : CString
  deriving DecidableEq

/-- A slot for an engine. -/
structure ActiveEngineEntry where
  engine : Option Address
  refCount : Int32

/-- A connected table, and the path argument with which it was connected. -/
structure FtsUringVtab where
  engine : Address
  argument : Option CString
  deriving DecidableEq

/-- What is done to engines. -/
inductive EngineAction
  | init (engine : Address) (directory : CString)
  | close (engine : Address)
  | free (engine : Address)
  deriving DecidableEq

/-- The globals of the bridge, the allocated engines, the connected tables and the record of what was done to
engines. -/
structure Bridge where
  gActiveEngines : Fin maxActiveEngines → ActiveEngineEntry
  gEngine : Option Address
  gLexiconInitialized : Bool
  memory : Address → Option OpenEngine
  tables : List FtsUringVtab
  actions : List EngineAction

/-- Nothing is connected. -/
def Bridge.start : Bridge := ⟨fun _ => ⟨none, 0⟩, none, false, fun _ => none, [], []⟩

/-- The path of a table. A quote in front is dropped together with the last character. -/
def connectPath (argument : Option CString) : CString :=
  match argument with
  | none => [0x2e, 0x2f, 0x66, 0x74, 0x73, 0x5f, 0x75, 0x72, 0x69, 0x6e, 0x67, 0x5f, 0x64, 0x61, 0x74, 0x61]
  | some argument =>
    let path := argument.take 511
    if path.head? = some 0x27 ∨ path.head? = some 0x22 then
      if 2 ≤ path.length then (path.drop 1).take (path.length - 2) else path
    else path

/-- The engine that `engine_init` opens in a directory. -/
def engineAt (directory : CString) : OpenEngine := ⟨directory, directory.take 255⟩

namespace Bridge

/-- Open a new engine. -/
def engineInit (b : Bridge) (engine : Address) (directory : CString) : Bridge :=
  { b with
    memory := Function.update b.memory engine (some (engineAt directory))
    actions := b.actions ++ [.init engine directory] }

/-- Close an engine. -/
def engineClose (b : Bridge) (engine : Address) : Option Bridge :=
  (b.memory engine).map fun _ => { b with actions := b.actions ++ [.close engine] }

/-- Free the memory of an engine. -/
def sqlite3Free (b : Bridge) (engine : Address) : Option Bridge :=
  (b.memory engine).map fun _ => { b with
    memory := Function.update b.memory engine none
    actions := b.actions ++ [.free engine] }

/-- The first of some slots whose engine has a path. -/
def findEngine (b : Bridge) (path : CString) :
    List (Fin maxActiveEngines) → Option (Option (Fin maxActiveEngines × Address))
  | [] => some none
  | i :: rest =>
    match (b.gActiveEngines i).engine with
    | none => b.findEngine path rest
    | some engine => (b.memory engine).bind fun opened =>
      if opened.basePath = path then some (some (i, engine)) else b.findEngine path rest

/-- The first free slot. -/
def freeSlot (b : Bridge) : Option (Fin maxActiveEngines) :=
  (List.finRange maxActiveEngines).find? fun i => (b.gActiveEngines i).engine.isNone

/-- The first slot of an engine. -/
def slotOf (b : Bridge) (engine : Address) : Option (Fin maxActiveEngines) :=
  (List.finRange maxActiveEngines).find? fun i => (b.gActiveEngines i).engine = some engine

/-- The first engine that has a slot. -/
def firstActive (b : Bridge) : Option Address :=
  (List.finRange maxActiveEngines).findSome? fun i => (b.gActiveEngines i).engine

/-- Put an engine into a slot, or change its number of tables. -/
def setSlot (b : Bridge) (i : Fin maxActiveEngines) (entry : ActiveEngineEntry) : Bridge :=
  { b with gActiveEngines := Function.update b.gActiveEngines i entry }

/-- Count one table more for an engine that is open. -/
def shareEngine (b : Bridge) (i : Fin maxActiveEngines) (engine : Address) : Bridge :=
  { b.setSlot i ⟨some engine, (b.gActiveEngines i).refCount + 1⟩ with gEngine := some engine }

/-- Open an engine, and put it into a free slot if there is one. -/
def openEngine (b : Bridge) (path : CString) (engine : Address) : Bridge :=
  let opened := { b.engineInit engine path with gEngine := some engine }
  match b.freeSlot with
  | some i => opened.setSlot i ⟨some engine, 1⟩
  | none => opened

/-- The table of an engine. -/
def addTable (b : Bridge) (engine : Address) (argument : Option CString) : Bridge :=
  { b with gLexiconInitialized := true, tables := ⟨engine, argument⟩ :: b.tables }

/-- Connect a table; `newEngine` is the address that is allocated for an engine if one is opened. -/
def ftsConnect (b : Bridge) (argument : Option CString) (newEngine : Address) : Option Bridge :=
  let path := connectPath argument
  (b.findEngine path (List.finRange maxActiveEngines)).bind fun found =>
    match found with
    | some (i, engine) =>
      if (b.gActiveEngines i).refCount = Int32.maxValue then none
      else some ((b.shareEngine i engine).addTable engine argument)
    | none => some ((b.openEngine path newEngine).addTable newEngine argument)

/-- If an engine was the global one, make the first one with a slot the global one. -/
def replaceCurrent (b : Bridge) (engine : Address) : Bridge :=
  if b.gEngine = some engine then { b with gEngine := b.firstActive } else b

/-- If an engine is the global one, there is none any more. -/
def dropCurrent (b : Bridge) (engine : Address) : Bridge :=
  if b.gEngine = some engine then { b with gEngine := none } else b

/-- Close and free an engine with its slot. -/
def releaseSlot (b : Bridge) (i : Fin maxActiveEngines) (engine : Address) : Option Bridge :=
  (b.engineClose engine).bind fun closed => (closed.sqlite3Free engine).map fun freed =>
    (freed.setSlot i ⟨none, 0⟩).replaceCurrent engine

/-- Close and free an engine without a slot. -/
def releaseUntracked (b : Bridge) (engine : Address) : Option Bridge :=
  (b.engineClose engine).bind fun closed => (closed.dropCurrent engine).sqlite3Free engine

/-- Count one table less for an engine. -/
def releaseEngine (b : Bridge) (engine : Address) : Option Bridge :=
  match b.slotOf engine with
  | some i =>
    let refCount := (b.gActiveEngines i).refCount - 1
    if refCount ≤ 0 then b.releaseSlot i engine else some (b.setSlot i ⟨some engine, refCount⟩)
  | none => b.releaseUntracked engine

/-- Disconnect a table. -/
def ftsDisconnect (b : Bridge) (table : FtsUringVtab) : Option Bridge :=
  (b.releaseEngine table.engine).map fun b => { b with tables := b.tables.erase table }

end Bridge

/-- The calls of the virtual table module. -/
inductive BridgeCall
  | connect (argument : Option CString) (newEngine : Address)
  | disconnect (table : FtsUringVtab)

namespace Bridge

/-- Make a call. -/
def call (b : Bridge) : BridgeCall → Option Bridge
  | .connect argument newEngine => b.ftsConnect argument newEngine
  | .disconnect table => b.ftsDisconnect table

/-- The calls that can be made: the allocator hands out memory that is free, and a table that is
disconnected is connected. -/
def Allows (b : Bridge) : BridgeCall → Prop
  | .connect _ newEngine => b.memory newEngine = none
  | .disconnect table => table ∈ b.tables

/-! ## Looking through the slots -/

/-- An engine has a slot. -/
def Tracks (b : Bridge) (i : Fin maxActiveEngines) (engine : Address) : Prop :=
  (b.gActiveEngines i).engine = some engine

/-- The path of the engine in a slot. -/
def slotPath (b : Bridge) (i : Fin maxActiveEngines) : Option CString :=
  ((b.gActiveEngines i).engine.bind b.memory).map OpenEngine.basePath

/-- Looking for a path in slots whose engines are not freed. -/
theorem findEngine_eq {b : Bridge} (hlive : ∀ i engine, b.Tracks i engine → (b.memory engine).isSome)
    (path : CString) (slots : List (Fin maxActiveEngines)) :
    b.findEngine path slots = some ((slots.find? fun i => b.slotPath i = some path).bind fun i =>
      (b.gActiveEngines i).engine.map fun engine => (i, engine)) := by
  induction slots with
  | nil => rfl
  | cons i rest ih =>
    rw [findEngine, List.find?_cons]
    cases hengine : (b.gActiveEngines i).engine with
    | none =>
      have hno : decide (b.slotPath i = some path) = false := by simp [slotPath, hengine]
      rw [hno]
      exact ih
    | some engine =>
      obtain ⟨opened, hopened⟩ := Option.isSome_iff_exists.mp (hlive i engine hengine)
      have hpath : decide (b.slotPath i = some path) = decide (opened.basePath = path) := by
        simp [slotPath, hengine, hopened]
      dsimp only
      rw [hopened, Option.bind_some, hpath]
      split_ifs with hsame
      · rw [decide_eq_true hsame]
        dsimp only
        rw [Option.bind_some, hengine]
        rfl
      · rw [decide_eq_false hsame]
        exact ih

/-- The slots before the one that is found have not been found. -/
theorem find_finRange_eq_some {p : Fin maxActiveEngines → Bool} {i : Fin maxActiveEngines}
    (h : (List.finRange maxActiveEngines).find? p = some i) :
    p i = true ∧ ∀ j < i, p j = false := by
  obtain ⟨hi, before, after, hsplit, hbefore⟩ := List.find?_eq_some_iff_append.mp h
  refine ⟨hi, fun j hj => ?_⟩
  have hmem : j ∈ before ++ i :: after := hsplit ▸ List.mem_finRange j
  have hsorted := List.pairwise_lt_finRange maxActiveEngines
  rw [hsplit, List.pairwise_append, List.pairwise_cons] at hsorted
  obtain hmem | hmem := List.mem_append.mp hmem
  · simpa using hbefore j hmem
  · obtain rfl | hmem := List.mem_cons.mp hmem
    · exact absurd hj (lt_irrefl j)
    · exact absurd hj (hsorted.2.1.1 j hmem).asymm

/-- What looking for a path finds. -/
inductive Finds (b : Bridge) (path : CString) : Option (Fin maxActiveEngines × Address) → Prop
  | found {i : Fin maxActiveEngines} {engine : Address} (tracks : b.Tracks i engine)
      (path_eq : b.slotPath i = some path) (earlier : ∀ j < i, b.slotPath j ≠ some path) :
      b.Finds path (some (i, engine))
  | missing (nowhere : ∀ i, b.slotPath i ≠ some path) : b.Finds path none

/-- Looking for a path. -/
theorem exists_findEngine {b : Bridge} (hlive : ∀ i engine, b.Tracks i engine → (b.memory engine).isSome)
    (path : CString) : ∃ found, b.findEngine path (List.finRange maxActiveEngines) = some found ∧
      b.Finds path found := by
  rw [findEngine_eq hlive]
  cases hfind : (List.finRange maxActiveEngines).find? fun i => decide (b.slotPath i = some path) with
  | none =>
    refine ⟨none, rfl, .missing fun i => ?_⟩
    simpa using List.find?_eq_none.mp hfind i (List.mem_finRange i)
  | some i =>
    obtain ⟨hpath, hearlier⟩ := find_finRange_eq_some hfind
    rw [decide_eq_true_eq] at hpath
    cases hengine : (b.gActiveEngines i).engine with
    | none => rw [slotPath, hengine] at hpath; exact absurd hpath nofun
    | some engine =>
      refine ⟨some (i, engine), by rw [Option.bind_some, hengine]; rfl, .found hengine hpath fun j hj => ?_⟩
      simpa using hearlier j hj

/-- What looking for a path finds is determined. -/
theorem Finds.unique {b : Bridge} {path : CString} {found found' : Option (Fin maxActiveEngines × Address)}
    (h : b.Finds path found) (h' : b.Finds path found') : found = found' := by
  cases h with
  | @found i engine hi hpath hearlier =>
    cases h' with
    | @found j other hj hpath' hearlier' =>
      have hsame : i = j := by
        obtain hlt | heq | hgt := lt_trichotomy i j
        · exact absurd hpath (hearlier' i hlt)
        · exact heq
        · exact absurd hpath' (hearlier j hgt)
      subst hsame
      rw [Option.some.inj (hi.symm.trans hj)]
    | missing hnowhere => exact absurd hpath (hnowhere i)
  | missing hnowhere =>
    cases h' with
    | @found j other hj hpath' hearlier' => exact absurd hpath' (hnowhere j)
    | missing => rfl

/-- The slot of an engine that has only one. -/
theorem slotOf_eq {b : Bridge} {i : Fin maxActiveEngines} {engine : Address} (h : b.Tracks i engine)
    (hdistinct : ∀ j, b.Tracks j engine → j = i) : b.slotOf engine = some i := by
  rw [slotOf]
  cases hfind : (List.finRange maxActiveEngines).find? fun i =>
      (b.gActiveEngines i).engine = some engine with
  | none =>
    have hno := List.find?_eq_none.mp hfind i (List.mem_finRange i)
    rw [Tracks] at h
    simp [h] at hno
  | some j => rw [hdistinct j (by simpa [Tracks] using List.find?_some hfind)]

/-- An engine without a slot. -/
theorem slotOf_eq_none {b : Bridge} {engine : Address} (h : ∀ i, ¬b.Tracks i engine) :
    b.slotOf engine = none := by
  rw [slotOf, List.find?_eq_none]
  intro i _
  simpa [Tracks] using h i

end Bridge

end FtsUring
