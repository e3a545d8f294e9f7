import FtsUring.Bridge.OpenEngines

/-!
# One engine for a directory

In every sequence of calls engines are closed and freed when their last table is disconnected, and the global
engine is open. Tables with the same path argument share an engine in all states of the sequence exactly when
each call finds the engine of the tables that are connected with its argument.
-/

namespace FtsUring

namespace Bridge

/-- Tables with the same path argument share an engine. -/
def Shares (b : Bridge) : Prop :=
  ∀ table ∈ b.tables, ∀ other ∈ b.tables, table.argument = other.argument → table.engine = other.engine

/-- The global engine is not freed. -/
def CurrentOpen (b : Bridge) : Prop := ∀ engine, b.gEngine = some engine → (b.memory engine).isSome

/-- What a call does to engines: the engine of a table is closed and freed when no other table has it. -/
def ActsOn (b b' : Bridge) : BridgeCall → Prop
  | .connect argument newEngine =>
    b'.actions = b.actions ∨ b'.actions = b.actions ++ [.init newEngine (connectPath argument)]
  | .disconnect table => b'.actions = b.actions ++
      if ∃ other ∈ b.tables.erase table, other.engine = table.engine then []
      else [.close table.engine, .free table.engine]

/-- A call that connects a table finds the engine of the tables with its argument: the path is one that an
engine keeps, the engine has a slot, and no slot before it has an engine with a longer path that begins like
this one. -/
def FindsShared (b : Bridge) : BridgeCall → Prop
  | .connect argument _ => ∀ table ∈ b.tables, table.argument = argument →
      (connectPath argument).length ≤ 255 ∧ ∃ i, b.Tracks i table.engine ∧
        ∀ j < i, ∀ engine opened, b.Tracks j engine → b.memory engine = some opened →
          opened.directory.take 255 = connectPath argument → opened.directory = connectPath argument
  | .disconnect _ => True

/-- Every call of a sequence can be made. -/
def AllowsAll (b : Bridge) : List BridgeCall → Prop
  | [] => True
  | call :: calls => b.Allows call ∧ ∀ next, b.call call = some next → next.AllowsAll calls

/-- Every call of a sequence finds the engine of the tables with its argument, and an engine that is found has room
in its count for one more table. -/
def FindsSharedAll (b : Bridge) : List BridgeCall → Prop
  | [] => True
  | call :: calls => (b.CountFits call ∧ b.FindsShared call) ∧
      ∀ next, b.call call = some next → next.FindsSharedAll calls

/-- There is one engine for a path during a sequence of calls: the tables share it, the global engine is
open, and every call comes back and closes what it has to. -/
def KeepsOneEngine (b : Bridge) : List BridgeCall → Prop
  | [] => b.Shares ∧ b.CurrentOpen
  | call :: calls => (b.Shares ∧ b.CurrentOpen) ∧
      ∃ next, b.call call = some next ∧ b.ActsOn next call ∧ next.KeepsOneEngine calls

variable {b : Bridge}

/-- An engine of a slot with a path keeps it. -/
theorem exists_of_slotPath {i : Fin maxActiveEngines} {path : CString} (h : b.slotPath i = some path) :
    ∃ engine opened, b.Tracks i engine ∧ b.memory engine = some opened ∧ opened.basePath = path := by
  obtain ⟨opened, hopened, hpath⟩ := Option.map_eq_some_iff.mp h
  obtain ⟨engine, hengine, hmemory⟩ := Option.bind_eq_some_iff.mp hopened
  exact ⟨engine, opened, hengine, hmemory, hpath⟩

/-- The engine that is found is the one of the tables with the argument. -/
theorem Sound.found_engine (h : b.Sound) {argument : Option CString} {newEngine : Address}
    (hshared : b.FindsShared (.connect argument newEngine)) {table : FtsUringVtab}
    (htable : table ∈ b.tables) (hargument : table.argument = argument) :
    ∃ i, b.Finds (connectPath argument) (some (i, table.engine)) := by
  obtain ⟨hshort, i, hi, hearlier⟩ := hshared table htable hargument
  obtain ⟨opened, hopened⟩ := Option.isSome_iff_exists.mp (h.live i _ hi)
  have hpath : opened.basePath = connectPath argument := by
    rw [← h.paths table htable opened hopened, hargument, List.take_of_length_le hshort]
  refine ⟨i, .found hi (hpath ▸ slotPath_eq hi hopened) fun j hj hjpath => ?_⟩
  obtain ⟨engine, other, hjtracks, hother, hbase⟩ := exists_of_slotPath hjpath
  have hdirectory := hearlier j hj engine other hjtracks hother
    ((h.basePath engine other hother).symm.trans hbase)
  have hle := h.first table htable (hargument ▸ hshort) i j engine other hi hjtracks hother
    (hargument ▸ hdirectory)
  exact absurd hj (not_lt.mpr hle)

/-- When the engine that is found has the tables with the argument, the call finds it. -/
theorem Sound.findsShared (h : b.Sound) {argument : Option CString} {newEngine : Address}
    (hfound : ∀ table ∈ b.tables, table.argument = argument →
      ∃ i, b.Finds (connectPath argument) (some (i, table.engine))) :
    b.FindsShared (.connect argument newEngine) := by
  intro table htable hargument
  obtain ⟨i, hfinds⟩ := hfound table htable hargument
  cases hfinds with
  | found hi hpath hearlier =>
    obtain ⟨engine, opened, htracks, hopened, hbase⟩ := exists_of_slotPath hpath
    refine ⟨?_, i, hi, fun j hj other kept hjtracks hkept hdirectory => ?_⟩
    · rw [← hbase, h.basePath engine opened hopened]
      exact List.length_take_le _ _
    · refine absurd ?_ (hearlier j hj)
      rw [slotPath_eq hjtracks hkept, h.basePath other kept hkept, hdirectory]

/-- A call on a sound bridge. Tables share engines afterwards exactly when they did before and the call finds
the engine of the tables with its argument, or disconnects. -/
theorem Sound.exists_call (h : b.Sound) (hshares : b.Shares) {call : BridgeCall} (hallows : b.Allows call)
    (hfits : b.CountFits call) :
    ∃ next, b.call call = some next ∧ next.Sound ∧ b.ActsOn next call ∧
      (next.Shares ↔ b.FindsShared call) := by
  cases call with
  | connect argument newEngine =>
    obtain ⟨next, engine, hcall, hsound, htables, hcases⟩ := h.exists_ftsConnect argument hallows hfits
    -- the new table shares the engine of the tables with its argument if the engine is found for them
    have hiff : next.Shares ↔ ∀ table ∈ b.tables, table.argument = argument → table.engine = engine := by
      rw [Shares, htables]
      constructor
      · intro hall table htable hargument
        exact hall table (List.mem_cons_of_mem _ htable) _ List.mem_cons_self hargument
      · intro hall table htable other hother hargument
        obtain rfl | htable := List.mem_cons.mp htable <;> obtain rfl | hother := List.mem_cons.mp hother
        · rfl
        · exact (hall other hother hargument.symm).symm
        · exact hall table htable hargument
        · exact hshares table htable other hother hargument
    refine ⟨next, hcall, hsound, ?_, hiff.trans ?_⟩
    · obtain ⟨_, -, hactions⟩ | ⟨-, -, hactions⟩ := hcases
      · exact .inl hactions
      · exact .inr hactions
    · constructor
      · intro hall
        refine h.findsShared fun table htable hargument => ?_
        obtain ⟨i, hfinds, -⟩ | ⟨-, hnew, -⟩ := hcases
        · exact ⟨i, hall table htable hargument ▸ hfinds⟩
        · exact absurd ((hall table htable hargument).trans hnew) (h.engine_ne hallows htable)
      · intro hshared table htable hargument
        obtain ⟨i, hfound⟩ := h.found_engine hshared htable hargument
        obtain ⟨j, hfinds, -⟩ | ⟨hfinds, -⟩ := hcases
        · exact (Prod.mk.inj (Option.some.inj (hfound.unique hfinds))).2
        · exact absurd (hfound.unique hfinds) nofun
  | disconnect table =>
    obtain ⟨next, hcall, hsound, htables, hactions⟩ := h.exists_ftsDisconnect hallows
    have hmem : ∀ other ∈ next.tables, other ∈ b.tables := fun other hother =>
      List.mem_of_mem_erase (htables ▸ hother)
    refine ⟨next, hcall, hsound, ?_, fun _ => trivial, fun _ first hfirst second hsecond => ?_⟩
    · rw [ActsOn, hactions]
      have hiff : 0 < next.tableCount table.engine ↔
          ∃ other ∈ b.tables.erase table, other.engine = table.engine := by
        rw [tableCount, List.countP_pos_iff, htables]
        simp
      simp only [hiff]
    · exact hshares first (hmem first hfirst) second (hmem second hsecond)

/-- A call that comes back found room in the count of the engine. -/
theorem Sound.countFits (h : b.Sound) {call : BridgeCall} {next : Bridge} (hcall : b.call call = some next) :
    b.CountFits call := by
  cases call with
  | connect argument newEngine =>
    by_contra hfull
    have hnone := h.ftsConnect_eq_none hfull
    rw [call, hnone] at hcall
    exact absurd hcall nofun
  | disconnect table => trivial

/-- A sequence of calls on a sound bridge. -/
theorem Sound.keepsOneEngine_of_shares_iff (h : b.Sound) (hshares : b.Shares) {calls : List BridgeCall}
    (hallows : b.AllowsAll calls) : b.KeepsOneEngine calls ↔ b.FindsSharedAll calls := by
  induction calls generalizing b with
  | nil => exact ⟨fun _ => trivial, fun _ => ⟨hshares, h.current⟩⟩
  | cons call calls ih =>
    constructor
    · rintro ⟨-, next, hcall, -, hkeeps⟩
      have hfits := h.countFits hcall
      obtain ⟨next', hcall', hsound, -, hiff⟩ := h.exists_call hshares hallows.1 hfits
      obtain rfl := Option.some.inj (hcall.symm.trans hcall')
      have hnext : next.Shares := by
        cases calls with
        | nil => exact hkeeps.1
        | cons => exact hkeeps.1.1
      refine ⟨⟨hfits, hiff.mp hnext⟩, fun other hother => ?_⟩
      obtain rfl := Option.some.inj (hcall.symm.trans hother)
      exact (ih hsound hnext (hallows.2 next hcall)).mp hkeeps
    · rintro ⟨⟨hfits, hshared⟩, hall⟩
      obtain ⟨next, hcall, hsound, hacts, hiff⟩ := h.exists_call hshares hallows.1 hfits
      have hnext := hiff.mpr hshared
      exact ⟨⟨hshares, h.current⟩, next, hcall, hacts,
        (ih hsound hnext (hallows.2 next hcall)).mpr (hall next hcall)⟩

/-- The memory after the first table was connected. -/
theorem memory_connect_start {argument : Option CString} {next : Bridge} {other : Address}
    (hmemory : (Bridge.start.call (.connect argument 1)).map (fun next => next.memory other) = some none)
    (hcall : Bridge.start.call (.connect argument 1) = some next) : next.memory other = none := by
  rw [hcall] at hmemory
  exact Option.some.inj hmemory

/-- A path of 256 characters: 127 nested directories, and one in the last of them. -/
def deepPath : CString := (List.replicate 127 [0x61, 0x2f]).flatten ++ [0x61, 0x61]

/-- Nothing is found before a table is connected. -/
theorem countFits_start (call : BridgeCall) : Bridge.start.CountFits call := by
  cases call with
  | connect argument newEngine => exact fun _ _ _ => Nat.zero_lt_succ _
  | disconnect table => trivial

end Bridge

end FtsUring
