import FtsUring.Engine.AsyncHybrid
import FtsUring.Engine.DocumentFrequency
import FtsUring.Foundation.Traces

/-!
# Cursors

A query of a table opens a cursor, searches once and keeps the results in the cursor; the rows are read from there.
So a cursor is not disturbed by what happens between two of its rows: documents that are inserted, other cursors
that search, move on and are closed.

There is one table, and its engine is the one that documents are inserted into. The codes that the calls return are
not kept.
-/

namespace FtsUring

open Foundation

variable {F : Type} [Double F]

/-! ## A cursor -/

/-- The first `total_results` results of a cursor, and its row. -/
structure FtsUringCursor (F : Type) where
  results : List (UnifiedSearchResult F)
  currentRow : ℕ

/-- What a column is set to. -/
inductive SqlValue (F : Type)
  | null
  | real (value : F)
  | text (value : CString)
  deriving DecidableEq

/-- The digit of `%x`. -/
def hexDigit (n : UInt8) : UInt8 := if n < 10 then n + 0x30 else n + 0x57

/-- `%02x` for every byte of a node id. -/
def hexText (nodeId : Vector UInt8 16) : CString :=
  nodeId.toList.flatMap fun byte => [hexDigit (byte / 16), hexDigit (byte % 16)]

/-- A new cursor. -/
def ftsOpen : FtsUringCursor F := ⟨[], 0⟩

namespace FtsUringCursor

variable (cursor : FtsUringCursor F)

/-- Go to the next row. -/
def ftsNext : FtsUringCursor F := { cursor with currentRow := cursor.currentRow + 1 }

/-- All rows were read. -/
def ftsEof : Bool := decide (cursor.results.length ≤ cursor.currentRow)

/-- A column of the row. -/
def ftsColumn (i : ℤ) : SqlValue F :=
  match cursor.results[cursor.currentRow]? with
  | none => .null
  | some result =>
    if i = 0 then .text (hexText result.nodeId)
    else if i = 1 then .real result.bm25fScore
    else if i = 2 then .real result.cosineScore
    else if i = 3 then .real result.rrfScore
    else .null

/-- The number of the row. -/
def ftsRowid : ℕ := cursor.currentRow

/-- The number and the columns of the row that the cursor stands on, unless all rows were read. -/
def row? : Option (ℕ × List (SqlValue F)) :=
  if cursor.ftsEof then none
  else some (cursor.ftsRowid, [cursor.ftsColumn 0, cursor.ftsColumn 1, cursor.ftsColumn 2, cursor.ftsColumn 3,
    cursor.ftsColumn 4])

end FtsUringCursor

/-- The row for a result. -/
def resultRow (i : ℕ) (result : UnifiedSearchResult F) : ℕ × List (SqlValue F) :=
  (i, [.text (hexText result.nodeId), .real result.bm25fScore, .real result.cosineScore, .real result.rrfScore,
    .null])

/-! ## Queries -/

/-- A search term in double quotes. -/
def isPhraseTerm (searchTerm : CString) : Bool :=
  searchTerm.head? == some 0x22 && (decide (1 < searchTerm.length) && searchTerm.getLast? == some 0x22)

/-- The query for a search term, which is NULL for a value without a text. -/
def ftsQuery (lexicon : Lexicon) (searchTerm : Option CString) : UnifiedQuery where
  termIds := (lexiconInserts lexicon (queryTokens searchTerm)).1
  isPhrase := searchTerm.any isPhraseTerm
  queryEmbedding := Vector.replicate embeddingDim 0
  useText := true
  useVector := false

/-- The arguments of `python_insert_document`. -/
structure PythonDocument where
  nodeId : Vector UInt8 16
  tf : Vector UInt32 maxFtsFields
  dl : Vector UInt32 maxFtsFields
  embedding : Vector UInt32 embeddingDim
  text : Option CString

/-! ## Documents -/

/-- There are at most 1024 tokens. -/
theorem length_textTokens (text : Option CString) : (textTokens text).length ≤ 1024 := by
  cases text with
  | none => exact Nat.zero_le _
  | some text =>
    rw [textTokens, lexiconTokenize_eq text (by decide), List.length_map, List.length_take]
    exact min_le_left _ _

/-- There is an id for every token. -/
theorem length_textHashes (text : Option CString) :
    ((textTokens text).map lexiconTermHash32).length < 2 ^ 32 := by
  rw [List.length_map]
  exact (length_textTokens text).trans_lt (by decide)

/-- The document of the arguments, with the hashes of its tokens. -/
def PythonDocument.document (doc : PythonDocument) : Document :=
  ⟨doc.nodeId, doc.tf, doc.dl, doc.embedding, (textTokens doc.text).map lexiconTermHash32,
    length_textHashes doc.text⟩

/-! ## A session -/

/-- The engine of the table, the lexicon, and the cursors in the order in which they were opened. A closed cursor is
not there any more. -/
structure FtsSession (F : Type) where
  engine : UnifiedEngine F
  lexicon : Lexicon
  cursors : List (Option (FtsUringCursor F))

/-- The calls that change something. A search comes with the number of threads and with what they do when. -/
inductive FtsCall
  | insertDocument (doc : PythonDocument)
  | ftsOpen
  | ftsClose (cursor : ℕ)
  | ftsFilter (cursor : ℕ) (searchTerm : Option (Option CString)) (threads : ℕ) (schedule : List ℕ)
  | ftsNext (cursor : ℕ)

/-- Change a cursor that is open. -/
def FtsSession.withCursor (st : FtsSession F) (cursor : ℕ)
    (change : FtsUringCursor F → Option (FtsUringCursor F)) : Option (FtsSession F) :=
  match st.cursors[cursor]? with
  | some (some opened) => some { st with cursors := st.cursors.set cursor (change opened) }
  | _ => none

/-- Search for a term, and put the results into a cursor. -/
def FtsSession.filter (st : FtsSession F) (cursor : ℕ) (searchTerm : Option CString) (threads : ℕ)
    (schedule : List ℕ) : Option (FtsSession F) :=
  (engineSearchAsync id threads schedule st.engine (ftsQuery st.lexicon searchTerm)
    (maxResultsPerShard * maxShards)).bind fun answer =>
      FtsSession.withCursor { st with
        engine := answer.2
        lexicon := (lexiconInserts st.lexicon (queryTokens searchTerm)).2 } cursor fun _ => some ⟨answer.1, 0⟩

/-- One call. A call for a cursor that is not open does not come back. -/
def FtsSession.step (st : FtsSession F) : FtsCall → Option (FtsSession F)
  | .insertDocument doc =>
    (pythonInsertDocument (some st.engine) st.lexicon doc.nodeId doc.tf doc.dl doc.embedding doc.text).bind
      fun answer => answer.2.1.map fun engine => { st with engine, lexicon := answer.2.2 }
  | .ftsOpen => some { st with cursors := st.cursors ++ [some FtsUring.ftsOpen] }
  | .ftsClose cursor => st.withCursor cursor fun _ => none
  | .ftsFilter cursor none _ _ => st.withCursor cursor fun _ => some ⟨[], 0⟩
  | .ftsFilter cursor (some searchTerm) threads schedule => st.filter cursor searchTerm threads schedule
  | .ftsNext cursor => st.withCursor cursor fun opened => some opened.ftsNext

/-- Read the rows of a cursor, with other calls before each of them, until all are read or no calls are left. -/
def FtsSession.scanRows (cursor : ℕ) : List (List FtsCall) → FtsSession F →
    Option (List (ℕ × List (SqlValue F)) × FtsSession F)
  | [], st => some ([], st)
  | calls :: others, st =>
    (runCalls FtsSession.step st calls).bind fun mid =>
      match mid.cursors[cursor]? with
      | some (some opened) =>
        match opened.row? with
        | none => some ([], mid)
        | some row =>
          (mid.step (.ftsNext cursor)).bind fun next =>
            (scanRows cursor others next).map fun answer => (row :: answer.1, answer.2)
      | _ => none

/-! ## One cursor -/

namespace FtsCall

/-- The call closes the cursor, or makes it search. -/
def Resets (cursor : ℕ) : FtsCall → Prop
  | .ftsClose other => other = cursor
  | .ftsFilter other _ _ _ => other = cursor
  | _ => False

/-- The call moves the cursor on. -/
def advances (cursor : ℕ) : FtsCall → Bool
  | .ftsNext other => decide (other = cursor)
  | _ => false

end FtsCall

/-- The cursor with the results and a row. -/
def FtsSession.At (st : FtsSession F) (cursor : ℕ) (results : List (UnifiedSearchResult F)) (row : ℕ) : Prop :=
  st.cursors[cursor]? = some (some ⟨results, row⟩)

section Cursors

variable {st next : FtsSession F} {cursor row : ℕ} {results : List (UnifiedSearchResult F)}

omit [Double F] in
/-- A change of a cursor. -/
theorem FtsSession.withCursor_cases {other : ℕ} {change : FtsUringCursor F → Option (FtsUringCursor F)}
    (h : st.withCursor other change = some next) : ∃ opened, st.cursors[other]? = some (some opened) ∧
      next = { st with cursors := st.cursors.set other (change opened) } := by
  rw [withCursor] at h
  split at h
  · next opened hopened => exact ⟨opened, hopened, (Option.some.inj h).symm⟩
  · exact absurd h (Option.some_ne_none _).symm

omit [Double F] in
/-- New results for a cursor. -/
theorem FtsSession.at_of_withCursor (h : st.withCursor cursor (fun _ => some ⟨results, row⟩) = some next) :
    next.At cursor results row := by
  obtain ⟨opened, hopened, rfl⟩ := withCursor_cases h
  exact List.getElem?_set_self (List.getElem?_eq_some_iff.mp hopened).1

omit [Double F] in
/-- An open cursor can be changed. -/
theorem FtsSession.At.withCursor_eq (hat : st.At cursor results row)
    (change : FtsUringCursor F → Option (FtsUringCursor F)) :
    st.withCursor cursor change = some { st with cursors := st.cursors.set cursor (change ⟨results, row⟩) } := by
  rw [At] at hat
  rw [withCursor, hat]

omit [Double F] in
/-- A change of another cursor. -/
theorem FtsSession.At.withCursor_of_ne {other : ℕ} {change : FtsUringCursor F → Option (FtsUringCursor F)}
    (hat : st.At cursor results row) (hother : other ≠ cursor) (h : st.withCursor other change = some next) :
    next.At cursor results row := by
  obtain ⟨opened, -, rfl⟩ := withCursor_cases h
  exact (List.getElem?_set_ne hother).trans hat

/-- A call that neither closes the cursor nor makes it search keeps its results, and moves it on or not. -/
theorem FtsSession.At.step {call : FtsCall} (hat : st.At cursor results row) (hkeeps : ¬call.Resets cursor)
    (hstep : st.step call = some next) :
    next.At cursor results (row + if call.advances cursor then 1 else 0) := by
  cases call with
  | insertDocument doc =>
    obtain ⟨answer, -, hanswer⟩ := Option.bind_eq_some_iff.mp hstep
    obtain ⟨engine, -, rfl⟩ := Option.map_eq_some_iff.mp hanswer
    exact hat
  | ftsOpen =>
    obtain rfl := Option.some.inj hstep
    exact (List.getElem?_append_left (List.getElem?_eq_some_iff.mp hat).1).trans hat
  | ftsClose other => exact hat.withCursor_of_ne hkeeps hstep
  | ftsFilter other searchTerm threads schedule =>
    cases searchTerm with
    | none => exact hat.withCursor_of_ne hkeeps hstep
    | some searchTerm =>
      obtain ⟨answer, -, hanswer⟩ := Option.bind_eq_some_iff.mp hstep
      have hsame : FtsSession.At { st with
        engine := answer.2
        lexicon := (lexiconInserts st.lexicon (queryTokens searchTerm)).2 } cursor results row := hat
      exact hsame.withCursor_of_ne hkeeps hanswer
  | ftsNext other =>
    by_cases hsame : other = cursor
    · subst hsame
      obtain ⟨opened, hopened, rfl⟩ := withCursor_cases hstep
      obtain rfl := Option.some.inj (Option.some.inj (hopened.symm.trans hat))
      have hadvances : FtsCall.advances other (.ftsNext other) = true := decide_eq_true rfl
      rw [if_pos hadvances]
      exact List.getElem?_set_self (List.getElem?_eq_some_iff.mp hat).1
    · have hadvances : FtsCall.advances cursor (.ftsNext other) = false := decide_eq_false hsame
      rw [hadvances]
      exact hat.withCursor_of_ne hsame hstep

/-- Whatever happens between its rows, a cursor keeps its results and moves on by its own steps. -/
theorem FtsSession.At.run {calls : List FtsCall} (hat : st.At cursor results row)
    (hkeeps : ∀ call ∈ calls, ¬call.Resets cursor) (hrun : runCalls FtsSession.step st calls = some next) :
    next.At cursor results (row + calls.countP (FtsCall.advances cursor)) := by
  induction calls generalizing st row with
  | nil =>
    obtain rfl := Option.some.inj hrun
    exact hat
  | cons call calls ih =>
    rw [runCalls_cons] at hrun
    obtain ⟨mid, hstep, hrest⟩ := Option.bind_eq_some_iff.mp hrun
    have hmid := hat.step (hkeeps call List.mem_cons_self) hstep
    have hnext := ih hmid (fun other hother => hkeeps other (List.mem_cons_of_mem _ hother)) hrest
    rwa [List.countP_cons, Nat.add_comm (calls.countP _), ← Nat.add_assoc]

omit [Double F] in
/-- The row that a cursor stands on is that of a result. -/
theorem FtsUringCursor.row?_eq (results : List (UnifiedSearchResult F)) (row : ℕ) :
    FtsUringCursor.row? ⟨results, row⟩ = results[row]?.map (resultRow row) := by
  by_cases hrow : row < results.length
  · have heof : FtsUringCursor.ftsEof ⟨results, row⟩ = false := decide_eq_false (not_le.mpr hrow)
    rw [FtsUringCursor.row?, heof, if_neg Bool.false_ne_true, List.getElem?_eq_getElem hrow]
    simp only [FtsUringCursor.ftsColumn, List.getElem?_eq_getElem hrow, Option.map_some]
    rfl
  · have heof : FtsUringCursor.ftsEof ⟨results, row⟩ = true := decide_eq_true (not_lt.mp hrow)
    rw [FtsUringCursor.row?, heof, if_pos rfl, List.getElem?_eq_none (not_lt.mp hrow)]
    rfl

/-- The digits of a number below 16. -/
theorem hexDigit_inj : ∀ m < 16, ∀ n < 16, hexDigit (UInt8.ofNat m) = hexDigit (UInt8.ofNat n) → m = n := by
  decide +kernel

/-- A byte can be read back from its two digits. -/
theorem hexDigits_inj {a b : UInt8} (hhigh : hexDigit (a / 16) = hexDigit (b / 16))
    (hlow : hexDigit (a % 16) = hexDigit (b % 16)) : a = b := by
  have ha := a.toNat_lt
  have hb := b.toNat_lt
  have hdiv : ∀ c : UInt8, (c / 16).toNat = c.toNat / 16 := fun c => UInt8.toNat_div c 16
  have hmod : ∀ c : UInt8, (c % 16).toNat = c.toNat % 16 := fun c => UInt8.toNat_mod c 16
  have hhighs := hexDigit_inj (a / 16).toNat (by rw [hdiv]; omega) (b / 16).toNat (by rw [hdiv]; omega)
    (by rwa [UInt8.ofNat_toNat, UInt8.ofNat_toNat])
  have hlows := hexDigit_inj (a % 16).toNat (by rw [hmod]; omega) (b % 16).toNat (by rw [hmod]; omega)
    (by rwa [UInt8.ofNat_toNat, UInt8.ofNat_toNat])
  rw [hdiv, hdiv] at hhighs
  rw [hmod, hmod] at hlows
  apply UInt8.toNat_inj.mp
  omega

/-- Different node ids have different texts. -/
theorem hexText_injective : Function.Injective hexText := by
  have hbytes : ∀ bytes others : List UInt8, bytes.length = others.length →
      bytes.flatMap (fun byte => [hexDigit (byte / 16), hexDigit (byte % 16)]) =
        others.flatMap (fun byte => [hexDigit (byte / 16), hexDigit (byte % 16)]) → bytes = others := by
    intro bytes
    induction bytes with
    | nil =>
      intro others hlength _
      exact (List.length_eq_zero_iff.mp hlength.symm).symm
    | cons byte bytes ih =>
      intro others hlength htext
      cases others with
      | nil => exact absurd hlength (Nat.succ_ne_zero _)
      | cons other others =>
        simp only [List.flatMap_cons, List.cons_append, List.nil_append, List.cons.injEq] at htext
        rw [hexDigits_inj htext.1 htext.2.1, ih others (Nat.succ.inj hlength) htext.2.2]
  intro nodeId other hsame
  have hlength : nodeId.toList.length = other.toList.length := by
    rw [Vector.length_toList, Vector.length_toList]
  exact Vector.toList_inj.mp (hbytes _ _ hlength hsame)

omit [Double F] in
/-- The number and the node of a result can be read off its row. -/
theorem resultRow_nodeId {i j : ℕ} {result other : UnifiedSearchResult F}
    (hsame : resultRow i result = resultRow j other) : i = j ∧ result.nodeId = other.nodeId := by
  rw [resultRow, resultRow, Prod.mk.injEq, List.cons.injEq, SqlValue.text.injEq] at hsame
  exact ⟨hsame.1, hexText_injective hsame.2.1⟩

/-- A scan delivers the rest of the results in their order, each of them once, whatever happens between its rows. -/
theorem FtsSession.At.scanRows_eq {gaps : List (List FtsCall)} {rows : List (ℕ × List (SqlValue F))}
    (hat : st.At cursor results row)
    (hgaps : ∀ gap ∈ gaps, ∀ call ∈ gap, ¬call.Resets cursor ∧ call.advances cursor = false)
    (hlong : results.length < row + gaps.length) (hscan : st.scanRows cursor gaps = some (rows, next)) :
    rows = (results.mapIdx resultRow).drop row := by
  induction gaps generalizing st row rows with
  | nil =>
    obtain ⟨rfl, -⟩ := Prod.mk.inj (Option.some.inj hscan)
    rw [List.drop_eq_nil_of_le]
    rw [List.length_mapIdx]
    exact hlong.le
  | cons gap gaps ih =>
    rw [scanRows] at hscan
    obtain ⟨mid, hgap, hrest⟩ := Option.bind_eq_some_iff.mp hscan
    have hmine := hgaps gap List.mem_cons_self
    have hmid := hat.run (fun call hcall => (hmine call hcall).1) hgap
    have hstays : gap.countP (FtsCall.advances cursor) = 0 := by
      rw [List.countP_eq_zero]
      intro call hcall hadvances
      exact Bool.false_ne_true ((hmine call hcall).2.symm.trans hadvances)
    rw [hstays, Nat.add_zero] at hmid
    have hopened : mid.cursors[cursor]? = some (some ⟨results, row⟩) := hmid
    rw [hopened] at hrest
    dsimp only at hrest
    rw [FtsUringCursor.row?_eq] at hrest
    by_cases hrow : row < results.length
    · rw [List.getElem?_eq_getElem hrow, Option.map_some] at hrest
      obtain ⟨stepped, hstep, hothers⟩ := Option.bind_eq_some_iff.mp hrest
      obtain ⟨⟨others, last⟩, hlater, hanswer⟩ := Option.map_eq_some_iff.mp hothers
      obtain ⟨rfl, rfl⟩ := Prod.mk.inj hanswer
      have hnext := @FtsSession.At.step _ _ _ _ _ _ _ (.ftsNext cursor) hmid id hstep
      have hadvances : FtsCall.advances cursor (.ftsNext cursor) = true := decide_eq_true rfl
      rw [hadvances, if_pos rfl] at hnext
      rw [List.length_cons] at hlong
      rw [ih hnext (fun other hother => hgaps other (List.mem_cons_of_mem _ hother)) (by omega) hlater]
      have hlength : row < (results.mapIdx resultRow).length := by rwa [List.length_mapIdx]
      rw [List.drop_eq_getElem_cons hlength, List.getElem_mapIdx]
    · rw [List.getElem?_eq_none (not_lt.mp hrow)] at hrest
      obtain ⟨rfl, -⟩ := Prod.mk.inj (Option.some.inj hrest)
      rw [List.drop_eq_nil_of_le]
      rw [List.length_mapIdx]
      exact not_lt.mp hrow

/-- One step of a scan. -/
theorem FtsSession.At.exists_scanRows_cons {mid : FtsSession F} {gap : List FtsCall} {gaps : List (List FtsCall)}
    (hat : mid.At cursor results row) (hgap : runCalls FtsSession.step st gap = some mid)
    (hrest : ∀ other : FtsSession F, other.At cursor results (row + 1) →
      ∃ answer, other.scanRows cursor gaps = some answer) :
    ∃ answer, st.scanRows cursor (gap :: gaps) = some answer := by
  have hopened : mid.cursors[cursor]? = some (some ⟨results, row⟩) := hat
  rw [scanRows, hgap, Option.bind_some, hopened]
  dsimp only
  cases FtsUringCursor.row? ⟨results, row⟩ with
  | none => exact ⟨_, rfl⟩
  | some delivered =>
    have hstep := hat.withCursor_eq fun opened => some opened.ftsNext
    have hmoved : (mid.cursors.set cursor (some (FtsUringCursor.ftsNext ⟨results, row⟩)))[cursor]? =
        some (some ⟨results, row + 1⟩) := List.getElem?_set_self (List.getElem?_eq_some_iff.mp hopened).1
    obtain ⟨answer, hanswer⟩ := hrest { mid with
      cursors := mid.cursors.set cursor (some (FtsUringCursor.ftsNext ⟨results, row⟩)) } hmoved
    refine ⟨(delivered :: answer.1, answer.2), ?_⟩
    dsimp only
    rw [FtsSession.step, hstep, Option.bind_some, hanswer]
    rfl

/-- A scan without other calls comes back. -/
theorem FtsSession.At.exists_scanRows_nil (hat : st.At cursor results row) (n : ℕ) :
    ∃ answer, st.scanRows cursor (List.replicate n []) = some answer := by
  induction n generalizing st row with
  | zero => exact ⟨_, rfl⟩
  | succ n ih => exact hat.exists_scanRows_cons rfl fun other hother => ih hother

end Cursors

end FtsUring
