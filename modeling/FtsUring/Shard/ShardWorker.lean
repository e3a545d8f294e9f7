import FtsUring.Foundation.Program
import FtsUring.Shard.Score

/-!
# Decoding a shard file

The first bytes of a shard file are read into a buffer, and the postings in it are scored one by one. How many
there are is a number in the file. A read that ends before the last of them is noticed, and nothing is done
about it: the loop goes on over what lies in the buffer behind the bytes read, and behind the buffer.
-/

namespace FtsUring

open Foundation

variable {F : Type} [Double F]

/-- A posting of a shard file. -/
structure Posting where
  nodeId : Vector UInt8 16
  termFrequencies : Vector UInt32 maxFtsFields
  documentLengths : Vector UInt32 maxFtsFields
  deriving DecidableEq

/-- `sizeof(Posting)`. -/
def postingSize : ℕ := 48

/-- The posting at an offset. -/
def shardPostingAt (buffer : List UInt8) (offset : ℕ) : Posting where
  nodeId := Vector.ofFn fun i => (slice buffer offset 16).getD i 0
  termFrequencies := wordsAt buffer (offset + 16) maxFtsFields
  documentLengths := wordsAt buffer (offset + 32) maxFtsFields

/-- A line that is printed: a node, its score and its term frequencies. -/
structure ScoredPosting (F : Type) where
  nodeId : Vector UInt8 16
  score : F
  termFrequencies : Vector UInt32 maxFtsFields

/-- The line of a posting. -/
def Posting.scored (params : Bm25fParams F) (p : Posting) : ScoredPosting F where
  nodeId := p.nodeId
  score := computeBm25fScore p.termFrequencies p.documentLengths params
  termFrequencies := p.termFrequencies

/-! ## The decoder -/

/-- What the decoder does: it loads bytes of the buffer, and it prints. -/
inductive ShardCommand (F : Type)
  | load (offset width : ℕ)
  | print (line : ScoredPosting F)

/-- The answers: the bytes that were loaded. -/
abbrev ShardCommand.Answer : ShardCommand F → Type
  | .load _ _ => List UInt8
  | .print _ => Unit

/-- The language of the decoder. -/
abbrev shardLanguage (F : Type) [Double F] : CommandLanguage := ⟨ShardCommand F, ShardCommand.Answer⟩

/-- Load bytes. -/
def loadBytes (offset width : ℕ) : Program (shardLanguage F) (List UInt8) :=
  Program.perform (L := shardLanguage F) (.load offset width)

/-- Print a line. -/
def printLine (line : ScoredPosting F) : Program (shardLanguage F) Unit :=
  Program.perform (L := shardLanguage F) (.print line)

/-- The length of a field, which is read if the field counts. -/
def loadDocLen (params : Bm25fParams F) (tf : Vector UInt32 maxFtsFields) (offset : ℕ) (i : Fin maxFtsFields) :
    Program (shardLanguage F) UInt32 :=
  if 0 < params.weights.get i ∧ 0 < params.avgdl.get i ∧ 0 < tf.get i then do
    let bytes ← loadBytes (offset + 32 + 4 * i) 4
    pure (UInt32.ofNat (leValue bytes))
  else pure 0

/-- Score the posting at an offset. -/
def scorePosting (params : Bm25fParams F) (offset : ℕ) : Program (shardLanguage F) (ScoredPosting F) := do
  let frequencies ← loadBytes (offset + 16) 16
  let tf := wordsAt frequencies 0 maxFtsFields
  let first ← loadDocLen params tf offset 0
  let second ← loadDocLen params tf offset 1
  let third ← loadDocLen params tf offset 2
  let fourth ← loadDocLen params tf offset 3
  let nodeId ← loadBytes offset 16
  pure {
    nodeId := Vector.ofFn fun i => nodeId.getD i 0
    score := computeBm25fScore tf #v[first, second, third, fourth] params
    termFrequencies := tf }

/-- Score the postings at some offsets one by one. -/
def scorePostings (params : Bm25fParams F) (offsets : List ℕ) : Program (shardLanguage F) Unit :=
  forM offsets fun offset => scorePosting params offset >>= printLine

/-- Score the postings in the buffer. The comparison of `bytesRead` with the size of all of them has an
empty branch. -/
def processShardBuffer (bytesRead : ℕ) (params : Bm25fParams F) : Program (shardLanguage F) Unit :=
  if bytesRead < 8 then pure ()
  else do
    let numPostings ← loadBytes 4 4
    scorePostings params ((List.range (leValue numPostings)).map fun i => 8 + postingSize * i)

/-! ## The buffer -/

/-- A buffer, the loads from it and the lines printed. -/
structure ShardBuffer (F : Type) where
  bytes : List UInt8
  loads : List (ℕ × ℕ)
  printed : List (ScoredPosting F)

/-- A load behind the buffer has no meaning. -/
def shardHandler : Handler (shardLanguage F) (ShardBuffer F) where
  run
    | .load offset width, s =>
      if offset + width ≤ s.bytes.length then
        some (slice s.bytes offset width, { s with loads := s.loads ++ [(offset, width)] })
      else none
    | .print line, s => some ((), { s with printed := s.printed ++ [line] })

/-- The decoder scores what was read: the postings of which all bytes were read, and it loads no byte behind
them. -/
def ScoresWhatWasRead (bytes : List UInt8) (bytesRead : ℕ) (params : Bm25fParams F) : Prop :=
  shardHandler.Ensures (processShardBuffer bytesRead params) ⟨bytes, [], []⟩ fun _ t =>
    t.printed = ((List.range (min (field bytes 4 4) ((bytesRead - 8) / postingSize))).map fun i =>
      8 + postingSize * i).map (fun offset => (shardPostingAt bytes offset).scored params) ∧
    ∀ access ∈ t.loads, access.1 + access.2 ≤ bytesRead

/-! ## Loading -/

section Loading

omit [Double F]

/-- What loads below a limit leave behind. -/
structure Loaded (s t : ShardBuffer F) (limit : ℕ) : Prop where
  bytes : t.bytes = s.bytes
  printed : t.printed = s.printed
  loads : ∀ access ∈ t.loads, access ∈ s.loads ∨ access.1 + access.2 ≤ limit

/-- Nothing was loaded. -/
theorem Loaded.refl (s : ShardBuffer F) (limit : ℕ) : Loaded s s limit :=
  ⟨rfl, rfl, fun _ h => .inl h⟩

/-- Loads in sequence. -/
theorem Loaded.trans {s t u : ShardBuffer F} {limit : ℕ} (hfirst : Loaded s t limit)
    (hsecond : Loaded t u limit) : Loaded s u limit where
  bytes := hsecond.bytes.trans hfirst.bytes
  printed := hsecond.printed.trans hfirst.printed
  loads access h := (hsecond.loads access h).elim (hfirst.loads access) .inr

end Loading

/-- The program loads below a limit only, and its result has a property. -/
def LoadsBelow (bytes : List UInt8) (limit : ℕ) {α : Type} (p : Program (shardLanguage F) α) (post : α → Prop) :
    Prop :=
  ∀ s : ShardBuffer F, s.bytes = bytes → shardHandler.Ensures p s fun value t => post value ∧ Loaded s t limit

variable {bytes : List UInt8} {limit : ℕ} {params : Bm25fParams F}

/-- A finished program. -/
theorem LoadsBelow.pure {α : Type} {value : α} {post : α → Prop} (hpost : post value) :
    LoadsBelow bytes limit (Pure.pure value : Program (shardLanguage F) α) post :=
  fun s _ => .pure ⟨hpost, .refl s limit⟩

/-- Sequencing. -/
theorem LoadsBelow.bind {α β : Type} {p : Program (shardLanguage F) α} {f : α → Program (shardLanguage F) β}
    {mid : α → Prop} {post : β → Prop} (hp : LoadsBelow bytes limit p mid)
    (hf : ∀ value, mid value → LoadsBelow bytes limit (f value) post) :
    LoadsBelow bytes limit (p >>= f) post := by
  intro s hs
  refine (hp s hs).bind ?_
  rintro value t ⟨hmid, hfirst⟩
  refine (hf value hmid t (hfirst.bytes.trans hs)).mono ?_
  rintro result u ⟨hpost, hsecond⟩
  exact ⟨hpost, hfirst.trans hsecond⟩

/-- A load. -/
theorem loadsBelow_loadBytes {offset width : ℕ} (hlimit : offset + width ≤ limit)
    (hbytes : limit ≤ bytes.length) :
    LoadsBelow bytes limit (loadBytes offset width : Program (shardLanguage F) _) fun loaded =>
      loaded = slice bytes offset width := by
  intro s hs
  subst hs
  have hload : shardHandler.exec (loadBytes offset width : Program (shardLanguage F) _) s =
      some (slice s.bytes offset width, { s with loads := s.loads ++ [(offset, width)] }) := by
    rw [loadBytes, Handler.exec_perform]
    exact if_pos (hlimit.trans hbytes)
  refine .of_exec hload ⟨rfl, rfl, rfl, fun access haccess => ?_⟩
  rw [List.mem_append, List.mem_singleton] at haccess
  cases haccess with
  | inl hbefore => exact .inl hbefore
  | inr hnow =>
    subst hnow
    exact .inr hlimit

/-- The length of a field that counts is the one in the buffer. -/
theorem loadsBelow_loadDocLen (tf : Vector UInt32 maxFtsFields) {offset : ℕ} (i : Fin maxFtsFields)
    (hbytes : offset + postingSize ≤ bytes.length) :
    LoadsBelow bytes (offset + postingSize) (loadDocLen params tf offset i) fun docLen =>
      0 < params.weights.get i ∧ 0 < params.avgdl.get i ∧ 0 < tf.get i →
        docLen = (shardPostingAt bytes offset).documentLengths[i] := by
  have hi := i.isLt
  unfold loadDocLen
  split
  · refine (loadsBelow_loadBytes (by simp only [postingSize, maxFtsFields] at hi ⊢; omega) hbytes).bind ?_
    intro _ hloaded
    subst hloaded
    refine .pure fun _ => ?_
    simp [shardPostingAt, wordsAt, field]
  · next hskipped => exact .pure fun hcounted => absurd hcounted hskipped

/-- A posting in the buffer is scored. -/
theorem loadsBelow_scorePosting {offset : ℕ} (hbytes : offset + postingSize ≤ bytes.length) :
    LoadsBelow bytes (offset + postingSize) (scorePosting params offset) fun line =>
      line = (shardPostingAt bytes offset).scored params := by
  unfold scorePosting
  refine (loadsBelow_loadBytes (by simp only [postingSize]; omega) hbytes).bind fun frequencies hfrequencies => ?_
  have htf : wordsAt frequencies 0 maxFtsFields = (shardPostingAt bytes offset).termFrequencies := by
    apply Vector.ext
    intro i hi
    have hwidth : 0 + 4 * i + 4 ≤ 16 := by
      unfold maxFtsFields at hi
      omega
    rw [hfrequencies, shardPostingAt, wordsAt, wordsAt, Vector.getElem_ofFn, Vector.getElem_ofFn,
      field_slice _ _ _ _ _ hwidth, Nat.zero_add]
  rw [htf]
  refine (loadsBelow_loadDocLen _ 0 hbytes).bind fun first hfirst => ?_
  refine (loadsBelow_loadDocLen _ 1 hbytes).bind fun second hsecond => ?_
  refine (loadsBelow_loadDocLen _ 2 hbytes).bind fun third hthird => ?_
  refine (loadsBelow_loadDocLen _ 3 hbytes).bind fun fourth hfourth => ?_
  refine (loadsBelow_loadBytes (by simp only [postingSize]; omega) hbytes).bind fun nodeId hnodeId => ?_
  refine .pure ?_
  have hscore : computeBm25fScore (shardPostingAt bytes offset).termFrequencies #v[first, second, third, fourth]
      params = ((shardPostingAt bytes offset).scored params).score := by
    refine computeBm25fScore_congr fun i hcounted => ?_
    fin_cases i
    · exact hfirst hcounted
    · exact hsecond hcounted
    · exact hthird hcounted
    · exact hfourth hcounted
  rw [hscore, hnodeId]
  rfl

/-- A line is printed. -/
theorem exec_printLine (line : ScoredPosting F) (s : ShardBuffer F) :
    shardHandler.exec (printLine line) s = some ((), { s with printed := s.printed ++ [line] }) := by
  rw [printLine, Handler.exec_perform]
  rfl

/-- The postings at some offsets in the buffer are scored one by one. -/
theorem ensures_scorePostings (offsets : List ℕ) (hlimit : ∀ offset ∈ offsets, offset + postingSize ≤ limit)
    (hbytes : limit ≤ bytes.length) (s : ShardBuffer F) (hs : s.bytes = bytes) :
    shardHandler.Ensures (scorePostings params offsets) s fun _ t =>
      t.printed = s.printed ++ offsets.map (fun offset => (shardPostingAt bytes offset).scored params) ∧
      ∀ access ∈ t.loads, access ∈ s.loads ∨ access.1 + access.2 ≤ limit := by
  induction offsets generalizing s with
  | nil => exact .pure ⟨(List.append_nil _).symm, fun access h => .inl h⟩
  | cons offset offsets ih =>
    have hoffset := hlimit offset List.mem_cons_self
    rw [scorePostings, List.forM_cons, ← scorePostings]
    have hfirst : shardHandler.Ensures (scorePosting params offset >>= printLine) s fun _ t =>
        t.bytes = bytes ∧ t.printed = s.printed ++ [(shardPostingAt bytes offset).scored params] ∧
          ∀ access ∈ t.loads, access ∈ s.loads ∨ access.1 + access.2 ≤ limit := by
      refine (loadsBelow_scorePosting (hoffset.trans hbytes) s hs).bind fun line t hscored => ?_
      refine .of_exec (exec_printLine line t) ⟨hscored.2.bytes.trans hs, ?_, fun access h => ?_⟩
      · rw [hscored.1, hscored.2.printed]
      · exact (hscored.2.loads access h).imp_right fun hend => hend.trans hoffset
    refine hfirst.bind fun _ t ht => ?_
    refine (ih (fun next hnext => hlimit next (List.mem_cons_of_mem _ hnext)) t ht.1).mono fun _ u hu => ?_
    refine ⟨?_, fun access h => ?_⟩
    · rw [hu.1, ht.2.1, List.append_assoc, List.map_cons]
      rfl
    · exact (hu.2 access h).elim (ht.2.2 access) .inr

/-! ## Reading too far -/

/-- A command that prints nothing. -/
def ShardCommand.Silent : ShardCommand F → Prop
  | .load _ _ => True
  | .print _ => False

/-- Scoring prints nothing. -/
theorem silent_scorePosting (offset : ℕ) :
    (scorePosting params offset).Calls (ShardCommand.Silent (F := F)) := by
  have hload : ∀ start width, (loadBytes start width : Program (shardLanguage F) _).Calls ShardCommand.Silent :=
    fun _ _ => Program.Calls.perform trivial
  have hdocLen : ∀ tf i, (loadDocLen params tf offset i).Calls (ShardCommand.Silent (F := F)) := by
    intro tf i
    unfold loadDocLen
    split
    · exact (hload _ _).bind fun _ => .pure _
    · exact .pure _
  unfold scorePosting
  exact (hload _ _).bind fun _ => (hdocLen _ _).bind fun _ => (hdocLen _ _).bind fun _ =>
    (hdocLen _ _).bind fun _ => (hdocLen _ _).bind fun _ => (hload _ _).bind fun _ => .pure _

/-- A run over some offsets that ends has printed a line for each. -/
theorem length_printed_scorePostings (offsets : List ℕ) {s t : ShardBuffer F} {u : Unit}
    (hexec : shardHandler.exec (scorePostings params offsets) s =
      some (u, t)) : t.printed.length = s.printed.length + offsets.length := by
  induction offsets generalizing s with
  | nil =>
    cases hexec
    rfl
  | cons offset offsets ih =>
    rw [scorePostings, List.forM_cons, ← scorePostings, Handler.exec_bind_eq_some] at hexec
    obtain ⟨_, mid, hfirst, hrest⟩ := hexec
    rw [Handler.exec_bind_eq_some] at hfirst
    obtain ⟨line, scored, hscore, hprint⟩ := hfirst
    have hkeeps : ∀ command, command.Silent → ∀ state answer state', state.printed = s.printed →
        shardHandler.run command state = some (answer, state') → state'.printed = s.printed := by
      intro command hcommand state answer state' hstate hrun
      cases command with
      | load start width =>
        simp only [shardHandler, Option.ite_none_right_eq_some, Option.some.injEq, Prod.mk.injEq] at hrun
        exact hrun.2.2 ▸ hstate
      | print line => exact hcommand.elim
    have hsilent : scored.printed = s.printed := (silent_scorePosting offset).exec hkeeps rfl hscore
    rw [exec_printLine, Option.some.injEq, Prod.mk.injEq] at hprint
    rw [ih hrest, ← hprint.2, hsilent, List.length_append, List.length_cons, List.length_cons]
    simp only [List.length_nil]
    omega

/-- The number of postings is loaded, and all of them are scored. -/
theorem processShardBuffer_eq {bytesRead : ℕ} (hheader : 8 ≤ bytesRead) :
    processShardBuffer bytesRead params = loadBytes 4 4 >>= fun numPostings =>
      scorePostings params ((List.range (leValue numPostings)).map fun i => 8 + postingSize * i) := by
  rw [processShardBuffer, if_neg (not_lt.mpr hheader)]

/-- If all postings that the file counts were read, they are scored. -/
theorem scoresWhatWasRead_of_le {bytesRead : ℕ} (hread : bytesRead ≤ bytes.length)
    (hall : 8 + postingSize * field bytes 4 4 ≤ bytesRead) : ScoresWhatWasRead bytes bytesRead params := by
  have hheader : 8 ≤ bytesRead := (Nat.le_add_right _ _).trans hall
  have hcount : min (field bytes 4 4) ((bytesRead - 8) / postingSize) = field bytes 4 4 := by
    apply min_eq_left
    rw [Nat.le_div_iff_mul_le (by decide), Nat.mul_comm]
    exact Nat.le_sub_of_add_le' hall
  unfold ScoresWhatWasRead
  rw [processShardBuffer_eq hheader, hcount]
  refine (loadsBelow_loadBytes (show 4 + 4 ≤ bytesRead from hheader) hread _ rfl).bind fun numPostings t hloaded => ?_
  rw [hloaded.1]
  refine (ensures_scorePostings _ ?_ hread t hloaded.2.bytes).mono fun _ u hu => ⟨?_, fun access h => ?_⟩
  · intro offset hoffset
    obtain ⟨i, hi, rfl⟩ := List.mem_map.mp hoffset
    have hlt : i + 1 ≤ field bytes 4 4 := List.mem_range.mp hi
    calc 8 + postingSize * i + postingSize = 8 + postingSize * (i + 1) := by rw [Nat.mul_succ, Nat.add_assoc]
      _ ≤ 8 + postingSize * field bytes 4 4 := by gcongr
      _ ≤ bytesRead := hall
  · rw [hu.1, hloaded.2.printed, List.nil_append]
    rfl
  · exact (hu.2 access h).elim (fun hbefore => (hloaded.2.loads access hbefore).resolve_left List.not_mem_nil) id

/-- If the decoder scores what was read, then all postings that the file counts were read. -/
theorem ScoresWhatWasRead.le {bytesRead : ℕ} (h : ScoresWhatWasRead bytes bytesRead params)
    (hread : bytesRead ≤ bytes.length) (hheader : 8 ≤ bytesRead) :
    8 + postingSize * field bytes 4 4 ≤ bytesRead := by
  obtain ⟨value, t, hexec, hprinted, -⟩ := h
  obtain ⟨numPostings, mid, hload, hcount, hloaded⟩ :=
    loadsBelow_loadBytes (show 4 + 4 ≤ bytesRead from hheader) hread (⟨bytes, [], []⟩ : ShardBuffer F) rfl
  rw [processShardBuffer_eq hheader, Handler.exec_bind, hload, Option.bind_some] at hexec
  have hlength := length_printed_scorePostings _ hexec
  rw [hprinted, hloaded.printed, hcount, List.length_map, List.length_map, List.length_range, List.length_map,
    List.length_range, List.length_nil, Nat.zero_add] at hlength
  have hle : field bytes 4 4 ≤ (bytesRead - 8) / postingSize := min_eq_left_iff.mp hlength
  rw [Nat.le_div_iff_mul_le (by decide), Nat.mul_comm] at hle
  omega

/-- The decoder scores what was read exactly if that is no header, or all postings that the file counts. -/
theorem scoresWhatWasRead_iff (bytes : List UInt8) (bytesRead : ℕ) (hread : bytesRead ≤ bytes.length)
    (params : Bm25fParams F) :
    ScoresWhatWasRead bytes bytesRead params ↔
      bytesRead < 8 ∨ 8 + postingSize * field bytes 4 4 ≤ bytesRead := by
  constructor
  · intro h
    by_cases hheader : 8 ≤ bytesRead
    · exact .inr (h.le hread hheader)
    · exact .inl (not_le.mp hheader)
  · intro h
    cases h with
    | inr hall => exact scoresWhatWasRead_of_le hread hall
    | inl hshort =>
      have hnone : (bytesRead - 8) / postingSize = 0 := by
        rw [Nat.sub_eq_zero_of_le hshort.le, Nat.zero_div]
      unfold ScoresWhatWasRead
      rw [processShardBuffer, if_pos hshort, hnone, Nat.min_zero]
      exact .pure ⟨rfl, fun access h => absurd h List.not_mem_nil⟩

/-- A buffer into which a file with one posting was read. -/
def onePostingBuffer : List UInt8 := [7, 0, 0, 0, 1, 0, 0, 0] ++ List.replicate 4088 0

/-- The size of that buffer. -/
theorem length_onePostingBuffer : onePostingBuffer.length = 4096 := by
  rw [onePostingBuffer, List.length_append, List.length_replicate]
  rfl

/-- The whole posting was read. -/
theorem scoresWhatWasRead_iff_whole : ScoresWhatWasRead onePostingBuffer 56 exactParams :=
  (scoresWhatWasRead_iff onePostingBuffer 56 (by rw [length_onePostingBuffer]; decide) exactParams).mpr
    (.inr (by decide))

/-- Only the header was read, and a posting is scored. -/
theorem not_scoresWhatWasRead : ¬ScoresWhatWasRead onePostingBuffer 8 exactParams := by
  intro h
  have hle := h.le (by rw [length_onePostingBuffer]; decide) le_rfl
  exact absurd hle (by decide)

end FtsUring
