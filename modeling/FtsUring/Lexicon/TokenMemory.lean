import FtsUring.Lexicon.Tokenizer
import Mathlib.Data.List.GetD
import Mathlib.Logic.Function.Basic

/-!
# The tokenizer in memory

The caller of the tokenizer passes a buffer for the strings and an array for the pointers to them. Both are
seen here as the memory from the passed pointer on, without an end, so that a write behind the end of the
buffer or of the array shows. A token is the offset of its first byte in the buffer.
-/

namespace FtsUring

open Foundation

/-- The memory at `out_buf` and at `out_tokens`. -/
structure TokenMemory where
  outBuf : ℕ → UInt8
  outTokens : ℕ → ℕ

/-- The first steps of the loop that copies the text. -/
def copyText (text : CString) (outBuf : ℕ → UInt8) : ℕ → ℕ → UInt8
  | 0 => outBuf
  | i + 1 => Function.update (copyText text outBuf i) i (tokenByte (text.getD i 0))

/-- The loop that collects the tokens, from an index on, with the steps that are left. -/
def collectTokens (maxTokens : ℕ) (outBuf : ℕ → UInt8) :
    ℕ → ℕ → Bool → ℕ → (ℕ → ℕ) → ℕ × (ℕ → ℕ)
  | 0, _, _, tokenCount, outTokens => (tokenCount, outTokens)
  | steps + 1, i, inToken, tokenCount, outTokens =>
    if notNul (outBuf i) then
      if inToken then collectTokens maxTokens outBuf steps (i + 1) true tokenCount outTokens
      else if maxTokens ≤ tokenCount then (tokenCount, outTokens)
      else
        collectTokens maxTokens outBuf steps (i + 1) true (tokenCount + 1)
          (Function.update outTokens tokenCount i)
    else collectTokens maxTokens outBuf steps (i + 1) false tokenCount outTokens

/-- Split a text into tokens; the answer is their number. -/
def lexiconTokenizeInto (text : CString) (memory : TokenMemory) (bufSize maxTokens : ℕ) : ℕ × TokenMemory :=
  if bufSize = 0 ∨ maxTokens = 0 then (0, memory)
  else
    let copyLen := if text.length < bufSize - 1 then text.length else bufSize - 1
    let outBuf := Function.update (copyText text memory.outBuf copyLen) copyLen 0
    let (tokenCount, outTokens) := collectTokens maxTokens outBuf (copyLen + 1) 0 false 0 memory.outTokens
    (tokenCount, ⟨outBuf, outTokens⟩)

/-- A string and its NUL stand at an offset of the buffer. -/
structure StoresString (outBuf : ℕ → UInt8) (offset : ℕ) (string : CString) : Prop where
  bytes : (List.range' offset (string.length + 1)).map outBuf = string ++ [0]
  noNul : ∀ c ∈ string, c ≠ 0

/-- The first words of what fits of a text, in lower case. -/
def firstTokens (text : CString) (bufSize maxTokens : ℕ) : List CString :=
  ((words (text.take (min text.length (bufSize - 1)))).take maxTokens).map (List.map tolower)

/-- The tokens are the first words of what fits of the text, each a string inside the buffer, and nothing
is written behind the buffer or behind the array. -/
structure StoresTokens (text : CString) (bufSize maxTokens : ℕ) (memory : TokenMemory)
    (answer : ℕ × TokenMemory) : Prop where
  count : answer.1 = (firstTokens text bufSize maxTokens).length
  strings : ∀ j token, (firstTokens text bufSize maxTokens)[j]? = some token →
    answer.2.outTokens j + token.length < bufSize ∧
      StoresString answer.2.outBuf (answer.2.outTokens j) token
  buffer : ∀ i, bufSize ≤ i → answer.2.outBuf i = memory.outBuf i
  array : ∀ j, maxTokens ≤ j → answer.2.outTokens j = memory.outTokens j

/-- Two characters are separators, or the same letter or digit up to case. -/
def SameCharacter (c d : UInt8) : Prop :=
  isalnum c = isalnum d ∧ (isalnum c = true → tolower c = tolower d)

/-! ## The buffer -/

/-- The steps of the copying loop write one byte each. -/
theorem copyText_apply (text : CString) (outBuf : ℕ → UInt8) (steps i : ℕ) :
    copyText text outBuf steps i = if i < steps then tokenByte (text.getD i 0) else outBuf i := by
  induction steps with
  | zero => rfl
  | succ steps ih =>
    rw [copyText, Function.update_apply, ih]
    split_ifs with heq hlt hsucc hsucc
    · rw [heq]
    · omega
    · rfl
    · omega
    · omega
    · rfl

/-- The bytes that are written are those of the token buffer. -/
theorem map_range'_copyText (text : CString) (outBuf : ℕ → UInt8) {copyLen : ℕ}
    (hlength : copyLen ≤ text.length) :
    (List.range' 0 (copyLen + 1)).map (Function.update (copyText text outBuf copyLen) copyLen 0) =
      (text.take copyLen).map tokenByte ++ [0] := by
  rw [List.range'_1_concat, List.map_append]
  congr 1
  · apply List.ext_getElem
    · rw [List.length_map, List.length_map, List.length_range', List.length_take, min_eq_left hlength]
    · intro i hi hi'
      rw [List.length_map, List.length_range'] at hi
      have hne : i ≠ copyLen := hi.ne
      simp only [List.getElem_map, List.getElem_range', List.getElem_take, Nat.zero_add, Nat.one_mul,
        Function.update_of_ne hne, copyText_apply, if_pos hi]
      rw [List.getD_eq_getElem _ _ (hi.trans_le hlength)]
  · rw [Nat.zero_add, List.map_singleton, Function.update_self]

/-! ## The tokens -/

/-- The loop stores the pointers that the list of bytes gives, behind those that are stored already. -/
theorem collectTokens_spec (maxTokens : ℕ) (outBuf : ℕ → UInt8) (steps i : ℕ) (inToken : Bool)
    (tokenCount : ℕ) (outTokens : ℕ → ℕ) {found : List (List UInt8)}
    (hfound : scanTokens maxTokens ((List.range' i steps).map outBuf) inToken tokenCount = found) :
    (collectTokens maxTokens outBuf steps i inToken tokenCount outTokens).1 = tokenCount + found.length ∧
      (∀ j, j < tokenCount ∨ tokenCount + found.length ≤ j →
        (collectTokens maxTokens outBuf steps i inToken tokenCount outTokens).2 j = outTokens j) ∧
      ∀ j pointer, found[j]? = some pointer → ∃ offset,
        (collectTokens maxTokens outBuf steps i inToken tokenCount outTokens).2 (tokenCount + j) = offset ∧
          offset < i + steps ∧ (List.range' offset (i + steps - offset)).map outBuf = pointer := by
  induction steps generalizing i inToken tokenCount outTokens found with
  | zero =>
    subst hfound
    exact ⟨rfl, fun _ _ => rfl, fun j pointer hpointer => by cases hpointer⟩
  | succ steps ih =>
    have hend : i + 1 + steps = i + (steps + 1) := by omega
    rw [List.range'_succ, List.map_cons, scanTokens] at hfound
    rw [collectTokens]
    by_cases hbyte : notNul (outBuf i) = true
    · rw [if_pos hbyte] at hfound ⊢
      by_cases hin : inToken = true
      · rw [if_pos hin] at hfound ⊢
        rw [← hend]
        exact ih (i + 1) true tokenCount outTokens hfound
      · rw [if_neg hin] at hfound ⊢
        by_cases hfull : maxTokens ≤ tokenCount
        · rw [if_pos hfull] at hfound ⊢
          subst hfound
          exact ⟨rfl, fun _ _ => rfl, fun j pointer hpointer => by cases hpointer⟩
        · rw [if_neg hfull] at hfound ⊢
          obtain ⟨hcount, hkept, hstored⟩ := ih (i + 1) true (tokenCount + 1)
            (Function.update outTokens tokenCount i) rfl
          rw [← hfound, List.length_cons]
          refine ⟨hcount.trans (by omega), fun j hj => ?_, fun j pointer hpointer => ?_⟩
          · rw [hkept j (by omega), Function.update_of_ne (by omega)]
          · cases j with
            | zero =>
              have hfirst := hkept tokenCount (.inl (Nat.lt_succ_self _))
              rw [List.getElem?_cons_zero, Option.some.injEq] at hpointer
              refine ⟨i, ?_, by omega, ?_⟩
              · rw [Nat.add_zero tokenCount, hfirst, Function.update_self]
              · rw [Nat.add_sub_cancel_left, List.range'_succ, List.map_cons]
                exact hpointer
            | succ j =>
              rw [List.getElem?_cons_succ] at hpointer
              have hlater := hstored j pointer hpointer
              rw [hend] at hlater
              have hindex : tokenCount + (j + 1) = tokenCount + 1 + j := by omega
              rw [hindex]
              exact hlater
    · rw [if_neg hbyte] at hfound ⊢
      rw [← hend]
      exact ih (i + 1) false tokenCount outTokens hfound

/-- The string at an offset of a buffer that ends with a NUL. -/
theorem storesString_stringAt {outBuf : ℕ → UInt8} {offset last : ℕ} (hoffset : offset ≤ last)
    (hnul : outBuf last = 0) {pointer : List UInt8}
    (hpointer : (List.range' offset (last + 1 - offset)).map outBuf = pointer) :
    offset + (stringAt pointer).length ≤ last ∧ StoresString outBuf offset (stringAt pointer) := by
  have hlast : outBuf last ∈ pointer := by
    rw [← hpointer]
    exact List.mem_map_of_mem (List.mem_range'_1.mpr ⟨hoffset, by omega⟩)
  have hsplit := List.takeWhile_append_dropWhile (p := notNul) (l := pointer)
  cases hrest : pointer.dropWhile notNul with
  | nil =>
    rw [hrest, List.append_nil] at hsplit
    rw [← hsplit] at hlast
    have hbyte := List.mem_takeWhile_imp hlast
    rw [hnul] at hbyte
    cases hbyte
  | cons c rest =>
    have hc : c = 0 := by
      have hhead := List.head?_dropWhile_not notNul pointer
      rw [hrest] at hhead
      simpa [notNul] using hhead
    subst hc
    rw [hrest] at hsplit
    have hlength : (stringAt pointer).length + (rest.length + 1) = last + 1 - offset := by
      have hlengths := congrArg List.length hsplit
      rw [List.length_append, List.length_cons, ← hpointer, List.length_map, List.length_range'] at hlengths
      rw [← hpointer]
      exact hlengths
    refine ⟨by omega, ?_, ?_⟩
    · have hinitial : pointer.take ((stringAt pointer).length + 1) = stringAt pointer ++ [0] := by
        have hsplit' : stringAt pointer ++ 0 :: rest = pointer := hsplit
        calc pointer.take ((stringAt pointer).length + 1)
            = (stringAt pointer ++ 0 :: rest).take ((stringAt pointer).length + 1) := by rw [hsplit']
          _ = stringAt pointer ++ [0] := by rw [List.take_length_add_append, List.take_succ_cons, List.take_zero]
      have htake := congrArg (List.take ((stringAt pointer).length + 1)) hpointer
      rwa [← List.map_take, List.take_range'_of_length_ge (by omega), hinitial] at htake
    · intro c hc
      simpa [notNul] using List.mem_takeWhile_imp hc

/-! ## The whole tokenizer -/

/-- No more than the text can be taken of it. -/
theorem take_min_length (text : CString) (count : ℕ) : text.take (min text.length count) = text.take count := by
  rw [Nat.min_comm]
  exact List.take_eq_take_min.symm

/-- The first words of what fits of the text are the tokens. -/
theorem firstTokens_eq (text : CString) {bufSize : ℕ} (hbuf : bufSize ≠ 0) (maxTokens : ℕ) :
    firstTokens text bufSize maxTokens = lexiconTokenize text bufSize maxTokens := by
  rw [lexiconTokenize_eq text hbuf, firstTokens, take_min_length]

/-- A text is split into its tokens. -/
theorem storesTokens_lexiconTokenizeInto (text : CString) (memory : TokenMemory) {bufSize maxTokens : ℕ}
    (hbuf : bufSize ≠ 0) (hmax : maxTokens ≠ 0) :
    StoresTokens text bufSize maxTokens memory (lexiconTokenizeInto text memory bufSize maxTokens) := by
  set copyLen := min text.length (bufSize - 1) with hcopyLen
  set outBuf := Function.update (copyText text memory.outBuf copyLen) copyLen 0 with houtBuf
  have hinto : lexiconTokenizeInto text memory bufSize maxTokens =
      ((collectTokens maxTokens outBuf (copyLen + 1) 0 false 0 memory.outTokens).1,
        ⟨outBuf, (collectTokens maxTokens outBuf (copyLen + 1) 0 false 0 memory.outTokens).2⟩) := by
    have hlength : (if text.length < bufSize - 1 then text.length else bufSize - 1) = copyLen := by
      split_ifs <;> omega
    rw [lexiconTokenizeInto, if_neg (by omega)]
    dsimp only
    rw [hlength]
  have hbytes : (List.range' 0 (copyLen + 1)).map outBuf = tokenBuffer text bufSize := by
    rw [houtBuf, map_range'_copyText text memory.outBuf (min_le_left _ _), tokenBuffer_eq,
      take_min_length]
  obtain ⟨hcount, hkept, hstored⟩ := collectTokens_spec maxTokens outBuf (copyLen + 1) 0 false 0
    memory.outTokens (congrArg (fun bytes => scanTokens maxTokens bytes false 0) hbytes)
  have htokens : firstTokens text bufSize maxTokens =
      (scanTokens maxTokens (tokenBuffer text bufSize) false 0).map stringAt := by
    rw [firstTokens_eq text hbuf, lexiconTokenize, if_neg (by omega)]
  have hfew : (scanTokens maxTokens (tokenBuffer text bufSize) false 0).length ≤ maxTokens := by
    rw [← List.length_map stringAt, ← htokens, firstTokens, List.length_map, List.length_take]
    exact min_le_left _ _
  rw [hinto]
  refine ⟨?_, fun j token htoken => ?_, fun i hi => ?_, fun j hj => ?_⟩
  · rw [htokens, List.length_map]
    simpa using hcount
  · rw [htokens, List.getElem?_map, Option.map_eq_some_iff] at htoken
    obtain ⟨pointer, hpointer, rfl⟩ := htoken
    obtain ⟨offset, hoffset, hlt, hsuffix⟩ := hstored j pointer hpointer
    rw [Nat.zero_add] at hoffset hlt hsuffix
    have hnul : outBuf copyLen = 0 := Function.update_self _ _ _
    obtain ⟨hinside, hstring⟩ := storesString_stringAt (Nat.lt_succ_iff.mp hlt) hnul hsuffix
    dsimp only
    rw [hoffset]
    exact ⟨by omega, hstring⟩
  · have hne : i ≠ copyLen := by omega
    dsimp only
    rw [houtBuf, Function.update_of_ne hne, copyText_apply, if_neg (by omega)]
  · exact hkept j (.inr (by omega))

/-- Texts with the same characters, up to case and separators, have the same words, up to case. -/
theorem map_words_eq_of_sameCharacters {text other : CString} (h : List.Forall₂ SameCharacter text other) :
    (words text).map (List.map tolower) = (words other).map (List.map tolower) := by
  have hbytes : text.map tokenByte = other.map tokenByte := by
    induction h with
    | nil => rfl
    | @cons c d text other hsame _ ih =>
      rw [List.map_cons, List.map_cons, ih, tokenByte, tokenByte, ← hsame.1]
      split_ifs with hletter
      · rw [hsame.2 hletter]
      · rfl
  rw [← runs_notNul_tokenByte, ← runs_notNul_tokenByte, hbytes]

/-- The tokenizer stores the first words of what fits of a text, in order and in lower case, and writes
neither behind the buffer nor behind the array. Texts that fit into the buffer and differ only in case and
in separators have the same tokens. -/
theorem tokenizes (text : CString) (memory : TokenMemory) {bufSize maxTokens : ℕ} (hbuf : 1 ≤ bufSize)
    (hmax : 1 ≤ maxTokens) :
    StoresTokens text bufSize maxTokens memory (lexiconTokenizeInto text memory bufSize maxTokens) ∧
      ∀ other, text.length < bufSize → other.length < bufSize → List.Forall₂ SameCharacter text other →
        firstTokens other bufSize maxTokens = firstTokens text bufSize maxTokens := by
  refine ⟨storesTokens_lexiconTokenizeInto text memory (by omega) (by omega), fun other htext hother hsame => ?_⟩
  rw [firstTokens, firstTokens, min_eq_left (by omega), min_eq_left (by omega), List.take_length,
    List.take_length, List.map_take, List.map_take, map_words_eq_of_sameCharacters hsame]

/-- Two tokens of `No, 7!` in ten bytes; `nO. 7?` has the same. -/
theorem tokenizes_ten :
    StoresTokens [0x4e, 0x6f, 0x2c, 0x20, 0x37, 0x21] 10 2 ⟨fun _ => 0, fun _ => 0⟩
        (lexiconTokenizeInto [0x4e, 0x6f, 0x2c, 0x20, 0x37, 0x21] ⟨fun _ => 0, fun _ => 0⟩ 10 2) ∧
      firstTokens [0x6e, 0x4f, 0x2e, 0x20, 0x37, 0x3f] 10 2 =
        firstTokens [0x4e, 0x6f, 0x2c, 0x20, 0x37, 0x21] 10 2 := by
  obtain ⟨hstores, hsame⟩ := tokenizes [0x4e, 0x6f, 0x2c, 0x20, 0x37, 0x21] ⟨fun _ => 0, fun _ => 0⟩
    (by decide : 1 ≤ 10) (by decide : 1 ≤ 2)
  refine ⟨hstores, hsame [0x6e, 0x4f, 0x2e, 0x20, 0x37, 0x3f] (by decide) (by decide) ?_⟩
  repeat' constructor
  all_goals decide

end FtsUring
