import FtsUring.Foundation.Runs
import FtsUring.Lexicon.Lexicon

/-!
# The tokenizer

A text is copied into a buffer, in lower case and with a NUL for every character that is neither a letter
nor a digit. The tokens are pointers to the strings in the buffer. The buffer and the number of tokens are
bounded, and what does not fit is dropped.
-/

namespace FtsUring

open Foundation

/-- `isalnum` for ASCII. -/
def isalnum (c : UInt8) : Bool :=
  (0x30 ≤ c && c ≤ 0x39) || (0x41 ≤ c && c ≤ 0x5a) || (0x61 ≤ c && c ≤ 0x7a)

/-- `tolower` for ASCII. -/
def tolower (c : UInt8) : UInt8 := if 0x41 ≤ c ∧ c ≤ 0x5a then c + 0x20 else c

/-- What is written for a character of the text. -/
def tokenByte (c : UInt8) : UInt8 := if isalnum c then tolower c else 0

/-- The part of the buffer that is written. -/
def tokenBuffer (text : CString) (bufSize : ℕ) : List UInt8 :=
  let copyLen := if text.length < bufSize - 1 then text.length else bufSize - 1
  (text.take copyLen).map tokenByte ++ [0]

/-- Whether a byte is not the NUL. -/
def notNul (c : UInt8) : Bool := c ≠ 0

/-- The string at a pointer into the buffer; a pointer is the rest of the buffer. -/
def stringAt (pointer : List UInt8) : CString := pointer.takeWhile notNul

/-- The loop over the buffer, with `in_token` and `token_count`. -/
def scanTokens (maxTokens : ℕ) : List UInt8 → Bool → ℕ → List (List UInt8)
  | [], _, _ => []
  | c :: rest, inToken, tokenCount =>
    if notNul c then
      if inToken then scanTokens maxTokens rest true tokenCount
      else if maxTokens ≤ tokenCount then []
      else (c :: rest) :: scanTokens maxTokens rest true (tokenCount + 1)
    else scanTokens maxTokens rest false tokenCount

/-- Split a text into tokens. -/
def lexiconTokenize (text : CString) (bufSize maxTokens : ℕ) : List CString :=
  if bufSize = 0 ∨ maxTokens = 0 then []
  else (scanTokens maxTokens (tokenBuffer text bufSize) false 0).map stringAt

/-! ## Words -/

/-- The words of a text. -/
def words (text : CString) : List CString := runs isalnum text

/-- A maximal run of letters and digits. -/
def IsWord (word text : CString) : Prop := IsRun isalnum word text

/-- The words are the maximal runs. -/
theorem mem_words_iff {text word : CString} : word ∈ words text ↔ IsWord word text := mem_runs_iff

/-- The characters of words are the ones that are not replaced by a NUL. -/
theorem notNul_tokenByte (c : UInt8) : notNul (tokenByte c) = isalnum c := by
  have hall : ∀ n : Fin 256, notNul (tokenByte (UInt8.ofNat n)) = isalnum (UInt8.ofNat n) := by
    decide +kernel
  have hc := hall ⟨c.toNat, c.toNat_lt⟩
  rwa [UInt8.ofNat_toNat] at hc

/-- The part of the text that is copied. -/
theorem tokenBuffer_eq (text : CString) (bufSize : ℕ) :
    tokenBuffer text bufSize = (text.take (bufSize - 1)).map tokenByte ++ [0] := by
  rw [tokenBuffer]
  split_ifs with hlength
  · rw [List.take_length, List.take_of_length_le hlength.le]
  · rfl

/-- The string at a pointer ends at the NUL at the end of the buffer, or before. -/
theorem stringAt_append (bytes : List UInt8) : stringAt (bytes ++ [0]) = bytes.takeWhile notNul := by
  induction bytes with
  | nil => rfl
  | cons c rest ih =>
    rw [stringAt] at ih
    rw [stringAt, List.cons_append, List.takeWhile_cons, List.takeWhile_cons, ih]

/-- The loop finds the runs of characters that are not NUL; in a token, it finds those after it. -/
theorem map_stringAt_scanTokens (maxTokens : ℕ) (bytes : List UInt8) (inToken : Bool) (tokenCount : ℕ) :
    (scanTokens maxTokens (bytes ++ [0]) inToken tokenCount).map stringAt =
      (runs notNul (if inToken then bytes.dropWhile notNul else bytes)).take
        (maxTokens - tokenCount) := by
  induction bytes generalizing inToken tokenCount with
  | nil => cases inToken <;> simp [scanTokens, notNul]
  | cons c rest ih =>
    rw [List.cons_append, scanTokens]
    by_cases hc : notNul c = true
    · rw [if_pos hc]
      cases inToken with
      | true => rw [if_pos rfl, ih, if_pos rfl, if_pos rfl, List.dropWhile_cons_of_pos hc]
      | false =>
        rw [if_neg Bool.false_ne_true, if_neg Bool.false_ne_true, runs_cons_of_pos hc]
        split_ifs with hfull
        · rw [Nat.sub_eq_zero_of_le hfull]
          rfl
        · have hroom : maxTokens - tokenCount = (maxTokens - (tokenCount + 1)) + 1 := by omega
          rw [List.map_cons, ih, hroom, List.take_succ_cons, if_pos rfl, ← List.cons_append,
            stringAt_append, List.takeWhile_cons_of_pos hc]
    · have hdrop : (if inToken then (c :: rest).dropWhile notNul else c :: rest) = c :: rest := by
        rw [List.dropWhile_cons_of_neg hc, ite_self]
      rw [if_neg hc, ih, hdrop, runs_cons_of_neg (Bool.not_eq_true _ ▸ hc), if_neg Bool.false_ne_true]

/-- The runs of what is written for a text are its words in lower case. -/
theorem runs_notNul_tokenByte (text : CString) :
    runs notNul (text.map tokenByte) = (words text).map (List.map tolower) := by
  rw [runs_map, funext notNul_tokenByte]
  refine List.map_congr_left fun word hword => List.map_congr_left fun c hc => ?_
  rw [tokenByte, if_pos ((mem_words_iff.mp hword).all c hc)]

/-- The tokens of a text are its first words in lower case; only the first characters of the text are
looked at. -/
theorem lexiconTokenize_eq (text : CString) {bufSize : ℕ} (hbuf : bufSize ≠ 0) (maxTokens : ℕ) :
    lexiconTokenize text bufSize maxTokens =
      ((words (text.take (bufSize - 1))).take maxTokens).map (List.map tolower) := by
  rw [lexiconTokenize]
  split_ifs with hempty
  · rw [hempty.resolve_left hbuf]
    rfl
  · rw [tokenBuffer_eq, map_stringAt_scanTokens, if_neg Bool.false_ne_true, runs_notNul_tokenByte,
      Nat.sub_zero,
      List.map_take]

/-- The only token of a word. -/
theorem lexiconTokenize_word {word text : CString} (h : IsWord word text) {bufSize maxTokens : ℕ}
    (hbuf : 1 < bufSize) (hmax : maxTokens ≠ 0) :
    lexiconTokenize word bufSize maxTokens = [(word.take (bufSize - 1)).map tolower] := by
  have hne : word.take (bufSize - 1) ≠ [] := by
    rw [ne_eq, List.take_eq_nil_iff, not_or]
    exact ⟨by omega, h.nonempty⟩
  rw [lexiconTokenize_eq word (by omega), words,
    runs_of_forall hne fun c hc => h.all c (List.mem_of_mem_take hc),
    List.take_of_length_le (by rw [List.length_singleton]; omega)]
  rfl

end FtsUring
