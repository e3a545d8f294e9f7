import Mathlib.Data.List.Basic

/-!
# Truncated sequences of frames

A log is the concatenation of self-contained frames. Cutting it off at an arbitrary byte
leaves some complete frames and at most one torn frame. `completeFrames` and `tornFrame`
compute the two parts from the frames and the length of the cut, without decoding.
-/

namespace Foundation

variable {A : Type*} (encode : A → List UInt8)

/-- The bytes of consecutive frames. -/
def frames (records : List A) : List UInt8 :=
  records.flatMap encode

/-- The frames that lie completely inside the first `cut` bytes. -/
def completeFrames : List A → ℕ → List A
  | [], _ => []
  | record :: rest, cut =>
    if (encode record).length ≤ cut then
      record :: completeFrames rest (cut - (encode record).length)
    else []

/-- What the cut leaves of the first frame that is not complete. -/
def tornFrame : List A → ℕ → List UInt8
  | [], _ => []
  | record :: rest, cut =>
    if (encode record).length ≤ cut then tornFrame rest (cut - (encode record).length)
    else (encode record).take cut

/-- Consecutive frames concatenate. -/
theorem frames_append (left right : List A) :
    frames encode (left ++ right) = frames encode left ++ frames encode right := by
  simp [frames]

/-- The first frame comes first. -/
theorem frames_cons (record : A) (rest : List A) :
    frames encode (record :: rest) = encode record ++ frames encode rest := by
  simp [frames]

/-- A cut log is its complete frames followed by the torn frame. -/
theorem take_frames (records : List A) (cut : ℕ) :
    (frames encode records).take cut =
      frames encode (completeFrames encode records cut) ++ tornFrame encode records cut := by
  induction records generalizing cut with
  | nil => simp [frames, completeFrames, tornFrame]
  | cons record rest ih =>
    rw [frames_cons, List.take_append]
    by_cases hfit : (encode record).length ≤ cut
    · rw [completeFrames, if_pos hfit, tornFrame, if_pos hfit, frames_cons, ih,
        List.take_of_length_le hfit, List.append_assoc]
    · have hnone : cut - (encode record).length = 0 := by omega
      rw [completeFrames, if_neg hfit, tornFrame, if_neg hfit, hnone]
      simp [frames]

/-- The complete frames are frames of the log. -/
theorem mem_of_mem_completeFrames {records : List A} {cut : ℕ} {record : A}
    (h : record ∈ completeFrames encode records cut) : record ∈ records := by
  induction records generalizing cut with
  | nil => simp [completeFrames] at h
  | cons first rest ih =>
    rw [completeFrames] at h
    split at h
    · rcases List.mem_cons.mp h with rfl | hrest
      · exact List.mem_cons_self
      · exact List.mem_cons_of_mem _ (ih hrest)
    · simp at h

/-- A torn frame is a proper prefix of one of the frames, or nothing. -/
theorem tornFrame_spec (records : List A) (cut : ℕ) :
    tornFrame encode records cut = [] ∨
      ∃ record ∈ records, ∃ count < (encode record).length,
        tornFrame encode records cut = (encode record).take count := by
  induction records generalizing cut with
  | nil => exact Or.inl rfl
  | cons record rest ih =>
    rw [tornFrame]
    split
    · rcases ih (cut - (encode record).length) with hnil | ⟨other, hmem, count, hcount, heq⟩
      · exact Or.inl hnil
      · exact Or.inr ⟨other, List.mem_cons_of_mem _ hmem, count, hcount, heq⟩
    · exact Or.inr ⟨record, List.mem_cons_self, cut, by omega, rfl⟩

/-- Consecutive frames that can be told apart from what follows determine their records. -/
theorem frames_injective {valid : A → Prop} (hnonempty : ∀ record, encode record ≠ [])
    (hsplit : ∀ left right rest rest', valid left → valid right →
      encode left ++ rest = encode right ++ rest' → left = right ∧ rest = rest')
    {records others : List A} (hrecords : ∀ record ∈ records, valid record)
    (hothers : ∀ record ∈ others, valid record) (h : frames encode records = frames encode others) :
    records = others := by
  induction records generalizing others with
  | nil =>
    cases others with
    | nil => rfl
    | cons other others =>
      rw [frames_cons] at h
      exact absurd (List.append_eq_nil_iff.mp h.symm).1 (hnonempty other)
  | cons record records ih =>
    cases others with
    | nil =>
      rw [frames_cons] at h
      exact absurd (List.append_eq_nil_iff.mp h).1 (hnonempty record)
    | cons other others =>
      rw [frames_cons, frames_cons] at h
      obtain ⟨rfl, hrest⟩ := hsplit _ _ _ _ (hrecords record List.mem_cons_self)
        (hothers other List.mem_cons_self) h
      rw [ih (fun other hmem => hrecords other (List.mem_cons_of_mem _ hmem))
        (fun other hmem => hothers other (List.mem_cons_of_mem _ hmem)) hrest]

end Foundation
