import FtsUring.Foundation.Checked
import FtsUring.Shard.Score

/-!
# Bounds of the score

In exact arithmetic BM25F is a saturating fraction `f ↦ f * (k1 + 1) / (f + k1)` of the weighted term
frequencies, each divided by the length of its field. Nothing is divided by zero, the score stays below
`idf * (k1 + 1)`, more occurrences never lower it and longer documents never raise it.
-/

namespace FtsUring

open Foundation

/-! ## Saturation -/

section Saturation

variable {K : Type} [Field K] [LinearOrder K] [IsStrictOrderedRing K]

/-- The saturating fraction. -/
def saturation (k f : K) : K := f * (k + 1) / (f + k)

variable {k f g : K}

/-- It is not negative. -/
theorem saturation_nonneg (hk : 0 < k) (hf : 0 ≤ f) : 0 ≤ saturation k f := by
  unfold saturation
  positivity

/-- It stays below its limit. -/
theorem saturation_lt (hk : 0 < k) (hf : 0 ≤ f) : saturation k f < k + 1 := by
  have hpos : 0 < f + k := by positivity
  have hlimit : 0 < k + 1 := by positivity
  unfold saturation
  rw [div_lt_iff₀ hpos, mul_comm]
  exact mul_lt_mul_of_pos_left (lt_add_of_pos_right f hk) hlimit

/-- It vanishes only at zero. -/
theorem saturation_eq_zero_iff (hk : 0 < k) (hf : 0 ≤ f) : saturation k f = 0 ↔ f = 0 := by
  have hpos : f + k ≠ 0 := by positivity
  have hlimit : k + 1 ≠ 0 := by positivity
  unfold saturation
  rw [div_eq_zero_iff, mul_eq_zero]
  simp [hpos, hlimit]

/-- It grows. -/
theorem saturation_mono (hk : 0 < k) (hf : 0 ≤ f) (hfg : f ≤ g) : saturation k f ≤ saturation k g := by
  have hg := hf.trans hfg
  have hfpos : 0 < f + k := by positivity
  have hgpos : 0 < g + k := by positivity
  have hlimit : 0 ≤ k * (k + 1) := by positivity
  unfold saturation
  rw [div_le_div_iff₀ hfpos hgpos]
  have hgap : g * (k + 1) * (f + k) - f * (k + 1) * (g + k) = (k * (k + 1)) * (g - f) := by ring
  have hnonneg : 0 ≤ (k * (k + 1)) * (g - f) := mul_nonneg hlimit (sub_nonneg.mpr hfg)
  linarith

end Saturation

/-! ## The fields of a document -/

/-- The parameters for which the score is meant. -/
structure Bm25fParams.Admissible (params : Bm25fParams ℚ) : Prop where
  weights_nonneg : ∀ i : Fin maxFtsFields, 0 ≤ params.weights.get i
  avgdl_nonneg : ∀ i : Fin maxFtsFields, 0 ≤ params.avgdl.get i
  k1_pos : 0 < params.k1
  b_nonneg : 0 ≤ params.b
  b_lt_one : params.b < 1
  idf_nonneg : 0 ≤ params.idf

/-- The length of a field against the average. -/
def lenNorm (docLen : Vector UInt32 maxFtsFields) (params : Bm25fParams ℚ) (i : Fin maxFtsFields) : ℚ :=
  1 - params.b + params.b * ((docLen.get i).toNat / params.avgdl.get i)

/-- What a field adds to the weighted term frequency. -/
def fieldFrequency (tf docLen : Vector UInt32 maxFtsFields) (params : Bm25fParams ℚ) (i : Fin maxFtsFields) : ℚ :=
  if 0 < params.weights.get i ∧ 0 < params.avgdl.get i ∧ 0 < tf.get i then
    params.weights.get i * ((tf.get i).toNat / lenNorm docLen params i)
  else 0

/-- The weighted term frequency. -/
def weightedFrequency (tf docLen : Vector UInt32 maxFtsFields) (params : Bm25fParams ℚ) : ℚ :=
  ∑ i, fieldFrequency tf docLen params i

variable {params : Bm25fParams ℚ} (hparams : params.Admissible) {tf docLen : Vector UInt32 maxFtsFields}
include hparams

/-- Even an empty field has a positive length against the average. -/
theorem lenNorm_pos (i : Fin maxFtsFields) : 0 < lenNorm docLen params i := by
  have hratio : 0 ≤ params.b * ((docLen.get i).toNat / params.avgdl.get i) :=
    mul_nonneg hparams.b_nonneg (div_nonneg (Nat.cast_nonneg _) (hparams.avgdl_nonneg i))
  have hb := hparams.b_lt_one
  unfold lenNorm
  linarith

/-- A field never takes away. -/
theorem fieldFrequency_nonneg (i : Fin maxFtsFields) : 0 ≤ fieldFrequency tf docLen params i := by
  have hlength : 0 < lenNorm docLen params i := lenNorm_pos hparams i
  unfold fieldFrequency
  split
  · exact mul_nonneg (hparams.weights_nonneg i) (div_nonneg (Nat.cast_nonneg _) hlength.le)
  · exact le_rfl

/-- A field adds nothing only if it is switched off or the term does not occur. -/
theorem fieldFrequency_eq_zero_iff (i : Fin maxFtsFields) :
    fieldFrequency tf docLen params i = 0 ↔
      ¬(0 < params.weights.get i ∧ 0 < params.avgdl.get i ∧ 0 < tf.get i) := by
  have hlength : 0 < lenNorm docLen params i := lenNorm_pos hparams i
  unfold fieldFrequency
  split
  · next hcounted =>
    have htf : (0 : ℚ) < (tf.get i).toNat := Nat.cast_pos.mpr (UInt32.lt_iff_toNat_lt.mp hcounted.2.2)
    have hpos : 0 < params.weights.get i * ((tf.get i).toNat / lenNorm docLen params i) :=
      mul_pos hcounted.1 (div_pos htf hlength)
    exact iff_of_false hpos.ne' fun hskipped => hskipped hcounted
  · next hskipped => exact iff_of_true rfl hskipped

/-- More occurrences never take away. -/
theorem fieldFrequency_mono {more : Vector UInt32 maxFtsFields} (i : Fin maxFtsFields) (htf : tf.get i ≤ more.get i) :
    fieldFrequency tf docLen params i ≤ fieldFrequency more docLen params i := by
  by_cases hcounted : 0 < params.weights.get i ∧ 0 < params.avgdl.get i ∧ 0 < tf.get i
  · have hmore : 0 < more.get i := UInt32.lt_of_lt_of_le hcounted.2.2 htf
    have hcast : ((tf.get i).toNat : ℚ) ≤ (more.get i).toNat := Nat.cast_le.mpr (UInt32.le_iff_toNat_le.mp htf)
    have hlength : 0 < lenNorm docLen params i := lenNorm_pos hparams i
    rw [fieldFrequency, fieldFrequency, if_pos hcounted, if_pos ⟨hcounted.1, hcounted.2.1, hmore⟩]
    gcongr
    exact hcounted.1.le
  · rw [(fieldFrequency_eq_zero_iff hparams i).mpr hcounted]
    exact fieldFrequency_nonneg hparams i

/-- A longer field never adds. -/
theorem fieldFrequency_antitone {longer : Vector UInt32 maxFtsFields} (i : Fin maxFtsFields)
    (hdocLen : docLen.get i ≤ longer.get i) :
    fieldFrequency tf longer params i ≤ fieldFrequency tf docLen params i := by
  by_cases hcounted : 0 < params.weights.get i ∧ 0 < params.avgdl.get i ∧ 0 < tf.get i
  · have hcast : ((docLen.get i).toNat : ℚ) ≤ (longer.get i).toNat :=
      Nat.cast_le.mpr (UInt32.le_iff_toNat_le.mp hdocLen)
    have hlength : 0 < lenNorm docLen params i := lenNorm_pos hparams i
    have hlengths : lenNorm docLen params i ≤ lenNorm longer params i := by
      have havgdl := hparams.avgdl_nonneg i
      have hb := hparams.b_nonneg
      unfold lenNorm
      gcongr
    rw [fieldFrequency, fieldFrequency, if_pos hcounted, if_pos hcounted]
    have hweight := hcounted.1.le
    gcongr
  · rw [fieldFrequency, fieldFrequency, if_neg hcounted, if_neg hcounted]

/-- The weighted term frequency is not negative. -/
theorem weightedFrequency_nonneg : 0 ≤ weightedFrequency tf docLen params :=
  Finset.sum_nonneg fun i _ => fieldFrequency_nonneg hparams i

/-- It is zero only if no field counts. -/
theorem weightedFrequency_eq_zero_iff :
    weightedFrequency tf docLen params = 0 ↔
      ¬∃ i : Fin maxFtsFields, 0 < params.weights.get i ∧ 0 < params.avgdl.get i ∧ 0 < tf.get i := by
  unfold weightedFrequency
  rw [Finset.sum_eq_zero_iff_of_nonneg fun i _ => fieldFrequency_nonneg hparams i, not_exists]
  exact forall_congr' fun i => ⟨fun h => (fieldFrequency_eq_zero_iff hparams i).mp (h (Finset.mem_univ i)),
    fun h _ => (fieldFrequency_eq_zero_iff hparams i).mpr h⟩

omit hparams

/-! ## The score -/

/-- What is made of the weighted term frequency. -/
theorem computeBm25fScore_of_loop {F : Type} [Double F] {params : Bm25fParams F} {total : F}
    (hloop : (List.finRange maxFtsFields).foldl (fun (f : F) (i : Fin maxFtsFields) =>
      if 0 < params.weights.get i ∧ 0 < params.avgdl.get i ∧ 0 < tf.get i then
        let lenNorm : F := 1 - params.b + params.b * (Double.ofUInt32 (docLen.get i) / params.avgdl.get i)
        f + params.weights.get i * (Double.ofUInt32 (tf.get i) / lenNorm)
      else f) 0 = total) :
    computeBm25fScore tf docLen params =
      if total == 0 then 0 else params.idf * (total * (params.k1 + 1) / (total + params.k1)) :=
  hloop ▸ rfl

/-- The loop over the fields. -/
theorem foldl_fieldFrequency (fields : List (Fin maxFtsFields)) (f : ℚ) :
    fields.foldl (fun (f : ℚ) (i : Fin maxFtsFields) =>
      if 0 < params.weights.get i ∧ 0 < params.avgdl.get i ∧ 0 < tf.get i then
        let lenNorm : ℚ := 1 - params.b + params.b * (Double.ofUInt32 (docLen.get i) / params.avgdl.get i)
        f + params.weights.get i * (Double.ofUInt32 (tf.get i) / lenNorm)
      else f) f = f + (fields.map (fieldFrequency tf docLen params)).sum := by
  induction fields generalizing f with
  | nil => exact (add_zero f).symm
  | cons i fields ih =>
    rw [List.foldl_cons, ih, List.map_cons, List.sum_cons, ← add_assoc]
    congr 1
    unfold fieldFrequency
    split
    · rfl
    · exact (add_zero f).symm

/-- The score saturates in the weighted term frequency. -/
theorem computeBm25fScore_eq :
    computeBm25fScore tf docLen params =
      params.idf * saturation params.k1 (weightedFrequency tf docLen params) := by
  have hsum : weightedFrequency tf docLen params =
      0 + ((List.finRange maxFtsFields).map (fieldFrequency tf docLen params)).sum := by
    rw [weightedFrequency, Fin.sum_univ_def, zero_add]
  rw [computeBm25fScore_of_loop ((foldl_fieldFrequency _ 0).trans hsum.symm)]
  by_cases hzero : weightedFrequency tf docLen params = 0
  · simp [hzero, saturation]
  · simp [hzero, saturation]

/-- The parameters as checked numbers. -/
def Bm25fParams.checked (params : Bm25fParams ℚ) : Bm25fParams (Checked ℚ) where
  idf := .of params.idf
  avgdl := params.avgdl.map .of
  weights := params.weights.map .of
  k1 := .of params.k1
  b := .of params.b

/-- Checked exact arithmetic. -/
instance instDoubleChecked : Double (Checked ℚ) where
  decidableLt := inferInstance
  ofUInt32 n := .of (Double.ofUInt32 n)
  ofUInt64 n := .of (Double.ofUInt64 n)
  ofFloat bits := .of (Double.ofFloat bits)
  sqrt x := ⟨x.value.map Double.sqrt⟩

/-- The score divides by nothing but numbers other than zero. -/
theorem computeBm25fScore_checked (hparams : params.Admissible) :
    computeBm25fScore tf docLen params.checked = Checked.of (computeBm25fScore tf docLen params) := by
  have hweight : ∀ i : Fin maxFtsFields, params.checked.weights.get i = Checked.of (params.weights.get i) :=
    fun i => Vector.getElem_map _ _
  have havgdl : ∀ i : Fin maxFtsFields, params.checked.avgdl.get i = Checked.of (params.avgdl.get i) :=
    fun i => Vector.getElem_map _ _
  have hloop : ∀ (fields : List (Fin maxFtsFields)) (f : ℚ),
      fields.foldl (fun (f : Checked ℚ) (i : Fin maxFtsFields) =>
        if 0 < params.checked.weights.get i ∧ 0 < params.checked.avgdl.get i ∧ 0 < tf.get i then
          let lenNorm : Checked ℚ :=
            1 - params.checked.b + params.checked.b * (Double.ofUInt32 (docLen.get i) / params.checked.avgdl.get i)
          f + params.checked.weights.get i * (Double.ofUInt32 (tf.get i) / lenNorm)
        else f) (.of f) = .of (f + (fields.map (fieldFrequency tf docLen params)).sum) := by
    intro fields
    induction fields with
    | nil => exact fun f => congrArg Checked.of (add_zero f).symm
    | cons i fields ih =>
      intro f
      have hlength : 0 < lenNorm docLen params i := lenNorm_pos hparams i
      rw [List.foldl_cons, List.map_cons, List.sum_cons, ← add_assoc, ← ih]
      congr 1
      simp only [hweight, havgdl, ← Checked.of_zero, Checked.of_lt_of]
      unfold fieldFrequency
      by_cases hcounted : 0 < params.weights.get i ∧ 0 < params.avgdl.get i ∧ 0 < tf.get i
      · have hratio : (Double.ofUInt32 (docLen.get i) : Checked ℚ) / .of (params.avgdl.get i) =
            .of ((docLen.get i).toNat / params.avgdl.get i) := Checked.of_div_of _ hcounted.2.1.ne'
        have hnormalized : (Double.ofUInt32 (tf.get i) : Checked ℚ) / .of (lenNorm docLen params i) =
            .of ((tf.get i).toNat / lenNorm docLen params i) := Checked.of_div_of _ hlength.ne'
        rw [if_pos hcounted, if_pos hcounted, hratio]
        change Checked.of f +
          .of (params.weights.get i) * (Double.ofUInt32 (tf.get i) / .of (lenNorm docLen params i)) = _
        rw [hnormalized]
        rfl
      · rw [if_neg hcounted, if_neg hcounted, add_zero]
  have hsum : weightedFrequency tf docLen params =
      0 + ((List.finRange maxFtsFields).map (fieldFrequency tf docLen params)).sum := by
    rw [weightedFrequency, Fin.sum_univ_def, zero_add]
  have hsaturated : weightedFrequency tf docLen params + params.k1 ≠ 0 :=
    (add_pos_of_nonneg_of_pos (weightedFrequency_nonneg hparams) hparams.k1_pos).ne'
  have hfold := hloop (List.finRange maxFtsFields) 0
  rw [Checked.of_zero, ← hsum] at hfold
  rw [computeBm25fScore_of_loop hfold, computeBm25fScore_of_loop ((foldl_fieldFrequency _ 0).trans hsum.symm)]
  have htest : (Checked.of (weightedFrequency tf docLen params) == 0) = (weightedFrequency tf docLen params == 0) :=
    rfl
  rw [htest]
  by_cases hzero : (weightedFrequency tf docLen params == 0) = true
  · rw [if_pos hzero, if_pos hzero]
    rfl
  · have hquotient := Checked.of_div_of (weightedFrequency tf docLen params * (params.k1 + 1)) hsaturated
    rw [if_neg hzero, if_neg hzero]
    exact congrArg (Checked.of params.idf * ·) hquotient

/-- The score is well defined, bounded and monotone. -/
theorem computeBm25fScore_bounds (params : Bm25fParams ℚ) (hparams : params.Admissible)
    (tf docLen : Vector UInt32 maxFtsFields) :
    computeBm25fScore tf docLen params.checked = Checked.of (computeBm25fScore tf docLen params) ∧
      0 ≤ computeBm25fScore tf docLen params ∧
      computeBm25fScore tf docLen params ≤ params.idf * (params.k1 + 1) ∧
      (0 < params.idf → computeBm25fScore tf docLen params < params.idf * (params.k1 + 1)) ∧
      (0 < params.idf → (computeBm25fScore tf docLen params = 0 ↔
        ¬∃ i : Fin maxFtsFields, 0 < params.weights.get i ∧ 0 < params.avgdl.get i ∧ 0 < tf.get i)) ∧
      (∀ more : Vector UInt32 maxFtsFields, (∀ i : Fin maxFtsFields, tf.get i ≤ more.get i) →
        computeBm25fScore tf docLen params ≤ computeBm25fScore more docLen params) ∧
      ∀ longer : Vector UInt32 maxFtsFields, (∀ i : Fin maxFtsFields, docLen.get i ≤ longer.get i) →
        computeBm25fScore tf longer params ≤ computeBm25fScore tf docLen params := by
  have hk := hparams.k1_pos
  have hidf := hparams.idf_nonneg
  have hfrequency : 0 ≤ weightedFrequency tf docLen params := weightedFrequency_nonneg hparams
  have hlimit := saturation_lt hk hfrequency
  refine ⟨computeBm25fScore_checked hparams, ?_, ?_, fun hpos => ?_, fun hpos => ?_, fun more hmore => ?_,
    fun longer hlonger => ?_⟩
  · rw [computeBm25fScore_eq]
    exact mul_nonneg hidf (saturation_nonneg hk hfrequency)
  · rw [computeBm25fScore_eq]
    exact mul_le_mul_of_nonneg_left hlimit.le hidf
  · rw [computeBm25fScore_eq]
    exact mul_lt_mul_of_pos_left hlimit hpos
  · rw [computeBm25fScore_eq, mul_eq_zero, or_iff_right hpos.ne', saturation_eq_zero_iff hk hfrequency,
      weightedFrequency_eq_zero_iff hparams]
  · rw [computeBm25fScore_eq, computeBm25fScore_eq]
    have hsum : weightedFrequency tf docLen params ≤ weightedFrequency more docLen params :=
      Finset.sum_le_sum fun i _ => fieldFrequency_mono hparams i (hmore i)
    exact mul_le_mul_of_nonneg_left (saturation_mono hk hfrequency hsum) hidf
  · rw [computeBm25fScore_eq, computeBm25fScore_eq]
    have hsum : weightedFrequency tf longer params ≤ weightedFrequency tf docLen params :=
      Finset.sum_le_sum fun i _ => fieldFrequency_antitone hparams i (hlonger i)
    exact mul_le_mul_of_nonneg_left (saturation_mono hk (weightedFrequency_nonneg hparams) hsum) hidf

/-- An engine without documents has admissible parameters. -/
theorem exactParams_admissible : exactParams.Admissible := by
  constructor
  · decide +kernel
  · decide +kernel
  · decide +kernel
  · decide +kernel
  · decide +kernel
  · decide +kernel

/-- A second occurrence in the first field, in an engine without documents. -/
theorem computeBm25fScore_bounds_exactParams :
    computeBm25fScore #v[1, 0, 0, 0] #v[7, 0, 0, 0] exactParams ≤
        computeBm25fScore #v[2, 0, 0, 0] #v[7, 0, 0, 0] exactParams ∧
      computeBm25fScore #v[2, 0, 0, 0] #v[7, 0, 0, 0] exactParams < 22 / 10 := by
  have hbounds := computeBm25fScore_bounds exactParams exactParams_admissible
  have hmono := (hbounds #v[1, 0, 0, 0] #v[7, 0, 0, 0]).2.2.2.2.2.1 #v[2, 0, 0, 0] (by decide)
  have hlt := (hbounds #v[2, 0, 0, 0] #v[7, 0, 0, 0]).2.2.2.1 (by decide +kernel)
  have hlimit : exactParams.idf * (exactParams.k1 + 1) = 22 / 10 := by decide +kernel
  exact ⟨hmono, hlimit ▸ hlt⟩

end FtsUring
