import FtsUring.Shard.Document
import Mathlib.Data.Rat.Cast.Order

/-!
# Scores

The scores are computed in `double` arithmetic, which the model takes as a parameter: a type
with the operations of C, of which nothing is assumed. Where a result depends on the order of
the scores, the facts it needs are hypotheses.
-/

namespace FtsUring

/-- The operations of `double`. `ofFloat` converts the 32 bits of a `float`, and `==` is the
comparison of C. -/
class Double (F : Type) extends Zero F, One F, Add F, Sub F, Mul F, Div F, LT F, BEq F where
  decidableLt : DecidableLT F
  ofUInt32 : UInt32 → F
  ofUInt64 : UInt64 → F
  ofFloat : UInt32 → F
  sqrt : F → F

instance Double.decidableLT {F : Type} [Double F] : DecidableLT F := Double.decidableLt

/-- The value of the bits of a finite `float`. -/
def floatValue (bits : UInt32) : ℚ :=
  let fraction := bits.toNat % 2 ^ 23
  let exponent := bits.toNat / 2 ^ 23 % 2 ^ 8
  let significand : ℕ := if exponent = 0 then 2 * fraction else 2 ^ 23 + fraction
  let magnitude := mkRat ((significand * 2 ^ exponent : ℕ) : ℤ) (2 ^ 150)
  if bits.toNat < 2 ^ 31 then magnitude else -magnitude

/-- Exact arithmetic: the operations of `double` on the numbers for which they do not round. The
square root is the one of a square. -/
instance : Double ℚ where
  decidableLt := inferInstance
  ofUInt32 n := n.toNat
  ofUInt64 n := n.toNat
  ofFloat := floatValue
  sqrt q := mkRat q.num.toNat.sqrt q.den.sqrt

variable {F : Type} [Double F]

/-- The parameters of a text search. -/
structure Bm25fParams (F : Type) where
  idf : F
  avgdl : Vector F maxFtsFields
  weights : Vector F maxFtsFields
  k1 : F
  b : F

/-- The parameters of an engine without documents, in exact arithmetic. -/
def exactParams : Bm25fParams ℚ where
  idf := 1
  avgdl := Vector.replicate maxFtsFields 10
  weights := #v[10, 5, 2, 1]
  k1 := 12 / 10
  b := 3 / 4

/-- The BM25F score of a document for one term. -/
def computeBm25fScore (tf docLen : Vector UInt32 maxFtsFields) (params : Bm25fParams F) : F :=
  let f := (List.finRange maxFtsFields).foldl (fun (f : F) (i : Fin maxFtsFields) =>
    if 0 < params.weights[i] ∧ 0 < params.avgdl[i] ∧ 0 < tf[i] then
      let lenNorm : F := 1 - params.b + params.b * (Double.ofUInt32 docLen[i] / params.avgdl[i])
      f + params.weights[i] * (Double.ofUInt32 tf[i] / lenNorm)
    else f) 0
  if f == 0 then 0
  else
    let numerator : F := f * (params.k1 + 1)
    let denominator : F := f + params.k1
    params.idf * (numerator / denominator)

/-- The length of a field that does not count is not read. -/
theorem computeBm25fScore_congr {tf docLen docLen' : Vector UInt32 maxFtsFields} {params : Bm25fParams F}
    (h : ∀ i : Fin maxFtsFields, 0 < params.weights[i] ∧ 0 < params.avgdl[i] ∧ 0 < tf[i] →
      docLen[i] = docLen'[i]) :
    computeBm25fScore tf docLen params = computeBm25fScore tf docLen' params := by
  have hloop : (fun (f : F) (i : Fin maxFtsFields) =>
      if 0 < params.weights[i] ∧ 0 < params.avgdl[i] ∧ 0 < tf[i] then
        let lenNorm : F := 1 - params.b + params.b * (Double.ofUInt32 docLen[i] / params.avgdl[i])
        f + params.weights[i] * (Double.ofUInt32 tf[i] / lenNorm)
      else f) = fun (f : F) (i : Fin maxFtsFields) =>
      if 0 < params.weights[i] ∧ 0 < params.avgdl[i] ∧ 0 < tf[i] then
        let lenNorm : F := 1 - params.b + params.b * (Double.ofUInt32 docLen'[i] / params.avgdl[i])
        f + params.weights[i] * (Double.ofUInt32 tf[i] / lenNorm)
      else f := by
    funext f i
    split
    · next hcounted => rw [h i hcounted]
    · rfl
  unfold computeBm25fScore
  rw [hloop]

/-- The cosine similarity of two embeddings. -/
def computeCosineSimilarity (a b : Vector UInt32 embeddingDim) : F :=
  let (dot, normA, normB) := (List.finRange embeddingDim).foldl
    (fun ((dot, normA, normB) : F × F × F) (i : Fin embeddingDim) =>
      let x : F := Double.ofFloat a[i]
      let y : F := Double.ofFloat b[i]
      (dot + x * y, normA + x * x, normB + y * y)) (0, 0, 0)
  if normA == 0 || normB == 0 then 0 else dot / (Double.sqrt normA * Double.sqrt normB)

/-! ## Vectors with one coordinate -/

/-- A vector of which only the first coordinate may be other than zero. -/
def firstCoordinate (bits : UInt32) : Vector UInt32 embeddingDim :=
  (Vector.replicate embeddingDim 0).set 0 bits

/-- The cosine of two such vectors. -/
theorem cosine_firstCoordinate (a b : UInt32) :
    computeCosineSimilarity (firstCoordinate a) (firstCoordinate b) =
      if floatValue a * floatValue a == 0 || floatValue b * floatValue b == 0 then (0 : ℚ)
      else floatValue a * floatValue b /
        (Double.sqrt (floatValue a * floatValue a) * Double.sqrt (floatValue b * floatValue b)) := by
  have hcoordinate : ∀ (bits : UInt32) (i : Fin embeddingDim), i ≠ 0 → (firstCoordinate bits)[i] = 0 := by
    intro bits i hi
    have hne : (0 : ℕ) ≠ i := fun h => hi (Fin.ext h.symm)
    rw [firstCoordinate, Fin.getElem_fin, Vector.getElem_set_ne _ _ hne, Vector.getElem_replicate]
  have hzero : (Double.ofFloat 0 : ℚ) = 0 := by decide +kernel
  -- the other coordinates add nothing
  have hrest : ∀ (coordinates : List (Fin embeddingDim)) (sums : ℚ × ℚ × ℚ),
      (∀ i ∈ coordinates, i ≠ 0) →
      coordinates.foldl (fun ((dot, normA, normB) : ℚ × ℚ × ℚ) (i : Fin embeddingDim) =>
        let x : ℚ := Double.ofFloat (firstCoordinate a)[i]
        let y : ℚ := Double.ofFloat (firstCoordinate b)[i]
        (dot + x * y, normA + x * x, normB + y * y)) sums = sums := by
    intro coordinates
    induction coordinates with
    | nil => exact fun _ _ => rfl
    | cons i coordinates ih =>
      intro sums hne
      have hi := hne i List.mem_cons_self
      rw [List.foldl_cons, ih _ fun j hj => hne j (List.mem_cons_of_mem _ hj)]
      dsimp only
      rw [hcoordinate a i hi, hcoordinate b i hi, hzero]
      simp
  have hsplit : List.finRange embeddingDim = 0 :: (List.finRange 383).map Fin.succ := List.finRange_succ
  have hfirst : ∀ bits : UInt32, (firstCoordinate bits)[(0 : Fin embeddingDim)] = bits :=
    fun bits => Vector.getElem_set_self _
  rw [computeCosineSimilarity, hsplit, List.foldl_cons, hrest _ _ fun i hi => ?_]
  · dsimp only
    rw [hfirst a, hfirst b]
    simp only [zero_add]
    rfl
  · obtain ⟨j, -, rfl⟩ := List.mem_map.mp hi
    exact Fin.succ_ne_zero j

end FtsUring
