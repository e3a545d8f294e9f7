import FtsUring.Foundation.ByteFields
import Mathlib.Data.List.GetD

/-!
# Documents

A document is inserted with its node id, its term frequencies and lengths per field, an
embedding and the ids of its terms in the order of their occurrence. All but the terms is stored
as one packed `UnifiedDocRecord` of 1588 bytes. The floats of an embedding are their 32 bits.
-/

namespace FtsUring

open Foundation

/-- `MAX_FTS_FIELDS`. -/
abbrev maxFtsFields : ℕ := 4

/-- `EMBEDDING_DIM`. -/
abbrev embeddingDim : ℕ := 384

/-- The record of a document in a data page. -/
structure UnifiedDocRecord where
  nodeId : Vector UInt8 16
  termFrequencies : Vector UInt32 maxFtsFields
  documentLengths : Vector UInt32 maxFtsFields
  embedding : Vector UInt32 embeddingDim
  docId : UInt32
  deriving DecidableEq

/-- `sizeof(UnifiedDocRecord)`. -/
def unifiedDocRecordSize : ℕ := 1588

namespace UnifiedDocRecord

/-- The bytes of a record in memory order. -/
def encode (rec : UnifiedDocRecord) : List UInt8 :=
  rec.nodeId.toList ++ (leWords rec.termFrequencies.toList ++ (leWords rec.documentLengths.toList ++
    (leWords rec.embedding.toList ++ leBytes 4 rec.docId.toNat)))

/-- The record that a tuple of the right size holds. -/
def decode (bytes : List UInt8) : UnifiedDocRecord where
  nodeId := Vector.ofFn fun i => bytes.getD i 0
  termFrequencies := wordsAt bytes 16 maxFtsFields
  documentLengths := wordsAt bytes 32 maxFtsFields
  embedding := wordsAt bytes 48 embeddingDim
  docId := UInt32.ofNat (field bytes 1584 4)

/-- The size of a record. -/
theorem length_encode (rec : UnifiedDocRecord) : rec.encode.length = 1588 := by
  simp only [encode, List.length_append, length_leWords, length_leBytes, Vector.length_toList,
    maxFtsFields, embeddingDim]

/-- A record reads back. -/
theorem decode_encode (rec : UnifiedDocRecord) : decode rec.encode = rec := by
  have hnode : (Vector.ofFn fun i : Fin 16 => rec.encode.getD i 0) = rec.nodeId := by
    apply Vector.ext
    intro i hi
    have hlength : i < rec.nodeId.toList.length := by rwa [Vector.length_toList]
    rw [Vector.getElem_ofFn, encode, List.getD_append _ _ _ _ hlength,
      List.getD_eq_getElem _ _ hlength, Vector.getElem_toList]
  have hwords (front : List UInt8) {count offset : ℕ} (words : Vector UInt32 count)
      (back : List UInt8) (hfront : front.length = offset)
      (hencode : rec.encode = front ++ (leWords words.toList ++ back)) :
      wordsAt rec.encode offset count = words := by
    rw [hencode, ← hfront]
    exact wordsAt_append words front back
  have hfrequencies : wordsAt rec.encode 16 maxFtsFields = rec.termFrequencies :=
    hwords rec.nodeId.toList _ _ (by rw [Vector.length_toList]) rfl
  have hlengths : wordsAt rec.encode 32 maxFtsFields = rec.documentLengths := by
    apply hwords (rec.nodeId.toList ++ leWords rec.termFrequencies.toList)
    · simp only [List.length_append, length_leWords, Vector.length_toList, maxFtsFields]
    · simp only [encode, List.append_assoc]
      rfl
  have hembedding : wordsAt rec.encode 48 embeddingDim = rec.embedding := by
    apply hwords (rec.nodeId.toList ++ leWords rec.termFrequencies.toList ++
      leWords rec.documentLengths.toList)
    · simp only [List.length_append, length_leWords, Vector.length_toList, maxFtsFields]
    · simp only [encode, List.append_assoc]
      rfl
  have hdocId : field rec.encode 1584 4 = rec.docId.toNat := by
    have hfront : rec.encode = (rec.nodeId.toList ++ leWords rec.termFrequencies.toList ++
        leWords rec.documentLengths.toList ++ leWords rec.embedding.toList) ++
          leBytes 4 rec.docId.toNat := by
      simp only [encode, List.append_assoc]
    have hlength : (rec.nodeId.toList ++ leWords rec.termFrequencies.toList ++
        leWords rec.documentLengths.toList ++ leWords rec.embedding.toList).length = 1584 := by
      simp only [List.length_append, length_leWords, Vector.length_toList, maxFtsFields,
        embeddingDim]
    rw [hfront, field_append_right _ _ _ _ hlength.le, hlength, Nat.sub_self, field_leBytes]
    exact Nat.mod_eq_of_lt rec.docId.toNat_lt
  rw [decode, hnode, hfrequencies, hlengths, hembedding, hdocId, UInt32.ofNat_toNat]

end UnifiedDocRecord

/-- The arguments of an insertion. -/
structure Document where
  nodeId : Vector UInt8 16
  tf : Vector UInt32 maxFtsFields
  dl : Vector UInt32 maxFtsFields
  embedding : Vector UInt32 embeddingDim
  termIds : List UInt32
  /-- `num_terms` is a 32-bit number. -/
  numTerms : termIds.length < 2 ^ 32

/-- The terms of a document without terms can be counted. -/
theorem length_noTerms : ([] : List UInt32).length < 2 ^ 32 := by decide

/-- A document of which only the node id, the term frequencies and the terms are not zero. -/
def Document.ofTerms (nodeId : UInt8) (frequency : UInt32) (termIds : List UInt32)
    (numTerms : termIds.length < 2 ^ 32) : Document where
  nodeId := Vector.replicate 16 nodeId
  tf := Vector.replicate maxFtsFields frequency
  dl := Vector.replicate maxFtsFields 0
  embedding := Vector.replicate embeddingDim 0
  termIds := termIds
  numTerms := numTerms

/-- The record of a document under a document id. -/
def Document.record (doc : Document) (docId : UInt32) : UnifiedDocRecord :=
  ⟨doc.nodeId, doc.tf, doc.dl, doc.embedding, docId⟩

end FtsUring
