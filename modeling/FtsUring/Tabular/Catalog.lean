import FtsUring.Lexicon.Lexicon
import FtsUring.Storage.SlottedPage

/-!
# The catalog and the scan of a page

A table is distributed over shards of one slotted page each. The catalog has the columns of a row and the
smallest and the largest key of every shard. The scan of a page counts the rows whose filter column exceeds
a threshold and sums their aggregate column.

The arithmetic of `double` is exact. `none` is a scan that reads beyond the page.
-/

namespace FtsUring

/-- The numbers of a scan: sums do not depend on the order, and integers are converted without rounding. -/
class ExactNumber (F : Type) extends AddCommMonoid F, LT F where
  decidableLt : DecidableLT F
  ofInt32 : ℤ → F
  ofFloat64 : ℕ → F

instance ExactNumber.decidableLT {F : Type} [ExactNumber F] : DecidableLT F := ExactNumber.decidableLt

/-- The value of the bits of a finite `double`. -/
def doubleValue (bits : ℕ) : ℚ :=
  let fraction := bits % 2 ^ 52
  let exponent := bits / 2 ^ 52 % 2 ^ 11
  let significand : ℕ := if exponent = 0 then 2 * fraction else 2 ^ 52 + fraction
  let magnitude := mkRat ((significand * 2 ^ exponent : ℕ) : ℤ) (2 ^ 1075)
  if bits < 2 ^ 63 then magnitude else -magnitude

/-- Rational numbers. -/
instance ExactNumber.rat : ExactNumber ℚ where
  decidableLt := inferInstance
  ofInt32 n := n
  ofFloat64 := doubleValue

/-! ## The catalog -/

/-- `MAX_NAME_LEN`. -/
def maxNameLen : ℕ := 64

/-- `MAX_COLUMNS`. -/
def maxColumns : ℕ := 16

/-- `MAX_SHARDS` of the catalog. -/
def maxCatalogShards : ℕ := 16

/-- The types of columns. -/
inductive DataType
  | int32
  | float64
  | varchar
  deriving DecidableEq

/-- A column of a row. -/
structure ColumnDescriptor where
  name : CString
  type : DataType
  offset : UInt32
  length : UInt32
  deriving DecidableEq

/-- The columns of a table. -/
structure TableSchema where
  tableName : CString
  columns : List ColumnDescriptor
  tupleSize : UInt32
  deriving DecidableEq

/-- A shard, with the smallest and the largest key of its rows. -/
structure ShardMapEntry where
  shardId : UInt32
  filepath : CString
  minKey : ℤ
  maxKey : ℤ
  rowCount : UInt64
  deriving DecidableEq

/-- The catalog. -/
structure Catalog where
  schema : TableSchema
  shards : List ShardMapEntry

/-- A catalog without columns and shards. -/
def catalogInitTable (tableName : CString) : Catalog := ⟨⟨tableName.take (maxNameLen - 1), [], 0⟩, []⟩

/-- Add a column behind the others, if there is room. -/
def catalogAddColumn (cat : Catalog) (colName : CString) (type : DataType) (length : UInt32) : Catalog :=
  if maxColumns ≤ cat.schema.columns.length then cat
  else { cat with schema := { cat.schema with
    columns := cat.schema.columns ++ [⟨colName.take (maxNameLen - 1), type, cat.schema.tupleSize, length⟩]
    tupleSize := cat.schema.tupleSize + length } }

/-- Add a shard, if there is room. -/
def catalogAddShard (cat : Catalog) (shardId : UInt32) (filepath : CString) (minKey maxKey : ℤ)
    (rows : UInt64) : Catalog :=
  if maxCatalogShards ≤ cat.shards.length then cat
  else { cat with shards := cat.shards ++ [⟨shardId, filepath.take 255, minKey, maxKey, rows⟩] }

/-- Whether the keys of a shard can be in the range of the query. -/
def catalogShouldScanShard (shard : ShardMapEntry) (queryMinKey queryMaxKey : ℤ) : Bool :=
  if shard.maxKey < queryMinKey ∨ queryMaxKey < shard.minKey then false else true

/-! ## The scan of a page -/

/-- The value of 32 bits as a signed integer. -/
def int32Value (bits : ℕ) : ℤ := if bits < 2 ^ 31 then bits else bits - 2 ^ 32

/-- The bits of a column of a row. -/
def columnBits (page : Page) (ref : TupleRef) (col : ColumnDescriptor) (width : ℕ) : Option ℕ :=
  if ref.offset + col.offset.toNat + width ≤ pageSize then
    some (page.field (ref.offset + col.offset.toNat) width)
  else none

section Scan

variable {F : Type} [ExactNumber F]

/-- The value of a column of a row; a text counts as 0. -/
def columnValue (page : Page) (ref : TupleRef) (col : ColumnDescriptor) : Option F :=
  match col.type with
  | .int32 => (columnBits page ref col 4).map fun bits => ExactNumber.ofInt32 (int32Value bits)
  | .float64 => (columnBits page ref col 8).map ExactNumber.ofFloat64
  | .varchar => some 0

/-- A number of rows and a sum. -/
@[ext] structure PartialAggregate (F : Type) where
  matchingRows : ℕ
  aggregatedSum : F
  deriving DecidableEq

/-- Take a row into account. -/
def aggregateRow (page : Page) (filterCol aggCol : ColumnDescriptor) (minValFilter : F)
    (agg : PartialAggregate F) (i : ℕ) : Option (PartialAggregate F) :=
  match slottedPageGetTuple page i with
  | none => some agg
  | some ref =>
    (columnValue page ref filterCol).bind fun filterVal =>
      if minValFilter < filterVal then
        (columnValue page ref aggCol).map fun aggVal =>
          ⟨agg.matchingRows + 1, agg.aggregatedSum + aggVal⟩
      else some agg

/-- Scan a page. -/
def processTabularPage (page : Page) (schema : TableSchema) (filterColIdx : ℕ) (minValFilter : F)
    (aggColIdx : ℕ) : Option (PartialAggregate F) :=
  match schema.columns[filterColIdx]?, schema.columns[aggColIdx]? with
  | some filterCol, some aggCol =>
    (List.range page.slotCount).foldlM (aggregateRow page filterCol aggCol minValFilter) ⟨0, 0⟩
  | _, _ => none

/-! ## The query -/

/-- The shards to which the query is sent, by their numbers. -/
def dispatchedShards (cat : Catalog) (queryMinKey queryMaxKey : ℤ) : List ℕ :=
  (List.range cat.shards.length).filter fun i =>
    (cat.shards[i]?.map fun shard => catalogShouldScanShard shard queryMinKey queryMaxKey).getD false

/-- A page was read: scan it and add what was found. -/
def onTabularPageRead (pages : ℕ → Page) (schema : TableSchema) (filterColIdx : ℕ) (minValFilter : F)
    (aggColIdx : ℕ) (total : PartialAggregate F) (shardIdx : ℕ) : Option (PartialAggregate F) :=
  (processTabularPage (pages shardIdx) schema filterColIdx minValFilter aggColIdx).map fun agg =>
    ⟨total.matchingRows + agg.matchingRows, total.aggregatedSum + agg.aggregatedSum⟩

/-- The reads are completed in some order. -/
def gatherPages (pages : ℕ → Page) (schema : TableSchema) (filterColIdx : ℕ) (minValFilter : F)
    (aggColIdx : ℕ) (completed : List ℕ) : Option (PartialAggregate F) :=
  completed.foldlM (onTabularPageRead pages schema filterColIdx minValFilter aggColIdx) ⟨0, 0⟩

end Scan

end FtsUring
