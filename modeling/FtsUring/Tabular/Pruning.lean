import FtsUring.Tabular.Catalog
import Mathlib.Algebra.BigOperators.Group.List.Basic
import Mathlib.Tactic

/-!
# Shard pruning

A shard to which a query is not sent has no row with a key in the range of the query. The scan of the other
shards does not look at the keys. So the answer of the query is the one of the whole table exactly when the
rows of these shards that exceed the threshold have their keys in the range.
-/

namespace FtsUring

variable {F : Type} [ExactNumber F]

/-- What a query needs of a row. -/
structure TabularRow (F : Type) where
  key : ℤ
  filterVal : F
  aggVal : F
  deriving DecidableEq

/-- The columns of a query. -/
structure QueryColumns where
  keyCol : ColumnDescriptor
  filterCol : ColumnDescriptor
  aggCol : ColumnDescriptor

/-- A row of a page. -/
def readRow (page : Page) (cols : QueryColumns) (i : ℕ) : Option (TabularRow F) :=
  (slottedPageGetTuple page i).bind fun ref =>
    (columnBits page ref cols.keyCol 4).bind fun bits =>
      (columnValue page ref cols.filterCol).bind fun filterVal =>
        (columnValue page ref cols.aggCol).map fun aggVal => ⟨int32Value bits, filterVal, aggVal⟩

/-- A page stores rows. -/
def StoresRows (page : Page) (cols : QueryColumns) (rows : List (TabularRow F)) : Prop :=
  List.Forall₂ (fun i row => readRow page cols i = some row) (List.range page.slotCount) rows

/-- The number of rows with a property and the sum of their aggregate column. -/
def aggregateOf (rows : List (TabularRow F)) (p : TabularRow F → Bool) : PartialAggregate F :=
  ⟨(rows.filter p).length, ((rows.filter p).map TabularRow.aggVal).sum⟩

/-- The row exceeds the threshold. -/
def TabularRow.passes (minValFilter : F) (row : TabularRow F) : Bool := minValFilter < row.filterVal

/-- The row has a key in the range of the query. -/
def TabularRow.inRange (queryMinKey queryMaxKey : ℤ) (row : TabularRow F) : Bool :=
  queryMinKey ≤ row.key ∧ row.key ≤ queryMaxKey

/-! ## One page -/

/-- Two aggregates together. -/
def PartialAggregate.add (agg other : PartialAggregate F) : PartialAggregate F :=
  ⟨agg.matchingRows + other.matchingRows, agg.aggregatedSum + other.aggregatedSum⟩

/-- The aggregate of two lists of rows. -/
theorem aggregateOf_append (rows more : List (TabularRow F)) (p : TabularRow F → Bool) :
    aggregateOf (rows ++ more) p = (aggregateOf rows p).add (aggregateOf more p) := by
  rw [aggregateOf, List.filter_append, List.length_append, List.map_append, List.sum_append]
  rfl

/-- Scanning the rows of a page. -/
theorem foldlM_aggregateRow {page : Page} {cols : QueryColumns} {minValFilter : F} {slots : List ℕ}
    {rows : List (TabularRow F)}
    (h : List.Forall₂ (fun i row => readRow page cols i = some row) slots rows)
    (agg : PartialAggregate F) :
    slots.foldlM (aggregateRow page cols.filterCol cols.aggCol minValFilter) agg =
      some (agg.add (aggregateOf rows (TabularRow.passes minValFilter))) := by
  induction h generalizing agg with
  | nil =>
    rw [List.foldlM_nil, PartialAggregate.add]
    simp [aggregateOf]
  | @cons i row slots rows hrow hrest ih =>
    obtain ⟨ref, htuple, hrow⟩ := Option.bind_eq_some_iff.mp hrow
    obtain ⟨bits, -, hrow⟩ := Option.bind_eq_some_iff.mp hrow
    obtain ⟨filterVal, hfilter, hrow⟩ := Option.bind_eq_some_iff.mp hrow
    obtain ⟨aggVal, haggVal, rfl⟩ := Option.map_eq_some_iff.mp hrow
    have hsplit := aggregateOf_append [⟨int32Value bits, filterVal, aggVal⟩] rows
      (TabularRow.passes minValFilter)
    rw [List.singleton_append] at hsplit
    rw [List.foldlM_cons, aggregateRow, htuple]
    dsimp only
    rw [hfilter, Option.bind_some, haggVal, hsplit]
    by_cases hpasses : minValFilter < filterVal
    · rw [if_pos hpasses, Option.map_some]
      refine (ih _).trans (congrArg some ?_)
      ext
      · simp [PartialAggregate.add, aggregateOf, TabularRow.passes, hpasses, Nat.add_assoc]
      · simp [PartialAggregate.add, aggregateOf, TabularRow.passes, hpasses, add_assoc]
    · rw [if_neg hpasses]
      refine (ih _).trans (congrArg some ?_)
      ext
      · simp [PartialAggregate.add, aggregateOf, TabularRow.passes, hpasses]
      · simp [PartialAggregate.add, aggregateOf, TabularRow.passes, hpasses]

/-- The scan of a page finds the rows that exceed the threshold. -/
theorem processTabularPage_eq {page : Page} {schema : TableSchema} {cols : QueryColumns} {filterColIdx aggColIdx : ℕ}
    (hfilter : schema.columns[filterColIdx]? = some cols.filterCol)
    (hagg : schema.columns[aggColIdx]? = some cols.aggCol) {rows : List (TabularRow F)}
    (hrows : StoresRows page cols rows) (minValFilter : F) :
    processTabularPage page schema filterColIdx minValFilter aggColIdx =
      some (aggregateOf rows (TabularRow.passes minValFilter)) := by
  rw [processTabularPage, hfilter, hagg]
  dsimp only
  rw [foldlM_aggregateRow hrows]
  simp [PartialAggregate.add]

/-! ## All pages -/

/-- Adding up the pages that were read. -/
theorem foldlM_onTabularPageRead {pages : ℕ → Page} {schema : TableSchema} {cols : QueryColumns}
    {filterColIdx aggColIdx : ℕ} (hfilter : schema.columns[filterColIdx]? = some cols.filterCol)
    (hagg : schema.columns[aggColIdx]? = some cols.aggCol) {rowsOf : ℕ → List (TabularRow F)}
    {minValFilter : F} {completed : List ℕ} (hrows : ∀ i ∈ completed, StoresRows (pages i) cols (rowsOf i))
    (total : PartialAggregate F) :
    completed.foldlM (onTabularPageRead pages schema filterColIdx minValFilter aggColIdx) total =
      some (total.add (aggregateOf (completed.flatMap rowsOf) (TabularRow.passes minValFilter))) := by
  induction completed generalizing total with
  | nil =>
    rw [List.foldlM_nil, List.flatMap_nil]
    simp [PartialAggregate.add, aggregateOf]
  | cons i completed ih =>
    rw [List.foldlM_cons, onTabularPageRead,
      processTabularPage_eq hfilter hagg (hrows i List.mem_cons_self)]
    refine (ih (fun j hj => hrows j (List.mem_cons_of_mem _ hj)) _).trans (congrArg some ?_)
    rw [List.flatMap_cons, aggregateOf_append]
    ext
    · exact Nat.add_assoc _ _ _
    · exact add_assoc _ _ _

/-- Rows in another order have the same aggregate. -/
theorem aggregateOf_perm {rows others : List (TabularRow F)} (h : rows.Perm others)
    (p : TabularRow F → Bool) : aggregateOf rows p = aggregateOf others p := by
  rw [aggregateOf, aggregateOf, (h.filter p).length_eq, ((h.filter p).map _).sum_eq]

/-- What the query answers, in whatever order the reads are completed. -/
theorem gatherPages_eq {pages : ℕ → Page} {schema : TableSchema} {cols : QueryColumns}
    {filterColIdx aggColIdx : ℕ} (hfilter : schema.columns[filterColIdx]? = some cols.filterCol)
    (hagg : schema.columns[aggColIdx]? = some cols.aggCol) {rowsOf : ℕ → List (TabularRow F)}
    {dispatched completed : List ℕ} (hrows : ∀ i ∈ dispatched, StoresRows (pages i) cols (rowsOf i))
    (hcompleted : completed.Perm dispatched) (minValFilter : F) :
    gatherPages pages schema filterColIdx minValFilter aggColIdx completed =
      some (aggregateOf (dispatched.flatMap rowsOf) (TabularRow.passes minValFilter)) := by
  rw [gatherPages, foldlM_onTabularPageRead hfilter hagg
    fun i hi => hrows i (hcompleted.mem_iff.mp hi),
    aggregateOf_perm (hcompleted.flatMap_right rowsOf)]
  simp [PartialAggregate.add]

/-! ## The whole table -/

section Table

variable {cat : Catalog} {pages : ℕ → Page} {cols : QueryColumns} {rowsOf : ℕ → List (TabularRow F)}
  {queryMinKey queryMaxKey : ℤ}

/-- The rows of the shards: each page stores them, and the catalog has bounds of their keys. -/
structure TableHolds (cat : Catalog) (pages : ℕ → Page) (cols : QueryColumns)
    (rowsOf : ℕ → List (TabularRow F)) : Prop where
  stored : ∀ i < cat.shards.length, StoresRows (pages i) cols (rowsOf i)
  bounded : ∀ i shard, cat.shards[i]? = some shard → ∀ row ∈ rowsOf i,
    shard.minKey ≤ row.key ∧ row.key ≤ shard.maxKey

/-- The rows of the whole table. -/
def tableRows (cat : Catalog) (rowsOf : ℕ → List (TabularRow F)) : List (TabularRow F) :=
  (List.range cat.shards.length).flatMap rowsOf

/-- A shard to which the query is not sent has no row in its range. -/
theorem TableHolds.dispatched (h : TableHolds cat pages cols rowsOf) {i : ℕ} (hi : i < cat.shards.length)
    {row : TabularRow F} (hrow : row ∈ rowsOf i) (hrange : row.inRange queryMinKey queryMaxKey = true) :
    i ∈ dispatchedShards cat queryMinKey queryMaxKey := by
  obtain ⟨hlow, hhigh⟩ := of_decide_eq_true hrange
  obtain ⟨hmin, hmax⟩ := h.bounded i _ (List.getElem?_eq_getElem hi) row hrow
  have hscan : catalogShouldScanShard cat.shards[i] queryMinKey queryMaxKey = true := by
    rw [catalogShouldScanShard, if_neg]
    omega
  refine List.mem_filter.mpr ⟨List.mem_range.mpr hi, ?_⟩
  rw [List.getElem?_eq_getElem hi]
  exact hscan

/-- The rows in the range of the query are those of the shards to which it is sent. -/
theorem TableHolds.aggregateOf_tableRows (h : TableHolds cat pages cols rowsOf) (minValFilter : F) :
    aggregateOf (tableRows cat rowsOf)
        (fun row => row.passes minValFilter && row.inRange queryMinKey queryMaxKey) =
      aggregateOf ((dispatchedShards cat queryMinKey queryMaxKey).flatMap rowsOf)
        (fun row => row.passes minValFilter && row.inRange queryMinKey queryMaxKey) := by
  set wanted : TabularRow F → Bool :=
    fun row => row.passes minValFilter && row.inRange queryMinKey queryMaxKey
  have hskip : ∀ shards : List ℕ, (∀ i ∈ shards, i < cat.shards.length) →
      (shards.filter fun i => i ∈ dispatchedShards cat queryMinKey queryMaxKey).flatMap
        (fun i => (rowsOf i).filter wanted) = shards.flatMap fun i => (rowsOf i).filter wanted := by
    intro shards hshards
    induction shards with
    | nil => rfl
    | cons i shards ih =>
      have hrest := ih fun j hj => hshards j (List.mem_cons_of_mem _ hj)
      rw [List.filter_cons]
      split_ifs with hi
      · rw [List.flatMap_cons, List.flatMap_cons, hrest]
      · have hnone : (rowsOf i).filter wanted = [] := by
          rw [List.filter_eq_nil_iff]
          intro row hrow hwanted
          rw [Bool.and_eq_true] at hwanted
          exact hi (decide_eq_true (h.dispatched (hshards i List.mem_cons_self) hrow hwanted.2))
        rw [List.flatMap_cons, hnone, List.nil_append, hrest]
  have hfilter : (List.range cat.shards.length).filter
      (fun i => i ∈ dispatchedShards cat queryMinKey queryMaxKey) =
        dispatchedShards cat queryMinKey queryMaxKey := by
    rw [dispatchedShards]
    refine List.filter_congr fun i hi => ?_
    simp only [List.mem_filter, hi, true_and]
    exact Bool.decide_eq_true
  have hsame : (tableRows cat rowsOf).filter wanted =
      ((dispatchedShards cat queryMinKey queryMaxKey).flatMap rowsOf).filter wanted := by
    rw [tableRows, List.filter_flatMap, List.filter_flatMap,
      ← hskip (List.range cat.shards.length) fun i hi => List.mem_range.mp hi, hfilter]
  rw [aggregateOf, aggregateOf, hsame]

/-- The aggregate of the rows that exceed the threshold is the one of those that are also in the range exactly
when all of them are. -/
theorem aggregateOf_passes_iff (rows : List (TabularRow F)) (minValFilter : F) :
    aggregateOf rows (TabularRow.passes minValFilter) =
        aggregateOf rows (fun row => row.passes minValFilter && row.inRange queryMinKey queryMaxKey) ↔
      ∀ row ∈ rows, row.passes minValFilter = true → row.inRange queryMinKey queryMaxKey = true := by
  constructor
  · intro hsame row hrow hpasses
    have hlength := congrArg PartialAggregate.matchingRows hsame
    rw [aggregateOf, aggregateOf] at hlength
    have hboth : rows.filter (fun row => row.passes minValFilter && row.inRange queryMinKey queryMaxKey) =
        (rows.filter (TabularRow.passes minValFilter)).filter
          (TabularRow.inRange queryMinKey queryMaxKey) := by
      rw [List.filter_filter]
      exact List.filter_congr fun row _ => Bool.and_comm _ _
    rw [hboth] at hlength
    have hall := List.filter_eq_self.mp (List.filter_sublist.eq_of_length hlength.symm)
    exact hall row (List.mem_filter.mpr ⟨hrow, hpasses⟩)
  · intro hall
    have hsame : rows.filter (TabularRow.passes minValFilter) =
        rows.filter (fun row => row.passes minValFilter && row.inRange queryMinKey queryMaxKey) := by
      refine List.filter_congr fun row hrow => ?_
      cases hpasses : row.passes minValFilter with
      | false => rfl
      | true => rw [hall row hrow hpasses]; rfl
    rw [aggregateOf, aggregateOf, hsame]

/-- In every order in which the reads are completed, the query gives the number and the sum of the rows that
exceed the threshold and have their key in the range, exactly when no other row of the shards to which it is
sent exceeds the threshold. -/
theorem prunedQuery_iff (h : TableHolds cat pages cols rowsOf) {filterColIdx aggColIdx : ℕ}
    (hfilter : cat.schema.columns[filterColIdx]? = some cols.filterCol)
    (hagg : cat.schema.columns[aggColIdx]? = some cols.aggCol) (minValFilter : F) :
    (∀ completed, completed.Perm (dispatchedShards cat queryMinKey queryMaxKey) →
        gatherPages pages cat.schema filterColIdx minValFilter aggColIdx completed =
          some (aggregateOf (tableRows cat rowsOf)
            fun row => row.passes minValFilter && row.inRange queryMinKey queryMaxKey)) ↔
      ∀ i ∈ dispatchedShards cat queryMinKey queryMaxKey, ∀ row ∈ rowsOf i,
        row.passes minValFilter = true → row.inRange queryMinKey queryMaxKey = true := by
  have hstored : ∀ i ∈ dispatchedShards cat queryMinKey queryMaxKey, StoresRows (pages i) cols (rowsOf i) :=
    fun i hi => h.stored i (List.mem_range.mp (List.mem_filter.mp hi).1)
  have hanswer : ∀ completed, completed.Perm (dispatchedShards cat queryMinKey queryMaxKey) →
      gatherPages pages cat.schema filterColIdx minValFilter aggColIdx completed =
        some (aggregateOf ((dispatchedShards cat queryMinKey queryMaxKey).flatMap rowsOf)
          (TabularRow.passes minValFilter)) :=
    fun completed hcompleted => gatherPages_eq hfilter hagg hstored hcompleted minValFilter
  have hrows : (∀ row ∈ (dispatchedShards cat queryMinKey queryMaxKey).flatMap rowsOf,
      row.passes minValFilter = true → row.inRange queryMinKey queryMaxKey = true) ↔
      ∀ i ∈ dispatchedShards cat queryMinKey queryMaxKey, ∀ row ∈ rowsOf i,
        row.passes minValFilter = true → row.inRange queryMinKey queryMaxKey = true := by
    simp only [List.mem_flatMap, forall_exists_index, and_imp]
    exact ⟨fun hall i hi row hrow => hall row i hi hrow, fun hall row i hi hrow => hall i hi row hrow⟩
  rw [← hrows, ← aggregateOf_passes_iff, ← h.aggregateOf_tableRows]
  constructor
  · intro hall
    have hone := hall _ (List.Perm.refl _)
    rw [hanswer _ (List.Perm.refl _)] at hone
    exact Option.some.inj hone
  · intro hsame completed hcompleted
    rw [hanswer completed hcompleted, hsame]

end Table

/-! ## Three shards of metrics -/

/-- The bytes of a metric, given the two highest bytes of its score. -/
def metricTuple (id complexity low high : UInt8) : List UInt8 :=
  [id, 0, 0, 0, complexity, 0, 0, 0, 0, 0, 0, 0, 0, low, high, 0x40]

/-- The metrics of each shard. -/
def metricTuples : List (List (List UInt8)) :=
  [[metricTuple 80 19 0xe0 0x5f], [metricTuple 100 15 0x80 0x39, metricTuple 160 8 0x80 0x59],
    [metricTuple 200 15 0x80 0x39]]

/-- The pages of the shards. -/
def metricPages (shardIdx : ℕ) : Page :=
  (metricTuples[shardIdx]?.getD []).foldl (fun page tuple => (slottedPageInsertTuple page tuple).2)
    (slottedPageInit shardIdx .row)

/-- The columns of a metric. -/
def metricColumns : QueryColumns :=
  ⟨⟨[0x69, 0x64], .int32, 0, 4⟩, ⟨[0x63, 0x6f, 0x6d, 0x70, 0x6c, 0x65, 0x78, 0x69, 0x74, 0x79], .int32, 4, 4⟩,
    ⟨[0x73, 0x63, 0x6f, 0x72, 0x65], .float64, 8, 8⟩⟩

/-- A catalog of metrics with three shards, for the keys from 0, from 100 and from 200 on. -/
def metricCatalog : Catalog :=
  let cat := catalogInitTable [0x63, 0x6f, 0x64, 0x65]
  let cat := catalogAddColumn cat metricColumns.keyCol.name .int32 4
  let cat := catalogAddColumn cat metricColumns.filterCol.name .int32 4
  let cat := catalogAddColumn cat metricColumns.aggCol.name .float64 8
  let cat := catalogAddShard cat 0 [0x74] 0 99 1
  let cat := catalogAddShard cat 1 [0x75] 100 199 2
  catalogAddShard cat 2 [0x76] 200 299 1

/-- The rows of the metrics. -/
def metricTable : List (List (TabularRow ℚ)) :=
  [[⟨80, 19, 255 / 2⟩], [⟨100, 15, 51 / 2⟩, ⟨160, 8, 102⟩], [⟨200, 15, 51 / 2⟩]]

/-- The rows of a shard. -/
def metricRows (shardIdx : ℕ) : List (TabularRow ℚ) := metricTable[shardIdx]?.getD []

/-- The metrics are stored, and their keys are in the bounds of the shards. -/
theorem tableHolds_metric : TableHolds metricCatalog metricPages metricColumns metricRows where
  stored i hi := by
    have hthree : metricCatalog.shards.length = 3 := by decide +kernel
    have hfirst : (metricPages 0).slotCount = 1 := by decide +kernel
    have hsecond : (metricPages 1).slotCount = 2 := by decide +kernel
    have hthird : (metricPages 2).slotCount = 1 := by decide +kernel
    rw [hthree] at hi
    interval_cases i
    · rw [StoresRows, hfirst]
      exact .cons (by decide +kernel) .nil
    · rw [StoresRows, hsecond]
      exact .cons (by decide +kernel) (.cons (by decide +kernel) .nil)
    · rw [StoresRows, hthird]
      exact .cons (by decide +kernel) .nil
  bounded i shard hshard := by
    have hall : ∀ entry ∈ metricCatalog.shards.zip metricTable, ∀ row ∈ entry.2,
        entry.1.minKey ≤ row.key ∧ row.key ≤ entry.1.maxKey := by decide +kernel
    intro row hrow
    rw [metricRows] at hrow
    cases hrows : metricTable[i]? with
    | none => simp [hrows] at hrow
    | some rows =>
      rw [hrows] at hrow
      exact hall (shard, rows) (List.mem_of_getElem? (List.getElem?_zip_eq_some.mpr ⟨hshard, hrows⟩)) row hrow

/-- The query for the keys from 50 to 199 reads two of the shards, the first of which is partly in its range. -/
theorem prunedQuery_metric : dispatchedShards metricCatalog 50 199 = [0, 1] ∧
    ∀ completed, completed.Perm [0, 1] →
      gatherPages metricPages metricCatalog.schema 1 (10 : ℚ) 2 completed = some ⟨2, 153⟩ := by
  have hshards : dispatchedShards metricCatalog 50 199 = [0, 1] := by decide +kernel
  have hrows : ∀ i ∈ [0, 1], ∀ row ∈ metricRows i,
      row.passes 10 = true → row.inRange 50 199 = true := by decide +kernel
  have hwanted : aggregateOf (tableRows metricCatalog metricRows)
      (fun row => row.passes 10 && row.inRange 50 199) = ⟨2, 153⟩ := by decide +kernel
  have hfilter : metricCatalog.schema.columns[1]? = some metricColumns.filterCol := rfl
  have hagg : metricCatalog.schema.columns[2]? = some metricColumns.aggCol := rfl
  have hall := (prunedQuery_iff tableHolds_metric hfilter hagg 10).mpr (hshards ▸ hrows)
  rw [hshards, hwanted] at hall
  exact ⟨hshards, hall⟩

/-- The first metric of the second shard exceeds the threshold of the query for the keys from 120 to 250, and it is
counted although its key is 100. -/
theorem prunedQuery_outside : TableHolds metricCatalog metricPages metricColumns metricRows ∧
    ¬∀ completed, completed.Perm (dispatchedShards metricCatalog 120 250) →
      gatherPages metricPages metricCatalog.schema 1 10 2 completed =
        some (aggregateOf (tableRows metricCatalog metricRows)
          fun row => row.passes 10 && row.inRange 120 250) := by
  have hshards : dispatchedShards metricCatalog 120 250 = [1, 2] := by decide +kernel
  have hanswer : gatherPages metricPages metricCatalog.schema 1 (10 : ℚ) 2 [1, 2] = some ⟨2, 51⟩ := by
    decide +kernel
  have hwanted : aggregateOf (tableRows metricCatalog metricRows)
      (fun row => row.passes 10 && row.inRange 120 250) = ⟨1, 51 / 2⟩ := by decide +kernel
  refine ⟨tableHolds_metric, fun hall => ?_⟩
  have hsame := hall [1, 2] (by rw [hshards])
  rw [hanswer, hwanted] at hsame
  exact absurd (congrArg PartialAggregate.matchingRows (Option.some.inj hsame)) (by decide)

end FtsUring
