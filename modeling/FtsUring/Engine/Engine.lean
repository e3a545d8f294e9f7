import FtsUring.Shard.Updates

/-!
# The engine

An engine owns a number of shards, each with its own files, pool and log. A document goes to the shard
that the hash of its node id selects. The statistics of the corpus are summed over the shards when the
engine is opened.

`none` is a call that does not come back. The number of shards is at most `MAX_SHARDS`, the size of the
array that holds them, which the engine does not check.
-/

namespace FtsUring

open Foundation

/-- A shard with its storage. -/
structure EngineShard (F : Type) where
  shard : Shard F
  machine : Machine

/-- The engine. -/
structure UnifiedEngine (F : Type) where
  shards : List (EngineShard F)
  globalTotalDocs : UInt64
  globalAvgdl : Vector F maxFtsFields
  fieldWeights : Vector F maxFtsFields
  k1 : F
  b : F

/-- What `open` finds for one shard: its data and log file with their descriptors, and the content of
its metadata file if that is valid. -/
structure ShardFiles (F : Type) where
  host : Host
  dataFd : ℤ
  walFd : ℤ
  saved : Option (ShardMetadata F)

variable {F : Type} [Double F]

/-! ## Opening -/

/-- `MAX_RESULTS_PER_SHARD`. -/
def maxResultsPerShard : ℕ := 64

/-- `sizeof(Frame)`. -/
def frameSize : ℕ := 4120

/-- `frames_per_shard`. -/
def framesPerShard (maxRamMb : UInt32) (numShards : ℕ) : ℕ :=
  let totalFrames := maxRamMb.toNat * 1024 * 1024 / frameSize % 2 ^ 32
  max 1024 (totalFrames / numShards)

/-- Open one shard; its page counter is assigned before it is used. -/
def openShard (files : ShardFiles F) (poolSize : ℕ) : Option (Option (EngineShard F)) :=
  if files.dataFd < 0 then some none
  else
    let (rc, wal) := walInit files.host files.walFd
    if rc ≠ 0 then some none
    else
      (poolHandler.exec (shardInit files.host.dataFile.length files.saved)
        (newMachine files.dataFd wal files.host poolSize 0)).map fun (shard, machine) =>
          shard.map fun shard => ⟨shard, machine⟩

/-- Open the shards one after the other; nothing when one cannot be opened. -/
def openShards (poolSize : ℕ) : List (ShardFiles F) → Option (Option (List (EngineShard F)))
  | [] => some (some [])
  | files :: rest =>
    (openShard files poolSize).bind fun opened =>
      match opened with
      | none => some none
      | some shard => (openShards poolSize rest).map fun others => others.map fun shards => shard :: shards

/-- The number of documents in all shards. -/
def totalDocs (shards : List (EngineShard F)) : UInt64 :=
  shards.foldl (fun total s => total + s.shard.totalDocs.toUInt64) 0

/-- The sum of the lengths of a field in all shards. -/
def totalDl (shards : List (EngineShard F)) (i : Fin maxFtsFields) : F :=
  shards.foldl (fun sum s => sum + s.shard.sumDl.get i) 0

/-- The average length of a field in all shards. -/
def averageDl (shards : List (EngineShard F)) (i : Fin maxFtsFields) : F :=
  if 0 < totalDocs shards then totalDl shards i / Double.ofUInt64 (totalDocs shards)
  else Double.ofUInt32 10

/-- Sum the statistics of the shards. -/
def engineRecomputeGlobalStats (engine : UnifiedEngine F) : UnifiedEngine F :=
  { engine with
    globalTotalDocs := totalDocs engine.shards
    globalAvgdl := Vector.ofFn (averageDl engine.shards) }

/-- Open an engine. -/
def engineInit (files : List (ShardFiles F)) (maxRamMb : UInt32) : Option (Option (UnifiedEngine F)) :=
  if files.length = 0 then none
  else
    (openShards (framesPerShard maxRamMb files.length) files).map fun opened =>
      opened.map fun shards => engineRecomputeGlobalStats
        { shards
          globalTotalDocs := 0
          globalAvgdl := Vector.replicate maxFtsFields 0
          fieldWeights := #v[Double.ofUInt32 10, Double.ofUInt32 5, Double.ofUInt32 2, Double.ofUInt32 1]
          k1 := Double.ofUInt32 12 / Double.ofUInt32 10
          b := Double.ofUInt32 3 / Double.ofUInt32 4 }

/-! ## Insertion -/

/-- The hash of a node id. -/
def nodeHash (nodeId : Vector UInt8 16) : UInt32 :=
  nodeId.toList.foldl (fun hash byte => hash * 31 + byte.toUInt32) 0

/-- The shard of a node id. -/
def shardIndex (nodeId : Vector UInt8 16) (numShards : ℕ) : ℕ := (nodeHash nodeId).toNat % numShards

/-- Insert a document into the shard that its node id selects; the answer is whether the return code is
0. -/
def engineInsertDocument (engine : UnifiedEngine F) (doc : Document) :
    Option (Bool × UnifiedEngine F) :=
  let index := shardIndex doc.nodeId engine.shards.length
  match engine.shards[index]? with
  | none => none
  | some s =>
    (poolHandler.exec (shardInsertDocument s.shard doc) s.machine).map fun ((ok, shard), machine) =>
      (ok, { engine with shards := engine.shards.set index ⟨shard, machine⟩ })

/-- The states of an engine during a sequence of insertions that all return 0. -/
def engineStates (engine : UnifiedEngine F) : List Document → Option (List (UnifiedEngine F))
  | [] => some [engine]
  | doc :: docs =>
    (engineInsertDocument engine doc).bind fun (ok, next) =>
      if ok then (engineStates next docs).map fun states => engine :: states else none

end FtsUring
