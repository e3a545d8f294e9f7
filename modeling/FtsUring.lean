import FtsUring.Storage.Wal
import FtsUring.Storage.WalRecovery
import FtsUring.Storage.SlottedPage
import FtsUring.Storage.BufferPool
import FtsUring.Storage.PoolDurability
import FtsUring.Foundation.Program
import FtsUring.Storage.PageProgram
import FtsUring.Storage.PageArray
import FtsUring.Storage.PoolTransparency
import FtsUring.BTree.Leaf
import FtsUring.BTree.BTree
import FtsUring.Storage.ArraySteps
import FtsUring.Storage.PoolLifecycle
import FtsUring.BTree.Chain
import FtsUring.BTree.Changes
import FtsUring.BTree.Insert
import FtsUring.BTree.Map
import FtsUring.Shard.Document
import FtsUring.Shard.DataPage
import FtsUring.Foundation.PageChain
import FtsUring.Index.PostingPage
import FtsUring.Index.InvertedIndex
import FtsUring.Foundation.Ownership
import FtsUring.Index.PostingChain
import FtsUring.Shard.Score
import FtsUring.Shard.Shard
import FtsUring.Shard.View
import FtsUring.Storage.WalSessions
import FtsUring.Shard.ShardAt
import FtsUring.Shard.Adding
import FtsUring.Shard.Inserting
import FtsUring.Shard.Start
import FtsUring.Shard.Deletion
import FtsUring.Shard.Occurrences
import FtsUring.Shard.Postings
import FtsUring.Foundation.TopK
import FtsUring.Search.Ranking
import FtsUring.Search.Scan
import FtsUring.Search.Indexed
import FtsUring.Search.Found
import FtsUring.Search.TermSearch
import FtsUring.Engine.Engine
import FtsUring.Engine.Statistics
import FtsUring.Engine.Search
import FtsUring.Engine.ScatterGather
import FtsUring.Search.Operations
import FtsUring.Search.Runs
import FtsUring.Search.PageOwnership
import FtsUring.Shard.Closing
import FtsUring.Search.Reopening
import FtsUring.Search.Restarts
import FtsUring.Shard.Recorded
import FtsUring.Shard.Logging
import FtsUring.Shard.LogAddresses
import FtsUring.Search.LogDetermines
import FtsUring.Lexicon.Lexicon
import FtsUring.Lexicon.TermIds
import FtsUring.Foundation.Runs
import FtsUring.Lexicon.Tokenizer
import FtsUring.Engine.Words
import FtsUring.Bridge.Registry
import FtsUring.Bridge.OpenEngines
import FtsUring.Bridge.Sharing
import FtsUring.Tabular.Catalog
import FtsUring.Tabular.Pruning
import FtsUring.Engine.Merging
import FtsUring.Engine.MergedLists
import FtsUring.Engine.Fusion
import FtsUring.Engine.DocumentFrequency
import FtsUring.Lexicon.TokenMemory
import FtsUring.Storage.PageBounds
import FtsUring.Storage.Tuples
import FtsUring.Storage.PoolFrames
import FtsUring.Storage.PoolInvariant
import FtsUring.Storage.SequentialScan
import FtsUring.Storage.HonestReads
import FtsUring.Foundation.LeafOrder
import FtsUring.BTree.Balance
import FtsUring.Storage.FullPool
import FtsUring.BTree.Overflow
import FtsUring.Search.SequentialSearch
import FtsUring.Foundation.Crc
import FtsUring.Storage.Checksums
import FtsUring.Foundation.Checked
import FtsUring.Shard.ScoreBounds
import FtsUring.Shard.LengthMap
import FtsUring.Shard.ShardWorker
import FtsUring.BTree.Walks
import FtsUring.Foundation.Monitor
import FtsUring.Storage.Pins
import FtsUring.Index.ChainWalk
import FtsUring.Search.PinBalance
import FtsUring.Foundation.Cursors
import FtsUring.Search.PhraseMerge
import FtsUring.Search.PhraseSearch
import FtsUring.Search.PhraseExactness
import FtsUring.Foundation.WorkPool
import FtsUring.Foundation.Upsert
import FtsUring.Engine.SmallShards
import FtsUring.Engine.Inserting
import FtsUring.Engine.AsyncSearch
import FtsUring.Engine.AsyncText
import FtsUring.Engine.AsyncTerms
import FtsUring.Engine.AsyncHybrid
import FtsUring.Engine.AsyncPhrase
import FtsUring.Engine.Restarting
import FtsUring.Foundation.Traces
import FtsUring.Bridge.Cursors
import FtsUring.Bridge.Sessions
import FtsUring.Foundation.Completions
import FtsUring.Storage.Vfs
import FtsUring.Storage.VfsFollows
import FtsUring.Storage.Uring
import FtsUring.Storage.Pwrite
