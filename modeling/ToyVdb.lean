import ToyVdb.Lib.Outcome
import ToyVdb.Lib.LittleEndian
import ToyVdb.Lib.Reading
import ToyVdb.Lib.Arena
import ToyVdb.Lib.BitWords
import ToyVdb.Lib.KeyedLog
import ToyVdb.Lib.PriorityQueue
import ToyVdb.Lib.Heap
import ToyVdb.Lib.Framing
import ToyVdb.Lib.WriteBack
import ToyVdb.Lib.Workers
import ToyVdb.Lib.ThreeWay
import ToyVdb.Lib.Crc
import ToyVdb.Lib.Rounding
import ToyVdb.Lib.Ieee
import ToyVdb.Lib.FloatModel
import ToyVdb.Lib.FloatOps
import ToyVdb.Lib.Float32
import ToyVdb.Lib.Float64
import ToyVdb.Lib.IeeeSums
import ToyVdb.Lib.IeeeBounds
import ToyVdb.Lib.Tally
import ToyVdb.Lib.Normalize
import ToyVdb.Types
import ToyVdb.Metadata
import ToyVdb.Filter.Order
import ToyVdb.Filter.Rounding
import ToyVdb.Codec.Model
import ToyVdb.Codec.RoundTrip
import ToyVdb.Codec.Size
import ToyVdb.Codec.Layout
import ToyVdb.Codec.Strictness
import ToyVdb.Store.Model
import ToyVdb.Store.Invariant
import ToyVdb.Store.Refinement
import ToyVdb.Store.Run
import ToyVdb.Store.Dimension
import ToyVdb.Index.Distance
import ToyVdb.Index.Bitset
import ToyVdb.Index.FiniteSet
import ToyVdb.Index.Flat
import ToyVdb.Index.Hits
import ToyVdb.Index.Undefined
import ToyVdb.Hnsw.Model
import ToyVdb.Hnsw.Visited
import ToyVdb.Hnsw.Greedy
import ToyVdb.Hnsw.LayerSearch
import ToyVdb.Hnsw.Link
import ToyVdb.Hnsw.Graph
import ToyVdb.Hnsw.Add
import ToyVdb.Hnsw.Query
import ToyVdb.Hnsw.Exploration
import ToyVdb.Hnsw.Breadth
import ToyVdb.Hnsw.Star
import ToyVdb.Hnsw.Detour
import ToyVdb.Hnsw.Connectivity
import ToyVdb.Index.Metrics
import ToyVdb.Index.L2
import ToyVdb.Index.Cosine
import ToyVdb.Index.Embedding
import ToyVdb.Index.SinglePrecision
import ToyVdb.Disk.Crc32
import ToyVdb.Disk.Checksum
import ToyVdb.Disk.Model
import ToyVdb.Disk.Frames
import ToyVdb.Disk.Faults
import ToyVdb.Disk.Corruption
import ToyVdb.Disk.Syscalls
import ToyVdb.Disk.Blobs
import ToyVdb.Engine.Model
import ToyVdb.Engine.Invariant
import ToyVdb.Engine.Replay
import ToyVdb.Engine.Run
import ToyVdb.Engine.Search
import ToyVdb.Engine.IntegerFilters
import ToyVdb.Engine.Undefined
import ToyVdb.Engine.Batch
import ToyVdb.Engine.Reach
import ToyVdb.Engine.Exhaustive
import ToyVdb.Engine.OnDisk
import ToyVdb.Engine.Durable
import ToyVdb.Engine.Recovery
import ToyVdb.Engine.Atomic
import ToyVdb.Engine.Torn
import ToyVdb.Engine.Sessions
import ToyVdb.Engine.Compaction
import ToyVdb.Engine.Content
import ToyVdb.Engine.Breadth
import ToyVdb.Engine.Machine
import ToyVdb.Engine.PowerLoss
import ToyVdb.Engine.Kill
import ToyVdb.Engine.GroupCommit
import ToyVdb.Engine.Embedding
import ToyVdb.Engine.SinglePrecision
import ToyVdb.Rag.Text
import ToyVdb.Rag.Chunks
import ToyVdb.Rag.Model
import ToyVdb.Rag.Keys
import ToyVdb.Rag.Prompt
import ToyVdb.Rag.Loops
import ToyVdb.Rag.Consistency
import ToyVdb.Rag.Failure
import ToyVdb.Rag.MockEmbedding
import ToyVdb.Rag.UnitLength
import ToyVdb.Rag.Embedding
import ToyVdb.Rag.Retrieval
