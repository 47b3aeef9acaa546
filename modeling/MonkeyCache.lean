import MonkeyCache.Lib.Fallible
import MonkeyCache.Lib.Transition
import MonkeyCache.Lib.Chunks
import MonkeyCache.Kernel
import MonkeyCache.PipeBuf
import MonkeyCache.CacheReq
import MonkeyCache.Socket
import MonkeyCache.Serving
import MonkeyCache.ServingLoop
import MonkeyCache.ServingBytes
import MonkeyCache.ServingStart
import MonkeyCache.ServingRuns
import MonkeyCache.ResponseStream
import MonkeyCache.Progress
import MonkeyCache.Filling
import MonkeyCache.Workers
import MonkeyCache.Frame
import MonkeyCache.FileTable
import MonkeyCache.Lifetime
import MonkeyCache.Worker
import MonkeyCache.TableRuns
import MonkeyCache.WorkerRuns
import MonkeyCache.ObjectLife
import MonkeyCache.Overlay
import MonkeyCache.Transparency
import MonkeyCache.Appending
import MonkeyCache.HashTable
import MonkeyCache.TableImpls
import MonkeyCache.TableEffects
import MonkeyCache.Insertion
import MonkeyCache.Eviction
import MonkeyCache.Addressing
import MonkeyCache.Moves
import MonkeyCache.PipeOwnership
import MonkeyCache.Descriptors
import MonkeyCache.TableNodes
import MonkeyCache.TableMutex
import MonkeyCache.TableCursor
import MonkeyCache.Buf
import MonkeyCache.MimeMap
import MonkeyCache.HeaderRace
import MonkeyCache.Mapping
import MonkeyCache.UrlBuffers
import MonkeyCache.Locks
import MonkeyCache.Recency
import MonkeyCache.Lib.Linked
import MonkeyCache.MemStore
import MonkeyCache.MemStoreCells
import MonkeyCache.MemTable
import MonkeyCache.MemTableEach
import MonkeyCache.Json
import MonkeyCache.JsonGrammar
import MonkeyCache.JsonRoundTrip
import MonkeyCache.Stats
import MonkeyCache.Hooks
import MonkeyCache.Lib.Tickets
import MonkeyCache.CacheStats
import MonkeyCache.StatsCounts
