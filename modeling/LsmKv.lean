import LsmKv.Library.Versions
import LsmKv.Library.SortedList
import LsmKv.WriteBatch
import LsmKv.Wal
import LsmKv.MemTable
import LsmKv.BlockCursor
import LsmKv.TableCursor
import LsmKv.Iterators
import LsmKv.Library.StateLogic
import LsmKv.TableKeys
import LsmKv.BlockSafety
import LsmKv.TableBounds
import LsmKv.CompactionReads
import LsmKv.Commits
import LsmKv.Lookups
import LsmKv.BatchGrammar
import LsmKv.ManifestBounds
import LsmKv.CacheIndex
import LsmKv.SharedCache
import LsmKv.LevelCursor
import LsmKv.SkipReaders
import LsmKv.Arena
import LsmKv.Bursts
import LsmKv.Stats
import LsmKv.Drain
import LsmKv.Room
import LsmKv.Journal
import LsmKv.JobEffects
import LsmKv.Firm
import LsmKv.LogBytes
import LsmKv.Syncs
import LsmKv.Stable
import LsmKv.Backed
import LsmKv.PowerLoss
import LsmKv.Failures
import LsmKv.Guarantees
import LsmKv.GroupCommit
import LsmKv.Interference
import LsmKv.SyncRequests
