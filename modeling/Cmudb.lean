import Cmudb.Lib.Range
import Cmudb.Lib.Runs
import Cmudb.Ids
import Cmudb.TablePage
import Cmudb.TablePageSound
import Cmudb.TablePageUpdate
import Cmudb.TablePageCorrupt
import Cmudb.HeapScan
import Cmudb.Collection
import Cmudb.TableHeap
import Cmudb.Lib.VersionChain
import Cmudb.Manager
import Cmudb.Schedule
import Cmudb.History
import Cmudb.RowInv
import Cmudb.Inv
import Cmudb.InvSteps
import Cmudb.InvEnds
import Cmudb.Effects
import Cmudb.Mvcc
import Cmudb.Calls
import Cmudb.Snapshot
import Cmudb.Conflicts
import Cmudb.Owners
import Cmudb.Rollback
import Cmudb.Lib.Reservations
import Cmudb.KeyTasks
import Cmudb.Keys
import Cmudb.KeyInv
import Cmudb.KeySteps
import Cmudb.KeyWrites
import Cmudb.Unique
import Cmudb.OwnView
import Cmudb.FailedCommit
import Cmudb.Lib.Framing
import Cmudb.LogRecord
import Cmudb.Wal
import Cmudb.LogHistory
import Cmudb.LogInv
import Cmudb.WalInv
import Cmudb.LogReplay
import Cmudb.Checkpoints
import Cmudb.Lib.Search
import Cmudb.BPlusPage
import Cmudb.LeafSound
import Cmudb.PageBytes
import Cmudb.LeafViewSound
import Cmudb.Lib.Linked
import Cmudb.Replacer
import Cmudb.ReplacerLists
import Cmudb.ReplacerInv
import Cmudb.ReplacerSteps
import Cmudb.ReplacerEvictions
import Cmudb.ReplacerRuns
import Cmudb.CommitCall
import Cmudb.Session
import Cmudb.SessionSound
import Cmudb.Lib.Slices
import Cmudb.Sql.Rows
import Cmudb.Lib.Grouping
import Cmudb.Lib.Peers
import Cmudb.Sql.Aggregates
import Cmudb.Sql.Aggregation
import Cmudb.Sql.Counters
import Cmudb.Sql.Sorting
import Cmudb.Sql.Window
import Cmudb.Sql.WindowCalls
import Cmudb.Sql.WindowSound
import Cmudb.Sql.Executor
import Cmudb.Sql.PlanSchemas
import Cmudb.Sql.Typing
import Cmudb.Sql.Expressions
import Cmudb.Sql.Order
import Cmudb.Sql.RowSound
import Cmudb.Sql.Values
import Cmudb.Sql.RowTrip
import Cmudb.Sql.TimestampSound
import Cmudb.Sql.Constants
import Cmudb.Sql.IndexScans
import Cmudb.MetadataChain
import Cmudb.FailedSyncs
import Cmudb.LogCodec
import Cmudb.PageCodecs
import Cmudb.Sql.JoinKeys
