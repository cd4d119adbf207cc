import Rmdb.Lib.Bisect
import Rmdb.Lib.SepList
import Rmdb.Lib.Ring
import Rmdb.Lib.BPlus
import Rmdb.Lib.BPlusOrder
import Rmdb.Index.Node
import Rmdb.Index.NodeSpec
import Rmdb.Index.Handle
import Rmdb.Index.Heap
import Rmdb.Index.Climb
import Rmdb.Index.Zip
import Rmdb.Index.Insert
import Rmdb.Index.Delete
import Rmdb.Index.Scan
import Rmdb.Index.Key
import Rmdb.Index.Map
import Rmdb.Index.TreeShape
import Rmdb.Lib.Trace
import Rmdb.Transaction.LockQueue
import Rmdb.Transaction.LockManager
import Rmdb.Transaction.WaitDie
import Rmdb.Lib.Slot
import Rmdb.Recovery.Log
import Rmdb.Transaction.ClientHandler
import Rmdb.Recovery.Replay
import Rmdb.Recovery.History
import Rmdb.Recovery.LogInv
import Rmdb.Recovery.DataInv
import Rmdb.Recovery.Crash
import Rmdb.Recovery.Restart
import Rmdb.Execution.Executor
import Rmdb.Execution.IndexRows
import Rmdb.Execution.Statement
import Rmdb.Execution.Rollback
import Rmdb.Execution.ExplicitTxn
import Rmdb.Execution.Autocommit
import Rmdb.Storage.BufferPool
import Rmdb.Storage.PoolInv
import Rmdb.Storage.PinnedPages
import Rmdb.Storage.FlatStore
import Rmdb.Record.Bitmap
import Rmdb.Record.RmFile
import Rmdb.Record.RecordMap
import Rmdb.Lib.Chain
import Rmdb.Record.FreeList
import Rmdb.Record.FreeSpace
import Rmdb.Transaction.ConcurrentInsert
import Rmdb.Lib.Cursor
import Rmdb.Record.RmScan
import Rmdb.Index.Bounds
import Rmdb.Execution.Condition
import Rmdb.Execution.ScanExecutor
import Rmdb.Execution.ColumnOrder
import Rmdb.Execution.IndexScan
import Rmdb.Execution.ScanAgreement
import Rmdb.Lib.Group
import Rmdb.Execution.Aggregation
import Rmdb.Execution.CountStar
import Rmdb.Transaction.GroupMode
import Rmdb.Transaction.StuckQueue
import Rmdb.Transaction.RecordLock
import Rmdb.Index.Changes
import Rmdb.Index.IndexFiles
import Rmdb.Record.PageBytes
import Rmdb.Record.TableFiles
import Rmdb.Recovery.LogManager
import Rmdb.Transaction.Acknowledge
import Rmdb.Recovery.WriteAhead
import Rmdb.Recovery.LogBytes
import Rmdb.Recovery.LogCrash
import Rmdb.Recovery.TableCrash
import Rmdb.Recovery.CleanRestart
import Rmdb.Recovery.IndexBuild
import Rmdb.Recovery.IndexSession
import Rmdb.Recovery.IndexCrash
import Rmdb.Recovery.IndexRestart
import Rmdb.Recovery.LogCodec
import Rmdb.Recovery.LogBuffer
import Rmdb.Recovery.LogScan
import Rmdb.Lib.Orbit
import Rmdb.Recovery.LogScanEnd
import Rmdb.Index.Reachable
import Rmdb.Index.Separators
import Rmdb.Index.PinTrace
import Rmdb.Index.PinBalance
import Rmdb.Storage.PinCounts
import Rmdb.Index.PinnedCalls
import Rmdb.Execution.NestedLoopJoin
import Rmdb.Execution.SwapSides
import Rmdb.Execution.FailedInsert
import Rmdb.Execution.UpdateRefused
import Rmdb.System.CreateIndex
import Rmdb.System.LoadTable
import Rmdb.System.LoadedRow
import Rmdb.Execution.AggregateValue
import Rmdb.Execution.GroupBy
import Rmdb.Execution.Having
import Rmdb.Lib.Retracted
import Rmdb.Recovery.Rebuild
import Rmdb.Recovery.RefusedInsert
import Rmdb.Recovery.RefusedReplay
import Rmdb.Recovery.RecoverAgain
import Rmdb.Storage.DiskManager
import Rmdb.System.IndexName
import Rmdb.Lib.TextStream
import Rmdb.System.MetaFile
import Rmdb.Execution.StringCompare
import Rmdb.Execution.DecimalLiteral
import Rmdb.Index.NodeSearch
import Rmdb.Execution.KeyFillers
import Rmdb.Recovery.PersistLsn
import Rmdb.Storage.FailedFetch
import Rmdb.Transaction.FinishedSession
import Rmdb.Optimizer.Planner
import Rmdb.Optimizer.JoinOrder
import Rmdb.Optimizer.PlannedQuery
import Rmdb.Index.KeyEquality
import Rmdb.Storage.LruReplacer
import Rmdb.Record.ScanCounts
import Rmdb.Index.FileHeader
import Rmdb.Execution.RecordPrinter
import Rmdb.Execution.TableScan
import Rmdb.Transaction.LockHolders
import Rmdb.Transaction.TableServer
import Rmdb.Transaction.DirtyRead
import Rmdb.Transaction.SerialOrder
import Rmdb.Execution.SelectAnswers
import Rmdb.Execution.SessionRefines
import Rmdb.Analyze.Accepted
import Rmdb.Lib.Restart
import Rmdb.System.Ddl
import Rmdb.System.Schema
import Rmdb.System.Described
import Rmdb.System.DdlRuns
import Rmdb.System.DdlRefines
import Rmdb.System.DdlSession
import Rmdb.System.DdlRestart
