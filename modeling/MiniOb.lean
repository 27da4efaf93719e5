import MiniOb.Lib.Prog
import MiniOb.Lib.Bytes
import MiniOb.Common.Types
import MiniOb.Common.LowerBound
import MiniOb.BplusTree.Range
import MiniOb.BplusTree.Rollback
import MiniOb.Buffer.HeaderLog
import MiniOb.Buffer.PoolRuns
import MiniOb.Codec.RecordKey
import MiniOb.Clog.Truncation
import MiniOb.Lib.Loop
import MiniOb.Sql.NestedLoopJoin
import MiniOb.Net.MysqlCommunicator
import MiniOb.Oblsm.UserIterator
import MiniOb.Table.TableMeta
import MiniOb.Cascade.Memo
import MiniOb.Cascade.Tasks
import MiniOb.Cascade.Recording
import MiniOb.Cascade.Search
import MiniOb.Lib.Number
import MiniOb.Sql.Expression
import MiniOb.Sql.ExpressionAgreement
import MiniOb.Rewrite.Fixpoint
import MiniOb.Rewrite.Rows
import MiniOb.Sql.Scan
import MiniOb.Sql.ScanAgreement
import MiniOb.Table.HeapTableEngine
import MiniOb.Trx.MvccTrx
import MiniOb.Trx.IndexEntries
import MiniOb.Table.IvfflatFile
import MiniOb.Buffer.PoolClose
import MiniOb.Table.Reopen
import MiniOb.BplusTree.Holding
import MiniOb.BplusTree.LogBuffer
import MiniOb.BplusTree.RedoErrors
import MiniOb.BplusTree.Retry
import MiniOb.Buffer.Fallible
import MiniOb.Buffer.PinCount
import MiniOb.BplusTree.Comparator
import MiniOb.Clog.BufferBytes
import MiniOb.Buffer.Eviction
import MiniOb.Clog.Delivery
import MiniOb.Table.InsertUndo
import MiniOb.Buffer.WriteAhead
import MiniOb.Buffer.WriteFailure
import MiniOb.Common.Bitmap
import MiniOb.Lib.Region
import MiniOb.Record.RecordPageHandler
import MiniOb.Record.PageSlots
import MiniOb.Record.RecordFileHandler
import MiniOb.Record.InsertFailure
import MiniOb.Buffer.PageLoading
import MiniOb.Buffer.PoolLocks
import MiniOb.Record.HeapFile
import MiniOb.Record.HeapRecordScanner
import MiniOb.Record.HeapRuns
import MiniOb.Lib.Sorting
import MiniOb.Sql.OrderBy
import MiniOb.Table.AnnSearch
