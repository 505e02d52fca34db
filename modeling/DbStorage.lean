import DbStorage.Core.LTS
import DbStorage.Core.Bytes
import DbStorage.Core.Action
import DbStorage.Core.Overlay
import DbStorage.Core.PagedTree
import DbStorage.Core.RecordLock
import DbStorage.Vfs.PageFile
import DbStorage.Vfs.FileLock
import DbStorage.Wal.Format
import DbStorage.Wal.Chain
import DbStorage.Wal.Writer
import DbStorage.Wal.Checkpoint
import DbStorage.Wal.History
import DbStorage.Pager.Journal
import DbStorage.Pager.Freelist
import DbStorage.Pager.Rollback
import DbStorage.Pager.Crash
import DbStorage.Pager.PageCache
import DbStorage.Pager.Connection
import DbStorage.Pager.Reopen
import DbStorage.Pager.Cluster
import DbStorage.Pager.Snapshot
import DbStorage.Pager.ProcessLock
import DbStorage.Pager.Store
import DbStorage.Pager.Heap
import DbStorage.Record.Varint
import DbStorage.Btree.Page
import DbStorage.Btree.Table
import DbStorage.Btree.Frame
import DbStorage.Btree.Layout
import DbStorage.Btree.Space
import DbStorage.Btree.Store
import DbStorage.Btree.Overflow
import DbStorage.Record.Text
import DbStorage.Record.Codec
import DbStorage.Pager.TxLock
import DbStorage.Vfs.ReadLock
import DbStorage.Pager.HotJournal
import DbStorage.Pager.FlushFault
import DbStorage.Pager.ModeSwitch
import DbStorage.Pager.PageHandles
import DbStorage.Parquet.Thrift
import DbStorage.Parquet.Footer
import DbStorage.Parquet.Hybrid
import DbStorage.Parquet.Page
import DbStorage.Parquet.Column
import DbStorage.Parquet.Nested
import DbStorage.Wal.Committed
import DbStorage.Pager.TornJournal
import DbStorage.Pager.ResumeHint
import DbStorage.Pager.WalIndex
import DbStorage.Btree.TableCursor
import DbStorage.Btree.IndexCursor
import DbStorage.Integrity
import DbStorage.Integrity.Stored
import DbStorage.Integrity.KeyOrder
import DbStorage.Btree.KeyPreorder
import DbStorage.Record.Columns
import DbStorage.Parquet.DictionaryIndices
import DbStorage.Btree.PageCalls
import DbStorage.Core.Loop
import DbStorage.Btree.ReadBounds
import DbStorage.Btree.CellCodec
import DbStorage.Schema.ColumnText
import DbStorage.Parquet.Compression
import DbStorage.Parquet.Delta
import DbStorage.Parquet.Numbers
import DbStorage.Parquet.Encodings
import DbStorage.Parquet.NestedBounds
import DbStorage.Parquet.NestedColumn
import DbStorage.Record.BodyLengths
import DbStorage.Parquet.SchemaTree
import DbStorage.Pager.LruCache
import DbStorage.Record.Csv
import DbStorage.Maintenance
