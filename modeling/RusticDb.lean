import RusticDb.Types
import RusticDb.Tuple
import RusticDb.Catalog
import RusticDb.HeapPage
import RusticDb.PageCodec
import RusticDb.Query
import RusticDb.HeapFile
import RusticDb.LockManager
import RusticDb.LockTable
import RusticDb.WaitDie
import RusticDb.BufferPool
import RusticDb.Isolation
import RusticDb.BeforeImage
import RusticDb.Serializability
import RusticDb.FirstFit
import RusticDb.InsertOrder
import RusticDb.Filter
import RusticDb.Schema
import RusticDb.Storage
import RusticDb.Completion
