/-
# The buffer pool and its transactions (`buffer_pool.rs`, `heap_file.rs`)

Each transaction runs in one thread, and `Db` holds everything the threads share:
the lock table, the page cache `id_to_page`, and the file of each table.  The catalog
(`Catalog::get_table_from_id`, here the tuple descriptor of each table id) does not
change and is a parameter.

A thread's `Phase` says where it is.  `BufferPool::get_page(tid, pid, perm)` is five
atomic steps: `acquire_lock`'s fast path under the read latch, its rounds under the
write latches, the cache lookup under the `id_to_page` read latch, `read_page` under
the file's mutex, and the insert of the page read under the `id_to_page` write latch.
The caller's use of the page is `Resume`: the probe and the write of
`HeapFile::add_tuple`, the write of `HeapFile::delete_tuple`, or nothing more (the page
iterators).  `commit_transaction` and `abort_transaction` snapshot
`get_locked_pages`, treat its pages one at a time in any order (a `HashSet` is
iterated in an order of its own), and then `release_locks`.

A page is a value: the `Arc` that `get_page` returns is the cache entry itself, and
the write steps update that entry.  Each step is labelled with the transaction that
takes it and its `Effect` on the tables as the transactions see them: a write of one
page, the start of a commit, an abort putting one page back, or nothing.  A round of
`acquire_lock` that waits changes nothing (the thread sleeps and runs another round)
and is left out; the die branch runs `abort_transaction` and then panics.  Every panic
of the code stops its thread for good, holding whatever locks it holds: that is
`Step.crash`, which any thread may take at any time, so the model has every behaviour
of the code and more.
-/
import RusticDb.HeapFile
import RusticDb.LockManager

namespace RusticDb

/-- What the caller of `BufferPool::get_page` does with the page. -/
inductive Resume where
  /-- `HeapFile::add_tuple` probes page `pageNo` of table `tableId` for a free slot. -/
  | probe (tableId pageNo : Nat) (tuple : Tuple)
  /-- `HeapFile::add_tuple` puts `tuple` in the page it probed. -/
  | insert (tuple : Tuple)
  /-- `HeapFile::delete_tuple`. -/
  | delete (tuple : Tuple)
  /-- The page iterators: the page is only read. -/
  | fetch

/-- `get_page` is called with `Permission::Write`. -/
def Resume.write : Resume → Bool
  | .insert _ | .delete _ => true
  | _ => false

/-- Where a transaction's thread is. -/
inductive Phase where
  /-- Between two operations of the transaction. -/
  | ready
  /-- `get_page(pid, exclusive)` is about to run `acquire_lock`'s fast path. -/
  | acquire (pid : HeapPageId) (exclusive : Bool) (k : Resume)
  /-- In `acquire_lock`'s loop. -/
  | round (pid : HeapPageId) (exclusive : Bool) (k : Resume)
  /-- `acquire_lock` returned: `get_page` looks in the cache. -/
  | lookup (pid : HeapPageId) (k : Resume)
  /-- A cache miss: `get_page` is about to `read_page`. -/
  | read (pid : HeapPageId) (k : Resume)
  /-- `read_page` returned `page`, not yet in the cache. -/
  | loaded (pid : HeapPageId) (page : HeapPage) (k : Resume)
  /-- `get_page` returned `page`. -/
  | use (pid : HeapPageId) (page : HeapPage) (k : Resume)
  /-- `commit_transaction` (`commit = true`) or `abort_transaction`, with the locked
  pages not yet treated. -/
  | finishing (commit : Bool) (pending : List HeapPageId)
  /-- The transaction committed or aborted. -/
  | done
  /-- The thread panicked. -/
  | crashed

/-- The state the threads share, and each transaction's phase. -/
structure Db where
  lm : LockManager
  idToPage : HeapPageId → Option HeapPage
  files : Nat → List (BitVec 8)
  phase : Nat → Phase

namespace Db

/-- The start: no lock, nothing cached, every transaction ready. -/
def init (files : Nat → List (BitVec 8)) : Db := ⟨LockManager.new, fun _ => none, files, fun _ => .ready⟩

/-- Move transaction `t` to phase `ph`. -/
def setPhase (s : Db) (t : Nat) (ph : Phase) : Db := { s with phase := Function.update s.phase t ph }

@[simp] theorem setPhase_lm (s : Db) (t : Nat) (ph : Phase) : (s.setPhase t ph).lm = s.lm := rfl
@[simp] theorem setPhase_idToPage (s : Db) (t : Nat) (ph : Phase) :
    (s.setPhase t ph).idToPage = s.idToPage := rfl
@[simp] theorem setPhase_files (s : Db) (t : Nat) (ph : Phase) :
    (s.setPhase t ph).files = s.files := rfl
@[simp] theorem setPhase_phase (s : Db) (t : Nat) (ph : Phase) :
    (s.setPhase t ph).phase = Function.update s.phase t ph := rfl

end Db

/-- A write of a transaction to one page: the `add_tuple` of `HeapFile::add_tuple` or
the `delete_tuple` of `HeapFile::delete_tuple`. -/
inductive Op where
  | insert (pid : HeapPageId) (tuple : Tuple)
  | delete (pid : HeapPageId) (tuple : Tuple)

/-- The page an operation writes. -/
def Op.pid : Op → HeapPageId
  | .insert pid _ | .delete pid _ => pid

/-- What a step does to the tables as the transactions see them. -/
inductive Effect where
  /-- Nothing: locking, looking up, reading, caching, writing a page back, a panic. -/
  | silent
  /-- The moving transaction writes a page it holds. -/
  | write (op : Op)
  /-- `commit_transaction` begins. -/
  | commit
  /-- `abort_transaction` puts back the before-image of one page. -/
  | restore (pid : HeapPageId)

namespace Db

variable (catalog : Nat → Option TupleDesc)

/-- One atomic step of transaction `t`'s thread, with its effect. -/
inductive Step : Nat → Effect → Db → Db → Prop
  /-- `BufferPool::insert_tuple`: `add_tuple` starts at page 0 with `Permission::Read`. -/
  | insertTuple {s : Db} (t tableId : Nat) (tuple : Tuple) :
      s.phase t = .ready → catalog tableId ≠ none →
      Step t .silent s (s.setPhase t (.acquire ⟨tableId, 0⟩ false (.probe tableId 0 tuple)))
  /-- `BufferPool::delete_tuple`: the page named by the tuple's record id, for writing. -/
  | deleteTuple {s : Db} (t tableId : Nat) (tuple : Tuple) :
      s.phase t = .ready → catalog tableId ≠ none →
      Step t .silent s (s.setPhase t (.acquire tuple.rid.pid true (.delete tuple)))
  /-- A page iterator's `get_page`. -/
  | getPage {s : Db} (t : Nat) (pid : HeapPageId) (exclusive : Bool) :
      s.phase t = .ready → Step t .silent s (s.setPhase t (.acquire pid exclusive .fetch))
  /-- `commit_transaction` snapshots `get_locked_pages`. -/
  | commitTransaction {s : Db} (t : Nat) :
      s.phase t = .ready → Step t .commit s (s.setPhase t (.finishing true (s.lm.getLockedPages t)))
  /-- `abort_transaction` snapshots `get_locked_pages`. -/
  | abortTransaction {s : Db} (t : Nat) :
      s.phase t = .ready → Step t .silent s (s.setPhase t (.finishing false (s.lm.getLockedPages t)))
  /-- `acquire_lock` returns early. -/
  | fastPath {s : Db} (t : Nat) (pid : HeapPageId) (exclusive : Bool) (k : Resume) :
      s.phase t = .acquire pid exclusive k → s.lm.fastPath t pid exclusive = true →
      Step t .silent s (s.setPhase t (.lookup pid k))
  | slowPath {s : Db} (t : Nat) (pid : HeapPageId) (exclusive : Bool) (k : Resume) :
      s.phase t = .acquire pid exclusive k → s.lm.fastPath t pid exclusive = false →
      Step t .silent s (s.setPhase t (.round pid exclusive k))
  /-- A round of `acquire_lock` is granted. -/
  | granted {s : Db} (t : Nat) (pid : HeapPageId) (exclusive : Bool) (k : Resume)
      {lm' : LockManager} :
      s.phase t = .round pid exclusive k → s.lm.attempt t pid exclusive = some (.granted lm') →
      Step t .silent s { s with lm := lm', phase := Function.update s.phase t (.lookup pid k) }
  /-- A round dies: `abort_transaction(tid)`, after which the thread panics. -/
  | die {s : Db} (t : Nat) (pid : HeapPageId) (exclusive : Bool) (k : Resume) :
      s.phase t = .round pid exclusive k → s.lm.attempt t pid exclusive = some .die →
      Step t .silent s (s.setPhase t (.finishing false (s.lm.getLockedPages t)))
  /-- `get_page` finds the page in the cache. -/
  | hit {s : Db} (t : Nat) (pid : HeapPageId) (k : Resume) (page : HeapPage) :
      s.phase t = .lookup pid k → s.idToPage pid = some page →
      Step t .silent s (s.setPhase t (.use pid page k))
  | miss {s : Db} (t : Nat) (pid : HeapPageId) (k : Resume) :
      s.phase t = .lookup pid k → s.idToPage pid = none →
      Step t .silent s (s.setPhase t (.read pid k))
  /-- `HeapFile::read_page` on the table's file. -/
  | readPage {s : Db} (t : Nat) (pid : HeapPageId) (k : Resume) (td : TupleDesc)
      (file : List (BitVec 8)) (page : HeapPage) :
      s.phase t = .read pid k → catalog pid.tableId = some td →
      RusticDb.readPage (s.files pid.tableId) td pid = some (file, page) →
      Step t .silent s
        { s with files := Function.update s.files pid.tableId file
                 phase := Function.update s.phase t (.loaded pid page k) }
  /-- `id_to_page.insert(pid, page)`, replacing what another thread may have put there. -/
  | install {s : Db} (t : Nat) (pid : HeapPageId) (page : HeapPage) (k : Resume) :
      s.phase t = .loaded pid page k →
      Step t .silent s
        { s with idToPage := Function.update s.idToPage pid (some page)
                 phase := Function.update s.phase t (.use pid page k) }
  /-- The probe finds a free slot: `get_page` again, with `Permission::Write`. -/
  | probeFree {s : Db} (t : Nat) (pid : HeapPageId) (page : HeapPage) (tableId pageNo : Nat)
      (tuple : Tuple) :
      s.phase t = .use pid page (.probe tableId pageNo tuple) → 0 < page.getNumEmptySlots →
      Step t .silent s (s.setPhase t (.acquire pid true (.insert tuple)))
  /-- The probe finds the page full: on to the next page. -/
  | probeFull {s : Db} (t : Nat) (pid : HeapPageId) (page : HeapPage) (tableId pageNo : Nat)
      (tuple : Tuple) :
      s.phase t = .use pid page (.probe tableId pageNo tuple) → page.getNumEmptySlots = 0 →
      Step t .silent s
        (s.setPhase t (.acquire ⟨tableId, pageNo + 1⟩ false (.probe tableId (pageNo + 1) tuple)))
  /-- `page_writer.add_tuple(tuple).unwrap()`, then `mark_dirty(true, tid)`. -/
  | insert {s : Db} (t : Nat) (pid : HeapPageId) (page page' : HeapPage) (tuple : Tuple) :
      s.phase t = .use pid page (.insert tuple) → page.addTuple tuple = .ok page' →
      Step t (.write (.insert pid tuple)) s
        { s with idToPage := Function.update s.idToPage pid (some (page'.markDirty true t))
                 phase := Function.update s.phase t .ready }
  /-- `page_writer.delete_tuple(tuple).unwrap()`, then `mark_dirty(true, tid)`. -/
  | delete {s : Db} (t : Nat) (pid : HeapPageId) (page page' : HeapPage) (tuple : Tuple) :
      s.phase t = .use pid page (.delete tuple) → page.deleteTuple tuple = some (.ok page') →
      Step t (.write (.delete pid tuple)) s
        { s with idToPage := Function.update s.idToPage pid (some (page'.markDirty true t))
                 phase := Function.update s.phase t .ready }
  /-- A page iterator hands the page to its caller. -/
  | fetched {s : Db} (t : Nat) (pid : HeapPageId) (page : HeapPage) :
      s.phase t = .use pid page .fetch → Step t .silent s (s.setPhase t .ready)
  /-- `commit_transaction` on a dirty cached page: `write_page`, `mark_dirty(false)`,
  `set_before_image`. -/
  | commitPage {s : Db} (t : Nat) (pending : List HeapPageId) (pid : HeapPageId)
      (page page' : HeapPage) (file : List (BitVec 8)) :
      s.phase t = .finishing true pending → pid ∈ pending → s.idToPage pid = some page →
      page.isDirty = true → catalog pid.tableId ≠ none →
      writePage (s.files pid.tableId) page = some file →
      (page.markDirty false t).setBeforeImage = some page' →
      Step t .silent s
        { s with idToPage := Function.update s.idToPage pid (some page')
                 files := Function.update s.files pid.tableId file
                 phase := Function.update s.phase t (.finishing true (pending.erase pid)) }
  /-- `abort_transaction` on a dirty cached page: `*page = page.get_before_image()`, then
  `mark_dirty(false)`. -/
  | abortPage {s : Db} (t : Nat) (pending : List HeapPageId) (pid : HeapPageId)
      (page before : HeapPage) :
      s.phase t = .finishing false pending → pid ∈ pending → s.idToPage pid = some page →
      page.isDirty = true → page.getBeforeImage = some before →
      Step t (.restore pid) s
        { s with idToPage := Function.update s.idToPage pid (some (before.markDirty false t))
                 phase := Function.update s.phase t (.finishing false (pending.erase pid)) }
  /-- A locked page that is not cached, or not dirty, needs nothing. -/
  | skipPage {s : Db} (t : Nat) (commit : Bool) (pending : List HeapPageId) (pid : HeapPageId) :
      s.phase t = .finishing commit pending → pid ∈ pending →
      (∀ page, s.idToPage pid = some page → page.isDirty = false) →
      Step t .silent s (s.setPhase t (.finishing commit (pending.erase pid)))
  /-- `release_locks(tid)` ends the commit or the abort. -/
  | release {s : Db} (t : Nat) (commit : Bool) {lm' : LockManager} :
      s.phase t = .finishing commit [] → s.lm.releaseLocks t = some lm' →
      Step t .silent s { s with lm := lm', phase := Function.update s.phase t .done }
  /-- A panic stops the thread. -/
  | crash {s : Db} (t : Nat) : Step t .silent s (s.setPhase t .crashed)

/-- The states that any interleaving of the transactions' steps reaches from the
initial files. -/
inductive Reachable (files : Nat → List (BitVec 8)) : Db → Prop
  | init : Reachable files (init files)
  | step {s s' : Db} {t : Nat} {e : Effect} :
      Reachable files s → Step catalog t e s s' → Reachable files s'

end Db

end RusticDb
