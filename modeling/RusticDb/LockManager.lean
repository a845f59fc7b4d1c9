/-
# The lock manager (`lock_manager.rs`)

`LockManager` keeps every lock in two indexes, `page_to_locks` and
`transaction_to_locks`.  A `HashMap` is a function to `Option`; a `HashSet<Lock>` is
a list without repeats in its iteration order, so `insert` is `List.insert` and
`remove` is `List.erase`.  Transaction ids are the `u64` counter of
`transaction.rs`, a natural number here; smaller is older.

`acquire_lock` is two pieces, each one critical section of the code:

* `fastPath`: under the read latch, does `tid` already hold a lock on `pid` that is
  strong enough?  Then `acquire_lock` returns at once.
* `attempt`: one round of the `loop`, under both write latches.  It upgrades the
  sole holder's shared lock (`upgradeLock`), returns if `tid` is the sole holder and
  asks for a shared lock, reports a conflict as `die` (some holder is older) or
  `wait` (sleep, then another round), and otherwise inserts the lock in both
  indexes (`insertLock`).

`releaseLocks` is `release_locks`, `holdsLock` is `holds_lock` and `getLockedPages`
is `get_locked_pages`.  A `none` result is a panic: one of the `unwrap`s of
`upgrade_lock` or `release_locks` on a missing entry.
-/
import RusticDb.Tuple
import Mathlib.Data.List.Dedup

namespace RusticDb

/-- `Lock`. -/
structure Lock where
  tid : Nat
  pid : HeapPageId
  exclusive : Bool
  deriving DecidableEq, Repr

/-- `Permission` (`heap_page.rs`). -/
inductive Permission where
  | read
  | write
  deriving DecidableEq, Repr

/-- `LockManager`: the page index and the transaction index. -/
structure LockManager where
  pageToLocks : HeapPageId → Option (List Lock)
  transactionToLocks : Nat → Option (List Lock)

namespace LockManager

/-- `LockManager::new`: both indexes empty. -/
def new : LockManager := ⟨fun _ => none, fun _ => none⟩

/-- The locks held on `pid` (none when the page has no entry). -/
def locksOn (lm : LockManager) (pid : HeapPageId) : List Lock := (lm.pageToLocks pid).getD []

/-- The locks `tid` holds (none when the transaction has no entry). -/
def locksOf (lm : LockManager) (tid : Nat) : List Lock := (lm.transactionToLocks tid).getD []

/-- The early return of `acquire_lock`: `tid` holds a lock on `pid` that is exclusive
or was asked for as shared. -/
def fastPath (lm : LockManager) (tid : Nat) (pid : HeapPageId) (exclusive : Bool) : Bool :=
  match lm.transactionToLocks tid with
  | some locks => locks.any fun lock => lock.pid == pid && (lock.exclusive == exclusive || !exclusive)
  | none => false

/-- `upgrade_lock`: replace `tid`'s shared lock on `pid` by an exclusive one in both
indexes; `none` when an entry is missing (the `unwrap`s). -/
def upgradeLock (lm : LockManager) (tid : Nat) (pid : HeapPageId) : Option LockManager :=
  match lm.pageToLocks pid, lm.transactionToLocks tid with
  | some pageLocks, some transactionLocks =>
    let oldLock : Lock := ⟨tid, pid, false⟩
    let newLock : Lock := ⟨tid, pid, true⟩
    some { pageToLocks := Function.update lm.pageToLocks pid
             (some ((pageLocks.erase oldLock).insert newLock))
           transactionToLocks := Function.update lm.transactionToLocks tid
             (some ((transactionLocks.erase oldLock).insert newLock)) }
  | _, _ => none

/-- The last step of `acquire_lock`: add the lock to both indexes, creating the
entries when missing. -/
def insertLock (lm : LockManager) (tid : Nat) (pid : HeapPageId) (exclusive : Bool) :
    LockManager :=
  let lock : Lock := ⟨tid, pid, exclusive⟩
  { pageToLocks := Function.update lm.pageToLocks pid (some ((lm.locksOn pid).insert lock))
    transactionToLocks :=
      Function.update lm.transactionToLocks tid (some ((lm.locksOf tid).insert lock)) }

end LockManager

/-- How one round of `acquire_lock`'s loop ends. -/
inductive Attempt where
  /-- `acquire_lock` returns with this lock table. -/
  | granted (lm : LockManager)
  /-- A conflict, every other holder younger: sleep 500 ms and go round again. -/
  | wait
  /-- A conflict with an older holder: `abort_transaction(tid)`, then panic. -/
  | die

namespace LockManager

/-- One round of the loop of `acquire_lock` (both write latches held). -/
def attempt (lm : LockManager) (tid : Nat) (pid : HeapPageId) (exclusive : Bool) :
    Option Attempt :=
  match lm.pageToLocks pid with
  | some locks =>
    if locks.length = 1 ∧ (locks.head?.map Lock.tid) = some tid then
      if exclusive then (lm.upgradeLock tid pid).map .granted else some (.granted lm)
    else
      let conflict := (exclusive && !locks.isEmpty) || locks.any Lock.exclusive
      if conflict then
        if locks.any fun lock => lock.tid < tid then some .die else some .wait
      else some (.granted (lm.insertLock tid pid exclusive))
  | none => some (.granted (lm.insertLock tid pid exclusive))

/-- The body of `release_locks`' loop over `tid`'s locks: remove each from its page's
entry, dropping entries that become empty; `none` when a page entry is missing. -/
def releasePageLocks (pageToLocks : HeapPageId → Option (List Lock)) :
    List Lock → Option (HeapPageId → Option (List Lock))
  | [] => some pageToLocks
  | lock :: rest =>
    match pageToLocks lock.pid with
    | none => none
    | some pageLocks =>
      let pageLocks' := pageLocks.erase lock
      releasePageLocks
        (Function.update pageToLocks lock.pid (if pageLocks'.isEmpty then none else some pageLocks'))
        rest

/-- `release_locks`: drop all of `tid`'s locks from both indexes. -/
def releaseLocks (lm : LockManager) (tid : Nat) : Option LockManager :=
  (releasePageLocks lm.pageToLocks (lm.locksOf tid)).map fun pageToLocks =>
    { pageToLocks, transactionToLocks := Function.update lm.transactionToLocks tid none }

/-- `holds_lock`: the mode of the first of `tid`'s locks on `pid`. -/
def holdsLock (lm : LockManager) (tid : Nat) (pid : HeapPageId) : Option Permission :=
  match lm.transactionToLocks tid with
  | some locks =>
    (locks.find? fun lock => lock.pid == pid).map fun lock =>
      if lock.exclusive then .write else .read
  | none => none

/-- `get_locked_pages`: the pages `tid` holds a lock on, as a set. -/
def getLockedPages (lm : LockManager) (tid : Nat) : List HeapPageId :=
  match lm.transactionToLocks tid with
  | some locks => (locks.map Lock.pid).dedup
  | none => []

end LockManager

end RusticDb
