/-
# The lock table's invariants (`lock_manager.rs`)

The lock manager's two indexes represent one set of locks.  `IndexOf index key S`
says that an index lists exactly the locks of `S` under their key, each once, with no
empty entry; `Represents lm S` says it of both indexes, `page_to_locks` keyed by the
page and `transaction_to_locks` keyed by the transaction.  The abstract lock set `S`
is what the lock manager is for: `LockSet.WellFormed` says a transaction holds at
most one lock per page and an exclusive lock excludes every other transaction.

Each operation moves the abstract set in one way (`LockSet.grant`,
`LockSet.upgrade`, `LockSet.releaseAll`), and the concrete operation refines it:
`Represents.insertLock`, `Represents.upgradeLock`, `Represents.releaseLocks`.  The
guards of `acquire_lock` keep `WellFormed` (`attempt_preserves`).

`Reachable` is every lock table that any interleaving of `acquire_lock` rounds and
`release_locks` calls, by any transactions, can produce from `LockManager::new`.
It over-approximates the code: a round may run without the fast path in front of
it, and a release may come at any time.  The headline results hold over all of it:

* `lock_table_consistent`: the two indexes agree, one lock per `(tid, pid)`, no
  empty entry, the `unwrap`s of `upgrade_lock` and `release_locks` never fail, and
  `holds_lock` reports the mode of the unique lock.
* `exclusive_lock_excludes`: an exclusive holder of a page is its only holder,
  while shared locks of distinct transactions do coexist.

From any table that represents a well-formed lock set, one call is exact:

* `acquire_lock_post`: when `acquire_lock` returns, `tid` holds one lock on the page
  (`LockSet.put`), at the mode it asked for or held, and no other lock moved; a die
  round ends in the `release_locks` of the abort.
* `release_locks_exact`: each page's entry is filtered in place, `tid`'s entry goes,
  and a second call changes nothing.

`fast_path_agrees` shows that the early return of `acquire_lock`, taken under the read
latch only, answers as a round of the loop would: in every reachable table, when it
fires, a round grants the request and leaves the table as it is.
-/
import RusticDb.LockManager

namespace RusticDb

/-! ## The abstract lock set -/

/-- A set of locks. -/
def LockSet := Lock → Prop

namespace LockSet

/-- Add a lock. -/
def grant (S : LockSet) (lock : Lock) : LockSet := fun l => S l ∨ l = lock

/-- Turn `tid`'s shared lock on `pid` into an exclusive one. -/
def upgrade (S : LockSet) (tid : Nat) (pid : HeapPageId) : LockSet :=
  fun l => (S l ∧ l ≠ ⟨tid, pid, false⟩) ∨ l = ⟨tid, pid, true⟩

/-- Drop every lock of `tid`. -/
def releaseAll (S : LockSet) (tid : Nat) : LockSet := fun l => S l ∧ l.tid ≠ tid

/-- One lock per transaction and page; an exclusive lock has no other holder. -/
structure WellFormed (S : LockSet) : Prop where
  unique : ∀ l₁ l₂, S l₁ → S l₂ → l₁.tid = l₂.tid → l₁.pid = l₂.pid → l₁ = l₂
  exclusive : ∀ l₁ l₂, S l₁ → S l₂ → l₁.pid = l₂.pid → l₁.exclusive → l₂.tid = l₁.tid

variable {S : LockSet}

theorem lock_eq_of {l : Lock} {tid : Nat} {pid : HeapPageId} {b : Bool}
    (ht : l.tid = tid) (hp : l.pid = pid) (hb : l.exclusive = b) : l = ⟨tid, pid, b⟩ := by
  cases l; simp_all

/-- The insert path: every lock on `pid` is shared, and there is none if the request
is exclusive. -/
theorem WellFormed.grant (h : S.WellFormed) {tid : Nat} {pid : HeapPageId} {exclusive : Bool}
    (hshared : ∀ l, S l → l.pid = pid → l.exclusive = false ∧ exclusive = false) :
    (S.grant ⟨tid, pid, exclusive⟩).WellFormed where
  unique := by
    rintro l₁ l₂ (h₁ | rfl) (h₂ | rfl) ht hp
    · exact h.unique l₁ l₂ h₁ h₂ ht hp
    · obtain ⟨hx, rfl⟩ := hshared l₁ h₁ hp
      exact lock_eq_of ht hp hx
    · obtain ⟨hx, rfl⟩ := hshared l₂ h₂ hp.symm
      exact (lock_eq_of ht.symm hp.symm hx).symm
    · rfl
  exclusive := by
    rintro l₁ l₂ (h₁ | rfl) (h₂ | rfl) hp hx
    · exact h.exclusive l₁ l₂ h₁ h₂ hp hx
    · rw [(hshared l₁ h₁ hp).1] at hx; cases hx
    · obtain ⟨-, rfl⟩ := hshared l₂ h₂ hp.symm; cases hx
    · rfl

/-- The upgrade path: every lock on `pid` is `tid`'s. -/
theorem WellFormed.upgrade (h : S.WellFormed) {tid : Nat} {pid : HeapPageId}
    (hsole : ∀ l, S l → l.pid = pid → l.tid = tid) : (S.upgrade tid pid).WellFormed where
  unique := by
    rintro l₁ l₂ (⟨h₁, n₁⟩ | rfl) (⟨h₂, n₂⟩ | rfl) ht hp
    · exact h.unique l₁ l₂ h₁ h₂ ht hp
    · exact lock_eq_of ht hp (Bool.eq_true_of_not_eq_false fun hb => n₁ (lock_eq_of ht hp hb))
    · exact (lock_eq_of ht.symm hp.symm
        (Bool.eq_true_of_not_eq_false fun hb => n₂ (lock_eq_of ht.symm hp.symm hb))).symm
    · rfl
  exclusive := by
    rintro l₁ l₂ (⟨h₁, -⟩ | rfl) (⟨h₂, -⟩ | rfl) hp hx
    · exact h.exclusive l₁ l₂ h₁ h₂ hp hx
    · exact (hsole l₁ h₁ hp).symm
    · exact hsole l₂ h₂ hp.symm
    · rfl

theorem WellFormed.releaseAll (h : S.WellFormed) (tid : Nat) : (S.releaseAll tid).WellFormed :=
  ⟨fun l₁ l₂ h₁ h₂ => h.unique l₁ l₂ h₁.1 h₂.1, fun l₁ l₂ h₁ h₂ => h.exclusive l₁ l₂ h₁.1 h₂.1⟩

/-- `tid`'s locks on `pid` become the one lock `⟨tid, pid, b⟩`; every other lock stays.
This is the table `acquire_lock` returns with. -/
def put (S : LockSet) (tid : Nat) (pid : HeapPageId) (b : Bool) : LockSet :=
  fun l => if l.tid = tid ∧ l.pid = pid then l.exclusive = b else S l

variable {tid : Nat} {pid : HeapPageId}

theorem upgrade_iff_put (l : Lock) : S.upgrade tid pid l ↔ S.put tid pid true l := by
  unfold upgrade put
  split_ifs with hl
  · have e : ∀ b, l = ⟨tid, pid, b⟩ ↔ l.exclusive = b :=
      fun b => ⟨fun e => e ▸ rfl, lock_eq_of hl.1 hl.2⟩
    simp only [ne_eq, e]
    cases l.exclusive <;> simp
  · have e : ∀ b, l ≠ ⟨tid, pid, b⟩ := fun b e => hl (e ▸ ⟨rfl, rfl⟩)
    simp [e]

theorem grant_iff_put {b : Bool} (hb : ∀ l, S l → l.tid = tid → l.pid = pid → l.exclusive = b)
    (l : Lock) : S.grant ⟨tid, pid, b⟩ l ↔ S.put tid pid b l := by
  unfold grant put
  split_ifs with hl
  · exact ⟨fun h => h.elim (fun hS => hb l hS hl.1 hl.2) fun e => e ▸ rfl,
      fun e => .inr (lock_eq_of hl.1 hl.2 e)⟩
  · exact or_iff_left fun e => hl (e ▸ ⟨rfl, rfl⟩)

theorem put_iff_self {b : Bool} (hS : S ⟨tid, pid, b⟩)
    (hb : ∀ l, S l → l.tid = tid → l.pid = pid → l.exclusive = b) (l : Lock) :
    S l ↔ S.put tid pid b l := by
  unfold put
  split_ifs with hl
  · exact ⟨fun h => hb l h hl.1 hl.2, fun e => lock_eq_of hl.1 hl.2 e ▸ hS⟩
  · rfl

end LockSet

/-! ## One index -/

/-- `index` lists exactly the locks of `S` under their `key`, each once, and has no
empty entry: the page index with `key = Lock.pid`, the transaction index with
`key = Lock.tid`. -/
structure IndexOf {α : Type} (index : α → Option (List Lock)) (key : Lock → α) (S : LockSet) :
    Prop where
  mem : ∀ a l, l ∈ (index a).getD [] ↔ S l ∧ key l = a
  nodup : ∀ a, ((index a).getD []).Nodup
  nonempty : ∀ a, index a ≠ some []

namespace IndexOf

variable {α : Type} {index : α → Option (List Lock)} {key : Lock → α} {S S' : LockSet}

theorem empty : IndexOf (fun _ : α => none) key fun _ => False :=
  ⟨fun _ _ => by simp, fun _ => List.nodup_nil, fun _ => by simp⟩

theorem congr (h : IndexOf index key S) (hS : ∀ l, S l ↔ S' l) : IndexOf index key S' :=
  ⟨fun a l => (h.mem a l).trans (and_congr_left' (hS l)), h.nodup, h.nonempty⟩

variable [DecidableEq α]

/-- Overwriting the entry of `a` keeps the index when the new entry lists the locks of
`S'` under `a` and `S'` agrees with `S` under every other key. -/
theorem update (h : IndexOf index key S) (a : α) {v : Option (List Lock)}
    (hmem : ∀ l, l ∈ v.getD [] ↔ S' l ∧ key l = a) (hnodup : (v.getD []).Nodup)
    (hne : v ≠ some []) (hframe : ∀ l, key l ≠ a → (S' l ↔ S l)) :
    IndexOf (Function.update index a v) key S' where
  mem b l := by
    rw [Function.update_apply]
    split
    · subst b; exact hmem l
    · exact (h.mem b l).trans (and_congr_left fun hl => (hframe l (hl ▸ ‹¬b = a›)).symm)
  nodup b := by
    rw [Function.update_apply]
    split
    · exact hnodup
    · exact h.nodup b
  nonempty b := by
    rw [Function.update_apply]
    split
    · exact hne
    · exact h.nonempty b

/-- Adding a lock to its entry, as `acquire_lock`'s insert path does. -/
theorem insert (h : IndexOf index key S) (lock : Lock) :
    IndexOf (Function.update index (key lock) (some (((index (key lock)).getD []).insert lock)))
      key (S.grant lock) := by
  refine h.update _ (fun l => ?_) (h.nodup _).insert
    (by simpa using List.ne_nil_of_mem (List.mem_insert_self lock _)) fun l hl => ?_
  · by_cases e : l = lock
    · subst e; simp [LockSet.grant]
    · simp [LockSet.grant, List.mem_insert_iff, e, h.mem]
  · exact or_iff_left fun e => hl (e ▸ rfl)

/-- Replacing `old` by `new` in their entry, as `upgrade_lock` does. -/
theorem replace (h : IndexOf index key S) {a : α} (old new : Lock) (ho : key old = a)
    (hn : key new = a) {ls : List Lock} (hls : index a = some ls) :
    IndexOf (Function.update index a (some ((ls.erase old).insert new))) key
      (fun l => (S l ∧ l ≠ old) ∨ l = new) := by
  have hnd : ls.Nodup := by simpa [hls] using h.nodup a
  have hm : ∀ l, l ∈ ls ↔ S l ∧ key l = a := by simpa [hls] using h.mem a
  refine h.update _ (fun l => ?_) (hnd.erase old).insert
    (by simpa using List.ne_nil_of_mem (List.mem_insert_self new _)) fun l hl => ?_
  · by_cases e : l = new
    · subst e; simp [hn]
    · simp only [Option.getD_some, List.mem_insert_iff, e, hnd.mem_erase_iff, hm, or_false]
      tauto
  · have h₁ : l ≠ old := fun e => hl (e ▸ ho)
    have h₂ : l ≠ new := fun e => hl (e ▸ hn)
    simp [h₁, h₂]

/-- Dropping the entry of `a`. -/
theorem erase (h : IndexOf index key S) (a : α) :
    IndexOf (Function.update index a none) key fun l => S l ∧ key l ≠ a :=
  h.update a (fun l => by simp) List.nodup_nil (by simp)
    fun l hl => and_iff_left hl

end IndexOf

/-! ## Both indexes -/

namespace LockManager

/-- The two indexes of `lm` list exactly the locks of `S`. -/
structure Represents (lm : LockManager) (S : LockSet) : Prop where
  pages : IndexOf lm.pageToLocks Lock.pid S
  txns : IndexOf lm.transactionToLocks Lock.tid S

variable {lm lm' : LockManager} {S : LockSet} {tid : Nat} {pid : HeapPageId}

theorem Represents.mem_locksOn (h : lm.Represents S) (p : HeapPageId) (l : Lock) :
    l ∈ lm.locksOn p ↔ S l ∧ l.pid = p :=
  h.pages.mem p l

theorem Represents.mem_locksOf (h : lm.Represents S) (t : Nat) (l : Lock) :
    l ∈ lm.locksOf t ↔ S l ∧ l.tid = t :=
  h.txns.mem t l

theorem new_represents : LockManager.new.Represents fun _ => False :=
  ⟨IndexOf.empty, IndexOf.empty⟩

theorem Represents.insertLock (h : lm.Represents S) (tid : Nat) (pid : HeapPageId)
    (exclusive : Bool) :
    (lm.insertLock tid pid exclusive).Represents (S.grant ⟨tid, pid, exclusive⟩) :=
  ⟨h.pages.insert ⟨tid, pid, exclusive⟩, h.txns.insert ⟨tid, pid, exclusive⟩⟩

theorem Represents.upgradeLock (h : lm.Represents S) (hu : lm.upgradeLock tid pid = some lm') :
    lm'.Represents (S.upgrade tid pid) := by
  unfold LockManager.upgradeLock at hu
  split at hu
  · next ps ts hps hts =>
    cases hu
    exact ⟨h.pages.replace ⟨tid, pid, false⟩ ⟨tid, pid, true⟩ rfl rfl hps,
      h.txns.replace ⟨tid, pid, false⟩ ⟨tid, pid, true⟩ rfl rfl hts⟩
  · cases hu

theorem Represents.congr (h : lm.Represents S) {S' : LockSet} (hS : ∀ l, S l ↔ S' l) :
    lm.Represents S' :=
  ⟨h.pages.congr hS, h.txns.congr hS⟩

/-- `upgrade_lock`'s `unwrap`s succeed when both entries exist. -/
theorem upgradeLock_ne_none (hp : lm.pageToLocks pid ≠ none)
    (ht : lm.transactionToLocks tid ≠ none) : lm.upgradeLock tid pid ≠ none := by
  obtain ⟨ps, hps⟩ := Option.ne_none_iff_exists'.mp hp
  obtain ⟨ts, hts⟩ := Option.ne_none_iff_exists'.mp ht
  simp [LockManager.upgradeLock, hps, hts]

/-! ## `release_locks` -/

/-- Dropping an entry that became empty leaves what it held. -/
theorem getD_dropEmpty (ls : List Lock) : (if ls.isEmpty then none else some ls).getD [] = ls := by
  cases ls <;> rfl

theorem dropEmpty_ne (ls : List Lock) : (if ls.isEmpty then none else some ls) ≠ some [] := by
  cases ls <;> simp

theorem dropEmpty_getD {o : Option (List Lock)} (h : o ≠ some []) :
    (if (o.getD []).isEmpty then none else some (o.getD [])) = o := by
  rcases o with _ | ⟨_ | ⟨a, ls⟩⟩
  · rfl
  · exact absurd rfl h
  · rfl

/-- The loop of `release_locks`, over locks of `T` it has not removed yet, never meets a
missing entry; it leaves the page index of the locks it did not remove, each entry
filtered in place and dropped when empty. -/
theorem releasePageLocks_spec {pageToLocks : HeapPageId → Option (List Lock)} {T T' : LockSet}
    (h : IndexOf pageToLocks Lock.pid T) (locks : List Lock) (hT : ∀ l ∈ locks, T l)
    (hn : locks.Nodup) (hT' : ∀ l, T' l ↔ T l ∧ l ∉ locks) :
    ∃ pageToLocks', releasePageLocks pageToLocks locks = some pageToLocks' ∧
      IndexOf pageToLocks' Lock.pid T' ∧ ∀ p, pageToLocks' p =
        let rest := ((pageToLocks p).getD []).filter fun l => l ∉ locks
        if rest.isEmpty then none else some rest := by
  induction locks generalizing pageToLocks T with
  | nil =>
    refine ⟨pageToLocks, rfl, h.congr fun l => by simp [hT'], fun p => ?_⟩
    simpa using (dropEmpty_getD (h.nonempty p)).symm
  | cons lock rest ih =>
    obtain ⟨ps, hps⟩ : ∃ ps, pageToLocks lock.pid = some ps := by
      have := (h.mem lock.pid lock).2 ⟨hT lock (List.mem_cons_self _ _), rfl⟩
      cases e : pageToLocks lock.pid with
      | none => rw [e] at this; cases this
      | some ps => exact ⟨ps, rfl⟩
    have hnd : ps.Nodup := by simpa only [hps, Option.getD_some] using h.nodup lock.pid
    have hm : ∀ l, l ∈ ps ↔ T l ∧ l.pid = lock.pid := fun l => by
      simpa only [hps, Option.getD_some] using h.mem lock.pid l
    set P₁ := Function.update pageToLocks lock.pid
      (if (ps.erase lock).isEmpty then none else some (ps.erase lock)) with hP₁
    have step : IndexOf P₁ Lock.pid fun l => T l ∧ l ≠ lock :=
      h.update _ (fun l => by
          rw [getD_dropEmpty, hnd.mem_erase_iff, hm]
          exact ⟨fun ⟨hne, hT, hp⟩ => ⟨⟨hT, hne⟩, hp⟩, fun ⟨⟨hT, hne⟩, hp⟩ => ⟨hne, hT, hp⟩⟩)
        (by rw [getD_dropEmpty]; exact hnd.erase lock) (dropEmpty_ne _)
        fun l hl => and_iff_left fun e => hl (e ▸ rfl)
    have hfilter : ∀ p, ((P₁ p).getD []).filter (fun l => l ∉ rest) =
        ((pageToLocks p).getD []).filter fun l => l ∉ lock :: rest := by
      intro p
      rw [hP₁, Function.update_apply]
      split
      · next hp =>
        subst hp
        rw [getD_dropEmpty, hps, Option.getD_some, hnd.erase_eq_filter, List.filter_filter]
        exact List.filter_congr fun l _ => Bool.eq_iff_iff.2 (by simp [and_comm])
      · next hp =>
        refine List.filter_congr fun l hl => ?_
        have : l ≠ lock := fun e => hp (e ▸ ((h.mem p l).1 hl).2).symm
        simp [this]
    obtain ⟨p', e, h', hp'⟩ := ih step
      (fun l hl => ⟨hT l (List.mem_cons_of_mem _ hl), fun e => (List.nodup_cons.1 hn).1 (e ▸ hl)⟩)
      (List.nodup_cons.1 hn).2 (fun l => by rw [hT', List.mem_cons, not_or, and_assoc])
    exact ⟨p', by rw [releasePageLocks, hps]; exact e, h', fun p => by simp only [hp', hfilter]⟩

/-- The locks that stay after `release_locks(tid)` are those not in `tid`'s list. -/
theorem Represents.releaseAll_iff (h : lm.Represents S) (tid : Nat) (l : Lock) :
    S.releaseAll tid l ↔ S l ∧ l ∉ lm.locksOf tid := by
  rw [h.mem_locksOf]; simp only [LockSet.releaseAll]; tauto

/-- `release_locks` never panics, and it removes exactly `tid`'s locks. -/
theorem Represents.releaseLocks (h : lm.Represents S) (tid : Nat) :
    ∃ lm', lm.releaseLocks tid = some lm' ∧ lm'.Represents (S.releaseAll tid) := by
  have hT' := h.releaseAll_iff tid
  obtain ⟨p', e, hp, -⟩ := releasePageLocks_spec h.pages (lm.locksOf tid)
    (fun l hl => ((h.mem_locksOf tid l).1 hl).1) (h.txns.nodup tid) hT'
  exact ⟨⟨p', Function.update lm.transactionToLocks tid none⟩,
    by simp [LockManager.releaseLocks, e], hp, h.txns.erase tid⟩

/-! ## `acquire_lock` -/

/-- What a granted round of `acquire_lock` did: the sole holder kept its lock or
upgraded it, or the lock went in next to shared locks only. -/
theorem attempt_granted {exclusive : Bool}
    (ha : lm.attempt tid pid exclusive = some (.granted lm')) :
    (∃ l₀, lm.locksOn pid = [l₀] ∧ l₀.tid = tid ∧
      (exclusive = false ∧ lm' = lm ∨ exclusive = true ∧ lm.upgradeLock tid pid = some lm')) ∨
    ((∀ l ∈ lm.locksOn pid, l.exclusive = false ∧ exclusive = false) ∧
      lm' = lm.insertLock tid pid exclusive) := by
  unfold attempt at ha
  dsimp only at ha
  split at ha
  · next locks hlocks =>
    have hon : lm.locksOn pid = locks := by simp [locksOn, hlocks]
    split_ifs at ha with hsole hx hconf hdie
    · obtain ⟨l₀, rfl⟩ := List.length_eq_one.1 hsole.1
      exact .inl ⟨l₀, hon, by simpa using hsole.2, .inr ⟨hx, by simpa using ha⟩⟩
    · obtain ⟨l₀, rfl⟩ := List.length_eq_one.1 hsole.1
      exact .inl ⟨l₀, hon, by simpa using hsole.2, .inl ⟨by simpa using hx, by simpa using ha.symm⟩⟩
    · cases ha
    · cases ha
    · refine .inr ⟨fun l hl => ?_, by simpa using ha.symm⟩
      rw [hon] at hl
      simp only [Bool.or_eq_true, Bool.and_eq_true, Bool.not_eq_true', List.isEmpty_eq_false,
        List.any_eq_true, not_or, not_and, not_exists] at hconf
      exact ⟨by simpa using hconf.2 l hl, by simpa using mt hconf.1 (not_not.2 (List.ne_nil_of_mem hl))⟩
  · exact .inr ⟨by simp [locksOn, *], by simpa using ha.symm⟩

/-- A granted round keeps the abstract lock set well formed. -/
theorem attempt_preserves {exclusive : Bool} (h : lm.Represents S) (hw : S.WellFormed)
    (ha : lm.attempt tid pid exclusive = some (.granted lm')) :
    ∃ S', lm'.Represents S' ∧ S'.WellFormed := by
  rcases attempt_granted ha with ⟨l₀, hon, ht, ⟨-, rfl⟩ | ⟨-, hu⟩⟩ | ⟨hshared, rfl⟩
  · exact ⟨S, h, hw⟩
  · refine ⟨_, h.upgradeLock hu, hw.upgrade fun l hl hp => ?_⟩
    have : l ∈ lm.locksOn pid := (h.mem_locksOn pid l).2 ⟨hl, hp⟩
    rw [hon, List.mem_singleton] at this
    rw [this, ht]
  · exact ⟨_, h.insertLock tid pid exclusive,
      hw.grant fun l hl hp => hshared l ((h.mem_locksOn pid l).2 ⟨hl, hp⟩)⟩

/-- A round never panics: `upgrade_lock` is only called by the sole holder, whose
transaction entry exists. -/
theorem Represents.attempt_ne_none (h : lm.Represents S) (tid : Nat) (pid : HeapPageId)
    (exclusive : Bool) : lm.attempt tid pid exclusive ≠ none := by
  unfold attempt
  dsimp only
  split
  · next locks hlocks =>
    split_ifs with hsole hx
    · obtain ⟨l₀, rfl⟩ := List.length_eq_one.1 hsole.1
      have hl₀ : l₀ ∈ lm.locksOn pid := by simp [locksOn, hlocks]
      have ht : l₀.tid = tid := by simpa using hsole.2
      have htxn : lm.transactionToLocks tid ≠ none := fun e => by
        simpa [locksOf, e] using (h.mem_locksOf tid l₀).2 ⟨((h.mem_locksOn pid l₀).1 hl₀).1, ht⟩
      simpa using upgradeLock_ne_none (by simp [hlocks]) htxn
    all_goals simp
  · simp

/-! ## `holds_lock` -/

theorem Represents.holdsLock_eq (h : lm.Represents S) (hw : S.WellFormed) {l : Lock}
    (hl : l ∈ lm.locksOf tid) :
    lm.holdsLock tid l.pid = some (if l.exclusive then .write else .read) := by
  obtain ⟨ts, hts⟩ : ∃ ts, lm.transactionToLocks tid = some ts := by
    cases e : lm.transactionToLocks tid <;> simp_all [locksOf]
  have hl' : l ∈ ts := by simpa [locksOf, hts] using hl
  cases hf : ts.find? (fun lock => lock.pid == l.pid) with
  | none => simpa using List.find?_eq_none.1 hf l hl'
  | some l' =>
    have h' : l' ∈ lm.locksOf tid := by simpa [locksOf, hts] using List.mem_of_find?_eq_some hf
    have hS := (h.mem_locksOf tid l).1 hl
    have hS' := (h.mem_locksOf tid l').1 h'
    have e := hw.unique l' l hS'.1 hS.1 (hS'.2.trans hS.2.symm) (by simpa using List.find?_some hf)
    simp [holdsLock, hts, hf, e]

theorem holdsLock_eq_none (h : ∀ l ∈ lm.locksOf tid, l.pid ≠ pid) : lm.holdsLock tid pid = none := by
  unfold holdsLock
  split
  · next ts hts =>
    simpa [List.find?_eq_none, locksOf, hts] using h
  · rfl

/-! ## Every reachable lock table -/

/-- The lock tables that rounds of `acquire_lock` and calls of `release_locks`, by any
transactions in any order, produce from `LockManager::new`.  The fast path, a round
that waits and a round that dies change nothing; the abort of the die branch is a
`release_locks`. -/
inductive Reachable : LockManager → Prop
  | new : Reachable LockManager.new
  | acquire {lm lm' : LockManager} (tid : Nat) (pid : HeapPageId) (exclusive : Bool) :
      Reachable lm → lm.attempt tid pid exclusive = some (.granted lm') → Reachable lm'
  | release {lm lm' : LockManager} (tid : Nat) :
      Reachable lm → lm.releaseLocks tid = some lm' → Reachable lm'

/-- Every reachable table represents a well-formed lock set. -/
theorem Reachable.represents (h : lm.Reachable) : ∃ S, lm.Represents S ∧ S.WellFormed := by
  induction h with
  | new => exact ⟨_, new_represents, fun _ _ h => h.elim, fun _ _ h => h.elim⟩
  | acquire _ _ _ _ ha ih =>
    obtain ⟨S, hr, hw⟩ := ih
    exact attempt_preserves hr hw ha
  | release tid _ hrel ih =>
    obtain ⟨S, hr, hw⟩ := ih
    obtain ⟨lm'', e, h''⟩ := hr.releaseLocks tid
    rw [hrel, Option.some.injEq] at e
    exact ⟨_, e ▸ h'', hw.releaseAll tid⟩

/-- What `lock_manager.rs` relies on of its table. -/
structure Consistent (lm : LockManager) : Prop where
  /-- A lock is in its page's entry iff it is in its transaction's entry. -/
  agree : ∀ l : Lock, l ∈ lm.locksOn l.pid ↔ l ∈ lm.locksOf l.tid
  pid_of_mem : ∀ pid (l : Lock), l ∈ lm.locksOn pid → l.pid = pid
  tid_of_mem : ∀ tid (l : Lock), l ∈ lm.locksOf tid → l.tid = tid
  /-- At most one lock per transaction and page. -/
  unique : ∀ tid (l₁ l₂ : Lock), l₁ ∈ lm.locksOf tid → l₂ ∈ lm.locksOf tid →
    l₁.pid = l₂.pid → l₁ = l₂
  page_nonempty : ∀ pid, lm.pageToLocks pid ≠ some []
  txn_nonempty : ∀ tid, lm.transactionToLocks tid ≠ some []
  /-- A round of `acquire_lock` never panics (the `unwrap`s of `upgrade_lock`). -/
  attempt_ne_none : ∀ tid pid exclusive, lm.attempt tid pid exclusive ≠ none
  releaseLocks_ne_none : ∀ tid, lm.releaseLocks tid ≠ none
  /-- `holds_lock` reports the mode of the unique lock, and `None` without one. -/
  holdsLock_eq : ∀ tid (l : Lock), l ∈ lm.locksOf tid →
    lm.holdsLock tid l.pid = some (if l.exclusive then .write else .read)
  holdsLock_none : ∀ tid pid, (∀ l ∈ lm.locksOf tid, l.pid ≠ pid) → lm.holdsLock tid pid = none

theorem Represents.consistent (h : lm.Represents S) (hw : S.WellFormed) : lm.Consistent where
  agree l := by rw [h.mem_locksOn, h.mem_locksOf]; simp
  pid_of_mem p l hl := ((h.mem_locksOn p l).1 hl).2
  tid_of_mem t l hl := ((h.mem_locksOf t l).1 hl).2
  unique t l₁ l₂ h₁ h₂ hp := by
    rw [h.mem_locksOf] at h₁ h₂
    exact hw.unique l₁ l₂ h₁.1 h₂.1 (h₁.2.trans h₂.2.symm) hp
  page_nonempty := h.pages.nonempty
  txn_nonempty := h.txns.nonempty
  attempt_ne_none := h.attempt_ne_none
  releaseLocks_ne_none t := by
    obtain ⟨_, e, -⟩ := h.releaseLocks t
    simp [e]
  holdsLock_eq _ _ hl := h.holdsLock_eq hw hl
  holdsLock_none _ _ hp := holdsLock_eq_none hp

/-- **The two indexes stay consistent.**  In every reachable lock table they list the
same locks, one per transaction and page, with no empty entry; no round of
`acquire_lock` and no `release_locks` panics; and `holds_lock` reports the mode of the
unique lock. -/
theorem lock_table_consistent (h : lm.Reachable) : lm.Consistent := by
  obtain ⟨S, hr, hw⟩ := h.represents
  exact hr.consistent hw

/-- Two transactions take shared locks on one page, one after the other. -/
theorem reachable_two_readers :
    ((LockManager.new.insertLock 1 ⟨1, 0⟩ false).insertLock 2 ⟨1, 0⟩ false).Reachable :=
  .acquire 2 ⟨1, 0⟩ false (.acquire 1 ⟨1, 0⟩ false .new rfl) rfl

theorem two_readers_consistent :
    ((LockManager.new.insertLock 1 ⟨1, 0⟩ false).insertLock 2 ⟨1, 0⟩ false).Reachable ∧
      ((LockManager.new.insertLock 1 ⟨1, 0⟩ false).insertLock 2 ⟨1, 0⟩ false).Consistent :=
  ⟨reachable_two_readers, lock_table_consistent reachable_two_readers⟩

/-- **Mutual exclusion.**  In every reachable lock table, a transaction holding an
exclusive lock on a page is the only holder of a lock on it; and shared locks of two
transactions on one page do occur. -/
theorem exclusive_lock_excludes :
    (∀ lm : LockManager, lm.Reachable → ∀ pid (l₁ l₂ : Lock), l₁ ∈ lm.locksOn pid →
      l₂ ∈ lm.locksOn pid → l₁.exclusive → l₂.tid = l₁.tid) ∧
    ∃ lm : LockManager, lm.Reachable ∧ ∃ (pid : HeapPageId) (l₁ l₂ : Lock), l₁ ∈ lm.locksOn pid ∧
      l₂ ∈ lm.locksOn pid ∧ l₁.exclusive = false ∧ l₂.exclusive = false ∧ l₁.tid ≠ l₂.tid := by
  refine ⟨fun lm hr pid l₁ l₂ h₁ h₂ hx => ?_, _, reachable_two_readers, ⟨1, 0⟩,
    ⟨1, ⟨1, 0⟩, false⟩, ⟨2, ⟨1, 0⟩, false⟩, by decide, by decide, rfl, rfl, by decide⟩
  obtain ⟨S, h, hw⟩ := hr.represents
  rw [h.mem_locksOn] at h₁ h₂
  exact hw.exclusive l₁ l₂ h₁.1 h₂.1 (h₁.2.trans h₂.2.symm) hx

/-! ## What one transaction's call does to the others' locks -/

/-- A granted round changes only `tid`'s locks: the other transactions' locks stay,
every exclusive lock stays, `tid` keeps each lock it had at no weaker mode, and it
holds the lock it asked for. -/
theorem Reachable.attempt_frame {exclusive : Bool} (h : lm.Reachable)
    (ha : lm.attempt tid pid exclusive = some (.granted lm')) :
    (∀ p (l : Lock), l.tid ≠ tid → (l ∈ lm'.locksOn p ↔ l ∈ lm.locksOn p)) ∧
    (∀ p (l : Lock), l ∈ lm.locksOn p → l.exclusive → l ∈ lm'.locksOn p) ∧
    (∀ p (b : Bool), ⟨tid, p, b⟩ ∈ lm.locksOn p →
      ∃ b' : Bool, ⟨tid, p, b'⟩ ∈ lm'.locksOn p ∧ (b → b')) ∧
    ∃ b : Bool, ⟨tid, pid, b⟩ ∈ lm'.locksOn pid ∧ (exclusive → b) := by
  obtain ⟨S, hr, -⟩ := h.represents
  rcases attempt_granted ha with ⟨l₀, hon, ht, ⟨rfl, e⟩ | ⟨-, hu⟩⟩ | ⟨-, rfl⟩
  · subst lm'
    refine ⟨fun _ _ _ => Iff.rfl, fun _ _ h _ => h, fun _ b h => ⟨b, h, id⟩, l₀.exclusive, ?_,
      by simp⟩
    have : l₀ ∈ lm.locksOn pid := by simp [hon]
    rwa [← LockSet.lock_eq_of ht ((hr.mem_locksOn pid l₀).1 this).2 rfl]
  · have hr' := hr.upgradeLock hu
    simp only [hr'.mem_locksOn, hr.mem_locksOn, LockSet.upgrade]
    refine ⟨fun p l hl => ?_, fun p l h hx => ?_, fun p b h => ?_, true, by simp, fun _ => rfl⟩
    · have h₁ : l ≠ ⟨tid, pid, false⟩ := fun e => hl (e ▸ rfl)
      have h₂ : l ≠ ⟨tid, pid, true⟩ := fun e => hl (e ▸ rfl)
      simp [h₁, h₂]
    · exact ⟨.inl ⟨h.1, fun e => by simp [e] at hx⟩, h.2⟩
    · by_cases e : (⟨tid, p, b⟩ : Lock) = ⟨tid, pid, false⟩
      · simp only [Lock.mk.injEq, true_and] at e
        obtain ⟨rfl, rfl⟩ := e
        exact ⟨true, by simp, fun _ => rfl⟩
      · exact ⟨b, ⟨.inl ⟨h.1, e⟩, h.2⟩, id⟩
  · have hr' := hr.insertLock tid pid exclusive
    simp only [hr'.mem_locksOn, hr.mem_locksOn, LockSet.grant]
    refine ⟨fun p l hl => ?_, fun p l h _ => ⟨.inl h.1, h.2⟩, fun p b h => ⟨b, ⟨.inl h.1, h.2⟩, id⟩,
      exclusive, by simp, id⟩
    have : l ≠ ⟨tid, pid, exclusive⟩ := fun e => hl (e ▸ rfl)
    simp [this]

/-- `release_locks(tid)` removes `tid`'s locks and no other. -/
theorem Reachable.release_frame (h : lm.Reachable) (hr : lm.releaseLocks tid = some lm') :
    (∀ p (l : Lock), l.tid ≠ tid → (l ∈ lm'.locksOn p ↔ l ∈ lm.locksOn p)) ∧
    ∀ p (l : Lock), l ∈ lm'.locksOn p → l.tid ≠ tid := by
  obtain ⟨S, hS, -⟩ := h.represents
  obtain ⟨lm'', e, h''⟩ := hS.releaseLocks tid
  rw [hr, Option.some.injEq] at e
  subst e
  simp only [h''.mem_locksOn, hS.mem_locksOn, LockSet.releaseAll]
  exact ⟨fun p l hl => by simp [hl], fun p l hl => hl.1.2⟩

/-- An exclusive holder of a page is its only holder. -/
theorem Reachable.sole_holder (h : lm.Reachable) {p : HeapPageId} {l : Lock}
    (hx : ⟨tid, p, true⟩ ∈ lm.locksOn p) (hl : l ∈ lm.locksOn p) : l.tid = tid := by
  obtain ⟨S, hr, hw⟩ := h.represents
  rw [hr.mem_locksOn] at hx hl
  exact hw.exclusive ⟨tid, p, true⟩ l hx.1 hl.1 (hx.2.trans hl.2.symm) rfl

/-- `get_locked_pages` lists, once each, the pages `tid` holds a lock on. -/
theorem Represents.mem_getLockedPages (h : lm.Represents S) (p : HeapPageId) :
    p ∈ lm.getLockedPages tid ↔ ∃ b : Bool, ⟨tid, p, b⟩ ∈ lm.locksOn p := by
  have key : (∃ l ∈ lm.locksOf tid, l.pid = p) ↔ ∃ b : Bool, ⟨tid, p, b⟩ ∈ lm.locksOn p := by
    simp only [h.mem_locksOf, h.mem_locksOn, and_true]
    exact ⟨fun ⟨l, ⟨hS, ht⟩, hp⟩ => ⟨l.exclusive, LockSet.lock_eq_of ht hp rfl ▸ hS⟩,
      fun ⟨b, hS⟩ => ⟨_, ⟨hS, rfl⟩, rfl⟩⟩
  rw [← key]
  unfold getLockedPages locksOf
  split <;> simp_all

theorem nodup_getLockedPages (lm : LockManager) (tid : Nat) : (lm.getLockedPages tid).Nodup := by
  unfold getLockedPages
  split
  · exact List.nodup_dedup _
  · exact List.nodup_nil

/-- When the fast path returns, `tid` holds a lock on `pid` as strong as it asked for. -/
theorem Represents.fastPath_holds {exclusive : Bool} (h : lm.Represents S)
    (hf : lm.fastPath tid pid exclusive = true) :
    ∃ b : Bool, ⟨tid, pid, b⟩ ∈ lm.locksOn pid ∧ (exclusive → b) := by
  unfold fastPath at hf
  split at hf
  · next locks hts =>
    obtain ⟨l, hl, hm⟩ := List.any_eq_true.1 hf
    have hl' : l ∈ lm.locksOf tid := by simp [locksOf, hts, hl]
    simp only [Bool.and_eq_true, beq_iff_eq, Bool.or_eq_true, Bool.not_eq_true'] at hm
    obtain ⟨hS, ht⟩ := (h.mem_locksOf tid l).1 hl'
    refine ⟨l.exclusive, (h.mem_locksOn pid _).2 ⟨LockSet.lock_eq_of ht hm.1 rfl ▸ hS, rfl⟩,
      fun hx => ?_⟩
    cases exclusive <;> simp_all
  · cases hf

/-! ## The fast path and the loop -/

theorem pageToLocks_eq_of_mem {l : Lock} (h : l ∈ lm.locksOn pid) :
    lm.pageToLocks pid = some (lm.locksOn pid) := by
  unfold locksOn at h ⊢
  cases e : lm.pageToLocks pid <;> simp_all

theorem transactionToLocks_eq_of_mem {l : Lock} (h : l ∈ lm.locksOf tid) :
    lm.transactionToLocks tid = some (lm.locksOf tid) := by
  unfold locksOf at h ⊢
  cases e : lm.transactionToLocks tid <;> simp_all

/-- A page held exclusively has that lock as its only entry. -/
theorem Represents.locksOn_of_exclusive (h : lm.Represents S) (hw : S.WellFormed)
    (hx : ⟨tid, pid, true⟩ ∈ lm.locksOn pid) : lm.locksOn pid = [⟨tid, pid, true⟩] := by
  have hall : ∀ l ∈ lm.locksOn pid, l = ⟨tid, pid, true⟩ := fun l hl => by
    have h₁ := (h.mem_locksOn pid l).1 hl
    have h₂ := (h.mem_locksOn pid _).1 hx
    exact hw.unique l _ h₁.1 h₂.1 (hw.exclusive _ l h₂.1 h₁.1 (h₂.2.trans h₁.2.symm) rfl)
      (h₁.2.trans h₂.2.symm)
  have hrep := List.eq_replicate_iff.2 ⟨rfl, hall⟩
  have hnd : (lm.locksOn pid).Nodup := h.pages.nodup pid
  rw [hrep, List.nodup_replicate] at hnd
  have hpos := List.length_pos_of_mem hx
  rw [hrep, show (lm.locksOn pid).length = 1 by omega]
  rfl

/-- **The fast path agrees with the loop.**  In every reachable lock table, whenever
the early return of `acquire_lock` fires, a round of its loop would grant the request
and leave the table exactly as it is. -/
theorem fast_path_agrees {exclusive : Bool} (h : lm.Reachable)
    (hf : lm.fastPath tid pid exclusive = true) :
    lm.attempt tid pid exclusive = some (.granted lm) := by
  obtain ⟨S, hr, hw⟩ := h.represents
  obtain ⟨b, hb, hbx⟩ := hr.fastPath_holds hf
  have hbS := ((hr.mem_locksOn pid _).1 hb).1
  have hbt : ⟨tid, pid, b⟩ ∈ lm.locksOf tid := (hr.mem_locksOf tid _).2 ⟨hbS, rfl⟩
  have hother : (⟨tid, pid, !b⟩ : Lock) ∉ lm.locksOf tid := fun hm => by
    have := hw.unique _ _ ((hr.mem_locksOf tid _).1 hm).1 hbS rfl rfl
    cases b <;> simp at this
  unfold attempt
  rw [pageToLocks_eq_of_mem hb]
  cases b with
  | true =>
    rw [Bool.not_true] at hother
    rw [hr.locksOn_of_exclusive hw hb]
    simp only [List.length_singleton, List.head?_cons, Option.map_some', and_self, if_true]
    cases exclusive with
    | false => rfl
    | true =>
      have hpage : lm.pageToLocks pid = some [⟨tid, pid, true⟩] := by
        rw [pageToLocks_eq_of_mem hb, hr.locksOn_of_exclusive hw hb]
      simp only [if_true, upgradeLock, hpage, transactionToLocks_eq_of_mem hbt]
      rw [List.erase_of_not_mem hother, List.insert_of_mem hbt, ← transactionToLocks_eq_of_mem hbt,
        Function.update_eq_self, List.erase_of_not_mem (by simp), List.insert_of_mem (by simp),
        ← hpage, Function.update_eq_self]
      rfl
  | false =>
    rw [Bool.not_false] at hother
    obtain rfl : exclusive = false := by cases exclusive <;> simp_all
    have hnx : (lm.locksOn pid).any Lock.exclusive = false := by
      rw [List.any_eq_false]
      intro l hl hx
      have h₁ := (hr.mem_locksOn pid l).1 hl
      have ht : tid = l.tid :=
        hw.exclusive l _ h₁.1 hbS (h₁.2.trans rfl) (by simpa using hx)
      exact hother ((hr.mem_locksOf tid _).2 ⟨LockSet.lock_eq_of ht.symm h₁.2 (by simpa using hx) ▸ h₁.1, rfl⟩)
    have hins : lm.insertLock tid pid false = lm := by
      simp only [insertLock]
      rw [List.insert_of_mem hb, List.insert_of_mem hbt, ← pageToLocks_eq_of_mem hb,
        ← transactionToLocks_eq_of_mem hbt, Function.update_eq_self, Function.update_eq_self]
    simp only [hnx, hins, Bool.false_and, Bool.false_or, if_false, Bool.false_eq_true]
    split_ifs <;> rfl

/-- A second reader of a page: its request is answered by the early return, and a round
of the loop would grant it with the table unchanged. -/
theorem fast_path_agrees_second_reader :
    ((LockManager.new.insertLock 1 ⟨1, 0⟩ false).insertLock 2 ⟨1, 0⟩ false).Reachable ∧
      ((LockManager.new.insertLock 1 ⟨1, 0⟩ false).insertLock 2 ⟨1, 0⟩ false).fastPath
        2 ⟨1, 0⟩ false = true ∧
      ((LockManager.new.insertLock 1 ⟨1, 0⟩ false).insertLock 2 ⟨1, 0⟩ false).attempt
        2 ⟨1, 0⟩ false =
        some (.granted ((LockManager.new.insertLock 1 ⟨1, 0⟩ false).insertLock 2 ⟨1, 0⟩ false)) :=
  have h : ((LockManager.new.insertLock 1 ⟨1, 0⟩ false).insertLock 2 ⟨1, 0⟩ false).Reachable :=
    .acquire 2 ⟨1, 0⟩ false (.acquire 1 ⟨1, 0⟩ false .new rfl) rfl
  ⟨h, rfl, fast_path_agrees h rfl⟩

/-- A round asking for an exclusive lock on a page that another transaction holds a lock
on is never granted: it dies or waits. -/
theorem attempt_exclusive_not_granted {l : Lock} (hl : l ∈ lm.locksOn pid) (hu : l.tid ≠ tid) :
    lm.attempt tid pid true ≠ some (.granted lm') := by
  have hsole : ¬((lm.locksOn pid).length = 1 ∧ (lm.locksOn pid).head?.map Lock.tid = some tid) := by
    rintro ⟨h₁, h₂⟩
    obtain ⟨x, hx⟩ := List.length_eq_one.1 h₁
    rw [hx, List.mem_singleton] at hl
    rw [hx, ← hl] at h₂
    exact hu (by simpa using h₂)
  have hconf : (true && !(lm.locksOn pid).isEmpty || (lm.locksOn pid).any Lock.exclusive) = true := by
    simp [List.ne_nil_of_mem hl]
  unfold attempt
  rw [pageToLocks_eq_of_mem hl]
  dsimp only
  rw [if_neg hsole, if_pos hconf]
  split <;> simp

/-! ## One call, from any table that represents a lock set -/

/-- **`release_locks` removes exactly `tid`'s locks.**  On a table whose indexes
represent a lock set it never panics; each page keeps its other locks, in their order,
and loses its entry when none is left; `tid`'s entry goes and every other
transaction's stays.  A second call changes nothing. -/
theorem release_locks_exact (h : lm.Represents S) (tid : Nat) :
    ∃ lm', lm.releaseLocks tid = some lm' ∧
      (∀ p, lm'.pageToLocks p =
        let rest := (lm.locksOn p).filter fun l => l.tid ≠ tid
        if rest.isEmpty then none else some rest) ∧
      lm'.transactionToLocks = Function.update lm.transactionToLocks tid none ∧
      lm'.releaseLocks tid = some lm' := by
  have hT' := h.releaseAll_iff tid
  obtain ⟨p', e, -, hp'⟩ := releasePageLocks_spec h.pages (lm.locksOf tid)
    (fun l hl => ((h.mem_locksOf tid l).1 hl).1) (h.txns.nodup tid) hT'
  have hpages : ∀ p, ((lm.pageToLocks p).getD []).filter (fun l => l ∉ lm.locksOf tid) =
      (lm.locksOn p).filter fun l => l.tid ≠ tid := fun p =>
    List.filter_congr fun l hl => by simp [h.mem_locksOf, ((h.mem_locksOn p l).1 hl).1]
  refine ⟨⟨p', Function.update lm.transactionToLocks tid none⟩, by simp [releaseLocks, e],
    fun p => by simp only [hp', hpages], rfl, ?_⟩
  simp [releaseLocks, locksOf, releasePageLocks]

theorem release_locks_exact_first_reader :
    ∃ S, ((LockManager.new.insertLock 1 ⟨1, 0⟩ false).insertLock 2 ⟨1, 0⟩ false).Represents S ∧
      ∃ lm', ((LockManager.new.insertLock 1 ⟨1, 0⟩ false).insertLock 2 ⟨1, 0⟩ false).releaseLocks 1 =
        some lm' ∧ lm'.locksOn ⟨1, 0⟩ = [⟨2, ⟨1, 0⟩, false⟩] ∧ lm'.releaseLocks 1 = some lm' :=
  have h := (new_represents.insertLock 1 ⟨1, 0⟩ false).insertLock 2 ⟨1, 0⟩ false
  ⟨_, h, (release_locks_exact h 1).imp fun _ ⟨e, hp, _, hi⟩ => ⟨e, by rw [locksOn, hp]; decide, hi⟩⟩

/-- The mode `tid` holds `pid` in, read off the page's entry. -/
theorem Represents.contains_exclusive (h : lm.Represents S) (hw : S.WellFormed) {b : Bool}
    (hb : ⟨tid, pid, b⟩ ∈ lm.locksOn pid) : (lm.locksOn pid).contains ⟨tid, pid, true⟩ = b := by
  cases b
  · simp only [List.elem_eq_mem, decide_eq_false_iff_not]
    intro hx
    have := hw.unique _ _ ((h.mem_locksOn pid _).1 hx).1 ((h.mem_locksOn pid _).1 hb).1 rfl rfl
    simp at this
  · simpa using hb

/-- Every lock `tid` has on `pid` is the one it is seen to hold. -/
theorem Represents.mode_eq (h : lm.Represents S) (hw : S.WellFormed) {b : Bool}
    (hb : ⟨tid, pid, b⟩ ∈ lm.locksOn pid) :
    ∀ l, S l → l.tid = tid → l.pid = pid → l.exclusive = b := fun l hl ht hp =>
  congrArg Lock.exclusive (hw.unique l _ hl ((h.mem_locksOn pid _).1 hb).1 ht hp)

/-- A granted round leaves `tid` one lock on `pid`, exclusive iff it asked for one or
held one, and every other lock where it was. -/
theorem Represents.attempt_post (h : lm.Represents S) (hw : S.WellFormed) {exclusive : Bool}
    (ha : lm.attempt tid pid exclusive = some (.granted lm')) :
    lm'.Represents (S.put tid pid (exclusive || (lm.locksOn pid).contains ⟨tid, pid, true⟩)) := by
  rcases attempt_granted ha with ⟨l₀, hon, ht, ⟨rfl, e⟩ | ⟨rfl, hu⟩⟩ | ⟨hshared, rfl⟩
  · have hm : l₀ ∈ lm.locksOn pid := by simp [hon]
    have hl₀ : ⟨tid, pid, l₀.exclusive⟩ ∈ lm.locksOn pid :=
      LockSet.lock_eq_of ht ((h.mem_locksOn pid l₀).1 hm).2 rfl ▸ hm
    rw [e, Bool.false_or, h.contains_exclusive hw hl₀]
    exact h.congr (LockSet.put_iff_self ((h.mem_locksOn pid _).1 hl₀).1 (h.mode_eq hw hl₀))
  · exact (h.upgradeLock hu).congr LockSet.upgrade_iff_put
  · have hx : (lm.locksOn pid).contains ⟨tid, pid, true⟩ = false := by
      simpa using fun hm => Bool.noConfusion (hshared _ hm).1
    rw [hx, Bool.or_false]
    refine (h.insertLock tid pid exclusive).congr (LockSet.grant_iff_put fun l hl _ hp => ?_)
    obtain ⟨h₁, h₂⟩ := hshared l ((h.mem_locksOn pid l).2 ⟨hl, hp⟩)
    rw [h₁, h₂]

/-- A sole shared holder asking for an exclusive lock is upgraded at once. -/
theorem Represents.attempt_upgrade (h : lm.Represents S)
    (hon : lm.locksOn pid = [⟨tid, pid, false⟩]) :
    ∃ lm', lm.upgradeLock tid pid = some lm' ∧ lm.attempt tid pid true = some (.granted lm') := by
  obtain ⟨ps, hps⟩ : ∃ ps, lm.pageToLocks pid = some ps := by
    cases e : lm.pageToLocks pid <;> simp_all [locksOn]
  have hps' : ps = [⟨tid, pid, false⟩] := by simpa [locksOn, hps] using hon
  have htxn : lm.transactionToLocks tid ≠ none := fun e => by
    simpa [locksOf, e] using (h.mem_locksOf tid _).2
      ⟨((h.mem_locksOn pid _).1 (hon ▸ List.mem_singleton_self _)).1, rfl⟩
  obtain ⟨lm', hu⟩ := Option.ne_none_iff_exists'.1
    (upgradeLock_ne_none (show lm.pageToLocks pid ≠ none by simp [hps]) htxn)
  exact ⟨lm', hu, by simp [attempt, hps, hps', hu]⟩

/-- **A call of `acquire_lock`.**  Let `post` be the lock set in which `tid` holds
exactly one lock on `pid`, exclusive iff it asked for one or already held one, and
every other lock is where it was.  If the fast path returns, the table already
represents `post`; a granted round of the loop makes it represent `post` (the rounds
before it changed nothing); the round of a sole shared holder asking for an
exclusive lock is `upgrade_lock`; and after a round that dies, the `release_locks` of
`abort_transaction` leaves `tid` no lock and every other lock where it was. -/
theorem acquire_lock_post (h : lm.Represents S) (hw : S.WellFormed) (tid : Nat)
    (pid : HeapPageId) (exclusive : Bool) :
    let post := S.put tid pid (exclusive || (lm.locksOn pid).contains ⟨tid, pid, true⟩)
    (lm.fastPath tid pid exclusive = true → lm.Represents post) ∧
    (∀ lm', lm.attempt tid pid exclusive = some (.granted lm') → lm'.Represents post) ∧
    (lm.locksOn pid = [⟨tid, pid, false⟩] → exclusive = true →
      ∃ lm', lm.upgradeLock tid pid = some lm' ∧
        lm.attempt tid pid exclusive = some (.granted lm')) ∧
    (lm.attempt tid pid exclusive = some .die →
      ∃ lm', lm.releaseLocks tid = some lm' ∧ lm'.Represents (S.releaseAll tid)) := by
  refine ⟨fun hf => ?_, fun _ => h.attempt_post hw, fun hon hx => hx ▸ h.attempt_upgrade hon,
    fun _ => h.releaseLocks tid⟩
  obtain ⟨b, hb, hbx⟩ := h.fastPath_holds hf
  have e : (exclusive || b) = b := by cases exclusive <;> simp_all
  rw [h.contains_exclusive hw hb, e]
  exact h.congr (LockSet.put_iff_self ((h.mem_locksOn pid _).1 hb).1 (h.mode_eq hw hb))

theorem acquire_lock_post_sole_reader :
    ∃ S, (LockManager.new.insertLock 1 ⟨1, 0⟩ false).Represents S ∧ S.WellFormed ∧
      ∃ lm', (LockManager.new.insertLock 1 ⟨1, 0⟩ false).attempt 1 ⟨1, 0⟩ true =
        some (.granted lm') ∧ lm'.Represents (S.put 1 ⟨1, 0⟩ true) :=
  have h := new_represents.insertLock 1 ⟨1, 0⟩ false
  have hw : LockSet.WellFormed _ := LockSet.WellFormed.grant
    (S := fun _ => False) ⟨fun _ _ h => h.elim, fun _ _ h => h.elim⟩ fun _ h => h.elim
  have hc := acquire_lock_post h hw 1 ⟨1, 0⟩ true
  have ⟨lm', _, ha⟩ := hc.2.2.1 (by decide) rfl
  ⟨_, h, hw, lm', ha, hc.2.1 lm' ha⟩

end LockManager

end RusticDb
