/-
# WAIT-DIE (`lock_manager.rs`, `acquire_lock`)

A round of `acquire_lock` that meets a conflict decides once: it dies when some
holder of the page is older (smaller id), and otherwise sleeps 500 ms and goes round
again.  `attempt_die_iff` and `attempt_wait_iff` say so for every lock table, so at
the moment a wait is decided every other holder is younger.  A round never waits
for its own transaction: on a page whose every lock is the requester's, it is granted
(`own_page_granted`), which the upgrade of `add_tuple`'s probe lock relies on.

The sleep holds no latch and the decision is not checked again until the next
round.  `Waits` puts the sleepers next to the lock table, and `Waits.Step` lets any
transaction run a round, sleep, die or release at any moment.  Over any run, a wait-for
edge a step creates points to a younger transaction when the waiter falls asleep; every
other new edge comes from a later grant to its target of a lock on the page the waiter
sleeps on (`wait_die_decision`).  So while one transaction sleeps, the holders of its
page can change: `sleeping_waits_for_cycle` reaches a state where two sleepers wait for
each other, the younger for the older.  The cycle does
not deadlock: `youngest_sleeper_progress` shows that when every holder sleeps, the
youngest sleeper's next round does not wait.

Transaction ids come from a 64-bit counter (`TransactionId::new`): the ids it hands
out are distinct as long as it has not wrapped, and increase, so that WAIT-DIE's
"older" is "issued earlier", only until the counter reaches `2^64`
(`transaction_ids_until_wrap`).
-/
import RusticDb.LockTable
import Mathlib.Algebra.Group.Nat.Basic

namespace RusticDb

namespace LockManager

/-- A round of `acquire_lock` meets a conflict: `pid` has an entry, `tid` is not its
sole holder, and the request or a held lock is exclusive. -/
def conflictFound (lm : LockManager) (tid : Nat) (pid : HeapPageId) (exclusive : Bool) : Prop :=
  match lm.pageToLocks pid with
  | some locks => ¬(locks.length = 1 ∧ (locks.head?.map Lock.tid) = some tid) ∧
      ((exclusive && !locks.isEmpty) || locks.any Lock.exclusive) = true
  | none => False

variable {lm : LockManager} {tid : Nat} {pid : HeapPageId} {exclusive : Bool}

/-- A round dies exactly on a conflict with an older holder. -/
theorem attempt_die_iff : lm.attempt tid pid exclusive = some .die ↔
    lm.conflictFound tid pid exclusive ∧ ∃ l ∈ lm.locksOn pid, l.tid < tid := by
  unfold attempt conflictFound locksOn
  dsimp only
  split
  · next locks hlocks =>
    simp only [hlocks, Option.getD_some]
    split_ifs <;> simp_all
  · next hnone => simp [hnone]

/-- A round waits exactly on a conflict with no older holder. -/
theorem attempt_wait_iff : lm.attempt tid pid exclusive = some .wait ↔
    lm.conflictFound tid pid exclusive ∧ ∀ l ∈ lm.locksOn pid, tid ≤ l.tid := by
  unfold attempt conflictFound locksOn
  dsimp only
  split
  · next locks hlocks =>
    simp only [hlocks, Option.getD_some]
    split_ifs <;> simp_all
  · next hnone => simp [hnone]

/-- In a reachable table, a page whose every lock is `tid`'s carries one lock, so a
round of `tid` on it passes the sole-holder test and meets no conflict. -/
theorem Reachable.not_conflictFound_of_own (h : lm.Reachable)
    (hown : ∀ l ∈ lm.locksOn pid, l.tid = tid) : ¬lm.conflictFound tid pid exclusive := by
  intro hc
  obtain ⟨S, hr, hwf⟩ := h.represents
  unfold conflictFound at hc
  split at hc
  · next locks hlocks =>
    have hon : lm.locksOn pid = locks := by simp [locksOn, hlocks]
    obtain ⟨l₀, hl₀⟩ := List.exists_mem_of_ne_nil locks
      fun e => hr.pages.nonempty pid (by rw [hlocks, e])
    have heq : ∀ x ∈ locks, x = l₀ := fun x hx => by
      rw [← hon] at hx hl₀
      have h₁ := (hr.mem_locksOn pid x).1 hx
      have h₂ := (hr.mem_locksOn pid l₀).1 hl₀
      exact hwf.unique x l₀ h₁.1 h₂.1 ((hown x hx).trans (hown l₀ hl₀).symm)
        (h₁.2.trans h₂.2.symm)
    have hnd : locks.Nodup := by simpa [hlocks] using hr.pages.nodup pid
    have hlen : locks.length = 1 := by
      have h₁ : locks.length ≤ 1 :=
        (List.subperm_of_subset hnd fun x hx => List.mem_singleton.2 (heq x hx)).length_le
      have h₂ := List.length_pos_of_mem hl₀
      omega
    obtain ⟨a, rfl⟩ := List.length_eq_one.1 hlen
    exact hc.1 ⟨rfl, by simpa using hown a (by simp [hon])⟩
  · exact hc

/-- **No transaction waits for itself.**  In every reachable table, a round of
`acquire_lock` on a page whose every lock is the requester's own (none at all, or its
shared or exclusive lock) is granted, in either mode: taking a page again, or upgrading
a shared lock nobody else holds, never waits and never dies. -/
theorem own_page_granted (h : lm.Reachable) (hown : ∀ l ∈ lm.locksOn pid, l.tid = tid) :
    ∃ lm', lm.attempt tid pid exclusive = some (.granted lm') := by
  obtain ⟨S, hr, -⟩ := h.represents
  rcases e : lm.attempt tid pid exclusive with _ | ⟨lm'⟩ | _ | _
  · exact absurd e (hr.attempt_ne_none tid pid exclusive)
  · exact ⟨lm', rfl⟩
  · exact absurd (attempt_wait_iff.1 e).1 (h.not_conflictFound_of_own hown)
  · obtain ⟨-, l, hl, hlt⟩ := attempt_die_iff.1 e
    exact absurd (hown l hl) (by omega)

/-- Transaction 1 upgrades the shared lock it alone holds on page `(1, 0)`. -/
theorem own_page_granted_upgrade :
    (LockManager.new.insertLock 1 ⟨1, 0⟩ false).Reachable ∧
      (∀ l ∈ (LockManager.new.insertLock 1 ⟨1, 0⟩ false).locksOn ⟨1, 0⟩, l.tid = 1) ∧
      ∃ lm', (LockManager.new.insertLock 1 ⟨1, 0⟩ false).attempt 1 ⟨1, 0⟩ true = some (.granted lm') :=
  have h : (LockManager.new.insertLock 1 ⟨1, 0⟩ false).Reachable := .acquire 1 ⟨1, 0⟩ false .new rfl
  have hown : ∀ l ∈ (LockManager.new.insertLock 1 ⟨1, 0⟩ false).locksOn ⟨1, 0⟩, l.tid = 1 :=
    fun l hl => by simp [locksOn, insertLock, LockManager.new] at hl; simp [hl]
  ⟨h, hown, own_page_granted h hown⟩

end LockManager

/-! ## Sleepers -/

/-- The lock table with the transactions asleep in `acquire_lock`: `sleeping t` is the
request `t` sleeps on after a round that waited. -/
structure Waits where
  lm : LockManager
  sleeping : Nat → Option (HeapPageId × Bool)

namespace Waits

/-- No lock, nobody asleep. -/
def init : Waits := ⟨LockManager.new, fun _ => none⟩

/-- `t` waits for `u`: `t` sleeps on a request that `u`'s lock on the page conflicts
with. -/
def waitsFor (s : Waits) (t u : Nat) : Prop :=
  ∃ pid exclusive, s.sleeping t = some (pid, exclusive) ∧ u ≠ t ∧
    ∃ l ∈ s.lm.locksOn pid, l.tid = u ∧ (exclusive || l.exclusive) = true

/-- `t` may run a round: of a new request when awake, of the same one after a sleep. -/
def CanRequest (s : Waits) (t : Nat) (pid : HeapPageId) (exclusive : Bool) : Prop :=
  s.sleeping t = none ∨ s.sleeping t = some (pid, exclusive)

/-- One atomic step of one transaction: a round of `acquire_lock` that is granted,
waits (and sleeps) or dies (and aborts, releasing its locks), or the `release_locks` of
a commit or abort. -/
inductive Step : Waits → Waits → Prop
  | granted {s : Waits} (t : Nat) (pid : HeapPageId) (exclusive : Bool) {lm' : LockManager} :
      s.CanRequest t pid exclusive → s.lm.attempt t pid exclusive = some (.granted lm') →
      Step s ⟨lm', Function.update s.sleeping t none⟩
  | wait {s : Waits} (t : Nat) (pid : HeapPageId) (exclusive : Bool) :
      s.CanRequest t pid exclusive → s.lm.attempt t pid exclusive = some .wait →
      Step s ⟨s.lm, Function.update s.sleeping t (some (pid, exclusive))⟩
  | die {s : Waits} (t : Nat) (pid : HeapPageId) (exclusive : Bool) {lm' : LockManager} :
      s.CanRequest t pid exclusive → s.lm.attempt t pid exclusive = some .die →
      s.lm.releaseLocks t = some lm' → Step s ⟨lm', Function.update s.sleeping t none⟩
  | release {s : Waits} (t : Nat) {lm' : LockManager} :
      s.sleeping t = none → s.lm.releaseLocks t = some lm' → Step s ⟨lm', s.sleeping⟩

inductive Reachable : Waits → Prop
  | init : Reachable init
  | step {s s' : Waits} : Reachable s → Step s s' → Reachable s'

variable {s s' : Waits}

theorem Step.lm_reachable (h : Step s s') (hs : s.lm.Reachable) : s'.lm.Reachable := by
  cases h with
  | granted t pid exclusive _ ha => exact .acquire t pid exclusive hs ha
  | wait => exact hs
  | die t _ _ _ _ hr => exact .release t hs hr
  | release t _ hr => exact .release t hs hr

/-- The lock table of a reachable state is a reachable lock table. -/
theorem Reachable.lm (h : s.Reachable) : s.lm.Reachable := by
  induction h with
  | init => exact .new
  | step _ hst ih => exact hst.lm_reachable ih

/-- Where a wait-for edge comes from.  A step of a reachable state creates an edge from
`t` to `u` only when `t` falls asleep, and then `u` is younger than `t`, or when `u` is
granted a new lock on the page that `t` still sleeps on. -/
theorem Step.waitsFor_new (hs : s.Reachable) (hst : Step s s') {t u : Nat}
    (h' : s'.waitsFor t u) (h : ¬s.waitsFor t u) :
    (s'.sleeping t ≠ s.sleeping t ∧ t < u) ∨
      ∃ pid exclusive, s.sleeping t = some (pid, exclusive) ∧ s'.sleeping t = s.sleeping t ∧
        ∃ l ∈ s'.lm.locksOn pid, l.tid = u ∧ l ∉ s.lm.locksOn pid := by
  obtain ⟨pid, x, hsl, hut, l, hl, hlu, hx⟩ := h'
  cases hst with
  | granted t' pid' x' _ _ =>
    dsimp only at hsl hl ⊢
    obtain rfl | htt := eq_or_ne t t'
    · simp at hsl
    · rw [Function.update_noteq htt] at hsl ⊢
      exact .inr ⟨pid, x, hsl, rfl, l, hl, hlu, fun hold => h ⟨pid, x, hsl, hut, l, hold, hlu, hx⟩⟩
  | wait t' pid' x' _ ha =>
    dsimp only at hsl hl ⊢
    obtain rfl | htt := eq_or_ne t t'
    · rw [Function.update_same, Option.some.injEq, Prod.mk.injEq] at hsl
      obtain ⟨rfl, rfl⟩ := hsl
      refine .inl ⟨fun e => h ⟨_, _, by rw [← e, Function.update_same], hut, l, hl, hlu, hx⟩, ?_⟩
      exact hlu ▸ lt_of_le_of_ne ((LockManager.attempt_wait_iff.1 ha).2 l hl) (hlu ▸ hut).symm
    · rw [Function.update_noteq htt] at hsl
      exact absurd ⟨pid, x, hsl, hut, l, hl, hlu, hx⟩ h
  | die t' _ _ _ _ hr =>
    dsimp only at hsl hl
    obtain rfl | htt := eq_or_ne t t'
    · simp at hsl
    · rw [Function.update_noteq htt] at hsl
      have hf := hs.lm.release_frame hr
      exact absurd ⟨pid, x, hsl, hut, l, (hf.1 pid l (hf.2 pid l hl)).1 hl, hlu, hx⟩ h
  | release t' _ hr =>
    have hf := hs.lm.release_frame hr
    exact absurd ⟨pid, x, hsl, hut, l, (hf.1 pid l (hf.2 pid l hl)).1 hl, hlu, hx⟩ h

/-- Transaction 2 sleeps on page `(1, 0)`, held exclusively by 5; 5 commits; 1 takes
`(1, 0)` exclusively and then sleeps on `(1, 1)`, which 2 holds exclusively. -/
theorem reaches_sleeping_cycle :
    ∃ s : Waits, s.Reachable ∧ s.sleeping 1 = some (⟨1, 1⟩, false) ∧
      s.sleeping 2 = some (⟨1, 0⟩, false) ∧ (∀ u, s.sleeping u ≠ none → u = 1 ∨ u = 2) ∧
      ⟨1, ⟨1, 0⟩, true⟩ ∈ s.lm.locksOn ⟨1, 0⟩ ∧ ⟨2, ⟨1, 1⟩, true⟩ ∈ s.lm.locksOn ⟨1, 1⟩ ∧
      ∀ p (l : Lock), l ∈ s.lm.locksOn p → l.tid = 1 ∨ l.tid = 2 := by
  refine ⟨_, .step (.step (.step (.step (.step (.step .init
      (.granted 2 ⟨1, 1⟩ true (.inl rfl) rfl))
      (.granted 5 ⟨1, 0⟩ true (.inl rfl) rfl))
      (.wait 2 ⟨1, 0⟩ false (.inl rfl) rfl))
      (.release 5 rfl rfl))
      (.granted 1 ⟨1, 0⟩ true (.inl rfl) rfl))
      (.wait 1 ⟨1, 1⟩ false (.inl rfl) rfl), rfl, rfl, fun u hu => ?_, by decide, by decide,
    fun p l hl => ?_⟩
  · simp only [init, Function.update_apply] at hu
    split_ifs at hu <;> simp_all
  · simp [LockManager.locksOn, LockManager.insertLock, LockManager.releaseLocks,
      LockManager.releasePageLocks, LockManager.locksOf, init, LockManager.new,
      Function.update_apply] at hl
    split_ifs at hl <;> simp_all

/-- **A sleeper can wait for an older transaction, and two sleepers for each other.**
Transaction 2 sleeps on page `(1, 0)`, held exclusively by 5; 5 commits; 1 takes
`(1, 0)` exclusively and then sleeps on `(1, 1)`, which 2 holds exclusively. -/
theorem sleeping_waits_for_cycle : ∃ s : Waits, s.Reachable ∧ s.waitsFor 1 2 ∧ s.waitsFor 2 1 := by
  obtain ⟨s, hs, h1, h2, -, hl1, hl2, -⟩ := reaches_sleeping_cycle
  exact ⟨s, hs, ⟨_, _, h1, by decide, _, hl2, rfl, rfl⟩, ⟨_, _, h2, by decide, _, hl1, rfl, rfl⟩⟩

/-- **No deadlock among sleepers.**  When every holder of a lock is asleep in
`acquire_lock`, a round of the youngest sleeper does not wait: it is granted, or it
dies and releases its locks. -/
theorem youngest_sleeper_progress (hs : s.Reachable)
    (hall : ∀ p (l : Lock), l ∈ s.lm.locksOn p → s.sleeping l.tid ≠ none)
    {t : Nat} (hy : ∀ u, s.sleeping u ≠ none → u ≤ t) (pid : HeapPageId) (exclusive : Bool) :
    s.lm.attempt t pid exclusive ≠ some .wait := by
  intro hw
  obtain ⟨hc, hold⟩ := LockManager.attempt_wait_iff.1 hw
  exact hs.lm.not_conflictFound_of_own
    (fun l hl => le_antisymm (hy _ (hall pid l hl)) (hold l hl)) hc

/-- Transactions 1 and 2 sleep waiting for each other, each holding the page the other
asks for: every holder sleeps, and the round of the younger sleeper, 2, does not wait. -/
theorem youngest_sleeper_progress_cycle :
    ∃ s : Waits, s.Reachable ∧ s.sleeping 1 ≠ none ∧ s.sleeping 2 = some (⟨1, 0⟩, false) ∧
      (∀ p (l : Lock), l ∈ s.lm.locksOn p → s.sleeping l.tid ≠ none) ∧
      (∀ u, s.sleeping u ≠ none → u ≤ 2) ∧ s.lm.attempt 2 ⟨1, 0⟩ false ≠ some .wait := by
  obtain ⟨s, hs, h1, h2, hsl, -, -, hl⟩ := reaches_sleeping_cycle
  have hall : ∀ p (l : Lock), l ∈ s.lm.locksOn p → s.sleeping l.tid ≠ none := fun p l h => by
    rcases hl p l h with e | e <;> simp [e, h1, h2]
  have hy : ∀ u, s.sleeping u ≠ none → u ≤ 2 := fun u h => by
    rcases hsl u h with rfl | rfl <;> decide
  exact ⟨s, hs, by simp [h1], h2, hall, hy, youngest_sleeper_progress hs hall hy _ _⟩

end Waits

/-- **WAIT-DIE decides by age.**  A round that meets a conflict dies exactly when some
holder of the page is older, and waits exactly when every other holder is younger; a
transaction no younger than every holder never dies.  So over any run, a wait-for edge
that a step creates points to a younger transaction when the waiter falls asleep; any
other new edge comes from a later grant, to its target, of a lock on the page the waiter
still sleeps on, and may point to an older one. -/
theorem LockManager.wait_die_decision :
    (∀ (lm : LockManager) (tid : Nat) (pid : HeapPageId) (exclusive : Bool),
      (lm.attempt tid pid exclusive = some .die ↔
        lm.conflictFound tid pid exclusive ∧ ∃ l ∈ lm.locksOn pid, l.tid < tid) ∧
      (lm.attempt tid pid exclusive = some .wait ↔
        lm.conflictFound tid pid exclusive ∧ ∀ l ∈ lm.locksOn pid, l.tid ≠ tid → tid < l.tid) ∧
      ((∀ p, ∀ l ∈ lm.locksOn p, tid ≤ l.tid) → lm.attempt tid pid exclusive ≠ some .die)) ∧
    ∀ s s' : Waits, s.Reachable → Waits.Step s s' → ∀ t u, s'.waitsFor t u → ¬s.waitsFor t u →
      (s'.sleeping t ≠ s.sleeping t ∧ t < u) ∨
        ∃ pid exclusive, s.sleeping t = some (pid, exclusive) ∧ s'.sleeping t = s.sleeping t ∧
          ∃ l ∈ s'.lm.locksOn pid, l.tid = u ∧ l ∉ s.lm.locksOn pid := by
  refine ⟨fun lm tid pid exclusive => ⟨attempt_die_iff, attempt_wait_iff.trans
    (and_congr_right' (forall₂_congr fun l _ => ⟨fun h _ => by omega,
      fun h => by by_cases e : l.tid = tid <;> simp_all; omega⟩)), fun h hd => ?_⟩,
    fun s s' hs hst t u => hst.waitsFor_new hs⟩
  obtain ⟨-, l, hl, hlt⟩ := attempt_die_iff.1 hd
  exact absurd (h pid l hl) (by omega)


/-! ## Transaction ids -/

/-- `TransactionId::new`: the value of the counter, and the counter after
`fetch_add(1)`, which wraps at `2^64`. -/
def TransactionId.new (counter : BitVec 64) : Nat × BitVec 64 := (counter.toNat, counter + 1)

/-- The ids of `n` successive `TransactionId::new` calls from the counter value
`counter`. -/
def issueIds : Nat → BitVec 64 → List Nat
  | 0, _ => []
  | n + 1, counter => (TransactionId.new counter).1 :: issueIds n (TransactionId.new counter).2

/-- The `i`-th id is the counter's start plus `i`, modulo `2^64`. -/
theorem issueIds_eq : ∀ (n : Nat) (counter : BitVec 64),
    issueIds n counter = (List.range n).map fun i => (counter.toNat + i) % 2 ^ 64
  | 0, _ => rfl
  | n + 1, counter => by
    rw [issueIds, issueIds_eq n, List.range_succ_eq_map, List.map_cons, List.map_map]
    simp only [TransactionId.new, BitVec.toNat_add, show (1 : BitVec 64).toNat = 1 from rfl,
      Nat.add_zero, Nat.mod_eq_of_lt counter.isLt]
    congr 1
    refine List.map_congr_left fun i _ => ?_
    simp only [Function.comp, Nat.succ_eq_add_one]
    omega

/-- **Transaction ids.**  `TransactionId::new` reads a 64-bit counter that wraps.
Successive calls from any counter value return distinct ids for up to `2^64` calls and
no more; and they return increasing ids, so that the order of ids that `acquire_lock`
takes for the transactions' age is the order they were created in, exactly as long as
the counter does not wrap. -/
theorem transaction_ids_until_wrap (n : Nat) (counter : BitVec 64) :
    ((issueIds n counter).Nodup ↔ n ≤ 2 ^ 64) ∧
      ((issueIds n counter).Pairwise (· < ·) ↔ counter.toNat + n ≤ 2 ^ 64) := by
  have hc := counter.isLt
  rw [issueIds_eq]
  constructor
  · constructor
    · intro h
      by_contra hn
      have := List.inj_on_of_nodup_map h (List.mem_range.2 (show 0 < n by omega))
        (List.mem_range.2 (show 2 ^ 64 < n by omega)) (by omega)
      omega
    · intro hn
      refine (List.nodup_range n).map_on fun i hi j hj e => ?_
      simp only [List.mem_range] at hi hj e
      omega
  · rw [List.pairwise_map]
    constructor
    · intro h
      by_contra hn
      have := List.pairwise_iff_getElem.1 h (2 ^ 64 - 1 - counter.toNat) (2 ^ 64 - counter.toNat)
        (by simp; omega) (by simp; omega) (by omega)
      simp only [List.getElem_range] at this
      omega
    · intro hn
      refine (List.pairwise_lt_range n).imp_of_mem fun ha hb hab => ?_
      simp only [List.mem_range] at ha hb
      omega

end RusticDb
