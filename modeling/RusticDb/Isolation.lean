/-
# Isolation in the buffer pool (`buffer_pool.rs`, `heap_file.rs`)

`Inv` is what every reachable state of `Db.Step` satisfies: the lock table is a
reachable one, each cached page carries its own id, a dirty page is locked
exclusively by the transaction that dirtied it, and each thread's phase has what its
next step relies on (`PhaseInv`).  The last part is where the interleavings are: a
thread between `add_tuple`'s probe and its write still holds the probe's lock and
still sees a free slot; a thread between a cache miss and the insert of the page it
read knows the cache holds nothing, or that same page.

The proof has one idea.  A step of a transaction `t` changes nothing another
transaction relies on (`Frame`): their locks stay, and the cached page and file bytes
of a page another transaction holds a lock on stay, except that a page missing from
the cache may appear as `read_page` decodes it.  `Frame.phaseInv` carries every other
thread's `PhaseInv` across such a step, so each case of `Inv.step` checks the moving
thread alone.

The headline results:

* `dirty_page_exclusive`: a dirty page is locked exclusively by its dirtier, so no
  other transaction holds or is granted a lock on it; after `commit_transaction` or
  `abort_transaction` the transaction holds no lock and has no dirty page; and a
  commit writes only pages the committing transaction dirtied.
* `probe_free_slot_survives`: the write of `add_tuple` finds the free slot its probe
  saw, so `add_tuple(tuple).unwrap()` does not panic.
* `panicked_keeps_locks`: a thread that panics keeps its locks for good, and the
  pages it holds stay closed to writers.
* `strict_two_phase_locking`: over any run, a transaction keeps each lock it holds,
  at no weaker mode, until its own `release_locks`, and holds none after it.
* `repeatable_read`: while a transaction holds a lock on a page, no step of another
  transaction changes the page `get_page` hands it, nor the page's bytes on disk.
-/
import RusticDb.BufferPool
import RusticDb.LockTable

namespace RusticDb

namespace Db

variable (catalog : Nat → Option TupleDesc)

/-- `t` holds a lock on `pid`, an exclusive one when `write`. -/
def Holds (s : Db) (t : Nat) (pid : HeapPageId) (write : Bool) : Prop :=
  ∃ b : Bool, ⟨t, pid, b⟩ ∈ s.lm.locksOn pid ∧ (write → b)

/-- `page` is what `read_page` decodes from the current bytes of `pid`. -/
def LoadedFrom (s : Db) (pid : HeapPageId) (page : HeapPage) : Prop :=
  ∃ td, catalog pid.tableId = some td ∧
    HeapPage.new pid (pageOf (s.files pid.tableId) pid.pageNumber) td = some page

/-- The cache holds nothing for `pid`, or what `read_page` would decode now. -/
def CacheFresh (s : Db) (pid : HeapPageId) : Prop :=
  s.idToPage pid = none ∨ ∃ page, s.idToPage pid = some page ∧ LoadedFrom catalog s pid page

/-- Between `add_tuple`'s probe and its write, `t` keeps the probe's lock and the
cached page keeps a free slot. -/
def ProbedFree (s : Db) (t : Nat) (pid : HeapPageId) : Resume → Prop
  | .insert _ =>
    s.Holds t pid false ∧ ∃ page, s.idToPage pid = some page ∧ 0 < page.getNumEmptySlots
  | _ => True

/-- What each phase of `t` relies on. -/
def PhaseInv (s : Db) (t : Nat) : Phase → Prop
  | .ready | .crashed => True
  | .acquire pid exclusive k | .round pid exclusive k =>
    (k.write → exclusive) ∧ ProbedFree s t pid k
  | .lookup pid k => s.Holds t pid k.write ∧ ProbedFree s t pid k
  | .read pid k => s.Holds t pid k.write ∧ ProbedFree s t pid k ∧ CacheFresh catalog s pid
  | .loaded pid page k => s.Holds t pid k.write ∧ ProbedFree s t pid k ∧
    CacheFresh catalog s pid ∧ LoadedFrom catalog s pid page
  | .use pid page k => s.Holds t pid k.write ∧ s.idToPage pid = some page ∧ ProbedFree s t pid k
  | .finishing _ pending => pending.Nodup ∧ (∀ p ∈ pending, s.Holds t p false) ∧
    ∀ p page, s.idToPage p = some page → page.dirtiedBy = some t → p ∈ pending
  | .done => (∀ p (l : Lock), l ∈ s.lm.locksOn p → l.tid ≠ t) ∧
    ∀ p page, s.idToPage p = some page → page.dirtiedBy ≠ some t

/-- The invariant of every reachable state. -/
structure Inv (s : Db) : Prop where
  locks : s.lm.Reachable
  page_pid : ∀ p page, s.idToPage p = some page → page.pid = p
  dirty_locked : ∀ p page t, s.idToPage p = some page → page.dirtiedBy = some t →
    ⟨t, p, true⟩ ∈ s.lm.locksOn p
  phase : ∀ t, PhaseInv catalog s t (s.phase t)

/-- What a step of `t` leaves to every other transaction. -/
structure Frame (t : Nat) (s s' : Db) : Prop where
  locks : ∀ p (l : Lock), l.tid ≠ t → (l ∈ s'.lm.locksOn p ↔ l ∈ s.lm.locksOn p)
  cache : ∀ p (l : Lock), l ∈ s.lm.locksOn p → l.tid ≠ t →
    s'.idToPage p = s.idToPage p ∨
      ∃ page, s.idToPage p = none ∧ LoadedFrom catalog s p page ∧ s'.idToPage p = some page
  bytes : ∀ p (l : Lock), l ∈ s.lm.locksOn p → l.tid ≠ t →
    pageOf (s'.files p.tableId) p.pageNumber = pageOf (s.files p.tableId) p.pageNumber
  dirtied : ∀ p page u, u ≠ t → s'.idToPage p = some page → page.dirtiedBy = some u →
    ∃ page₀, s.idToPage p = some page₀ ∧ page₀.dirtiedBy = some u
  phase : ∀ u, u ≠ t → s'.phase u = s.phase u

variable {catalog} {s s' : Db} {t u : Nat} {pid : HeapPageId}

/-- An entry of the cache after `id_to_page.insert(pid, page)`. -/
theorem cache_update_eq_some {c : HeapPageId → Option HeapPage} {P Q : HeapPage} {p : HeapPageId}
    (h : Function.update c pid (some P) p = some Q) : p = pid ∧ P = Q ∨ p ≠ pid ∧ c p = some Q := by
  by_cases e : p = pid
  · subst e
    rw [Function.update_same, Option.some.injEq] at h
    exact .inl ⟨rfl, h⟩
  · rw [Function.update_noteq e] at h
    exact .inr ⟨e, h⟩

theorem LoadedFrom.unique {a b : HeapPage} (ha : LoadedFrom catalog s pid a)
    (hb : LoadedFrom catalog s pid b) : a = b := by
  obtain ⟨td, hc, ha⟩ := ha
  obtain ⟨td', hc', hb⟩ := hb
  rw [hc, Option.some.injEq] at hc'
  subst hc'
  exact Option.some.inj (ha.symm.trans hb)

theorem LoadedFrom.of_bytes {page : HeapPage}
    (hb : pageOf (s'.files pid.tableId) pid.pageNumber = pageOf (s.files pid.tableId) pid.pageNumber)
    (h : LoadedFrom catalog s pid page) : LoadedFrom catalog s' pid page := by
  obtain ⟨td, hc, hn⟩ := h
  refine ⟨td, hc, ?_⟩
  rw [hb]
  exact hn

/-! ## Steps of other transactions -/

namespace Frame

variable (hF : Frame catalog t s s') (hu : u ≠ t)
include hF hu

theorem holds {w : Bool} (h : s.Holds u pid w) : s'.Holds u pid w := by
  obtain ⟨b, hb, hw⟩ := h
  exact ⟨b, (hF.locks pid _ hu).2 hb, hw⟩

theorem loadedFrom {w : Bool} {page : HeapPage} (hh : s.Holds u pid w)
    (h : LoadedFrom catalog s pid page) : LoadedFrom catalog s' pid page :=
  h.of_bytes (hF.bytes pid _ hh.choose_spec.1 hu)

theorem cache_some {w : Bool} {page : HeapPage} (hh : s.Holds u pid w)
    (h : s.idToPage pid = some page) : s'.idToPage pid = some page := by
  rcases hF.cache pid _ hh.choose_spec.1 hu with e | ⟨_, e, -⟩
  · rw [e, h]
  · simp [h] at e

theorem cacheFresh {w : Bool} (hh : s.Holds u pid w) (h : CacheFresh catalog s pid) :
    CacheFresh catalog s' pid := by
  rcases hF.cache pid _ hh.choose_spec.1 hu with e | ⟨page, -, hl, e⟩
  · rcases h with h | ⟨page, hc, hl⟩
    · exact .inl (e.trans h)
    · exact .inr ⟨page, e.trans hc, hF.loadedFrom hu hh hl⟩
  · exact .inr ⟨page, e, hF.loadedFrom hu hh hl⟩

theorem probedFree {k : Resume} (h : ProbedFree s u pid k) : ProbedFree s' u pid k := by
  cases k with
  | insert =>
    obtain ⟨hh, page, hc, hn⟩ := h
    exact ⟨hF.holds hu hh, page, hF.cache_some hu hh hc, hn⟩
  | _ => trivial

/-- Every other thread's phase invariant survives a step of `t`. -/
theorem phaseInv {ph : Phase} (h : PhaseInv catalog s u ph) : PhaseInv catalog s' u ph := by
  cases ph with
  | ready | crashed => trivial
  | acquire | round => exact ⟨h.1, hF.probedFree hu h.2⟩
  | lookup => exact ⟨hF.holds hu h.1, hF.probedFree hu h.2⟩
  | read => exact ⟨hF.holds hu h.1, hF.probedFree hu h.2.1, hF.cacheFresh hu h.1 h.2.2⟩
  | loaded =>
    exact ⟨hF.holds hu h.1, hF.probedFree hu h.2.1, hF.cacheFresh hu h.1 h.2.2.1,
      hF.loadedFrom hu h.1 h.2.2.2⟩
  | use => exact ⟨hF.holds hu h.1, hF.cache_some hu h.1 h.2.1, hF.probedFree hu h.2.2⟩
  | finishing c pending =>
    refine ⟨h.1, fun p hp => hF.holds hu (h.2.1 p hp), fun p page hc hd => ?_⟩
    obtain ⟨page₀, hc₀, hd₀⟩ := hF.dirtied p page u hu hc hd
    exact h.2.2 p page₀ hc₀ hd₀
  | done =>
    refine ⟨fun p l hl e => h.1 p l ((hF.locks p l (e ▸ hu)).1 hl) e, fun p page hc hd => ?_⟩
    obtain ⟨page₀, hc₀, hd₀⟩ := hF.dirtied p page u hu hc hd
    exact h.2 p page₀ hc₀ hd₀

end Frame

/-! ## Steps of the moving transaction -/

/-- A phase invariant reads only the lock table, the cache and the files. -/
theorem phaseInv_congr {s s' : Db} (hl : s'.lm = s.lm) (hc : s'.idToPage = s.idToPage)
    (hf : s'.files = s.files) (ph : Phase) : PhaseInv catalog s' t ph ↔ PhaseInv catalog s t ph := by
  obtain ⟨lm, c, f, _⟩ := s
  obtain ⟨lm', c', f', _⟩ := s'
  simp only at hl hc hf
  subst hl hc hf
  cases ph <;> exact Iff.rfl

/-- A step of `t` that keeps the other transactions' frame keeps the invariant when it
keeps the global parts and `t`'s own phase invariant. -/
theorem Inv.of_frame (h : Inv catalog s) (hF : Frame catalog t s s') (hl : s'.lm.Reachable)
    (hpid : ∀ p page, s'.idToPage p = some page → page.pid = p)
    (hdirty : ∀ p page u, s'.idToPage p = some page → page.dirtiedBy = some u →
      ⟨u, p, true⟩ ∈ s'.lm.locksOn p)
    (ht : PhaseInv catalog s' t (s'.phase t)) : Frame catalog t s s' ∧ Inv catalog s' := by
  refine ⟨hF, hl, hpid, hdirty, fun u => ?_⟩
  by_cases hu : u = t
  · exact hu ▸ ht
  · rw [hF.phase u hu]
    exact hF.phaseInv hu (h.phase u)

/-- `id_to_page.insert(pid, P)` of page `pid`, clean or dirtied by `t` under its
exclusive lock, keeps the facts of the cache, and dirties no page for another
transaction. -/
theorem Inv.cache_insert (h : Inv catalog s) {P : HeapPage} (hpid : P.pid = pid)
    (hP : ∀ u, P.dirtiedBy = some u → u = t ∧ ⟨u, pid, true⟩ ∈ s.lm.locksOn pid) :
    (∀ p page, Function.update s.idToPage pid (some P) p = some page → page.pid = p) ∧
    (∀ p page u, Function.update s.idToPage pid (some P) p = some page →
      page.dirtiedBy = some u → ⟨u, p, true⟩ ∈ s.lm.locksOn p) ∧
    ∀ p page u, u ≠ t → Function.update s.idToPage pid (some P) p = some page →
      page.dirtiedBy = some u → ∃ page₀, s.idToPage p = some page₀ ∧ page₀.dirtiedBy = some u := by
  refine ⟨fun p page hp => ?_, fun p page u hp hd => ?_, fun p page u hu hp hd => ?_⟩ <;>
    rcases cache_update_eq_some hp with ⟨rfl, rfl⟩ | ⟨-, hp⟩
  · exact hpid
  · exact h.page_pid p page hp
  · exact (hP u hd).2
  · exact h.dirty_locked p page u hp hd
  · exact absurd (hP u hd).1 hu
  · exact ⟨page, hp, hd⟩

/-- Moving `t` to another phase leaves everything else. -/
theorem Frame.setPhase (s : Db) (t : Nat) (ph : Phase) : Frame catalog t s (s.setPhase t ph) :=
  ⟨fun _ _ _ => Iff.rfl, fun _ _ _ _ => .inl rfl, fun _ _ _ _ => rfl,
    fun _ page _ _ hc hd => ⟨page, hc, hd⟩, fun _ hu => Function.update_noteq hu _ _⟩

/-- What `t`'s phase relies on, at the phase `t` is known to be in. -/
theorem Inv.phaseInv_of_eq {ph : Phase} (h : Inv catalog s) (hp : s.phase t = ph) :
    PhaseInv catalog s t ph :=
  hp ▸ h.phase t

/-- A step that only moves `t` to another phase. -/
theorem Inv.setPhase {ph : Phase} (h : Inv catalog s) (ht : PhaseInv catalog s t ph) :
    Frame catalog t s (s.setPhase t ph) ∧ Inv catalog (s.setPhase t ph) :=
  h.of_frame (.setPhase s t ph) h.locks h.page_pid h.dirty_locked
    (by rw [setPhase_phase, Function.update_same, phaseInv_congr rfl rfl rfl]; exact ht)

/-- The pages a dirty page's dirtier holds: nobody else holds a lock on it. -/
theorem Inv.holder_of_dirty (h : Inv catalog s) {page : HeapPage} {l : Lock}
    (hc : s.idToPage pid = some page) (hd : page.isDirty = true) (hl : l ∈ s.lm.locksOn pid) :
    page.dirtiedBy = some l.tid := by
  obtain ⟨d, hd⟩ := Option.isSome_iff_exists.1 hd
  rw [hd, h.locks.sole_holder (h.dirty_locked pid page d hc hd) hl]

/-- `commit_transaction` and `abort_transaction` begin with every page the transaction
dirtied among its locked pages. -/
theorem Inv.finishing_start (h : Inv catalog s) (t : Nat) (c : Bool) :
    PhaseInv catalog s t (.finishing c (s.lm.getLockedPages t)) := by
  obtain ⟨S, hr, -⟩ := h.locks.represents
  refine ⟨LockManager.nodup_getLockedPages _ _, fun p hp => ?_, fun p page hc hd => ?_⟩
  · obtain ⟨b, hb⟩ := (hr.mem_getLockedPages p).1 hp
    exact ⟨b, hb, fun e => by cases e⟩
  · exact (hr.mem_getLockedPages p).2 ⟨true, h.dirty_locked p page t hc hd⟩

/-- A dirty page among the pages of a commit or an abort was dirtied by that
transaction. -/
theorem Inv.dirtiedBy_of_pending {c : Bool} {pending : List HeapPageId} {page : HeapPage}
    (h : Inv catalog s) (hp : s.phase t = .finishing c pending) (hmem : pid ∈ pending)
    (hc : s.idToPage pid = some page) (hd : page.isDirty = true) : page.dirtiedBy = some t := by
  obtain ⟨b, hb, -⟩ := (h.phaseInv_of_eq hp).2.1 pid hmem
  exact h.holder_of_dirty hc hd hb

theorem probedFree_congr {s s' : Db} {k : Resume} (hl : s'.lm = s.lm)
    (hc : s'.idToPage = s.idToPage) : ProbedFree s' t pid k ↔ ProbedFree s t pid k := by
  obtain ⟨lm, c, f, _⟩ := s
  obtain ⟨lm', c', f', _⟩ := s'
  simp only at hl hc
  subst hl hc
  cases k <;> exact Iff.rfl

/-- A granted round of `acquire_lock`. -/
theorem Inv.granted {exclusive : Bool} {k : Resume} {lm' : LockManager} (h : Inv catalog s)
    (hp : s.phase t = .round pid exclusive k)
    (ha : s.lm.attempt t pid exclusive = some (.granted lm')) :
    Frame catalog t s { s with lm := lm', phase := Function.update s.phase t (.lookup pid k) } ∧
      Inv catalog { s with lm := lm', phase := Function.update s.phase t (.lookup pid k) } := by
  have hpi := h.phaseInv_of_eq hp
  obtain ⟨hothers, hexcl, hkeep, b, hb, hbx⟩ := h.locks.attempt_frame ha
  refine h.of_frame ⟨hothers, fun _ _ _ _ => .inl rfl, fun _ _ _ _ => rfl,
      fun p page _ _ hc hd => ⟨page, hc, hd⟩, fun u hu => Function.update_noteq hu _ _⟩
    (.acquire t pid exclusive h.locks ha) h.page_pid
    (fun p page u hc hd => hexcl p _ (h.dirty_locked p page u hc hd) rfl) ?_
  simp only [Function.update_same]
  refine ⟨⟨b, hb, fun hw => hbx (hpi.1 hw)⟩, ?_⟩
  cases k with
  | insert =>
    obtain ⟨⟨b₀, hb₀, -⟩, hfree⟩ := hpi.2
    obtain ⟨b', hb', -⟩ := hkeep pid b₀ hb₀
    exact ⟨⟨b', hb', fun e => by cases e⟩, hfree⟩
  | _ => trivial

/-- `read_page`: the page decoded from the file's current bytes of `pid`. -/
theorem Inv.readPage {k : Resume} {td : TupleDesc} {file : List (BitVec 8)} {page : HeapPage}
    (h : Inv catalog s) (hp : s.phase t = .read pid k) (hc : catalog pid.tableId = some td)
    (hr : RusticDb.readPage (s.files pid.tableId) td pid = some (file, page)) :
    Frame catalog t s { s with files := Function.update s.files pid.tableId file
                               phase := Function.update s.phase t (.loaded pid page k) } ∧
      Inv catalog { s with files := Function.update s.files pid.tableId file
                           phase := Function.update s.phase t (.loaded pid page k) } := by
  have hpi := h.phaseInv_of_eq hp
  obtain ⟨hnew, hpage⟩ := readPage_spec hr
  have hbytes : ∀ q : HeapPageId, pageOf (Function.update s.files pid.tableId file q.tableId)
      q.pageNumber = pageOf (s.files q.tableId) q.pageNumber := fun q => by
    rw [Function.update_apply]
    split
    · next e => rw [e, hpage]
    · rfl
  refine h.of_frame ⟨fun _ _ _ => Iff.rfl, fun _ _ _ _ => .inl rfl, fun q _ _ _ => hbytes q,
      fun p page _ _ hc hd => ⟨page, hc, hd⟩, fun u hu => Function.update_noteq hu _ _⟩
    h.locks h.page_pid h.dirty_locked ?_
  simp only [Function.update_same]
  refine ⟨hpi.1, (probedFree_congr rfl rfl).2 hpi.2.1, ?_, td, hc, by rw [hbytes pid]; exact hnew⟩
  rcases hpi.2.2 with e | ⟨X, e, hX⟩
  · exact .inl e
  · exact .inr ⟨X, e, hX.of_bytes (hbytes pid)⟩

/-- `id_to_page.insert(pid, page)`: the page equals any entry already there. -/
theorem Inv.install {k : Resume} {page : HeapPage} (h : Inv catalog s)
    (hp : s.phase t = .loaded pid page k) :
    Frame catalog t s { s with idToPage := Function.update s.idToPage pid (some page)
                               phase := Function.update s.phase t (.use pid page k) } ∧
      Inv catalog { s with idToPage := Function.update s.idToPage pid (some page)
                           phase := Function.update s.phase t (.use pid page k) } := by
  obtain ⟨hh, hpf, hfresh, hload⟩ := h.phaseInv_of_eq hp
  obtain ⟨td, hcat, hnew⟩ := hload
  obtain ⟨hpid, -, hclean, -⟩ := HeapPage.new_eq_some_fields hnew
  have key : s.idToPage pid = none ∨ s.idToPage pid = some page := by
    rcases hfresh with e | ⟨X, e, hX⟩
    · exact .inl e
    · exact .inr (e.trans (congrArg some (hX.unique ⟨td, hcat, hnew⟩)))
  obtain ⟨hpid', hdirty, hdirtied⟩ := h.cache_insert (t := t) hpid fun u hd => by
    rw [hclean] at hd; cases hd
  refine h.of_frame ⟨fun _ _ _ => Iff.rfl, fun p _ _ _ => ?_, fun _ _ _ _ => rfl, hdirtied,
      fun u hu => Function.update_noteq hu _ _⟩ h.locks hpid' hdirty ?_
  · by_cases e : p = pid
    · subst e
      rcases key with e | e
      · exact .inr ⟨page, e, ⟨td, hcat, hnew⟩, Function.update_same _ _ _⟩
      · exact .inl ((Function.update_same _ _ _).trans e.symm)
    · exact .inl (Function.update_noteq e _ _)
  · simp only [Function.update_same]
    refine ⟨hh, Function.update_same _ _ _, ?_⟩
    cases k with
    | insert =>
      obtain ⟨hh', P, hP, hn⟩ := hpf
      rcases key with e | e
      · simp [e] at hP
      · rw [e, Option.some.injEq] at hP
        exact ⟨hh', page, Function.update_same _ _ _, hP ▸ hn⟩
    | _ => trivial

/-- The writes of `add_tuple` and `delete_tuple`: the page comes back dirtied by `t`,
which holds it exclusively. -/
theorem Inv.write_page {k : Resume} {page page' : HeapPage} (h : Inv catalog s)
    (hp : s.phase t = .use pid page k) (hk : k.write = true) (hpid : page'.pid = page.pid) :
    Frame catalog t s { s with idToPage := Function.update s.idToPage pid (some (page'.markDirty true t))
                               phase := Function.update s.phase t .ready } ∧
      Inv catalog { s with idToPage := Function.update s.idToPage pid (some (page'.markDirty true t))
                           phase := Function.update s.phase t .ready } := by
  obtain ⟨⟨b, hb, hbw⟩, hc, -⟩ := h.phaseInv_of_eq hp
  have hx : ⟨t, pid, true⟩ ∈ s.lm.locksOn pid := by rwa [← hbw hk]
  obtain ⟨hpid', hdirty, hdirtied⟩ := h.cache_insert (t := t) (P := page'.markDirty true t)
    (by rw [HeapPage.markDirty_pid, hpid, h.page_pid pid page hc]) fun u hd => by
      simp only [HeapPage.markDirty_dirtiedBy, if_true, Option.some.injEq] at hd
      exact ⟨hd.symm, hd ▸ hx⟩
  refine h.of_frame ⟨fun _ _ _ => Iff.rfl, fun p l hl hlt => .inl ?_, fun _ _ _ _ => rfl,
      hdirtied, fun u hu => Function.update_noteq hu _ _⟩ h.locks hpid' hdirty
    (by simp only [Function.update_same]; exact trivial)
  have e : p ≠ pid := by rintro rfl; exact hlt (h.locks.sole_holder hx hl)
  exact Function.update_noteq e _ _

/-- A page treated by `commit_transaction` or `abort_transaction`: a clean page replaces
the dirty one, and only that page's bytes may change. -/
theorem Inv.finish_page {c : Bool} {pending : List HeapPageId} {page page' : HeapPage}
    {files' : Nat → List (BitVec 8)} (h : Inv catalog s) (hp : s.phase t = .finishing c pending)
    (hmem : pid ∈ pending) (hc : s.idToPage pid = some page) (hd : page.isDirty = true)
    (hpid : page'.pid = pid) (hclean : page'.dirtiedBy = none)
    (hfiles : ∀ q : HeapPageId, q ≠ pid →
      pageOf (files' q.tableId) q.pageNumber = pageOf (s.files q.tableId) q.pageNumber) :
    Frame catalog t s { s with idToPage := Function.update s.idToPage pid (some page'), files := files'
                               phase := Function.update s.phase t (.finishing c (pending.erase pid)) } ∧
      Inv catalog { s with idToPage := Function.update s.idToPage pid (some page'), files := files'
                           phase := Function.update s.phase t (.finishing c (pending.erase pid)) } := by
  obtain ⟨hnd, hholds, hdirt⟩ := h.phaseInv_of_eq hp
  have hmine := h.dirtiedBy_of_pending hp hmem hc hd
  have hother : ∀ p (l : Lock), l ∈ s.lm.locksOn p → l.tid ≠ t → p ≠ pid := by
    rintro p l hl hlt rfl
    exact hlt (Option.some.inj ((h.holder_of_dirty hc hd hl).symm.trans hmine))
  obtain ⟨hpid', hdirty, hdirtied⟩ := h.cache_insert (t := t) hpid fun u hd => by
    rw [hclean] at hd; cases hd
  refine h.of_frame ⟨fun _ _ _ => Iff.rfl,
      fun p l hl hlt => .inl (Function.update_noteq (hother p l hl hlt) _ _),
      fun p l hl hlt => hfiles p (hother p l hl hlt), hdirtied,
      fun u hu => Function.update_noteq hu _ _⟩ h.locks hpid' hdirty ?_
  simp only [Function.update_same]
  refine ⟨hnd.erase pid, fun p hp' => hholds p (List.mem_of_mem_erase hp'),
    fun p page'' hc' hd' => ?_⟩
  rcases cache_update_eq_some hc' with ⟨rfl, rfl⟩ | ⟨e, hc'⟩
  · rw [hclean] at hd'; cases hd'
  · exact (List.mem_erase_of_ne e).2 (hdirt p page'' hc' hd')

/-- `release_locks` ends a commit or an abort that has treated every page. -/
theorem Inv.release {c : Bool} {lm' : LockManager} (h : Inv catalog s)
    (hp : s.phase t = .finishing c []) (hr : s.lm.releaseLocks t = some lm') :
    Frame catalog t s { s with lm := lm', phase := Function.update s.phase t .done } ∧
      Inv catalog { s with lm := lm', phase := Function.update s.phase t .done } := by
  have hpi := h.phaseInv_of_eq hp
  have hnone : ∀ p page, s.idToPage p = some page → page.dirtiedBy ≠ some t :=
    fun p page hc hd => List.not_mem_nil p (hpi.2.2 p page hc hd)
  obtain ⟨hothers, hgone⟩ := h.locks.release_frame hr
  refine h.of_frame ⟨hothers, fun _ _ _ _ => .inl rfl, fun _ _ _ _ => rfl,
      fun p page _ _ hc hd => ⟨page, hc, hd⟩, fun u hu => Function.update_noteq hu _ _⟩
    (.release t h.locks hr) h.page_pid (fun p page u hc hd => ?_) ?_
  · have hu : u ≠ t := by rintro rfl; exact hnone p page hc hd
    exact (hothers p _ hu).2 (h.dirty_locked p page u hc hd)
  · simp only [Function.update_same]
    exact ⟨hgone, hnone⟩

/-- **Every step keeps the invariant**, and leaves the other transactions their frame. -/
theorem Inv.step_frame {e : Effect} (h : Inv catalog s) (hs : Step catalog t e s s') :
    Frame catalog t s s' ∧ Inv catalog s' := by
  cases hs with
  | insertTuple t => exact h.setPhase ⟨id, trivial⟩
  | deleteTuple t => exact h.setPhase ⟨fun _ => rfl, trivial⟩
  | getPage t pid exclusive => exact h.setPhase ⟨fun e => Bool.noConfusion e, trivial⟩
  | commitTransaction t => exact h.setPhase (h.finishing_start t true)
  | abortTransaction t => exact h.setPhase (h.finishing_start t false)
  | fastPath t pid exclusive k hp hf =>
    have hpi := h.phaseInv_of_eq hp
    obtain ⟨S, hr, -⟩ := h.locks.represents
    obtain ⟨b, hb, hbx⟩ := hr.fastPath_holds hf
    exact h.setPhase ⟨⟨b, hb, fun hw => hbx (hpi.1 hw)⟩, hpi.2⟩
  | slowPath t pid exclusive k hp =>
    have hpi := h.phaseInv_of_eq hp
    exact h.setPhase hpi
  | granted t pid exclusive k hp ha => exact h.granted hp ha
  | die t => exact h.setPhase (h.finishing_start t false)
  | hit t pid k page hp hc =>
    have hpi := h.phaseInv_of_eq hp
    exact h.setPhase ⟨hpi.1, hc, hpi.2⟩
  | miss t pid k hp hc =>
    have hpi := h.phaseInv_of_eq hp
    exact h.setPhase ⟨hpi.1, hpi.2, .inl hc⟩
  | readPage t pid k td file page hp hc hr => exact h.readPage hp hc hr
  | install t pid page k hp => exact h.install hp
  | probeFree t pid page tableId pageNo tuple hp hn =>
    obtain ⟨⟨b, hb, -⟩, hc, -⟩ := h.phaseInv_of_eq hp
    exact h.setPhase ⟨fun _ => rfl, ⟨b, hb, fun e => by cases e⟩, page, hc, hn⟩
  | probeFull => exact h.setPhase ⟨id, trivial⟩
  | insert t pid page page' tuple hp ha =>
    exact h.write_page hp rfl (HeapPage.addTuple_eq_ok ha).choose_spec.2.2.2.2.2.1
  | delete t pid page page' tuple hp hd =>
    exact h.write_page hp rfl (HeapPage.deleteTuple_eq_ok hd).2.2.2.2.2.1
  | fetched => exact h.setPhase trivial
  | commitPage t pending pid page page' file hp hmem hc hd _ hw hb =>
    obtain ⟨hpid', hdirt'⟩ := HeapPage.setBeforeImage_eq_some hb
    exact h.finish_page hp hmem hc hd (by rw [hpid', HeapPage.markDirty_pid, h.page_pid pid page hc])
      (by rw [hdirt']; rfl) fun q hq => pageOf_writePage_ne hw (h.page_pid pid page hc) hq
  | abortPage t pending pid page before hp hmem hc hd hb =>
    obtain ⟨hpid', -, hclean, -⟩ := HeapPage.new_eq_some_fields hb
    exact h.finish_page hp hmem hc hd (by rw [HeapPage.markDirty_pid, hpid', h.page_pid pid page hc])
      rfl fun _ _ => rfl
  | skipPage t c pending pid hp hmem hclean =>
    have hpi := h.phaseInv_of_eq hp
    refine h.setPhase ⟨hpi.1.erase pid, fun p hp' => hpi.2.1 p (List.mem_of_mem_erase hp'),
      fun p page hc hd => ?_⟩
    by_cases e : p = pid
    · subst e
      have := hclean page hc
      simp [HeapPage.isDirty, hd] at this
    · exact (List.mem_erase_of_ne e).2 (hpi.2.2 p page hc hd)
  | release t c hp hr => exact h.release hp hr
  | crash t => exact h.setPhase trivial

theorem Inv.step {e : Effect} (h : Inv catalog s) (hs : Step catalog t e s s') : Inv catalog s' :=
  (h.step_frame hs).2

theorem Inv.init (files : Nat → List (BitVec 8)) : Inv catalog (init files) where
  locks := .new
  page_pid _ _ h := by cases h
  dirty_locked _ _ _ h := by cases h
  phase _ := trivial

/-- Every reachable state satisfies the invariant. -/
theorem Reachable.inv {files : Nat → List (BitVec 8)} (h : Reachable catalog files s) :
    Inv catalog s := by
  induction h with
  | init => exact Inv.init files
  | step _ hs ih => exact ih.step hs

/-! ## Dirty pages and the probe of `add_tuple` -/

/-- **Dirty pages are locked exclusively by their dirtier.**  In every reachable state a
cached page dirtied by `t` is locked exclusively by `t` and by nobody else, and no
round of `acquire_lock` of another transaction on it is granted.  Once `t`'s commit or
abort has returned, `t` holds no lock and has no dirty page.  A commit meets as dirty
only pages that the committing transaction dirtied, so it writes no other. -/
theorem dirty_page_exclusive {files : Nat → List (BitVec 8)} (hs : Reachable catalog files s) :
    (∀ p page t, s.idToPage p = some page → page.dirtiedBy = some t →
      ⟨t, p, true⟩ ∈ s.lm.locksOn p ∧ (∀ l ∈ s.lm.locksOn p, l.tid = t) ∧
      ∀ u exclusive lm', u ≠ t → s.lm.attempt u p exclusive ≠ some (.granted lm')) ∧
    (∀ t, s.phase t = .done → s.lm.getLockedPages t = [] ∧
      ∀ p page, s.idToPage p = some page → page.dirtiedBy ≠ some t) ∧
    (∀ t pending p page, s.phase t = .finishing true pending → p ∈ pending →
      s.idToPage p = some page → page.isDirty = true → page.dirtiedBy = some t) := by
  have h := hs.inv
  refine ⟨fun p page t hc hd => ?_, fun t hp => ?_, fun t pending p page hp hmem hc hd =>
    h.dirtiedBy_of_pending hp hmem hc hd⟩
  · have hx := h.dirty_locked p page t hc hd
    refine ⟨hx, fun l hl => h.locks.sole_holder hx hl, fun u exclusive lm' hut ha => ?_⟩
    obtain ⟨-, hexcl, -, b, hb, -⟩ := h.locks.attempt_frame ha
    exact hut ((h.locks.acquire u p exclusive ha).sole_holder (hexcl p _ hx rfl) hb)
  · have hpi := h.phaseInv_of_eq hp
    obtain ⟨S, hr, -⟩ := h.locks.represents
    refine ⟨List.eq_nil_iff_forall_not_mem.2 fun p hm => ?_, hpi.2⟩
    obtain ⟨b, hb⟩ := (hr.mem_getLockedPages p).1 hm
    exact hpi.1 p _ hb rfl

/-- `read_page` of a page of the empty file of a one-column `Int` table: the file grows
by zero pages, and the page decodes to a page with every slot free. -/
theorem read_empty_table (pid : HeapPageId) :
    ∃ file Q, RusticDb.readPage [] ⟨[.intType], ["id"]⟩ pid = some (file, Q) ∧
      HeapPage.new pid (List.replicate pageSize 0) ⟨[.intType], ["id"]⟩ = some Q ∧
      0 < Q.getNumEmptySlots := by
  obtain ⟨Q, hQ, -, htd, hh, -⟩ := HeapPage.new_replicate_zero pid ⟨[.intType], ["id"]⟩
  obtain ⟨file, Q', hread, hQ', -⟩ := readPage_of_zero_bytes
    (rfl : ([] : List (BitVec 8)).length % pageSize = 0) ⟨[.intType], ["id"]⟩ pid
    (pageOf_of_length_le (Nat.zero_le _))
  obtain rfl := Option.some.inj (hQ'.symm.trans hQ)
  refine ⟨file, Q', hread, hQ', ?_⟩
  rw [HeapPage.getNumEmptySlots_of_header_zero hh, Q'.numSlots_eq, htd]
  decide

/-- Transaction 1 inserts one `Int` tuple into the empty file of a table, up to the
write of `add_tuple`: it loads page 0, probes it under a shared lock, and upgrades. -/
theorem reaches_first_insert :
    ∃ s page, Reachable (fun _ => some ⟨[.intType], ["id"]⟩) (fun _ => []) s ∧
      s.phase 1 = .use ⟨1, 0⟩ page (.insert (Tuple.new [.intField ⟨7⟩] ⟨[.intType], ["id"]⟩)) ∧
      s.idToPage ⟨1, 0⟩ = some page ∧ 0 < page.getNumEmptySlots := by
  obtain ⟨file, Q, hread, -, hn⟩ := read_empty_table ⟨1, 0⟩
  exact ⟨_, Q, .step (.step (.step (.step (.step (.step (.step (.step (.step (.step .init
    (.insertTuple 1 1 _ rfl (by simp)))
    (.slowPath 1 _ _ _ rfl rfl))
    (.granted 1 _ _ _ rfl rfl))
    (.miss 1 _ _ rfl rfl))
    (.readPage 1 _ _ _ _ _ rfl rfl hread))
    (.install 1 _ _ _ rfl))
    (.probeFree 1 _ _ 1 0 _ rfl hn))
    (.slowPath 1 _ _ _ rfl rfl))
    (.granted 1 _ _ _ rfl rfl))
    (.hit 1 _ _ Q rfl rfl), rfl, rfl, hn⟩

/-- Transactions 1 and 2 each insert an `Int` tuple into the empty file of their own
table, their steps interleaved: transaction 1 up to the write of `add_tuple` into page
`(1, 0)`, transaction 2 up to the round that upgrades its probe lock on page `(2, 0)`, which
is granted. -/
theorem reaches_two_inserts :
    ∃ s page₁ page₂ lm', Reachable (fun _ => some ⟨[.intType], ["id"]⟩) (fun _ => []) s ∧
      s.phase 1 = .use ⟨1, 0⟩ page₁ (.insert (Tuple.new [.intField ⟨7⟩] ⟨[.intType], ["id"]⟩)) ∧
      s.idToPage ⟨1, 0⟩ = some page₁ ∧ 0 < page₁.getNumEmptySlots ∧
      s.phase 2 = .round ⟨2, 0⟩ true (.insert (Tuple.new [.intField ⟨8⟩] ⟨[.intType], ["id"]⟩)) ∧
      s.lm.attempt 2 ⟨2, 0⟩ true = some (.granted lm') ∧
      s.idToPage ⟨2, 0⟩ = some page₂ ∧ 0 < page₂.getNumEmptySlots := by
  obtain ⟨file₁, Q₁, hread₁, -, hn₁⟩ := read_empty_table ⟨1, 0⟩
  obtain ⟨file₂, Q₂, hread₂, -, hn₂⟩ := read_empty_table ⟨2, 0⟩
  exact ⟨_, Q₁, Q₂, _, .step (.step (.step (.step (.step (.step (.step (.step (.step (.step
    (.step (.step (.step (.step (.step (.step (.step (.step .init
    (.insertTuple 1 1 _ rfl (by simp)))
    (.insertTuple 2 2 (Tuple.new [.intField ⟨8⟩] ⟨[.intType], ["id"]⟩) rfl (by simp)))
    (.slowPath 1 _ _ _ rfl rfl))
    (.slowPath 2 _ _ _ rfl rfl))
    (.granted 1 _ _ _ rfl rfl))
    (.granted 2 _ _ _ rfl rfl))
    (.miss 1 _ _ rfl rfl))
    (.miss 2 _ _ rfl rfl))
    (.readPage 1 _ _ _ _ _ rfl rfl hread₁))
    (.readPage 2 _ _ _ _ _ rfl rfl hread₂))
    (.install 1 _ _ _ rfl))
    (.install 2 _ _ _ rfl))
    (.probeFree 1 _ _ 1 0 _ rfl hn₁))
    (.probeFree 2 _ _ 2 0 _ rfl hn₂))
    (.slowPath 1 _ _ _ rfl rfl))
    (.slowPath 2 _ _ _ rfl rfl))
    (.granted 1 _ _ _ rfl rfl))
    (.hit 1 _ _ Q₁ rfl rfl), rfl, rfl, hn₁, rfl, rfl, rfl, hn₂⟩

/-- The end of `add_tuple` once its upgrade round is granted: `get_page` finds the probed
page in the cache, and the write puts the tuple in. -/
theorem upgrade_insert_steps {lm' : LockManager} {page : HeapPage} {tuple : Tuple}
    (hp : s.phase t = .round pid true (.insert tuple))
    (ha : s.lm.attempt t pid true = some (.granted lm')) (hc : s.idToPage pid = some page)
    (hn : 0 < page.getNumEmptySlots) :
    ∃ s₁ s₂ s₃, Step catalog t .silent s s₁ ∧ Step catalog t .silent s₁ s₂ ∧
      Step catalog t (.write (.insert pid tuple)) s₂ s₃ := by
  obtain ⟨page', ha'⟩ := HeapPage.addTuple_isOk_of_getNumEmptySlots_pos tuple hn
  exact ⟨_, _, _, .granted t pid true _ hp ha, .hit t pid (.insert tuple) page (by simp) hc,
    .insert t pid page page' tuple (by simp) ha'⟩

theorem dirty_page_exclusive_after_insert :
    ∃ s, Reachable (fun _ => some ⟨[.intType], ["id"]⟩) (fun _ => []) s ∧
      (∃ page, s.idToPage ⟨1, 0⟩ = some page ∧ page.dirtiedBy = some 1) ∧
      (∀ p page t, s.idToPage p = some page → page.dirtiedBy = some t →
        ⟨t, p, true⟩ ∈ s.lm.locksOn p ∧ (∀ l ∈ s.lm.locksOn p, l.tid = t) ∧
        ∀ u exclusive lm', u ≠ t → s.lm.attempt u p exclusive ≠ some (.granted lm')) ∧
      (∀ t, s.phase t = .done → s.lm.getLockedPages t = [] ∧
        ∀ p page, s.idToPage p = some page → page.dirtiedBy ≠ some t) ∧
      (∀ t pending p page, s.phase t = .finishing true pending → p ∈ pending →
        s.idToPage p = some page → page.isDirty = true → page.dirtiedBy = some t) := by
  obtain ⟨s, page, hs, hp, -, hn⟩ := reaches_first_insert
  obtain ⟨page', ha⟩ := HeapPage.addTuple_isOk_of_getNumEmptySlots_pos
    (Tuple.new [.intField ⟨7⟩] ⟨[.intType], ["id"]⟩) hn
  have hs' := Reachable.step hs (.insert 1 _ _ _ _ hp ha)
  exact ⟨_, hs', ⟨page'.markDirty true 1, by simp, by simp⟩, dirty_page_exclusive hs'⟩

/-- **The probe's free slot survives to the write.**  In every reachable state, a
transaction whose `get_page(pid, Permission::Write)` of `add_tuple` has returned holds
`pid` exclusively, finds the page it probed still cached, still with a free slot, so
`page_writer.add_tuple(tuple).unwrap()` does not panic. -/
theorem probe_free_slot_survives {files : Nat → List (BitVec 8)} (hs : Reachable catalog files s)
    {page : HeapPage} {tuple : Tuple} (ht : s.phase t = .use pid page (.insert tuple)) :
    s.Holds t pid true ∧ s.idToPage pid = some page ∧ 0 < page.getNumEmptySlots ∧
      ∃ page', page.addTuple tuple = .ok page' := by
  obtain ⟨hh, hc, -, P, hP, hn⟩ := hs.inv.phaseInv_of_eq ht
  rw [hc, Option.some.injEq] at hP
  subst hP
  exact ⟨hh, hc, hn, HeapPage.addTuple_isOk_of_getNumEmptySlots_pos tuple hn⟩

theorem probe_free_slot_survives_first_insert :
    ∃ s page, Reachable (fun _ => some ⟨[.intType], ["id"]⟩) (fun _ => []) s ∧
      s.phase 1 = .use ⟨1, 0⟩ page (.insert (Tuple.new [.intField ⟨7⟩] ⟨[.intType], ["id"]⟩)) ∧
      s.Holds 1 ⟨1, 0⟩ true ∧ s.idToPage ⟨1, 0⟩ = some page ∧ 0 < page.getNumEmptySlots ∧
      ∃ page', page.addTuple (Tuple.new [.intField ⟨7⟩] ⟨[.intType], ["id"]⟩) = .ok page' := by
  obtain ⟨s, page, hs, hp, -⟩ := reaches_first_insert
  exact ⟨s, page, hs, hp, probe_free_slot_survives hs hp⟩

/-! ## A panicked transaction -/

/-- Every state a run reaches from a reachable state is reachable. -/
theorem Reachable.of_run {files : Nat → List (BitVec 8)} (hs : Reachable catalog files s)
    (hrun : Relation.ReflTransGen (fun a b => ∃ u e, Step catalog u e a b) s s') :
    Reachable catalog files s' := by
  induction hrun with
  | refl => exact hs
  | tail _ hbc ih => exact .step ih hbc.choose_spec.choose_spec

/-- A thread that has panicked takes no step but another panic. -/
theorem Step.of_crashed {e : Effect} (hs : Step catalog t e s s') (h : s.phase t = .crashed) :
    s' = s.setPhase t .crashed := by
  cases hs <;> simp_all

/-- **A panicked transaction keeps its locks.**  From every reachable state where the
thread of `t` has panicked, whatever steps the transactions then take, `t` stays panicked
and holds exactly the locks it held; and no other transaction is ever granted an
exclusive lock on a page `t` held a lock on, so those pages stay closed to writers. -/
theorem panicked_keeps_locks {files : Nat → List (BitVec 8)} (hs : Reachable catalog files s)
    (ht : s.phase t = .crashed)
    (hrun : Relation.ReflTransGen (fun a b => ∃ u e, Step catalog u e a b) s s') :
    s'.phase t = .crashed ∧
      (∀ p (l : Lock), l.tid = t → (l ∈ s'.lm.locksOn p ↔ l ∈ s.lm.locksOn p)) ∧
      ∀ p (l : Lock) u lm', l ∈ s.lm.locksOn p → l.tid = t → u ≠ t →
        s'.lm.attempt u p true ≠ some (.granted lm') := by
  have key : s'.phase t = .crashed ∧
      ∀ p (l : Lock), l.tid = t → (l ∈ s'.lm.locksOn p ↔ l ∈ s.lm.locksOn p) := by
    induction hrun with
    | refl => exact ⟨ht, fun _ _ _ => Iff.rfl⟩
    | tail hab hbc ih =>
      obtain ⟨u, e, hst⟩ := hbc
      obtain ⟨hcr, hlk⟩ := ih
      by_cases hu : u = t
      · subst hu
        rw [hst.of_crashed hcr]
        exact ⟨by simp, hlk⟩
      · obtain ⟨hF, -⟩ := (hs.of_run hab).inv.step_frame hst
        exact ⟨(hF.phase t (Ne.symm hu)).trans hcr,
          fun p l hl => (hF.locks p l (hl ▸ Ne.symm hu)).trans (hlk p l hl)⟩
  exact ⟨key.1, key.2, fun p l u lm' hl hlt hu =>
    LockManager.attempt_exclusive_not_granted ((key.2 p l hlt).2 hl) (hlt ▸ Ne.symm hu)⟩

/-- Transaction 1 writes a tuple into page `(1, 0)` and panics; transaction 2 is then
granted its upgrade of page `(2, 0)`, finds the page in the cache and writes a tuple into
it.  Transaction 1 stays panicked with its locks, and no other transaction is granted
page `(1, 0)` for writing. -/
theorem panicked_keeps_locks_two_inserts :
    ∃ s s', Reachable (fun _ => some ⟨[.intType], ["id"]⟩) (fun _ => []) s ∧
      s.phase 1 = .crashed ∧ ⟨1, ⟨1, 0⟩, true⟩ ∈ s.lm.locksOn ⟨1, 0⟩ ∧
      Relation.ReflTransGen (fun a b => ∃ u e, Step (fun _ => some ⟨[.intType], ["id"]⟩) u e a b)
        s s' ∧
      s'.phase 1 = .crashed ∧
      (∀ p (l : Lock), l.tid = 1 → (l ∈ s'.lm.locksOn p ↔ l ∈ s.lm.locksOn p)) ∧
      ∀ p (l : Lock) u lm', l ∈ s.lm.locksOn p → l.tid = 1 → u ≠ 1 →
        s'.lm.attempt u p true ≠ some (.granted lm') := by
  obtain ⟨s, page₁, page₂, lm', hs, hp₁, -, hn₁, hp₂, ha, hc₂, hn₂⟩ := reaches_two_inserts
  obtain ⟨b, hb, hw⟩ := (hs.inv.phaseInv_of_eq hp₁).1
  obtain rfl : b = true := hw rfl
  obtain ⟨P₁, hP₁⟩ := HeapPage.addTuple_isOk_of_getNumEmptySlots_pos _ hn₁
  -- transaction 1 writes and panics; transaction 2's state is as it was
  obtain ⟨c, hc, hcr, hlm, hp₂', hc₂'⟩ : ∃ c, Reachable (fun _ => some ⟨[.intType], ["id"]⟩)
      (fun _ => []) c ∧ c.phase 1 = .crashed ∧ c.lm = s.lm ∧ c.phase 2 = s.phase 2 ∧
      c.idToPage ⟨2, 0⟩ = s.idToPage ⟨2, 0⟩ :=
    ⟨_, (hs.step (.insert 1 _ _ _ _ hp₁ hP₁)).step (.crash 1), by simp, rfl,
      by simp [Function.update_apply], by simp [Function.update_apply]⟩
  obtain ⟨s₁, s₂, s₃, h₁, h₂, h₃⟩ :=
    upgrade_insert_steps (hp₂'.trans hp₂) (hlm ▸ ha) (hc₂'.trans hc₂) hn₂
  have hrun : Relation.ReflTransGen
      (fun a b => ∃ u e, Step (fun _ => some ⟨[.intType], ["id"]⟩) u e a b) c s₃ :=
    .tail (.tail (.single ⟨2, _, h₁⟩) ⟨2, _, h₂⟩) ⟨2, _, h₃⟩
  exact ⟨c, s₃, hc, hcr, hlm ▸ hb, hrun, panicked_keeps_locks hc hcr hrun⟩

/-! ## Strict two-phase locking -/

/-- `t`'s thread has stopped, its commit or abort returned or a panic, and `t` holds
no lock. -/
def Released (s : Db) (t : Nat) : Prop :=
  (s.phase t = .done ∨ s.phase t = .crashed) ∧ ∀ p (l : Lock), l ∈ s.lm.locksOn p → l.tid ≠ t

/-- A thread whose commit or abort has returned takes no step but a panic. -/
theorem Step.of_done {e : Effect} (hs : Step catalog t e s s') (h : s.phase t = .done) :
    s' = s.setPhase t .crashed := by
  cases hs <;> simp_all

/-- A step keeps each lock a transaction holds, at no weaker mode, unless it is that
transaction's `release_locks`, after which it holds none. -/
theorem Step.holds {e : Effect} {w : Bool} (h : Inv catalog s) (hs : Step catalog u e s s')
    (hp : s.Holds t pid w) : s'.Holds t pid w ∨ s'.Released t := by
  obtain rfl | hu := eq_or_ne u t
  · cases hs
    case granted _ ha =>
      obtain ⟨b, hb, hw⟩ := hp
      obtain ⟨b', hb', hbb⟩ := (h.locks.attempt_frame ha).2.2.1 pid b hb
      exact .inl ⟨b', hb', hbb ∘ hw⟩
    case release _ hr => exact .inr ⟨.inl (by simp), (h.locks.release_frame hr).2⟩
    all_goals exact .inl hp
  · exact .inl ((h.step_frame hs).1.holds (Ne.symm hu) hp)

/-- A stopped transaction without locks stays so. -/
theorem Step.released {e : Effect} (h : Inv catalog s) (hs : Step catalog u e s s')
    (hr : s.Released t) : s'.Released t := by
  obtain ⟨hph, hl⟩ := hr
  obtain rfl | hu := eq_or_ne u t
  · rw [hph.elim hs.of_done hs.of_crashed]
    exact ⟨.inr (by simp), hl⟩
  · obtain ⟨hF, -⟩ := h.step_frame hs
    refine ⟨hF.phase t (Ne.symm hu) ▸ hph, fun p l hl' hlt => ?_⟩
    exact hl p l ((hF.locks p l (hlt ▸ Ne.symm hu)).1 hl') hlt

/-- **Strict two-phase locking.**  From every reachable state, whatever steps the
transactions then take, a transaction keeps each lock it holds, at no weaker mode,
until its own `release_locks`; from then on its thread has stopped and it holds no lock.
A transaction whose commit or abort has returned never holds a lock again. -/
theorem strict_two_phase_locking {files : Nat → List (BitVec 8)} (hs : Reachable catalog files s)
    (hrun : Relation.ReflTransGen (fun a b => ∃ u e, Step catalog u e a b) s s') :
    (∀ p w, s.Holds t p w → s'.Holds t p w ∨ s'.Released t) ∧
      (s.phase t = .done → s'.Released t) := by
  induction hrun with
  | refl => exact ⟨fun _ _ => .inl, fun hd => ⟨.inl hd, (hs.inv.phaseInv_of_eq hd).1⟩⟩
  | tail hab hbc ih =>
    obtain ⟨u, e, hst⟩ := hbc
    have hb := (hs.of_run hab).inv
    exact ⟨fun p w hp => (ih.1 p w hp).elim (hst.holds hb) (.inr ∘ hst.released hb),
      fun hd => hst.released hb (ih.2 hd)⟩

/-- Transaction 2 holds a shared lock on page `(2, 0)` from its probe, while transaction 1
holds page `(1, 0)` for writing; transaction 2 is then granted its upgrade, finds the page in
the cache and writes a tuple into it: it keeps its lock on `(2, 0)` throughout. -/
theorem strict_two_phase_locking_two_inserts :
    ∃ s s', Reachable (fun _ => some ⟨[.intType], ["id"]⟩) (fun _ => []) s ∧
      Relation.ReflTransGen (fun a b => ∃ u e, Step (fun _ => some ⟨[.intType], ["id"]⟩) u e a b)
        s s' ∧
      s.Holds 1 ⟨1, 0⟩ true ∧ s.Holds 2 ⟨2, 0⟩ false ∧
      (∀ p w, s.Holds 2 p w → s'.Holds 2 p w ∨ s'.Released 2) ∧
      (s.phase 2 = .done → s'.Released 2) := by
  obtain ⟨s, page₁, page₂, lm', hs, hp₁, -, -, hp₂, ha, hc₂, hn₂⟩ := reaches_two_inserts
  obtain ⟨s₁, s₂, s₃, h₁, h₂, h₃⟩ := upgrade_insert_steps hp₂ ha hc₂ hn₂
  have hrun : Relation.ReflTransGen
      (fun a b => ∃ u e, Step (fun _ => some ⟨[.intType], ["id"]⟩) u e a b) s s₃ :=
    .tail (.tail (.single ⟨2, _, h₁⟩) ⟨2, _, h₂⟩) ⟨2, _, h₃⟩
  exact ⟨s, s₃, hs, hrun, (hs.inv.phaseInv_of_eq hp₁).1, (hs.inv.phaseInv_of_eq hp₂).2.1,
    strict_two_phase_locking hs hrun⟩

/-! ## Repeatable reads -/

/-- What `get_page(tid, pid, _)` hands back once its lock is granted: the cached page on
a hit, and on a miss the page `read_page` decodes from the bytes on disk. -/
def pageSeen (catalog : Nat → Option TupleDesc) (s : Db) (pid : HeapPageId) :
    Option HeapPage :=
  match s.idToPage pid with
  | some page => some page
  | none => (catalog pid.tableId).bind fun td =>
    HeapPage.new pid (pageOf (s.files pid.tableId) pid.pageNumber) td

/-- A step of `t` leaves what `get_page` hands another transaction for a page it holds. -/
theorem Frame.pageSeen_eq (hF : Frame catalog t s s') (hu : u ≠ t) {w : Bool}
    (hh : s.Holds u pid w) : pageSeen catalog s' pid = pageSeen catalog s pid := by
  have hb := hF.bytes pid _ hh.choose_spec.1 hu
  rcases hF.cache pid _ hh.choose_spec.1 hu with e | ⟨page, hn, ⟨td, hc, hl⟩, e⟩
  · simp only [pageSeen, e, hb]
  · simp only [pageSeen, e, hn, hc, Option.some_bind, hl]

/-- **Repeatable reads.**  From every reachable state where transaction `t` holds a lock
on `pid`, whatever steps the other transactions then take, `t` keeps the lock, `get_page`
hands it the same page for `pid`, and the page's bytes on disk stay as they were: no other
transaction changes the cached page or the disk bytes of a page `t` holds, and a page
loaded in between is the one `t` would have read. -/
theorem repeatable_read {files : Nat → List (BitVec 8)} {w : Bool}
    (hs : Reachable catalog files s) (hh : s.Holds t pid w)
    (hrun : Relation.ReflTransGen (fun a b => ∃ u e, u ≠ t ∧ Step catalog u e a b) s s') :
    s'.Holds t pid w ∧ pageSeen catalog s' pid = pageSeen catalog s pid ∧
      pageOf (s'.files pid.tableId) pid.pageNumber = pageOf (s.files pid.tableId) pid.pageNumber := by
  induction hrun with
  | refl => exact ⟨hh, rfl, rfl⟩
  | tail hab hbc ih =>
    obtain ⟨u, e, hu, hst⟩ := hbc
    obtain ⟨hh', hseen, hbytes⟩ := ih
    have hb := hs.of_run (hab.mono fun _ _ ⟨u, e, _, h⟩ => ⟨u, e, h⟩)
    have hF := (hb.inv.step_frame hst).1
    exact ⟨hF.holds (Ne.symm hu) hh', (hF.pageSeen_eq (Ne.symm hu) hh').trans hseen,
      (hF.bytes pid _ hh'.choose_spec.1 (Ne.symm hu)).trans hbytes⟩

/-- Transaction 1 holds page `(1, 0)` for writing while transaction 2 is granted its upgrade
of page `(2, 0)`, finds it in the cache and writes a tuple into it: transaction 1 still
sees the same page `(1, 0)`, with the same bytes on disk. -/
theorem repeatable_read_two_inserts :
    ∃ s s', Reachable (fun _ => some ⟨[.intType], ["id"]⟩) (fun _ => []) s ∧
      s.Holds 1 ⟨1, 0⟩ true ∧
      Relation.ReflTransGen
        (fun a b => ∃ u e, u ≠ 1 ∧ Step (fun _ => some ⟨[.intType], ["id"]⟩) u e a b) s s' ∧
      s'.Holds 1 ⟨1, 0⟩ true ∧
      pageSeen (fun _ => some ⟨[.intType], ["id"]⟩) s' ⟨1, 0⟩ =
        pageSeen (fun _ => some ⟨[.intType], ["id"]⟩) s ⟨1, 0⟩ ∧
      pageOf (s'.files 1) 0 = pageOf (s.files 1) 0 := by
  obtain ⟨s, page₁, page₂, lm', hs, hp₁, -, -, hp₂, ha, hc₂, hn₂⟩ := reaches_two_inserts
  obtain ⟨s₁, s₂, s₃, h₁, h₂, h₃⟩ := upgrade_insert_steps hp₂ ha hc₂ hn₂
  have hrun : Relation.ReflTransGen
      (fun a b => ∃ u e, u ≠ 1 ∧ Step (fun _ => some ⟨[.intType], ["id"]⟩) u e a b) s s₃ :=
    .tail (.tail (.single ⟨2, _, by decide, h₁⟩) ⟨2, _, by decide, h₂⟩) ⟨2, _, by decide, h₃⟩
  have hh : s.Holds 1 ⟨1, 0⟩ true := (hs.inv.phaseInv_of_eq hp₁).1
  exact ⟨s, s₃, hs, hh, hrun, repeatable_read hs hh hrun⟩

end Db

end RusticDb
