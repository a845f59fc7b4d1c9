/-
# Where `HeapFile::add_tuple` puts a tuple (`heap_file.rs`)

`add_tuple` probes pages `0, 1, 2, …` of its table with `Permission::Read` until one
has an empty slot, then takes that page again with `Permission::Write` and puts the
tuple there.  A transaction keeps every lock it takes until it commits or aborts, so
while a thread probes page `n`, each page of the table below `n` stays cached, full
and locked by it (`PhaseOrder`, which every step of every thread keeps).  At the
write, the tuple therefore goes to the lowest-numbered page of the table with an empty
slot, into that page's lowest free slot, and the write changes that cache entry alone
(`add_tuple_writes_first_fit`).

The page the loop writes is not bounded by the size of the file at the call: another
transaction can fill the last page and commit first, and the probe then goes on to a
page the file did not have (`probe_passes_call_time_pages`).

Every cached page was decoded with its table's descriptor (`CacheTd`).  When the
descriptor is wider than a page, `HeapPage::new` gives every page zero slots, so no
probe finds an empty slot: `add_tuple` never writes, and its loop reads one more zero
page into the file and the cache for every page it probes (`zero_slot_table_never_inserts`,
`zero_slot_probe_unbounded`).
-/
import RusticDb.Isolation
import RusticDb.PageCodec
import RusticDb.Catalog
import Mathlib.Logic.Relation

namespace RusticDb

namespace Db

variable {catalog : Nat → Option TupleDesc} {s s' : Db} {t u : Nat} {pid : HeapPageId}

/-! ## The probe order -/

/-- Pages `0, …, n - 1` of table `tableId` are cached and full, and `t` holds a lock
on each. -/
def FullBelow (s : Db) (t tableId n : Nat) : Prop :=
  ∀ j < n, s.Holds t ⟨tableId, j⟩ false ∧
    ∃ page, s.idToPage ⟨tableId, j⟩ = some page ∧ page.getNumEmptySlots = 0

/-- Where the loop of `add_tuple` is: the probe of page `pageNo` of `tableId` is at
that page, and the pages below the page probed or written are full. -/
def ProbeOrder (s : Db) (t : Nat) (pid : HeapPageId) : Resume → Prop
  | .probe tableId pageNo _ => pid = ⟨tableId, pageNo⟩ ∧ s.FullBelow t tableId pageNo
  | .insert _ => s.FullBelow t pid.tableId pid.pageNumber
  | _ => True

/-- The probe order of a thread inside `get_page`. -/
def PhaseOrder (s : Db) (t : Nat) : Phase → Prop
  | .acquire pid _ k | .round pid _ k | .lookup pid k | .read pid k | .loaded pid _ k
  | .use pid _ k => s.ProbeOrder t pid k
  | _ => True

/-- The probe order reads only the lock table and the cache. -/
theorem phaseOrder_congr (hl : s'.lm = s.lm) (hc : s'.idToPage = s.idToPage) (ph : Phase) :
    s'.PhaseOrder t ph ↔ s.PhaseOrder t ph := by
  obtain ⟨lm, c, f, _⟩ := s
  obtain ⟨lm', c', f', _⟩ := s'
  simp only at hl hc
  subst hl hc
  cases ph <;> exact Iff.rfl

theorem phaseOrder_setPhase {ph : Phase} :
    (s.setPhase t ph).PhaseOrder t ((s.setPhase t ph).phase t) ↔ s.PhaseOrder t ph := by
  rw [setPhase_phase, Function.update_same]
  exact phaseOrder_congr rfl rfl ph

/-- The pages below stay full and locked while `t` keeps its locks and their cache
entries stay. -/
theorem FullBelow.mono {tableId n : Nat} (h : s.FullBelow t tableId n)
    (hl : ∀ p b, ⟨t, p, b⟩ ∈ s.lm.locksOn p → ∃ b' : Bool, ⟨t, p, b'⟩ ∈ s'.lm.locksOn p)
    (hc : ∀ j < n, s'.idToPage ⟨tableId, j⟩ = s.idToPage ⟨tableId, j⟩) :
    s'.FullBelow t tableId n := fun j hj => by
  obtain ⟨⟨b, hb, -⟩, page, hp, hn⟩ := h j hj
  obtain ⟨b', hb'⟩ := hl _ b hb
  exact ⟨⟨b', hb', fun e => nomatch e⟩, page, (hc j hj).trans hp, hn⟩

/-- The probe of page `n`, when page `n` is full, extends the full pages by one. -/
theorem FullBelow.succ {tableId n : Nat} {page : HeapPage} (h : s.FullBelow t tableId n)
    (hh : s.Holds t ⟨tableId, n⟩ false) (hc : s.idToPage ⟨tableId, n⟩ = some page)
    (hn : page.getNumEmptySlots = 0) : s.FullBelow t tableId (n + 1) := fun j hj => by
  rcases Nat.lt_succ_iff_lt_or_eq.1 hj with hj | rfl
  · exact h j hj
  · exact ⟨hh, page, hc, hn⟩

/-- A change of the cache at the page probed or written keeps the pages below it. -/
theorem ProbeOrder.mono {k : Resume} (h : s.ProbeOrder t pid k)
    (hl : ∀ p b, ⟨t, p, b⟩ ∈ s.lm.locksOn p → ∃ b' : Bool, ⟨t, p, b'⟩ ∈ s'.lm.locksOn p)
    (hc : ∀ q, q ≠ pid → s'.idToPage q = s.idToPage q) : s'.ProbeOrder t pid k := by
  cases k with
  | probe tableId pageNo =>
    obtain ⟨rfl, hf⟩ := h
    exact ⟨rfl, hf.mono hl fun j hj => hc _ fun e => by simp at e; omega⟩
  | insert =>
    exact FullBelow.mono h hl fun j hj => hc _ fun e =>
      absurd (congrArg HeapPageId.pageNumber e) (by simp only; omega)
  | delete | fetch => trivial

/-- A step of another transaction keeps `t`'s full pages. -/
theorem FullBelow.frame (hF : Frame catalog u s s') (ht : t ≠ u) {tableId n : Nat}
    (h : s.FullBelow t tableId n) : s'.FullBelow t tableId n := fun j hj => by
  obtain ⟨hh, page, hc, hn⟩ := h j hj
  exact ⟨hF.holds ht hh, page, hF.cache_some ht hh hc, hn⟩

/-- A step of another transaction keeps `t`'s probe order. -/
theorem PhaseOrder.frame (hF : Frame catalog u s s') (ht : t ≠ u) {ph : Phase}
    (h : s.PhaseOrder t ph) : s'.PhaseOrder t ph := by
  have key : ∀ {pid : HeapPageId} {k : Resume}, s.ProbeOrder t pid k → s'.ProbeOrder t pid k
    | _, .probe .., h => ⟨h.1, h.2.frame hF ht⟩
    | _, .insert _, h => FullBelow.frame hF ht h
    | _, .delete _, _ | _, .fetch, _ => trivial
  cases ph with
  | acquire | round | lookup | read | loaded | use => exact key h
  | ready | finishing | done | crashed => trivial

/-- A step of `t` keeps `t`'s probe order: the probe starts at page 0, moves to page
`n + 1` only past a full page `n`, and takes its write lock on the page it probed. -/
theorem PhaseOrder.step_self (h : Inv catalog s) (ho : s.PhaseOrder t (s.phase t)) {e : Effect}
    (hs : Step catalog t e s s') : s'.PhaseOrder t (s'.phase t) := by
  cases hs with
  | insertTuple =>
    simp only [setPhase_phase, Function.update_same]
    exact ⟨rfl, fun j hj => absurd hj (Nat.not_lt_zero j)⟩
  | deleteTuple | getPage | commitTransaction | abortTransaction | die | fetched | crash
  | skipPage => exact phaseOrder_setPhase.2 trivial
  | fastPath _ _ _ _ hp | slowPath _ _ _ _ hp | hit _ _ _ _ hp | miss _ _ _ hp =>
    rw [hp] at ho
    exact phaseOrder_setPhase.2 ho
  | granted _ _ _ _ hp ha =>
    rw [hp] at ho
    obtain ⟨-, -, hkeep, -⟩ := h.locks.attempt_frame ha
    simp only [Function.update_same]
    exact ProbeOrder.mono ho (fun p b hb => (hkeep p b hb).imp fun _ => And.left) fun _ _ => rfl
  | readPage _ _ _ _ _ _ hp =>
    rw [hp] at ho
    simp only [Function.update_same]
    exact (phaseOrder_congr (s := s) rfl rfl (.read _ _)).2 ho
  | install _ _ _ _ hp =>
    rw [hp] at ho
    simp only [Function.update_same]
    exact ProbeOrder.mono ho (fun _ b hb => ⟨b, hb⟩) fun _ hq => Function.update_noteq hq _ _
  | probeFree _ _ _ _ _ _ hp =>
    rw [hp] at ho
    obtain ⟨rfl, hf⟩ := ho
    exact phaseOrder_setPhase.2 hf
  | probeFull _ _ page _ _ _ hp hn =>
    have hh := (h.phaseInv_of_eq hp).1
    have hc := (h.phaseInv_of_eq hp).2.1
    rw [hp] at ho
    obtain ⟨rfl, hf⟩ := ho
    exact phaseOrder_setPhase.2 ⟨rfl, hf.succ hh hc hn⟩
  | insert | delete | commitPage | abortPage | release =>
    simp only [Function.update_same]
    trivial

/-- Every step keeps every thread's probe order. -/
theorem PhaseOrder.step (h : Inv catalog s) (ho : ∀ t, s.PhaseOrder t (s.phase t)) {e : Effect}
    (hs : Step catalog u e s s') : ∀ t, s'.PhaseOrder t (s'.phase t) := fun t => by
  by_cases htu : t = u
  · subst htu
    exact PhaseOrder.step_self h (ho t) hs
  · have hF := (h.step_frame hs).1
    rw [hF.phase t htu]
    exact (ho t).frame hF htu

theorem Reachable.phaseOrder {files : Nat → List (BitVec 8)} (h : Reachable catalog files s) :
    ∀ t, s.PhaseOrder t (s.phase t) := by
  induction h with
  | init => exact fun _ => trivial
  | step hr hs ih => exact PhaseOrder.step hr.inv ih hs

/-! ## The write of `add_tuple` -/

/-- From the write of `add_tuple`, a thread either panics or puts the tuple in its
page: `add_tuple(tuple).unwrap()` and `mark_dirty(true, tid)`. -/
theorem step_of_use_insert {page : HeapPage} {tuple : Tuple}
    (ht : s.phase t = .use pid page (.insert tuple)) {e : Effect} (hs : Step catalog t e s s') :
    s' = s.setPhase t .crashed ∨ ∃ page', page.addTuple tuple = .ok page' ∧
      e = .write (.insert pid tuple) ∧
      s' = { s with idToPage := Function.update s.idToPage pid (some (page'.markDirty true t))
                    phase := Function.update s.phase t .ready } := by
  cases hs with
  | insert _ _ _ page' _ hp ha =>
    rw [ht] at hp
    cases hp
    exact .inr ⟨page', ha, rfl, rfl⟩
  | crash => exact .inl rfl
  | _ => simp_all

/-- **First fit.**  In every reachable state, a thread at the write of `add_tuple` on
page `pid` holds every page of the table below `pid`, each cached and full, and holds
`pid` exclusively, cached with a free slot.  Its write puts the tuple in the lowest free
slot of that page, marks the page dirty by the thread, and changes nothing else; its
only other step is a panic. -/
theorem add_tuple_writes_first_fit {files : Nat → List (BitVec 8)} (hs : Reachable catalog files s)
    {page : HeapPage} {tuple : Tuple} (ht : s.phase t = .use pid page (.insert tuple)) :
    s.FullBelow t pid.tableId pid.pageNumber ∧ s.Holds t pid true ∧
      s.idToPage pid = some page ∧ 0 < page.getNumEmptySlots ∧
      ∃ page' i, page.addTuple tuple = .ok page' ∧ i < page.numSlots ∧
        getSlot page.header i = false ∧ (∀ j < i, getSlot page.header j = true) ∧
        page'.header = setSlot page.header i true ∧ page'.tuples = page.tuples.set i tuple ∧
        Step catalog t (.write (.insert pid tuple)) s
          { s with idToPage := Function.update s.idToPage pid (some (page'.markDirty true t))
                   phase := Function.update s.phase t .ready } ∧
        ∀ e s', Step catalog t e s s' → s' = s.setPhase t .crashed ∨
          e = .write (.insert pid tuple) ∧
          s' = { s with idToPage := Function.update s.idToPage pid (some (page'.markDirty true t))
                        phase := Function.update s.phase t .ready } := by
  have ho := hs.phaseOrder t
  rw [ht] at ho
  obtain ⟨hh, hc, -, P, hP, hn⟩ := hs.inv.phaseInv_of_eq ht
  rw [hc, Option.some.injEq] at hP
  subst hP
  obtain ⟨page', ha⟩ := HeapPage.addTuple_isOk_of_getNumEmptySlots_pos tuple hn
  obtain ⟨i, hi, hfree, hmin, hhdr, htup, -⟩ := HeapPage.addTuple_eq_ok ha
  refine ⟨ho, hh, hc, hn, page', i, ha, hi, hfree, hmin, hhdr, htup, .insert t pid _ _ _ ht ha,
    fun e s' hs' => ?_⟩
  rcases step_of_use_insert ht hs' with h | ⟨page'', ha', he, rfl⟩
  · exact .inl h
  · rw [ha] at ha'
    cases ha'
    exact .inr ⟨he, rfl⟩

/-! ## The descriptor of cached pages -/

/-- Every cached page was decoded with its table's descriptor. -/
def CacheTd (catalog : Nat → Option TupleDesc) (s : Db) : Prop :=
  ∀ p page, s.idToPage p = some page → catalog p.tableId = some page.td

theorem CacheTd.update {c : HeapPageId → Option HeapPage}
    (hT : ∀ p page, c p = some page → catalog p.tableId = some page.td) {P : HeapPage}
    (hP : catalog pid.tableId = some P.td) :
    ∀ p page, Function.update c pid (some P) p = some page → catalog p.tableId = some page.td :=
  fun p page hc => by
    rcases cache_update_eq_some hc with ⟨rfl, rfl⟩ | ⟨-, hc⟩
    · exact hP
    · exact hT p page hc

/-- Every step keeps the descriptors of the cache: a page enters it from `read_page`,
and the writes, the commit and the abort keep a page's descriptor. -/
theorem CacheTd.step (h : Inv catalog s) (hT : CacheTd catalog s) {e : Effect}
    (hs : Step catalog t e s s') : CacheTd catalog s' := by
  cases hs with
  | install _ _ _ _ hp =>
    obtain ⟨td, hcat, hnew⟩ := (h.phaseInv_of_eq hp).2.2.2
    exact CacheTd.update hT (by rw [(HeapPage.new_eq_some_fields hnew).2.1]; exact hcat)
  | insert _ pid page _ _ hp ha =>
    obtain ⟨-, -, -, -, -, -, -, htd, -⟩ := HeapPage.addTuple_eq_ok ha
    exact CacheTd.update hT (htd ▸ hT pid page (h.phaseInv_of_eq hp).2.1)
  | delete _ pid page _ _ hp hd =>
    obtain ⟨-, -, -, -, -, -, htd, -⟩ := HeapPage.deleteTuple_eq_ok hd
    exact CacheTd.update hT (htd ▸ hT pid page (h.phaseInv_of_eq hp).2.1)
  | commitPage _ _ pid page _ _ _ _ hc _ _ _ hb =>
    obtain ⟨d, -, rfl⟩ := Option.map_eq_some'.1 hb
    exact CacheTd.update hT (hT pid page hc)
  | abortPage _ _ pid page _ _ _ hc _ hb =>
    exact CacheTd.update hT ((HeapPage.new_eq_some_fields hb).2.1 ▸ hT pid page hc)
  | _ => exact hT

theorem Reachable.cacheTd {files : Nat → List (BitVec 8)} (h : Reachable catalog files s) :
    CacheTd catalog s := by
  induction h with
  | init => exact fun _ _ h => Option.noConfusion h
  | step hr hs ih => exact ih.step hr.inv hs

/-! ## A descriptor wider than a page -/

/-- A page decoded with a descriptor of zero slots has no empty slot. -/
theorem getNumEmptySlots_of_slotCount_zero {P : HeapPage} {td : TupleDesc} (htd : P.td = td)
    (h : slotCount td = 0) : P.getNumEmptySlots = 0 := by
  simp [HeapPage.getNumEmptySlots, P.numSlots_eq, htd, h]

/-- On a table whose descriptor gives zero slots, in every reachable state, no cached
page has an empty slot, every probe of `add_tuple` finds its page full, and no step
writes a tuple. -/
theorem zero_slot_table_never_inserts {files : Nat → List (BitVec 8)}
    (hs : Reachable catalog files s) {tableId : Nat} {td : TupleDesc}
    (hcat : catalog tableId = some td) (hzero : slotCount td = 0) :
    (∀ j page, s.idToPage ⟨tableId, j⟩ = some page → page.getNumEmptySlots = 0) ∧
    (∀ t pid page j tuple, s.phase t = .use pid page (.probe tableId j tuple) →
      page.getNumEmptySlots = 0) ∧
    ∀ t e s' j tuple, Step catalog t e s s' → e ≠ .write (.insert ⟨tableId, j⟩ tuple) := by
  have hfull : ∀ j page, s.idToPage ⟨tableId, j⟩ = some page → page.getNumEmptySlots = 0 :=
    fun j page hc => getNumEmptySlots_of_slotCount_zero
      (Option.some.inj ((hs.cacheTd _ page hc).symm.trans hcat)) hzero
  refine ⟨hfull, fun t pid page j tuple hp => ?_, ?_⟩
  · have ho := hs.phaseOrder t
    rw [hp] at ho
    obtain ⟨rfl, -⟩ := ho
    exact hfull j page (hs.inv.phaseInv_of_eq hp).2.1
  · rintro t e s' j tuple hstep rfl
    cases hstep with
    | insert _ _ page _ _ hp =>
      obtain ⟨-, -, -, P, hP, hn⟩ := hs.inv.phaseInv_of_eq hp
      exact absurd (hfull j P hP) (Nat.pos_iff_ne_zero.1 hn)

/-- The loop of `add_tuple` on a table with zero slots, run alone from empty files: for
every `n` it reaches the probe of page `n`, each probe having read one more zero page
into the file and the cache.  The pages from `n` on are still unlocked, uncached and
zero. -/
theorem zero_slot_probe_unbounded {tableId : Nat} {td : TupleDesc}
    (hcat : catalog tableId = some td) (hzero : slotCount td = 0) (t : Nat) (tuple : Tuple) :
    ∀ n, ∃ s, Reachable catalog (fun _ => []) s ∧
      s.phase t = .acquire ⟨tableId, n⟩ false (.probe tableId n tuple) ∧
      n * pageSize ≤ (s.files tableId).length ∧ (s.files tableId).length % pageSize = 0 ∧
      ∀ m, n ≤ m → s.lm.pageToLocks ⟨tableId, m⟩ = none ∧ s.idToPage ⟨tableId, m⟩ = none ∧
        pageOf (s.files tableId) m = List.replicate pageSize 0
  | 0 => ⟨_, .step .init (.insertTuple t tableId tuple rfl (by simp [hcat])),
      Function.update_same _ _ _, Nat.zero_le _, rfl,
      fun _ _ => ⟨rfl, rfl, pageOf_of_length_le (Nat.zero_le _)⟩⟩
  | n + 1 => by
    obtain ⟨s, hr, hp, -, hal, hfree⟩ := zero_slot_probe_unbounded hcat hzero t tuple n
    obtain ⟨hlock, hcache, hzeros⟩ := hfree n le_rfl
    have hf : s.lm.fastPath t ⟨tableId, n⟩ false = false := by
      refine Bool.eq_false_iff.2 fun h => ?_
      obtain ⟨S, hrep, -⟩ := hr.inv.locks.represents
      obtain ⟨b, hb, -⟩ := hrep.fastPath_holds h
      simp [LockManager.locksOn, hlock] at hb
    have ha : s.lm.attempt t ⟨tableId, n⟩ false =
        some (.granted (s.lm.insertLock t ⟨tableId, n⟩ false)) := by
      rw [LockManager.attempt, hlock]
    obtain ⟨file', Q, hread, hQ, hlen', hal', hpage⟩ :=
      readPage_of_zero_bytes hal td ⟨tableId, n⟩ hzeros
    have hn : Q.getNumEmptySlots = 0 :=
      getNumEmptySlots_of_slotCount_zero (HeapPage.new_eq_some_fields hQ).2.1 hzero
    have r := hr.step (.slowPath t _ _ _ hp hf)
    have r := r.step (.granted t _ _ _ (Function.update_same _ _ _) ha)
    have r := r.step (.miss t _ _ (Function.update_same _ _ _) hcache)
    have r := r.step (.readPage t _ _ td file' Q (Function.update_same _ _ _) hcat hread)
    have r := r.step (.install t _ _ _ (Function.update_same _ _ _))
    have r := r.step (.probeFull t _ _ tableId n tuple (Function.update_same _ _ _) hn)
    refine ⟨_, r, Function.update_same _ _ _, ?_, ?_, fun m hm => ?_⟩
    · simpa using hlen'
    · simpa using hal'
    · have hne : (⟨tableId, m⟩ : HeapPageId) ≠ ⟨tableId, n⟩ := by simp; omega
      obtain ⟨hl, hc, hz⟩ := hfree m (by omega)
      simp only [setPhase, LockManager.insertLock, Function.update_same,
        Function.update_noteq hne, hpage]
      exact ⟨hl, hc, hz⟩

/-- **A schema wider than a page makes `add_tuple` spin.**  `load_schema` accepts a table
of sixteen `String` columns, whose tuples take 4160 bytes, more than a page, so
`HeapPage::new` gives each of its pages zero slots.  No run ever writes a tuple into
the table: every probe of `add_tuple` finds its page full.  A lone `add_tuple` reaches
the probe of every page `n`, having grown the file to at least `n` pages. -/
theorem wide_schema_add_tuple_spins :
    ∃ c, Catalog.addTables [(⟨1, ⟨List.replicate 16 .stringType, List.replicate 16 "s"⟩⟩, "wide")]
        Catalog.new = some c ∧
      c.getTupleDesc 1 = some ⟨List.replicate 16 .stringType, List.replicate 16 "s"⟩ ∧
      slotCount ⟨List.replicate 16 .stringType, List.replicate 16 "s"⟩ = 0 ∧
      (∀ s, Reachable c.getTupleDesc (fun _ => []) s →
        (∀ t pid page j tuple, s.phase t = .use pid page (.probe 1 j tuple) →
          page.getNumEmptySlots = 0) ∧
        ∀ t e s' j tuple, Step c.getTupleDesc t e s s' → e ≠ .write (.insert ⟨1, j⟩ tuple)) ∧
      ∀ tuple n, ∃ s, Reachable c.getTupleDesc (fun _ => []) s ∧
        s.phase 1 = .acquire ⟨1, n⟩ false (.probe 1 n tuple) ∧ n * pageSize ≤ (s.files 1).length := by
  obtain ⟨c, hc, hcat⟩ : ∃ c, Catalog.addTables
      [(⟨1, ⟨List.replicate 16 .stringType, List.replicate 16 "s"⟩⟩, "wide")] Catalog.new = some c ∧
      c.getTupleDesc 1 = some ⟨List.replicate 16 .stringType, List.replicate 16 "s"⟩ :=
    ⟨_, rfl, rfl⟩
  have hzero : slotCount ⟨List.replicate 16 .stringType, List.replicate 16 "s"⟩ = 0 := by decide
  refine ⟨c, hc, hcat, hzero, fun s hs => (zero_slot_table_never_inserts hs hcat hzero).2,
    fun tuple n => ?_⟩
  obtain ⟨s, hs, hp, hlen, -⟩ := zero_slot_probe_unbounded hcat hzero 1 tuple n
  exact ⟨s, hs, hp, hlen⟩

/-! ## The probe and the size of the file -/

/-- **The probe passes the pages the file had at the call.**  On a table of eight
`String` columns (one slot per page), transaction 2 calls `add_tuple` on the empty file:
the file has no page.  Before its first probe, transaction 1 inserts a tuple into page 0
and commits.  Transaction 2 then finds page 0 full, reads page 1, and reaches the write
of page 1, which has a free slot. -/
theorem probe_passes_call_time_pages :
    ∃ s₀ s page, Reachable (fun _ => some ⟨List.replicate 8 .stringType, List.replicate 8 "s"⟩)
        (fun _ => []) s₀ ∧
      s₀.phase 2 = .acquire ⟨1, 0⟩ false
        (.probe 1 0 (Tuple.new [] ⟨List.replicate 8 .stringType, List.replicate 8 "s"⟩)) ∧
      numPages (s₀.files 1) = 0 ∧
      Relation.ReflTransGen (fun a b => ∃ u e, Step
        (fun _ => some ⟨List.replicate 8 .stringType, List.replicate 8 "s"⟩) u e a b) s₀ s ∧
      s.phase 2 = .use ⟨1, 1⟩ page
        (.insert (Tuple.new [] ⟨List.replicate 8 .stringType, List.replicate 8 "s"⟩)) ∧
      0 < page.getNumEmptySlots := by
  set td : TupleDesc := ⟨List.replicate 8 .stringType, List.replicate 8 "s"⟩ with htd
  set row : Tuple := Tuple.new (List.replicate 8 (.stringField ⟨⟨[], rfl⟩, 0#32⟩)) td
  have hone : slotCount td = 1 := by decide
  -- transaction 1 reads page 0, a zero page with its one slot free, and fills it
  obtain ⟨file₁, Q₀, hread₀, hQ₀, -, hal₁, hpage₁⟩ :=
    readPage_of_zero_bytes (rfl : ([] : List (BitVec 8)).length % pageSize = 0) td ⟨1, 0⟩
      (pageOf_of_length_le (Nat.zero_le _))
  obtain ⟨-, hQhdr, hfree₀⟩ := HeapPage.new_zero_eq_some hQ₀
  obtain ⟨P₁, -, ha₁, -, -, -, -, -, hcount, -⟩ :=
    (Q₀.addTuple_spec (fun i _ => hQhdr i) row).1 (by omega)
  -- its commit writes the page and keeps it as the before-image
  have hE : Encodable ⟨1, 0⟩ td P₁ :=
    (Built.add (.new hQ₀) (by unfold Tuple.Conforms; decide) ha₁).encodable
  obtain ⟨d, hd⟩ : ∃ d, P₁.getPageData = some d := ⟨_, hE.getPageData_eq⟩
  obtain ⟨hw, hal₂, hpage₂⟩ :=
    writePage_eq hal₁ (show (P₁.markDirty true 1).getPageData = some d from hd)
      (HeapPage.length_getPageData hd)
  have hb : ((P₁.markDirty true 1).markDirty false 1).setBeforeImage =
      some { (P₁.markDirty true 1).markDirty false 1 with oldData := d } := by
    have hd' : ((P₁.markDirty true 1).markDirty false 1).getPageData = some d := hd
    rw [HeapPage.setBeforeImage, hd']
    rfl
  -- transaction 2 then reads page 1, still zero bytes
  have hz : pageOf (writeAt file₁ ((P₁.markDirty true 1).pid.pageNumber * pageSize) d) 1 =
      List.replicate pageSize 0 := by
    have hpid : (P₁.markDirty true 1).pid.pageNumber = 0 := by
      rw [HeapPage.markDirty_pid, hE.pid_eq]
    rw [hpage₂, Function.update_noteq (by rw [hpid]; decide), hpage₁]
    exact pageOf_of_length_le (Nat.zero_le _)
  obtain ⟨file₃, Q₁, hread₁, hQ₁, -⟩ := readPage_of_zero_bytes hal₂ td ⟨1, 1⟩ hz
  have hfree₁ := (HeapPage.new_zero_eq_some hQ₁).2.2
  have r₀ : Reachable (fun _ => some td) (fun _ => []) _ :=
    .step .init (.insertTuple 2 1 (Tuple.new [] td) rfl (by simp))
  have g : Relation.ReflTransGen (fun a b => ∃ u e, Step (fun _ => some td) u e a b)
      ((init fun _ => []).setPhase 2 (.acquire ⟨1, 0⟩ false (.probe 1 0 (Tuple.new [] td))))
      ((init fun _ => []).setPhase 2 (.acquire ⟨1, 0⟩ false (.probe 1 0 (Tuple.new [] td)))) :=
    .refl
  have g := g.tail ⟨1, _, .insertTuple 1 1 row rfl (by simp)⟩
  have g := g.tail ⟨1, _, .slowPath 1 _ _ _ rfl rfl⟩
  have g := g.tail ⟨1, _, .granted 1 _ _ _ rfl rfl⟩
  have g := g.tail ⟨1, _, .miss 1 _ _ rfl rfl⟩
  have g := g.tail ⟨1, _, .readPage 1 _ _ _ _ _ rfl rfl hread₀⟩
  have g := g.tail ⟨1, _, .install 1 _ _ _ rfl⟩
  have g := g.tail ⟨1, _, .probeFree 1 _ _ 1 0 _ rfl (by omega)⟩
  have g := g.tail ⟨1, _, .slowPath 1 _ _ _ rfl rfl⟩
  have g := g.tail ⟨1, _, .granted 1 _ _ _ rfl rfl⟩
  have g := g.tail ⟨1, _, .hit 1 _ _ Q₀ rfl rfl⟩
  have g := g.tail ⟨1, _, .insert 1 _ _ _ _ rfl ha₁⟩
  have g := g.tail ⟨1, _, .commitTransaction 1 rfl⟩
  have g := g.tail ⟨1, _, .commitPage 1 [⟨1, 0⟩] ⟨1, 0⟩ _ _ _ rfl (List.mem_singleton_self _) rfl
    rfl (by simp) hw hb⟩
  have g := g.tail ⟨1, _, .release 1 true rfl rfl⟩
  have g := g.tail ⟨2, _, .slowPath 2 _ _ _ rfl rfl⟩
  have g := g.tail ⟨2, _, .granted 2 _ _ _ rfl rfl⟩
  have g := g.tail ⟨2, _, .hit 2 _ _ _ rfl rfl⟩
  have g := g.tail ⟨2, _, .probeFull 2 _ _ 1 0 _ rfl (show P₁.getNumEmptySlots = 0 by omega)⟩
  have g := g.tail ⟨2, _, .slowPath 2 _ _ _ rfl rfl⟩
  have g := g.tail ⟨2, _, .granted 2 _ _ _ rfl rfl⟩
  have g := g.tail ⟨2, _, .miss 2 _ _ rfl rfl⟩
  have g := g.tail ⟨2, _, .readPage 2 _ _ _ _ _ rfl rfl hread₁⟩
  have g := g.tail ⟨2, _, .install 2 _ _ _ rfl⟩
  have g := g.tail ⟨2, _, .probeFree 2 _ _ 1 1 _ rfl (by omega)⟩
  have g := g.tail ⟨2, _, .slowPath 2 _ _ _ rfl rfl⟩
  have g := g.tail ⟨2, _, .granted 2 _ _ _ rfl rfl⟩
  have g := g.tail ⟨2, _, .hit 2 _ _ Q₁ rfl rfl⟩
  exact ⟨_, _, Q₁, r₀, rfl, show numPages [] = 0 by decide, g, rfl, by omega⟩

end Db

end RusticDb
