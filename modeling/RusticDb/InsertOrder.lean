/-
# Inserts in order (`heap_file.rs`, `table.rs`)

`add_tuple` writes the lowest free slot of the lowest page with one, so a table that
only ever gains tuples keeps them packed: full pages first, then one page whose taken
slots are its first `k`, then pages holding nothing (`Packed`).  A scan reads pages
`0, …, num_pages() - 1` through `get_page`, each page's taken slots in order
(`tableScan`), and `Table::scan(count)` holds the first `count` of those tuples
(`page_and_table_scan`).  On a packed table a scan meets the tuples in the order their
writes happened, over every interleaving of transactions, as long as no tuple is
deleted and no abort puts a before-image back (`scan_in_insert_order`).

Two facts about the files let the scan read the cache alone: from empty files, a page
outside the cache has zero bytes, and every cached page, and every page `read_page`
returned, lies within its file (`Layout`).
-/
import RusticDb.FirstFit
import RusticDb.Query

namespace RusticDb

namespace HeapPage

/-- The taken slots of `P` are exactly its first `k`. -/
def TakenBelow (P : HeapPage) (k : Nat) : Prop := ∀ i, getSlot P.header i = decide (i < k)

/-- Same header, tuples and slot count: everything a probe or a scan reads of a page. -/
structure SameSlots (P Q : HeapPage) : Prop where
  header : Q.header = P.header
  tuples : Q.tuples = P.tuples
  numSlots : Q.numSlots = P.numSlots

variable {P Q : HeapPage} {k : Nat}

theorem SameSlots.iterFrom (h : P.SameSlots Q) (i : Nat) : Q.iterFrom i = P.iterFrom i := by
  rw [Q.iterFrom_eq, P.iterFrom_eq, h.header, h.tuples, h.numSlots]

theorem SameSlots.takenBelow (h : P.SameSlots Q) (hP : P.TakenBelow k) : Q.TakenBelow k := by
  intro i; rw [h.header]; exact hP i

/-- The slots below `n` that are below `k` are the first `k`. -/
theorem filter_range_lt {n k : Nat} (hk : k ≤ n) :
    (List.range n).filter (fun i => decide (i < k)) = List.range k := by
  induction n with
  | zero => rw [Nat.le_zero.1 hk]; rfl
  | succ n ih =>
    rcases Nat.lt_succ_iff_lt_or_eq.1 (Nat.lt_succ_of_le hk) with hk | rfl
    · rw [List.range_succ, List.filter_append, ih (by omega)]
      simp; omega
    · exact List.filter_eq_self.2 fun i hi => by simpa using hi

/-- A page whose first `k` slots are taken yields their tuples. -/
theorem iterFrom_zero_of_takenBelow (h : P.TakenBelow k) (hk : k ≤ P.numSlots) :
    P.iterFrom 0 = (List.range k).map (P.tuples.getD · default) := by
  rw [P.iterFrom_eq 0, Nat.sub_zero, ← List.range_eq_range', List.filter_congr fun i _ => h i,
    filter_range_lt hk]

theorem getNumEmptySlots_of_takenBelow (h : P.TakenBelow k) (hk : k ≤ P.numSlots) :
    P.getNumEmptySlots = P.numSlots - k := by
  have hsum := List.length_eq_countP_add_countP (getSlot P.header) (List.range P.numSlots)
  have htaken : (List.range P.numSlots).countP (getSlot P.header) = k := by
    rw [List.countP_eq_length_filter, List.filter_congr fun i _ => h i, filter_range_lt hk,
      List.length_range]
  have hfree : (List.range P.numSlots).countP (fun i => !getSlot P.header i) =
      (List.range P.numSlots).countP (fun i => decide ¬getSlot P.header i = true) :=
    List.countP_congr fun _ _ => by simp
  rw [List.length_range] at hsum
  rw [getNumEmptySlots, hfree]
  omega

/-- `add_tuple` on a page whose first `k` slots are taken takes slot `k`, and the page
yields the new tuple last. -/
theorem addTuple_of_takenBelow (h : P.TakenBelow k) (hk : k < P.numSlots) {t : Tuple}
    {P' : HeapPage} (ha : P.addTuple t = .ok P') :
    P'.TakenBelow (k + 1) ∧ P'.iterFrom 0 = P.iterFrom 0 ++ [t] ∧ P'.numSlots = P.numSlots := by
  obtain ⟨i, hi, hfree, hmin, hh, ht, -, -, hn, -⟩ := addTuple_eq_ok ha
  have hik : i = k := by
    have h1 : ¬ i < k := by simpa [h i] using hfree
    have h2 : ¬ k < i := fun hki => by simpa [h k] using hmin k hki
    omega
  subst hik
  have hbits := getSlot_setSlot (P.div_lt_header_length hi) true
  rw [← hh] at hbits
  have hP' : P'.TakenBelow (i + 1) := fun j => by
    rw [hbits]
    split
    · next e => simp [e]
    · next e => rw [h j]; exact decide_eq_decide.2 (by omega)
  refine ⟨hP', ?_, hn⟩
  have hlen : i < P.tuples.length := P.tuples_length ▸ hi
  rw [iterFrom_zero_of_takenBelow hP' (hn ▸ hi), iterFrom_zero_of_takenBelow h hi.le,
    List.range_succ, List.map_append, ht]
  congr 1
  · refine List.map_congr_left fun j hj => ?_
    have hj : j < i := List.mem_range.1 hj
    simp only [List.getD_eq_getElem?_getD, List.getElem?_set_ne (Nat.ne_of_gt hj)]
  · simp [List.getD_eq_getElem?_getD, hlen]

end HeapPage

namespace Db

variable {catalog : Nat → Option TupleDesc} {s s' : Db} {t : Nat} {e : Effect}
  {pid : HeapPageId}

/-! ## The files under the cache -/

/-- From empty files: a page outside the cache has zero bytes, and a cached page, or a
page that `read_page` returned to a thread, lies within its file. -/
structure Layout (s : Db) : Prop where
  zero : ∀ p, s.idToPage p = none →
    pageOf (s.files p.tableId) p.pageNumber = List.replicate pageSize 0
  covered : ∀ p page, s.idToPage p = some page →
    (p.pageNumber + 1) * pageSize ≤ (s.files p.tableId).length
  loaded : ∀ u p page k, s.phase u = .loaded p page k →
    (p.pageNumber + 1) * pageSize ≤ (s.files p.tableId).length

/-- A step of `t` to phase `ph` keeps the layout when files only grow, a page that leaves
the cache's complement keeps its bytes, a newly cached page is the one `t` loaded, and
a new `loaded` phase lies within its file. -/
theorem Layout.of_step (hL : s.Layout) (ph : Phase)
    (hgrow : ∀ n, (s.files n).length ≤ (s'.files n).length)
    (hzero : ∀ p, s'.idToPage p = none → s.idToPage p = none ∧
      pageOf (s'.files p.tableId) p.pageNumber = pageOf (s.files p.tableId) p.pageNumber)
    (hcov : ∀ p page, s'.idToPage p = some page →
      (∃ page₀, s.idToPage p = some page₀) ∨ ∃ page₀ k, s.phase t = .loaded p page₀ k)
    (hp : s'.phase = Function.update s.phase t ph)
    (hph : ∀ p page k, ph = .loaded p page k →
      (p.pageNumber + 1) * pageSize ≤ (s'.files p.tableId).length) : s'.Layout where
  zero p h := by
    obtain ⟨h₀, e⟩ := hzero p h
    rw [e]; exact hL.zero p h₀
  covered p page h := by
    rcases hcov p page h with ⟨page₀, h₀⟩ | ⟨page₀, k, h₀⟩
    · exact (hL.covered p page₀ h₀).trans (hgrow _)
    · exact (hL.loaded t p page₀ k h₀).trans (hgrow _)
  loaded u p page k h := by
    rw [hp, Function.update_apply] at h
    split at h
    · exact hph p page k h
    · exact (hL.loaded u p page k h).trans (hgrow _)

/-- A step that keeps the cache and the files, moving `t` to a phase other than
`loaded`. -/
theorem Layout.move (hL : s.Layout) {ph : Phase} (hc : s'.idToPage = s.idToPage)
    (hf : s'.files = s.files) (hp : s'.phase = Function.update s.phase t ph)
    (hph : ∀ p page k, ph ≠ .loaded p page k) : s'.Layout :=
  hL.of_step ph (fun n => by rw [hf]) (fun p h => ⟨hc ▸ h, by rw [hf]⟩)
    (fun p page h => .inl ⟨page, hc ▸ h⟩) hp fun p page k e => absurd e (hph p page k)

/-- A step that replaces a cached page and moves `t` to a phase other than `loaded`. -/
theorem Layout.replace (hL : s.Layout) {ph : Phase} {P Q : HeapPage}
    (hP : s.idToPage pid = some P) (hc : s'.idToPage = Function.update s.idToPage pid (some Q))
    (hgrow : ∀ n, (s.files n).length ≤ (s'.files n).length)
    (hbytes : ∀ p, p ≠ pid →
      pageOf (s'.files p.tableId) p.pageNumber = pageOf (s.files p.tableId) p.pageNumber)
    (hp : s'.phase = Function.update s.phase t ph) (hph : ∀ p page k, ph ≠ .loaded p page k) :
    s'.Layout := by
  refine hL.of_step ph hgrow (fun p h => ?_) (fun p page h => .inl ?_) hp
    fun p page k e => absurd e (hph p page k)
  · rw [hc] at h
    have hne : p ≠ pid := by rintro rfl; simp at h
    exact ⟨by rwa [Function.update_noteq hne] at h, hbytes p hne⟩
  · rw [hc] at h
    rcases cache_update_eq_some h with ⟨rfl, -⟩ | ⟨-, h⟩
    · exact ⟨P, hP⟩
    · exact ⟨page, h⟩

/-- Replacing a file by a longer one makes no file shorter. -/
theorem length_le_update {files : Nat → List (BitVec 8)} {n : Nat} {file : List (BitVec 8)}
    (h : (files n).length ≤ file.length) (m : Nat) :
    (files m).length ≤ (Function.update files n file m).length := by
  rw [Function.update_apply]
  split
  · next e => rw [e]; exact h
  · exact le_rfl

theorem Layout.step (h : Inv catalog s) (hL : s.Layout) (hs : Step catalog t e s s') : s'.Layout := by
  cases hs with
  | readPage _ pid _ _ file page hp _ hr =>
    obtain ⟨-, hpage⟩ := readPage_spec hr
    obtain ⟨hgrow, hcov⟩ := readPage_length hr
    refine hL.of_step (.loaded pid page _) (length_le_update hgrow) (fun p hc => ⟨hc, ?_⟩)
      (fun p page hc => .inl ⟨page, hc⟩) rfl fun p _ _ e => ?_
    · dsimp only; rw [Function.update_apply]; split
      · next e => rw [e, hpage]
      · rfl
    · cases e; simpa using hcov
  | install _ pid page _ hp =>
    refine hL.of_step (.use pid page _) (fun _ => le_rfl) (fun p hc => ?_)
      (fun p page' hc => ?_) rfl fun _ _ _ e => Phase.noConfusion e
    · have hne : p ≠ pid := by rintro rfl; simp at hc
      exact ⟨by simpa [Function.update_noteq hne] using hc, rfl⟩
    · rcases cache_update_eq_some hc with ⟨rfl, rfl⟩ | ⟨-, hc⟩
      · exact .inr ⟨_, _, hp⟩
      · exact .inl ⟨page', hc⟩
  | insert _ pid page _ _ hp | delete _ pid page _ _ hp =>
    exact hL.replace (h.phaseInv_of_eq hp).2.1 rfl (fun _ => le_rfl) (fun _ _ => rfl) rfl
      fun _ _ _ => Phase.noConfusion
  | abortPage _ _ pid page _ _ _ hc =>
    exact hL.replace hc rfl (fun _ => le_rfl) (fun _ _ => rfl) rfl fun _ _ _ => Phase.noConfusion
  | commitPage _ _ pid page _ file _ _ hc _ _ hw =>
    exact hL.replace hc rfl (length_le_update (writePage_length hw))
      (fun q hq => pageOf_writePage_ne hw (h.page_pid pid page hc) hq) rfl
      fun _ _ _ => Phase.noConfusion
  | insertTuple | deleteTuple | getPage | commitTransaction | abortTransaction | fastPath
  | slowPath | granted | die | hit | miss | probeFree | probeFull | fetched | skipPage | release
  | crash =>
    exact hL.move rfl rfl rfl fun _ _ _ => Phase.noConfusion

theorem Reachable.layout {s : Db} (h : Reachable catalog (fun _ => []) s) : s.Layout := by
  induction h with
  | init => exact ⟨fun _ _ => pageOf_of_length_le (Nat.zero_le _),
      fun _ _ h => Option.noConfusion h, fun _ _ _ _ h => Phase.noConfusion h⟩
  | step hr hs ih => exact ih.step hr.inv hs

end Db

/-! ## Runs that only add tuples -/

/-- An effect that removes no tuple: no `delete_tuple`, and no abort putting a
before-image back. -/
def Effect.AddsOnly : Effect → Prop
  | .write (.delete _ _) | .restore _ => False
  | _ => True

namespace Db

variable {catalog : Nat → Option TupleDesc} {s s' : Db} {t : Nat} {e : Effect}
  {pid : HeapPageId}

/-- The tuples written into each table, in order, after one more effect. -/
def insertLog (log : Nat → List Tuple) : Effect → Nat → List Tuple
  | .write (.insert pid tuple) => Function.update log pid.tableId (log pid.tableId ++ [tuple])
  | _ => log

theorem insertLog_of_ne {log : Nat → List Tuple} (h : ∀ p tuple, e ≠ .write (.insert p tuple)) :
    insertLog log e = log := by
  cases e with
  | write op =>
    cases op with
    | insert p tuple => exact absurd rfl (h p tuple)
    | delete => rfl
  | silent | commit | restore => rfl

/-- The runs from empty files that delete nothing and put no before-image back, with
the tuples their writes put into each table, in the order of the writes. -/
inductive InsertRun (catalog : Nat → Option TupleDesc) : Db → (Nat → List Tuple) → Prop
  | init : InsertRun catalog (init fun _ => []) fun _ => []
  | step {s s' : Db} {log : Nat → List Tuple} {t : Nat} {e : Effect} :
      InsertRun catalog s log → Step catalog t e s s' → e.AddsOnly →
      InsertRun catalog s' (insertLog log e)

theorem InsertRun.reachable {log : Nat → List Tuple} (h : InsertRun catalog s log) :
    Reachable catalog (fun _ => []) s := by
  induction h with
  | init => exact .init
  | step _ hs _ ih => exact ih.step hs

/-- What a step that removes no tuple does to the cache: nothing; or it replaces a
cached page by one with the same slots; or it caches the zero page of a page outside
the cache, decoded with its table's descriptor; or it is the write of `add_tuple`.
Only the last records a tuple. -/
theorem cache_step (h : Inv catalog s) (hL : s.Layout) (hs : Step catalog t e s s')
    (he : e.AddsOnly) :
    (∀ p tuple, e ≠ .write (.insert p tuple)) ∧
      (s'.idToPage = s.idToPage ∨
        (∃ pid P Q, s.idToPage pid = some P ∧ P.SameSlots Q ∧
          s'.idToPage = Function.update s.idToPage pid (some Q)) ∨
        ∃ pid Q td, s.idToPage pid = none ∧ catalog pid.tableId = some td ∧
          HeapPage.new pid (List.replicate pageSize 0) td = some Q ∧
          s'.idToPage = Function.update s.idToPage pid (some Q)) ∨
    ∃ pid P P' tuple, e = .write (.insert pid tuple) ∧ s.phase t = .use pid P (.insert tuple) ∧
      P.addTuple tuple = .ok P' ∧
      s'.idToPage = Function.update s.idToPage pid (some (P'.markDirty true t)) := by
  cases hs with
  | install _ pid page _ hp =>
    obtain ⟨-, -, hfresh, td, hcat, hnew⟩ := h.phaseInv_of_eq hp
    refine .inl ⟨fun _ _ e => Effect.noConfusion e, ?_⟩
    rcases hfresh with hc | ⟨X, hc, hX⟩
    · rw [hL.zero pid hc] at hnew
      exact .inr (.inr ⟨pid, page, td, hc, hcat, hnew, rfl⟩)
    · obtain rfl := hX.unique ⟨td, hcat, hnew⟩
      exact .inr (.inl ⟨pid, X, X, hc, ⟨rfl, rfl, rfl⟩, rfl⟩)
  | insert _ pid page page' tuple hp ha => exact .inr ⟨pid, page, page', tuple, rfl, hp, ha, rfl⟩
  | commitPage _ _ pid page _ _ _ _ hc _ _ _ hb =>
    obtain ⟨d, -, rfl⟩ := Option.map_eq_some'.1 hb
    exact .inl ⟨fun _ _ e => Effect.noConfusion e,
      .inr (.inl ⟨pid, page, { page.markDirty false t with oldData := d }, hc, ⟨rfl, rfl, rfl⟩, rfl⟩)⟩
  | delete | abortPage => exact False.elim he
  | insertTuple | deleteTuple | getPage | commitTransaction | abortTransaction | fastPath
  | slowPath | granted | die | hit | miss | readPage | probeFree | probeFull | fetched | skipPage
  | release | crash => exact .inl ⟨fun _ _ e => Effect.noConfusion e, .inl rfl⟩

/-! ## Packed tables -/

/-- The tuples a cached page yields; a page outside the cache yields none. -/
def cachedTuples (c : HeapPageId → Option HeapPage) (pid : HeapPageId) : List Tuple :=
  ((c pid).map fun P => P.iterFrom 0).getD []

/-- The tuples of the first `n` pages of table `tableId` in the cache. -/
def cacheScan (c : HeapPageId → Option HeapPage) (tableId n : Nat) : List Tuple :=
  (List.range n).flatMap fun j => cachedTuples c ⟨tableId, j⟩

/-- Table `tableId` is packed in the cache: the pages below `m` are full, page `m` has
its first `k` slots taken and a free one (or is outside the cache, and `k = 0`), and
the later pages hold nothing. -/
structure PackedAt (c : HeapPageId → Option HeapPage) (tableId m k : Nat) : Prop where
  full : ∀ j < m, ∃ P, c ⟨tableId, j⟩ = some P ∧ P.TakenBelow P.numSlots
  last : c ⟨tableId, m⟩ = none ∧ k = 0 ∨
    ∃ P, c ⟨tableId, m⟩ = some P ∧ P.TakenBelow k ∧ k < P.numSlots
  empty : ∀ j, m < j → ∀ P, c ⟨tableId, j⟩ = some P → P.TakenBelow 0

/-- Table `tableId` holds the tuples `ts`, packed, in this order. -/
def Packed (c : HeapPageId → Option HeapPage) (tableId : Nat) (ts : List Tuple) : Prop :=
  ∃ m k, PackedAt c tableId m k ∧ cacheScan c tableId (m + 1) = ts

section Packed

variable {c c' : HeapPageId → Option HeapPage} {tableId : Nat} {ts : List Tuple}

theorem cacheScan_succ (c : HeapPageId → Option HeapPage) (tableId n : Nat) :
    cacheScan c tableId (n + 1) = cacheScan c tableId n ++ cachedTuples c ⟨tableId, n⟩ := by
  simp [cacheScan, List.range_succ]

theorem cacheScan_congr {n : Nat}
    (h : ∀ j < n, cachedTuples c' ⟨tableId, j⟩ = cachedTuples c ⟨tableId, j⟩) :
    cacheScan c' tableId n = cacheScan c tableId n := by
  induction n with
  | zero => rfl
  | succ n ih => rw [cacheScan_succ, cacheScan_succ, ih fun j hj => h j (by omega), h n (by omega)]

/-- Pages that yield nothing add nothing to a scan. -/
theorem cacheScan_of_empty {n n' : Nat} (hn : n ≤ n')
    (h : ∀ j, n ≤ j → j < n' → cachedTuples c ⟨tableId, j⟩ = []) :
    cacheScan c tableId n' = cacheScan c tableId n := by
  induction n' with
  | zero => rw [Nat.le_zero.1 hn]
  | succ n' ih =>
    rcases Nat.lt_succ_iff_lt_or_eq.1 (Nat.lt_succ_of_le hn) with hn | rfl
    · rw [cacheScan_succ, h n' (by omega) (by omega), List.append_nil,
        ih (by omega) fun j h₁ h₂ => h j h₁ (by omega)]
    · rfl

theorem cachedTuples_of_takenBelow_zero {P : HeapPage} {pid : HeapPageId} (hc : c pid = some P)
    (h : P.TakenBelow 0) : cachedTuples c pid = [] := by
  simp [cachedTuples, hc, HeapPage.iterFrom_zero_of_takenBelow h (Nat.zero_le _)]

/-- A packed table's pages past the last one yield nothing. -/
theorem PackedAt.cachedTuples_of_lt {m k : Nat} (hA : PackedAt c tableId m k) {j : Nat}
    (hj : m < j) : cachedTuples c ⟨tableId, j⟩ = [] := by
  cases hc : c ⟨tableId, j⟩ with
  | none => simp [cachedTuples, hc]
  | some P => exact cachedTuples_of_takenBelow_zero hc (hA.empty j hj P hc)

/-- The last page of a packed table, when cached, has its first `k` slots taken and a
free one. -/
theorem PackedAt.last_of_some {m k : Nat} (hA : PackedAt c tableId m k) {P : HeapPage}
    (hc : c ⟨tableId, m⟩ = some P) : P.TakenBelow k ∧ k < P.numSlots := by
  rcases hA.last with ⟨hn, -⟩ | ⟨Q, hQ, hk, hlt⟩
  · rw [hn] at hc; cases hc
  · obtain rfl : Q = P := Option.some.inj (hQ.symm.trans hc)
    exact ⟨hk, hlt⟩

theorem update_page_ne (v : Option HeapPage) {i j : Nat} (h : i ≠ j) :
    Function.update c ⟨tableId, j⟩ v ⟨tableId, i⟩ = c ⟨tableId, i⟩ :=
  Function.update_noteq (by simpa using h) _ _

/-- Replacing cached pages by pages with the same slots keeps a table packed. -/
theorem Packed.of_sameSlots (hP : Packed c tableId ts)
    (h : ∀ j, c' ⟨tableId, j⟩ = c ⟨tableId, j⟩ ∨
      ∃ P Q, c ⟨tableId, j⟩ = some P ∧ c' ⟨tableId, j⟩ = some Q ∧ P.SameSlots Q) :
    Packed c' tableId ts := by
  obtain ⟨m, k, hA, hscan⟩ := hP
  have hT : ∀ j, cachedTuples c' ⟨tableId, j⟩ = cachedTuples c ⟨tableId, j⟩ := fun j => by
    rcases h j with e | ⟨P, Q, hP, hQ, hs⟩
    · simp only [cachedTuples, e]
    · simp only [cachedTuples, hP, hQ, Option.map_some', Option.getD_some, hs.iterFrom]
  refine ⟨m, k, ⟨fun j hj => ?_, ?_, fun j hj Q hQ => ?_⟩, (cacheScan_congr fun j _ => hT j).trans hscan⟩
  · obtain ⟨P, hP, hfull⟩ := hA.full j hj
    rcases h j with e | ⟨P', Q, hP', hQ, hs⟩
    · exact ⟨P, e.trans hP, hfull⟩
    · obtain rfl : P = P' := Option.some.inj (hP.symm.trans hP')
      exact ⟨Q, hQ, hs.numSlots ▸ hs.takenBelow hfull⟩
  · rcases h m with e | ⟨P', Q, hP', hQ, hs⟩
    · rw [e]; exact hA.last
    · obtain ⟨hk, hlt⟩ := hA.last_of_some hP'
      exact .inr ⟨Q, hQ, hs.takenBelow hk, hs.numSlots ▸ hlt⟩
  · rcases h j with e | ⟨P', Q', hP', hQ', hs⟩
    · exact hA.empty j hj Q (e ▸ hQ)
    · obtain rfl : Q = Q' := Option.some.inj (hQ.symm.trans hQ')
      exact hs.takenBelow (hA.empty j hj P' hP')

/-- A cache change outside the table keeps it packed. -/
theorem Packed.of_other (hP : Packed c tableId ts) {pid : HeapPageId} {Q : HeapPage}
    (hne : pid.tableId ≠ tableId) : Packed (Function.update c pid (some Q)) tableId ts :=
  hP.of_sameSlots fun j => .inl (Function.update_noteq (fun e => hne (by rw [← e])) _ _)

/-- Caching a page that holds nothing, with slots, in place of a page outside the cache
keeps the table packed. -/
theorem Packed.cache_empty (hP : Packed c tableId ts) {j : Nat} {Q : HeapPage}
    (hc : c ⟨tableId, j⟩ = none) (hQ : Q.TakenBelow 0) (hpos : 0 < Q.numSlots) :
    Packed (Function.update c ⟨tableId, j⟩ (some Q)) tableId ts := by
  obtain ⟨m, k, hA, hscan⟩ := hP
  have upd : ∀ i, i ≠ j → Function.update c ⟨tableId, j⟩ (some Q) ⟨tableId, i⟩ = c ⟨tableId, i⟩ :=
    fun i => update_page_ne _
  have hT : ∀ i, cachedTuples (Function.update c ⟨tableId, j⟩ (some Q)) ⟨tableId, i⟩ =
      cachedTuples c ⟨tableId, i⟩ := fun i => by
    by_cases hi : i = j
    · subst hi
      rw [cachedTuples_of_takenBelow_zero (Function.update_same _ _ _) hQ]
      simp [cachedTuples, hc]
    · simp only [cachedTuples, upd i hi]
  refine ⟨m, k, ?_, (cacheScan_congr fun j _ => hT j).trans hscan⟩
  rcases lt_trichotomy j m with hj | rfl | hj
  · obtain ⟨P, hP, -⟩ := hA.full j hj
    rw [hc] at hP; cases hP
  · rcases hA.last with ⟨-, rfl⟩ | ⟨P, hP, -⟩
    · refine ⟨fun i hi => upd i (by omega) ▸ hA.full i hi,
        .inr ⟨Q, Function.update_same _ _ _, hQ, hpos⟩, fun i hi P hP => ?_⟩
      exact hA.empty i hi P (upd i (by omega) ▸ hP)
    · rw [hc] at hP; cases hP
  · refine ⟨fun i hi => upd i (by omega) ▸ hA.full i hi, ?_, fun i hi P hP => ?_⟩
    · rw [upd m (by omega)]; exact hA.last
    · by_cases e : i = j
      · subst e
        rw [Function.update_same, Option.some.injEq] at hP
        exact hP ▸ hQ
      · exact hA.empty i hi P (upd i e ▸ hP)

/-- The write of `add_tuple` on page `j` of a packed table, every page below it full and
page `j` with a free slot: `j` is the table's last page, the tuple takes the slot after
the taken ones, and the table holds the tuple last. -/
theorem Packed.write (hP : Packed c tableId ts) {j : Nat} {P P' : HeapPage} {tuple : Tuple}
    (hc : c ⟨tableId, j⟩ = some P) (hfree : 0 < P.getNumEmptySlots)
    (hbelow : ∀ i < j, ∃ Q, c ⟨tableId, i⟩ = some Q ∧ Q.getNumEmptySlots = 0)
    (hnext : ∀ Q, c ⟨tableId, j + 1⟩ = some Q → 0 < Q.numSlots)
    (ha : P.addTuple tuple = .ok P') (d : Nat) :
    Packed (Function.update c ⟨tableId, j⟩ (some (P'.markDirty true d))) tableId (ts ++ [tuple]) := by
  obtain ⟨m, k, hA, hscan⟩ := hP
  have hjm : j = m := by
    rcases lt_trichotomy j m with hj | hj | hj
    · obtain ⟨Q, hQ, hfull⟩ := hA.full j hj
      obtain rfl : Q = P := Option.some.inj (hQ.symm.trans hc)
      rw [HeapPage.getNumEmptySlots_of_takenBelow hfull le_rfl] at hfree
      omega
    · exact hj
    · obtain ⟨Q, hQ, h0⟩ := hbelow m hj
      obtain ⟨hk, hlt⟩ := hA.last_of_some hQ
      rw [HeapPage.getNumEmptySlots_of_takenBelow hk hlt.le] at h0
      omega
  subst hjm
  obtain ⟨hk, hlt⟩ := hA.last_of_some hc
  obtain ⟨hk', hiter, hnum⟩ := HeapPage.addTuple_of_takenBelow hk hlt ha
  have upd : ∀ i, i ≠ j →
      Function.update c ⟨tableId, j⟩ (some (P'.markDirty true d)) ⟨tableId, i⟩ = c ⟨tableId, i⟩ :=
    fun i => update_page_ne _
  have hsame : P'.SameSlots (P'.markDirty true d) := ⟨rfl, rfl, rfl⟩
  have hscan' : cacheScan (Function.update c ⟨tableId, j⟩ (some (P'.markDirty true d))) tableId
      (j + 1) = ts ++ [tuple] := by
    have hprefix : cacheScan (Function.update c ⟨tableId, j⟩ (some (P'.markDirty true d))) tableId j =
        cacheScan c tableId j :=
      cacheScan_congr fun i hi => by simp only [cachedTuples, upd i (Nat.ne_of_lt hi)]
    rw [cacheScan_succ, ← hscan, cacheScan_succ, hprefix]
    simp [cachedTuples, hc, hsame.iterFrom, hiter]
  rcases Nat.lt_or_ge (k + 1) P.numSlots with hlt' | hge
  · refine ⟨j, k + 1, ⟨fun i hi => upd i (by omega) ▸ hA.full i hi,
      .inr ⟨_, Function.update_same _ _ _, hsame.takenBelow hk', by simpa [hnum] using hlt'⟩,
      fun i hi Q hQ => hA.empty i hi Q (upd i (by omega) ▸ hQ)⟩, hscan'⟩
  · have hfull : (P'.markDirty true d).TakenBelow (P'.markDirty true d).numSlots := by
      simpa [hnum, show k + 1 = P.numSlots by omega] using hsame.takenBelow hk'
    refine ⟨j + 1, 0, ⟨fun i hi => ?_, ?_, fun i hi Q hQ => hA.empty i (by omega) Q
      (upd i (by omega) ▸ hQ)⟩, ?_⟩
    · rcases Nat.lt_succ_iff_lt_or_eq.1 hi with hi | rfl
      · exact upd i (by omega) ▸ hA.full i hi
      · exact ⟨_, Function.update_same _ _ _, hfull⟩
    · rw [upd (j + 1) (by omega)]
      cases hn : c ⟨tableId, j + 1⟩ with
      | none => exact .inl ⟨rfl, rfl⟩
      | some Q => exact .inr ⟨Q, rfl, hA.empty (j + 1) (by omega) Q hn, hnext Q hn⟩
    · rw [cacheScan_succ, hscan']
      simp only [cachedTuples, upd (j + 1) (by omega)]
      rw [show ((c ⟨tableId, j + 1⟩).map fun P => P.iterFrom 0).getD [] = [] from
        hA.cachedTuples_of_lt (Nat.lt_succ_self j), List.append_nil]

end Packed

/-! ## Scans meet the inserts in order -/

/-- A step of a run that only adds tuples keeps a table whose pages have slots packed,
holding the tuples written into it, in order. -/
theorem Packed.step {log : Nat → List Tuple} (hr : Reachable catalog (fun _ => []) s)
    (hs : Step catalog t e s s') (he : e.AddsOnly) {tableId : Nat} {td : TupleDesc}
    (hcat : catalog tableId = some td) (hpos : 0 < slotCount td)
    (hP : Packed s.idToPage tableId (log tableId)) :
    Packed s'.idToPage tableId (insertLog log e tableId) := by
  have hslots : ∀ (Q : HeapPage) (td' : TupleDesc), catalog tableId = some td' → Q.td = td' →
      0 < Q.numSlots := fun Q td' h htd => by
    rw [hcat, Option.some.injEq] at h
    rw [Q.numSlots_eq, htd, ← h]
    exact hpos
  rcases cache_step hr.inv hr.layout hs he with
    ⟨hne, hc | ⟨pid, P, Q, hP₀, hsame, hc⟩ | ⟨pid, Q, td', hnone, hcat', hQ, hc⟩⟩ |
      ⟨pid, P, P', tuple, rfl, hp, ha, hc⟩
  · rw [insertLog_of_ne hne, hc]
    exact hP
  · rw [insertLog_of_ne hne, hc]
    refine hP.of_sameSlots fun j => ?_
    by_cases e : (⟨tableId, j⟩ : HeapPageId) = pid
    · subst e
      exact .inr ⟨P, Q, hP₀, Function.update_same _ _ _, hsame⟩
    · exact .inl (Function.update_noteq e _ _)
  · rw [insertLog_of_ne hne, hc]
    by_cases htab : pid.tableId = tableId
    · obtain ⟨T, j⟩ := pid
      obtain rfl : tableId = T := htab.symm
      obtain ⟨htd, hfree, -⟩ := HeapPage.new_zero_eq_some hQ
      exact hP.cache_empty hnone (fun i => by simp [hfree]) (hslots _ _ hcat' htd)
    · exact hP.of_other htab
  · obtain ⟨ho, -, hc', hfree, -⟩ := add_tuple_writes_first_fit hr hp
    rw [hc]
    by_cases htab : pid.tableId = tableId
    · obtain ⟨T, j⟩ := pid
      obtain rfl : tableId = T := htab.symm
      simp only [insertLog, Function.update_same]
      exact hP.write hc' hfree (fun i hi => (ho i hi).2)
        (fun Q hQ => hslots Q _ (hr.cacheTd _ Q hQ) rfl) ha t
    · simp only [insertLog, Function.update_noteq (Ne.symm htab)]
      exact hP.of_other htab

/-- Every run that only adds tuples keeps each table whose pages have slots packed. -/
theorem InsertRun.packed {log : Nat → List Tuple} (h : InsertRun catalog s log) {tableId : Nat}
    {td : TupleDesc} (hcat : catalog tableId = some td) (hpos : 0 < slotCount td) :
    Packed s.idToPage tableId (log tableId) := by
  induction h with
  | init => exact ⟨0, 0, ⟨fun _ h => absurd h (Nat.not_lt_zero _), .inl ⟨rfl, rfl⟩,
      fun _ _ _ h => Option.noConfusion h⟩, by simp [cacheScan, cachedTuples, Db.init]⟩
  | step hr hs he ih => exact Packed.step hr.reachable hs he hcat hpos ih

/-- What `get_page` hands out for a page: the cached page, or the page `read_page`
decodes from the file. -/
def pageAt (s : Db) (td : TupleDesc) (pid : HeapPageId) : Option HeapPage :=
  match s.idToPage pid with
  | some P => some P
  | none => HeapPage.new pid (pageOf (s.files pid.tableId) pid.pageNumber) td

/-- The tuples a scan of table `tableId` meets: pages `0, …, num_pages() - 1` as
`get_page` hands them out, each page's taken slots in order (`TableIterator::new` with
a `count` that does not cut it short). -/
def tableScan (s : Db) (td : TupleDesc) (tableId : Nat) : List Tuple :=
  (List.range (numPages (s.files tableId))).flatMap fun j =>
    ((s.pageAt td ⟨tableId, j⟩).map fun P => P.iterFrom 0).getD []

/-- A page outside the cache reads as a page holding nothing, so a scan reads the cache. -/
theorem Layout.tableScan_eq (hL : s.Layout) (td : TupleDesc) (tableId : Nat) :
    s.tableScan td tableId = cacheScan s.idToPage tableId (numPages (s.files tableId)) := by
  unfold tableScan cacheScan
  congr 1
  funext j
  unfold pageAt cachedTuples
  cases hc : s.idToPage ⟨tableId, j⟩ with
  | some P => rfl
  | none =>
    obtain ⟨Q, hQ, -, -, hhdr, -⟩ := HeapPage.new_replicate_zero ⟨tableId, j⟩ td
    have hz := hL.zero ⟨tableId, j⟩ hc
    simp only [hz, hQ, Option.map_some', Option.getD_some, Option.map_none', Option.getD_none]
    rw [HeapPage.iterFrom_zero_of_takenBelow (fun i => by rw [hhdr]; simp) (Nat.zero_le _)]
    rfl

/-- Over every run from empty files that deletes nothing and puts no before-image back,
a scan of a table whose pages have slots meets the tuples written into it, in the
order of the writes. -/
theorem scan_in_insert_order {log : Nat → List Tuple} (h : InsertRun catalog s log)
    {tableId : Nat} {td : TupleDesc} (hcat : catalog tableId = some td) (hpos : 0 < slotCount td) :
    s.tableScan td tableId = log tableId := by
  have hL := h.reachable.layout
  obtain ⟨m, k, hA, hscan⟩ := h.packed hcat hpos
  rw [hL.tableScan_eq, ← hscan]
  have hcov : ∀ j P, s.idToPage ⟨tableId, j⟩ = some P → j < numPages (s.files tableId) :=
    fun j P hP => by
      have := hL.covered _ P hP
      simp only [numPages, pageSize] at this ⊢
      omega
  rcases Nat.lt_or_ge m (numPages (s.files tableId)) with hm | hm
  · exact cacheScan_of_empty hm fun j h₁ _ => hA.cachedTuples_of_lt h₁
  · have hm' : numPages (s.files tableId) = m := by
      rcases Nat.eq_zero_or_pos m with rfl | hm₀
      · omega
      · obtain ⟨P, hP, -⟩ := hA.full (m - 1) (by omega)
        have := hcov _ P hP
        omega
    have hnone : cachedTuples s.idToPage ⟨tableId, m⟩ = [] := by
      cases hc : s.idToPage ⟨tableId, m⟩ with
      | none => simp [cachedTuples, hc]
      | some P => exact absurd (hcov m P hc) (by omega)
    rw [hm', cacheScan_succ, hnone, List.append_nil]

/-- **First fit, and inserts in order.**  In every reachable state, a thread at the write
of `add_tuple` on page `pid` holds every page of the table below `pid`, each cached and
full, and holds `pid` exclusively, cached with a free slot.  The write puts the tuple
into the lowest free slot of that page, marks the page dirty by the thread and changes
nothing else; the thread's only other step is a panic.  Over every run from empty files
that deletes nothing and puts no before-image back, a scan of a table whose pages have
slots meets exactly the tuples written into it, in the order of the writes. -/
theorem add_tuple_first_fit :
    (∀ (catalog : Nat → Option TupleDesc) (files : Nat → List (BitVec 8)) s t pid page tuple,
      Reachable catalog files s → s.phase t = .use pid page (.insert tuple) →
      s.FullBelow t pid.tableId pid.pageNumber ∧ s.Holds t pid true ∧
        s.idToPage pid = some page ∧ 0 < page.getNumEmptySlots ∧
        ∃ page' i, page.addTuple tuple = .ok page' ∧ i < page.numSlots ∧
          getSlot page.header i = false ∧ (∀ j < i, getSlot page.header j = true) ∧
          page'.header = setSlot page.header i true ∧ page'.tuples = page.tuples.set i tuple ∧
          Step catalog t (.write (.insert pid tuple)) s
            { s with idToPage := Function.update s.idToPage pid (some (page'.markDirty true t))
                     phase := Function.update s.phase t .ready } ∧
          ∀ e s', Step catalog t e s s' → s' = s.setPhase t .crashed ∨
            e = .write (.insert pid tuple) ∧
            s' = { s with idToPage := Function.update s.idToPage pid (some (page'.markDirty true t))
                          phase := Function.update s.phase t .ready }) ∧
    ∀ (catalog : Nat → Option TupleDesc) s log tableId td, InsertRun catalog s log →
      catalog tableId = some td → 0 < slotCount td → s.tableScan td tableId = log tableId :=
  ⟨fun _ _ _ _ _ _ _ hs ht => add_tuple_writes_first_fit hs ht,
    fun _ _ _ _ _ h hcat hpos => scan_in_insert_order h hcat hpos⟩

/-- On a table of eight `String` columns, one slot per page, transaction 1 inserts two rows
into the empty file.  The probe of the second finds page 0 full and goes on to page 1: at
that write page 0 is cached, full and held, and page 1 is held exclusively.  A scan of the
table afterwards meets the two rows in the order of their writes. -/
theorem add_tuple_first_fit_second_page :
    (∃ s page, Reachable (fun _ => some ⟨List.replicate 8 .stringType, List.replicate 8 "s"⟩)
        (fun _ => []) s ∧
      s.phase 1 = .use ⟨1, 1⟩ page (.insert (Tuple.new
        (.stringField ⟨⟨[0x62], by decide⟩, 1#32⟩ :: List.replicate 7 (.stringField ⟨⟨[], rfl⟩, 0#32⟩))
        ⟨List.replicate 8 .stringType, List.replicate 8 "s"⟩)) ∧
      s.FullBelow 1 1 1 ∧ s.Holds 1 ⟨1, 1⟩ true) ∧
    ∃ s log, InsertRun (fun _ => some ⟨List.replicate 8 .stringType, List.replicate 8 "s"⟩) s log ∧
      s.tableScan ⟨List.replicate 8 .stringType, List.replicate 8 "s"⟩ 1 =
        [Tuple.new (List.replicate 8 (.stringField ⟨⟨[], rfl⟩, 0#32⟩))
          ⟨List.replicate 8 .stringType, List.replicate 8 "s"⟩,
         Tuple.new
          (.stringField ⟨⟨[0x62], by decide⟩, 1#32⟩ :: List.replicate 7 (.stringField ⟨⟨[], rfl⟩, 0#32⟩))
          ⟨List.replicate 8 .stringType, List.replicate 8 "s"⟩] := by
  set td : TupleDesc := ⟨List.replicate 8 .stringType, List.replicate 8 "s"⟩ with htd
  set rowA : Tuple := Tuple.new (List.replicate 8 (.stringField ⟨⟨[], rfl⟩, 0#32⟩)) td
  set rowB : Tuple := Tuple.new
    (.stringField ⟨⟨[0x62], by decide⟩, 1#32⟩ :: List.replicate 7 (.stringField ⟨⟨[], rfl⟩, 0#32⟩)) td
  have hone : slotCount td = 1 := by decide
  -- page 0 is read as a zero page, and the first row fills its one slot
  obtain ⟨file₀, Q₀, hread₀, hQ₀, -, hal₀, hpage₀⟩ :=
    readPage_of_zero_bytes (rfl : ([] : List (BitVec 8)).length % pageSize = 0) td ⟨1, 0⟩
      (pageOf_of_length_le (Nat.zero_le _))
  obtain ⟨-, hQhdr₀, hfree₀⟩ := HeapPage.new_zero_eq_some hQ₀
  obtain ⟨P₁, -, ha₁, -, -, -, -, -, hcount₁, -⟩ :=
    (Q₀.addTuple_spec (fun i _ => hQhdr₀ i) rowA).1 (by omega)
  -- page 1 is read as a zero page too, and takes the second row
  obtain ⟨file₁, Q₁, hread₁, hQ₁, -⟩ := readPage_of_zero_bytes hal₀ td ⟨1, 1⟩
    (by rw [hpage₀]; exact pageOf_of_length_le (Nat.zero_le _))
  have hfree₁ := (HeapPage.new_zero_eq_some hQ₁).2.2
  obtain ⟨P₂, ha₂⟩ := HeapPage.addTuple_isOk_of_getNumEmptySlots_pos (P := Q₁) rowB (by omega)
  have r := (InsertRun.init : InsertRun (fun _ => some td) _ _).step
    (.insertTuple 1 1 rowA rfl (by simp)) trivial
  have r := r.step (.slowPath 1 _ _ _ rfl rfl) trivial
  have r := r.step (.granted 1 _ _ _ rfl rfl) trivial
  have r := r.step (.miss 1 _ _ rfl rfl) trivial
  have r := r.step (.readPage 1 _ _ _ _ _ rfl rfl hread₀) trivial
  have r := r.step (.install 1 _ _ _ rfl) trivial
  have r := r.step (.probeFree 1 ⟨1, 0⟩ Q₀ 1 0 rowA rfl (by omega)) trivial
  have r := r.step (.slowPath 1 _ _ _ rfl rfl) trivial
  have r := r.step (.granted 1 _ _ _ rfl rfl) trivial
  have r := r.step (.hit 1 _ _ Q₀ rfl rfl) trivial
  have r := r.step (.insert 1 _ _ _ _ rfl ha₁) trivial
  -- the second insert: page 0, held exclusively, is found full
  have r := r.step (.insertTuple 1 1 rowB rfl (by simp)) trivial
  have r := r.step (.fastPath 1 _ _ _ rfl rfl) trivial
  have r := r.step (.hit 1 _ _ _ rfl rfl) trivial
  have r := r.step (.probeFull 1 _ _ 1 0 _ rfl (show P₁.getNumEmptySlots = 0 by omega)) trivial
  have r := r.step (.slowPath 1 _ _ _ rfl rfl) trivial
  have r := r.step (.granted 1 _ _ _ rfl rfl) trivial
  have r := r.step (.miss 1 _ _ rfl rfl) trivial
  have r := r.step (.readPage 1 _ _ _ _ _ rfl rfl hread₁) trivial
  have r := r.step (.install 1 _ _ _ rfl) trivial
  have r := r.step (.probeFree 1 ⟨1, 1⟩ Q₁ 1 1 rowB rfl (by omega)) trivial
  have r := r.step (.slowPath 1 _ _ _ rfl rfl) trivial
  have r := r.step (.granted 1 _ _ _ rfl rfl) trivial
  have r := r.step (.hit 1 _ _ Q₁ rfl rfl) trivial
  have r' := r.step (.insert 1 _ _ _ _ rfl ha₂) trivial
  have hw := add_tuple_first_fit.1 _ _ _ 1 ⟨1, 1⟩ Q₁ rowB r.reachable rfl
  exact ⟨⟨_, Q₁, r.reachable, rfl, hw.1, hw.2.1⟩,
    _, _, r', (add_tuple_first_fit.2 _ _ _ 1 _ r' rfl (by decide)).trans rfl⟩

end Db

end RusticDb
