/-
# The transactions' writes are serial in commit order (`buffer_pool.rs`, `heap_file.rs`)

Every write of a transaction is an `add_tuple` or a `delete_tuple` on one page it
holds exclusively (`Op`).  A run builds a `History` beside the code's state: each
transaction's writes so far, and the log of the transactions whose
`commit_transaction` has begun, in that order, each with its writes.  The serial
content of a page (`serialContent`) is its content in the initial files with the
logged writes applied one transaction after the other.

`SerialInv` is what every run keeps, page by page (`PageAgrees`).  A clean cached page
holds the serial content, and so does the disk.  A page dirtied by `t` holds the
serial content with `t`'s own uncommitted writes applied; on disk it has the serial
content, except that a page whose commit has begun but that `commit_transaction` has
not yet written lacks that commit's writes.  Uncommitted writes sit only in pages
their writer dirtied (`owner`).

The theorem assumes two things of the run (`Sound`), and one of the initial files.
An inserted tuple is well formed for its table (`Tuple.Conforms`): a value of each
column's type, each string's `len` its byte length and at most `STRING_SIZE`.
`add_tuple` does not check, and a tuple that is not is stored with other bytes.  A page that `abort_transaction`
puts back holds the content on disk: `HeapPage::new` starts every before-image at
zeros, so an abort puts back the content on disk only where that is what the
before-image holds.  The initial files hold pages the engine can write
(`FilesConform`).
-/
import RusticDb.Isolation
import RusticDb.PageCodec

namespace RusticDb

/-- The content of a page, slot by slot (`HeapPage.content`). -/
abbrev PageContent := List (Option (List FieldVal))

/-! ## Writes -/

/-- The content a write leaves: `add_tuple` fills the first free slot with the tuple's
values, `delete_tuple` frees the slot the tuple's record id names. -/
def Op.apply : Op → PageContent → PageContent
  | .insert _ tuple, c => insertFirst tuple.fields c
  | .delete _ tuple, c => c.set tuple.rid.tupleNo none

/-- The writes of `ops` to page `pid`, in order. -/
def opsOn (pid : HeapPageId) (ops : List Op) : List Op := ops.filter fun op => op.pid = pid

/-- The content `c` of page `pid` after the writes of `ops`, one after the other. -/
def applyOps (pid : HeapPageId) (ops : List Op) (c : PageContent) : PageContent :=
  (opsOn pid ops).foldl (fun c op => op.apply c) c

section Writes

variable {pid q : HeapPageId} {ops : List Op} {op : Op}

@[simp] theorem applyOps_nil (pid : HeapPageId) (c : PageContent) : applyOps pid [] c = c := rfl

theorem applyOps_append (pid : HeapPageId) (a b : List Op) (c : PageContent) :
    applyOps pid (a ++ b) c = applyOps pid b (applyOps pid a c) := by
  simp only [applyOps, opsOn, List.filter_append, List.foldl_append]

theorem applyOps_of_opsOn_eq_nil (h : opsOn pid ops = []) (c : PageContent) :
    applyOps pid ops c = c := by
  rw [applyOps, h, List.foldl_nil]

theorem map_applyOps_of_opsOn_eq_nil (h : opsOn pid ops = []) (x : Option PageContent) :
    x.map (applyOps pid ops) = x := by
  cases x <;> simp [applyOps_of_opsOn_eq_nil h]

theorem applyOps_congr {ops' : List Op} (h : opsOn pid ops' = opsOn pid ops) :
    applyOps pid ops' = applyOps pid ops := by
  funext c; rw [applyOps, h, applyOps]

/-- A write to `pid` comes last among the writes to `pid`. -/
theorem applyOps_write (h : op.pid = pid) (ops : List Op) (c : PageContent) :
    applyOps pid (ops ++ [op]) c = op.apply (applyOps pid ops c) := by
  rw [applyOps_append]
  simp [applyOps, opsOn, h]

theorem applyOps_snoc (h : op.pid = pid) (ops : List Op) :
    applyOps pid (ops ++ [op]) = op.apply ∘ applyOps pid ops :=
  funext (applyOps_write h ops)

theorem opsOn_write_ne (h : op.pid ≠ q) (ops : List Op) : opsOn q (ops ++ [op]) = opsOn q ops := by
  simp [opsOn, List.filter_append, h]

theorem opsOn_filter_ne (hq : q ≠ pid) (ops : List Op) :
    opsOn q (ops.filter fun op => op.pid ≠ pid) = opsOn q ops := by
  simp only [opsOn, List.filter_filter]
  congr
  funext op
  by_cases e : op.pid = q <;> simp [e, hq]

theorem opsOn_filter_self (pid : HeapPageId) (ops : List Op) :
    opsOn pid (ops.filter fun op => op.pid ≠ pid) = [] := by
  simp only [opsOn, List.filter_filter, List.filter_eq_nil_iff]
  intro op _
  by_cases e : op.pid = pid <;> simp [e]

end Writes

/-! ## The history a run builds -/

/-- The transactions whose commit has begun, in that order, each with its writes
(`log`), and the writes of every transaction that are in no log entry (`ops`). -/
structure History where
  log : List (Nat × List Op)
  ops : Nat → List Op

namespace History

/-- Nothing written. -/
def empty : History := ⟨[], fun _ => []⟩

/-- The history after a step of `t` with effect `e`: a write joins `t`'s writes, the
start of a commit moves them to the log, and an abort's restore of `pid` drops `t`'s
writes to `pid`. -/
def record (h : History) (t : Nat) : Effect → History
  | .silent => h
  | .write op => ⟨h.log, Function.update h.ops t (h.ops t ++ [op])⟩
  | .commit => ⟨h.log ++ [(t, h.ops t)], Function.update h.ops t []⟩
  | .restore pid => ⟨h.log, Function.update h.ops t ((h.ops t).filter fun op => op.pid ≠ pid)⟩

/-- The logged writes, in commit order. -/
def committed (h : History) : List Op := h.log.flatMap Prod.snd

/-- The logged writes of `t`. -/
def committedBy (h : History) (t : Nat) : List Op :=
  (h.log.filter fun e => e.1 = t).flatMap Prod.snd

/-- `t`'s commit has begun. -/
def HasCommitted (h : History) (t : Nat) : Prop := t ∈ h.log.map Prod.fst

variable {h : History} {t u : Nat}

theorem committedBy_eq_nil (ht : ¬h.HasCommitted t) : h.committedBy t = [] := by
  simp only [committedBy, List.flatMap_eq_nil_iff, List.mem_filter, decide_eq_true_eq]
  rintro ⟨u, ops⟩ ⟨he, rfl⟩
  exact absurd (List.mem_map_of_mem Prod.fst he) ht

theorem committed_commit : (h.record t .commit).committed = h.committed ++ h.ops t := by
  simp [record, committed]

theorem committedBy_commit (u : Nat) :
    (h.record t .commit).committedBy u = h.committedBy u ++ if u = t then h.ops t else [] := by
  by_cases e : u = t
  · subst e; simp [record, committedBy, List.filter_append]
  · simp [record, committedBy, List.filter_append, e, Ne.symm e]

theorem hasCommitted_commit : (h.record t .commit).HasCommitted u ↔ h.HasCommitted u ∨ u = t := by
  simp [record, HasCommitted]

end History

/-! ## Phases of a commit -/

/-- `t`'s commit has begun and is being written back. -/
def Phase.Committing : Phase → Prop
  | .finishing true _ => True
  | _ => False

/-- A phase a transaction can be in once its commit has begun. -/
def Phase.AfterCommit : Phase → Prop
  | .finishing true _ | .done | .crashed => True
  | _ => False

namespace Db

variable (catalog : Nat → Option TupleDesc)

/-- The content of `pid` on disk: that of the page `read_page` decodes from the table's
file now (`none` for a table the catalog does not have, or bytes that do not
decode). -/
def diskContent (s : Db) (pid : HeapPageId) : Option PageContent :=
  (catalog pid.tableId).bind fun td =>
    (HeapPage.new pid (pageOf (s.files pid.tableId) pid.pageNumber) td).map HeapPage.content

/-- The content of `pid` in the serial order: its content in the initial files with the
logged writes applied, one transaction after the other. -/
def serialContent (files : Nat → List (BitVec 8)) (h : History) (pid : HeapPageId) :
    Option PageContent :=
  ((init files).diskContent catalog pid).map (applyOps pid h.committed)

/-- The files hold pages the engine can write: every page that decodes has well-formed
values of its table's column types (`ContentConforms`). -/
def FilesConform (files : Nat → List (BitVec 8)) : Prop :=
  ∀ pid td P, catalog pid.tableId = some td →
    HeapPage.new pid (pageOf (files pid.tableId) pid.pageNumber) td = some P →
    ContentConforms P.content td

/-- What the theorem assumes of a step: an inserted tuple is well formed for its table
(`Tuple.Conforms`), and a page an abort puts back holds the content on disk. -/
def Sound (s : Db) : Effect → Prop
  | .write (.insert pid tuple) => ∀ td, catalog pid.tableId = some td → tuple.Conforms td
  | .restore pid => ∀ page before, s.idToPage pid = some page → page.getBeforeImage = some before →
      some before.content = s.diskContent catalog pid
  | _ => True

/-- The runs from `files` whose steps are sound, with the history each builds. -/
inductive Run (files : Nat → List (BitVec 8)) : Db → History → Prop
  | init : Run files (init files) .empty
  | step {s s' : Db} {h : History} {t : Nat} {e : Effect} :
      Run files s h → Step catalog t e s s' → s.Sound catalog e → Run files s' (h.record t e)

/-! ## The invariant -/

/-- Page `pid` agrees with the serial order: in the cache, on disk, and in where the
uncommitted writes to it sit. -/
structure PageAgrees (files : Nat → List (BitVec 8)) (s : Db) (h : History) (pid : HeapPageId) :
    Prop where
  clean : ∀ page, s.idToPage pid = some page → page.dirtiedBy = none →
    some page.content = serialContent catalog files h pid
  dirty : ∀ page t, s.idToPage pid = some page → page.dirtiedBy = some t →
    some page.content = (serialContent catalog files h pid).map (applyOps pid (h.ops t)) ∧
    (s.diskContent catalog pid).map (applyOps pid (h.committedBy t)) =
      serialContent catalog files h pid
  disk : (∀ page, s.idToPage pid = some page → page.dirtiedBy = none) →
    s.diskContent catalog pid = serialContent catalog files h pid
  owner : ∀ t, opsOn pid (h.ops t) ≠ [] →
    ∃ page, s.idToPage pid = some page ∧ page.dirtiedBy = some t
  conforms : ∀ page td, s.idToPage pid = some page → catalog pid.tableId = some td →
    page.td = td ∧ ContentConforms page.content td

/-- The invariant of the runs. -/
structure SerialInv (files : Nat → List (BitVec 8)) (s : Db) (h : History) : Prop where
  page : ∀ pid, PageAgrees catalog files s h pid
  after_commit : ∀ t, h.HasCommitted t → (s.phase t).AfterCommit
  committing : ∀ t, (s.phase t).Committing → h.HasCommitted t
  committed_ops : ∀ t, h.HasCommitted t → h.ops t = []
  files_conform : FilesConform catalog s.files

variable {catalog} {files : Nat → List (BitVec 8)} {s s' : Db} {h h' : History} {t : Nat}
  {pid : HeapPageId}

theorem Run.reachable (hr : Run catalog files s h) :
    Reachable catalog files s := by
  induction hr with
  | init => exact .init
  | step _ hs _ ih => exact .step ih hs

theorem diskContent_of_new {td : TupleDesc} {P : HeapPage} (hc : catalog pid.tableId = some td)
    (hn : HeapPage.new pid (pageOf (s.files pid.tableId) pid.pageNumber) td = some P) :
    s.diskContent catalog pid = some P.content := by
  simp [diskContent, hc, hn]

theorem diskContent_congr (hf : ∀ n, pageOf (s'.files n) = pageOf (s.files n)) :
    s'.diskContent catalog = s.diskContent catalog := by
  funext pid; simp only [diskContent, hf]

theorem FilesConform.congr (hF : FilesConform catalog s.files)
    (hf : ∀ n, pageOf (s'.files n) = pageOf (s.files n)) : FilesConform catalog s'.files := by
  intro pid td P hc hn
  rw [hf] at hn
  exact hF pid td P hc hn

theorem serialContent_congr (hl : h'.log = h.log) :
    serialContent catalog files h' = serialContent catalog files h := by
  funext pid; simp only [serialContent, History.committed, hl]

theorem serialContent_commit (pid : HeapPageId) :
    serialContent catalog files (h.record t .commit) pid =
      (serialContent catalog files h pid).map (applyOps pid (h.ops t)) := by
  simp only [serialContent, History.committed_commit, Option.map_map]
  congr 1
  funext c
  exact applyOps_append pid _ _ c

/-- What a page agrees with is read through the writes to that page alone. -/
theorem PageAgrees.congr (hA : PageAgrees catalog files s h pid)
    (hc : s'.idToPage pid = s.idToPage pid)
    (hd : s'.diskContent catalog pid = s.diskContent catalog pid)
    (hS : serialContent catalog files h' pid = serialContent catalog files h pid)
    (hops : ∀ u, applyOps pid (h'.ops u) = applyOps pid (h.ops u))
    (hcb : ∀ u, applyOps pid (h'.committedBy u) = applyOps pid (h.committedBy u))
    (hown : ∀ u, opsOn pid (h'.ops u) ≠ [] → opsOn pid (h.ops u) ≠ []) :
    PageAgrees catalog files s' h' pid where
  clean page hp hd' := by rw [hS]; exact hA.clean page (hc ▸ hp) hd'
  dirty page u hp hd' := by rw [hS, hops, hcb, hd]; exact hA.dirty page u (hc ▸ hp) hd'
  disk hall := by rw [hd, hS]; exact hA.disk fun page hp => hall page (hc ▸ hp)
  owner u hu := by rw [hc]; exact hA.owner u (hown u hu)
  conforms page td hp := hA.conforms page td (hc ▸ hp)

/-- A page whose cache entry, disk bytes and writes stay as they are. -/
theorem PageAgrees.of_same (hA : PageAgrees catalog files s h pid)
    (hc : s'.idToPage pid = s.idToPage pid)
    (hd : s'.diskContent catalog pid = s.diskContent catalog pid) (hl : h'.log = h.log)
    (hops : ∀ u, opsOn pid (h'.ops u) = opsOn pid (h.ops u)) : PageAgrees catalog files s' h' pid :=
  hA.congr hc hd (by rw [serialContent_congr hl]) (fun u => applyOps_congr (hops u))
    (fun u => by simp only [History.committedBy, hl]) (fun u => by rw [hops u]; exact id)

/-- The agreement of a cached page, read off the entry. -/
theorem PageAgrees.of_entry {P : HeapPage} (hc : s.idToPage pid = some P)
    (clean : P.dirtiedBy = none → some P.content = serialContent catalog files h pid)
    (dirty : ∀ t, P.dirtiedBy = some t →
      some P.content = (serialContent catalog files h pid).map (applyOps pid (h.ops t)) ∧
      (s.diskContent catalog pid).map (applyOps pid (h.committedBy t)) =
        serialContent catalog files h pid)
    (disk : P.dirtiedBy = none → s.diskContent catalog pid = serialContent catalog files h pid)
    (owner : ∀ t, opsOn pid (h.ops t) ≠ [] → P.dirtiedBy = some t)
    (conforms : ∀ td, catalog pid.tableId = some td → P.td = td ∧ ContentConforms P.content td) :
    PageAgrees catalog files s h pid where
  clean page hp hd := by rw [hc, Option.some.injEq] at hp; subst hp; exact clean hd
  dirty page t hp hd := by rw [hc, Option.some.injEq] at hp; subst hp; exact dirty t hd
  disk hall := disk (hall P hc)
  owner t ht := ⟨P, hc, owner t ht⟩
  conforms page td hp := by rw [hc, Option.some.injEq] at hp; subst hp; exact conforms td

/-- A transaction with writes to a cached page is the one that dirtied it. -/
theorem PageAgrees.dirtiedBy_of_ops (hA : PageAgrees catalog files s h pid) {P : HeapPage}
    (hc : s.idToPage pid = some P) {u : Nat} (hu : opsOn pid (h.ops u) ≠ []) :
    P.dirtiedBy = some u := by
  obtain ⟨X, hX, hXd⟩ := hA.owner u hu
  obtain rfl := Option.some.inj (hc.symm.trans hX)
  exact hXd

theorem FilesConform.diskContent {td : TupleDesc} {c : PageContent}
    (hF : FilesConform catalog s.files) (hcat : catalog pid.tableId = some td)
    (hd : s.diskContent catalog pid = some c) : ContentConforms c td := by
  simp only [Db.diskContent, hcat, Option.some_bind] at hd
  obtain ⟨Q, hQ, rfl⟩ := Option.map_eq_some'.1 hd
  exact hF pid td Q hcat hQ

/-- The bytes of every page after `write_page` of `pid` with data `d`. -/
theorem pageOf_update_file {fs : Nat → List (BitVec 8)} {file d : List (BitVec 8)}
    (hfile : pageOf file = Function.update (pageOf (fs pid.tableId)) pid.pageNumber d)
    (q : HeapPageId) :
    pageOf (Function.update fs pid.tableId file q.tableId) q.pageNumber =
      if q = pid then d else pageOf (fs q.tableId) q.pageNumber := by
  rw [Function.update_apply]
  split
  · next e =>
    rw [e, hfile, Function.update_apply]
    by_cases hq : q = pid
    · rw [if_pos (by rw [hq]), if_pos hq]
    · rw [if_neg fun hn => hq (by cases q; cases pid; simp_all), if_neg hq]
  · next e => rw [if_neg fun hq => e (by rw [hq])]

namespace SerialInv

variable (hI : SerialInv catalog files s h)
include hI

theorem not_committed (hp : ¬(s.phase t).AfterCommit) : ¬h.HasCommitted t :=
  fun hc => hp (hI.after_commit t hc)

/-- A page a transaction holds a lock on shows it the serial content with its own
writes, and no other transaction's. -/
theorem held_content (hInv : Inv catalog s) {P : HeapPage} {b : Bool}
    (hc : s.idToPage pid = some P) (hl : ⟨t, pid, b⟩ ∈ s.lm.locksOn pid) :
    some P.content = (serialContent catalog files h pid).map (applyOps pid (h.ops t)) := by
  have hA := hI.page pid
  cases hd : P.dirtiedBy with
  | none =>
    have hown : opsOn pid (h.ops t) = [] := by
      by_contra hne
      exact Option.noConfusion ((hA.dirtiedBy_of_ops hc hne).symm.trans hd)
    rw [hA.clean P hc hd, map_applyOps_of_opsOn_eq_nil hown]
  | some d =>
    have := hInv.holder_of_dirty hc (by simp [HeapPage.isDirty, hd]) hl
    rw [hd, Option.some.injEq] at this
    subst this
    exact (hA.dirty P _ hc hd).1

/-- A page that a transaction whose commit has not begun holds has the serial content
on disk. -/
theorem held_disk (hInv : Inv catalog s) {P : HeapPage} {b : Bool}
    (hc : s.idToPage pid = some P) (hl : ⟨t, pid, b⟩ ∈ s.lm.locksOn pid) (hnc : ¬h.HasCommitted t) :
    s.diskContent catalog pid = serialContent catalog files h pid := by
  have hA := hI.page pid
  cases hd : P.dirtiedBy with
  | none => exact hA.disk fun page hp => by rw [hc, Option.some.injEq] at hp; rwa [← hp]
  | some d =>
    have := hInv.holder_of_dirty hc (by simp [HeapPage.isDirty, hd]) hl
    rw [hd, Option.some.injEq] at this
    subst this
    have h2 := (hA.dirty P _ hc hd).2
    rwa [History.committedBy_eq_nil hnc,
      map_applyOps_of_opsOn_eq_nil (show opsOn pid [] = [] from rfl)] at h2

/-- Moving `t` to `ph` keeps every transaction whose commit has begun past its start. -/
theorem after_commit_update {ph : Phase} (hph : s'.phase = Function.update s.phase t ph)
    (hl : h'.log = h.log) (hac : h.HasCommitted t → ph.AfterCommit) (u : Nat)
    (hu : h'.HasCommitted u) : (s'.phase u).AfterCommit := by
  rw [History.HasCommitted, hl] at hu
  rw [hph, Function.update_apply]
  split
  · next e => exact hac (e ▸ hu)
  · exact hI.after_commit u hu

/-- Moving `t` to `ph` starts no commit that is not in the log. -/
theorem committing_update {ph : Phase} (hph : s'.phase = Function.update s.phase t ph)
    (hl : h'.log = h.log) (hcm : ph.Committing → h.HasCommitted t) (u : Nat)
    (hu : (s'.phase u).Committing) : h'.HasCommitted u := by
  rw [History.HasCommitted, hl]
  rw [hph, Function.update_apply] at hu
  split at hu
  · next e => subst e; exact hcm hu
  · exact hI.committing u hu

/-- A step that keeps the cache and the disk and moves one transaction's phase. -/
theorem move {ph : Phase} (hc : s'.idToPage = s.idToPage)
    (hf : ∀ n, pageOf (s'.files n) = pageOf (s.files n)) (hph : s'.phase = Function.update s.phase t ph)
    (hac : h.HasCommitted t → ph.AfterCommit) (hcm : ph.Committing → h.HasCommitted t) :
    SerialInv catalog files s' h where
  page pid := (hI.page pid).of_same (by rw [hc]) (by rw [diskContent_congr hf]) rfl fun _ => rfl
  after_commit := hI.after_commit_update hph rfl hac
  committing := hI.committing_update hph rfl hcm
  committed_ops := hI.committed_ops
  files_conform := hI.files_conform.congr hf

/-- The common case: a transaction whose commit has not begun moves to a phase that is
not a commit's. -/
theorem move_uncommitted {ph : Phase} (hc : s'.idToPage = s.idToPage)
    (hf : ∀ n, pageOf (s'.files n) = pageOf (s.files n)) (hph : s'.phase = Function.update s.phase t ph)
    (hold : ¬(s.phase t).AfterCommit) (hnew : ¬ph.Committing) : SerialInv catalog files s' h :=
  hI.move hc hf hph (fun hc => absurd hc (hI.not_committed hold)) (fun hm => absurd hm hnew)

/-- A step that changes the cache entry of `pid`, the disk at `pid` and the writes to
`pid` alone, and moves one transaction's phase, keeps every other page's agreement. -/
theorem update {P : HeapPage} {ph : Phase}
    (hc : s'.idToPage = Function.update s.idToPage pid (some P))
    (hd : ∀ q, q ≠ pid → s'.diskContent catalog q = s.diskContent catalog q)
    (hfc : FilesConform catalog s'.files) (hl : h'.log = h.log)
    (hops : ∀ u q, q ≠ pid → opsOn q (h'.ops u) = opsOn q (h.ops u))
    (hph : s'.phase = Function.update s.phase t ph)
    (hac : h.HasCommitted t → ph.AfterCommit) (hcm : ph.Committing → h.HasCommitted t)
    (hco : h.HasCommitted t → h'.ops t = []) (hother : ∀ u, u ≠ t → h'.ops u = h.ops u)
    (hpid : PageAgrees catalog files s' h' pid) : SerialInv catalog files s' h' where
  page q := by
    by_cases hq : q = pid
    · exact hq ▸ hpid
    · exact (hI.page q).of_same (by rw [hc, Function.update_noteq hq]) (hd q hq) hl
        fun u => hops u q hq
  after_commit := hI.after_commit_update hph hl hac
  committing := hI.committing_update hph hl hcm
  committed_ops u hu := by
    rw [History.HasCommitted, hl] at hu
    by_cases e : u = t
    · subst e; exact hco hu
    · rw [hother u e]; exact hI.committed_ops u hu
  files_conform := hfc

/-- `id_to_page.insert(pid, page)` of the page `read_page` decoded. -/
theorem install {k : Resume} {page : HeapPage} (hInv : Inv catalog s)
    (hp : s.phase t = .loaded pid page k) :
    SerialInv catalog files { s with idToPage := Function.update s.idToPage pid (some page)
                                     phase := Function.update s.phase t (.use pid page k) } h := by
  obtain ⟨-, -, hfresh, td, hcat, hnew⟩ := hInv.phaseInv_of_eq hp
  obtain ⟨-, htd, hclean, -⟩ := HeapPage.new_eq_some_fields hnew
  have hA := hI.page pid
  have hnc := hI.not_committed (t := t) (by rw [hp]; exact id)
  refine hI.update rfl (fun _ _ => rfl) hI.files_conform rfl (fun _ _ _ => rfl) rfl
    (fun hc => absurd hc hnc) False.elim (fun hc => absurd hc hnc) (fun _ _ => rfl) ?_
  rcases hfresh with hnone | ⟨X, hX, hXl⟩
  · have hdisk := hA.disk fun page hp => by rw [hnone] at hp; cases hp
    refine .of_entry (Function.update_same pid _ s.idToPage)
      (fun _ => by rw [← hdisk, diskContent_of_new hcat hnew])
      (fun u hd => by rw [hclean] at hd; cases hd) (fun _ => hdisk) (fun u hu => ?_)
      fun td' hcat' => ?_
    · obtain ⟨_, hp', -⟩ := hA.owner u hu
      rw [hnone] at hp'
      cases hp'
    · rw [hcat, Option.some.injEq] at hcat'
      subst hcat'
      exact ⟨htd, hI.files_conform pid td _ hcat hnew⟩
  · have e : X = page := hXl.unique ⟨td, hcat, hnew⟩
    subst e
    exact hA.of_same (by simp [hX]) rfl rfl fun _ => rfl

/-- The write of `add_tuple` or `delete_tuple`: `t` replaces the page it holds by one
whose content is the write applied, dirtied by `t`. -/
theorem write {k : Resume} {P P' : HeapPage} {op : Op} (hInv : Inv catalog s)
    (hp : s.phase t = .use pid P k) (hk : k.write = true) (hop : op.pid = pid)
    (hcontent : P'.content = op.apply P.content) (htd : P'.td = P.td)
    (hconf : ∀ td, catalog pid.tableId = some td → ContentConforms P.content td →
      ContentConforms P'.content td) :
    SerialInv catalog files
      { s with idToPage := Function.update s.idToPage pid (some (P'.markDirty true t))
               phase := Function.update s.phase t .ready } (h.record t (.write op)) := by
  obtain ⟨⟨b, hb, hbw⟩, hc, -⟩ := hInv.phaseInv_of_eq hp
  have hx : ⟨t, pid, true⟩ ∈ s.lm.locksOn pid := by rwa [← hbw hk]
  have hnc := hI.not_committed (t := t) (by rw [hp]; exact id)
  have hcont := hI.held_content hInv hc hx
  have hdisk := hI.held_disk hInv hc hx hnc
  have hA := hI.page pid
  have hopsT : (h.record t (.write op)).ops t = h.ops t ++ [op] := Function.update_same _ _ _
  have hopsU : ∀ u, u ≠ t → (h.record t (.write op)).ops u = h.ops u :=
    fun u hu => Function.update_noteq hu _ _
  refine hI.update rfl (fun _ _ => rfl) hI.files_conform rfl (fun u q hq => ?_) rfl
    (fun hc => absurd hc hnc) False.elim (fun hc => absurd hc hnc) hopsU ?_
  · by_cases e : u = t
    · subst e; rw [hopsT, opsOn_write_ne (hop ▸ Ne.symm hq)]
    · rw [hopsU u e]
  refine .of_entry (Function.update_same pid _ s.idToPage) (fun hd => by simp at hd)
    (fun u hd => ?_) (fun hd => by simp at hd) (fun u hu => ?_) fun td hcat => ?_
  · simp only [HeapPage.markDirty_dirtiedBy, if_true, Option.some.injEq] at hd
    subst hd
    refine ⟨?_, ?_⟩
    · rw [HeapPage.content_markDirty, hcontent, hopsT, applyOps_snoc hop, ← Option.map_map,
        serialContent_congr (show (h.record t (.write op)).log = h.log from rfl), ← hcont]
      rfl
    · rw [History.committedBy_eq_nil (show ¬(h.record t (.write op)).HasCommitted t from hnc),
        map_applyOps_of_opsOn_eq_nil (show opsOn pid [] = [] from rfl)]
      exact hdisk
  · by_cases e : u = t
    · rw [e]; simp
    · have hXd := hA.dirtiedBy_of_ops hc (by rwa [← hopsU u e])
      have := hInv.holder_of_dirty hc (by simp [HeapPage.isDirty, hXd]) hx
      rw [hXd, Option.some.injEq] at this
      exact absurd this e
  · obtain ⟨hPtd, hPc⟩ := hA.conforms P td hc hcat
    exact ⟨htd.trans hPtd, by rw [HeapPage.content_markDirty]; exact hconf td hcat hPc⟩

/-- `commit_transaction` begins: `t`'s writes join the log. -/
theorem commit (hp : s.phase t = .ready) :
    SerialInv catalog files (s.setPhase t (.finishing true (s.lm.getLockedPages t)))
      (h.record t .commit) := by
  have hnc := hI.not_committed (t := t) (by rw [hp]; exact id)
  have hopsT : (h.record t .commit).ops t = [] := Function.update_same _ _ _
  have hopsU : ∀ u, u ≠ t → (h.record t .commit).ops u = h.ops u :=
    fun u hu => Function.update_noteq hu _ _
  refine ⟨fun q => ?_, fun u hu => ?_, fun u hu => ?_, fun u hu => ?_, hI.files_conform⟩
  · have hA := hI.page q
    by_cases hq : opsOn q (h.ops t) = []
    · refine hA.congr rfl rfl ?_ (fun u => ?_) (fun u => ?_) (fun u hu => ?_)
      · rw [serialContent_commit, map_applyOps_of_opsOn_eq_nil hq]
      · by_cases e : u = t
        · subst e; rw [hopsT]; exact applyOps_congr hq.symm
        · rw [hopsU u e]
      · rw [History.committedBy_commit]
        refine applyOps_congr ?_
        simp only [opsOn, List.filter_append]
        split
        · next e => subst e; rw [show List.filter _ (h.ops u) = [] from hq, List.append_nil]
        · rw [List.filter_nil, List.append_nil]
      · by_cases e : u = t
        · subst e; rw [hopsT] at hu; exact absurd rfl hu
        · rwa [hopsU u e] at hu
    · obtain ⟨P, hP, hPd⟩ := hA.owner t hq
      refine ⟨fun page hc hd => ?_, fun page u hc hd => ?_, fun hall => ?_, fun u hu => ?_,
        hA.conforms⟩
      · rw [setPhase_idToPage, hP, Option.some.injEq] at hc; rw [← hc, hPd] at hd; cases hd
      · rw [setPhase_idToPage, hP, Option.some.injEq] at hc
        subst hc
        rw [hPd, Option.some.injEq] at hd
        subst hd
        obtain ⟨h1, h2⟩ := hA.dirty P t hP hPd
        rw [History.committedBy_eq_nil hnc,
          map_applyOps_of_opsOn_eq_nil (show opsOn q [] = [] from rfl)] at h2
        rw [hopsT, map_applyOps_of_opsOn_eq_nil (show opsOn q [] = [] from rfl),
          serialContent_commit, History.committedBy_commit, if_pos rfl,
          History.committedBy_eq_nil hnc, List.nil_append]
        exact ⟨h1, congrArg _ h2⟩
      · have := hall P hP; rw [hPd] at this; cases this
      · by_cases e : u = t
        · subst e; rw [hopsT] at hu; exact absurd rfl hu
        · exact hA.owner u (by rwa [hopsU u e] at hu)
  · rw [setPhase_phase, Function.update_apply]
    split
    · trivial
    · next e => exact hI.after_commit u (History.hasCommitted_commit.1 hu |>.resolve_right e)
  · rw [History.hasCommitted_commit]
    rw [setPhase_phase, Function.update_apply] at hu
    split at hu
    · next e => exact .inr e
    · exact .inl (hI.committing u hu)
  · by_cases e : u = t
    · subst e; exact hopsT
    · rw [hopsU u e]
      exact hI.committed_ops u (History.hasCommitted_commit.1 hu |>.resolve_right e)

/-- `commit_transaction` on a dirty page: `write_page`, then `mark_dirty(false)` and
`set_before_image`. -/
theorem commitPage {pending : List HeapPageId} {page page' : HeapPage} {file : List (BitVec 8)}
    (hInv : Inv catalog s) (hp : s.phase t = .finishing true pending) (hmem : pid ∈ pending)
    (hc : s.idToPage pid = some page) (hd : page.isDirty = true) (hcat : catalog pid.tableId ≠ none)
    (hw : writePage (s.files pid.tableId) page = some file)
    (hb : (page.markDirty false t).setBeforeImage = some page') :
    SerialInv catalog files
      { s with idToPage := Function.update s.idToPage pid (some page')
               files := Function.update s.files pid.tableId file
               phase := Function.update s.phase t (.finishing true (pending.erase pid)) } h := by
  have hmine := hInv.dirtiedBy_of_pending hp hmem hc hd
  have hcom : h.HasCommitted t := hI.committing t (by rw [hp]; trivial)
  have hops0 := hI.committed_ops t hcom
  obtain ⟨td, hcat⟩ := Option.ne_none_iff_exists'.1 hcat
  have hA := hI.page pid
  obtain ⟨hpt, hconf⟩ := hA.conforms page td hc hcat
  have hppid := hInv.page_pid pid page hc
  obtain ⟨d, hgd, hfile⟩ := writePage_spec hw
  rw [hppid] at hfile
  obtain ⟨Q, hQ, hQc⟩ := (⟨hppid, hpt, hconf⟩ : Encodable pid td page).content_new_getPageData hgd
  have hcontent : some page.content = serialContent catalog files h pid := by
    rw [(hA.dirty page t hc hmine).1, hops0,
      map_applyOps_of_opsOn_eq_nil (show opsOn pid [] = [] from rfl)]
  obtain ⟨d', -, rfl⟩ := Option.map_eq_some'.1 hb
  have hbytes := pageOf_update_file hfile
  have hdisk : (({ s with files := Function.update s.files pid.tableId file } : Db)).diskContent
      catalog pid = some page.content := by
    rw [diskContent_of_new hcat (by rw [hbytes, if_pos rfl]; exact hQ), hQc]
  refine hI.update rfl (fun q hq => ?_) (fun q td' P hcat' hP => ?_) rfl (fun _ _ _ => rfl) rfl
    (fun _ => trivial) (fun _ => hcom) (fun _ => hops0) (fun _ _ => rfl) ?_
  · simp only [diskContent]
    rw [hbytes, if_neg hq]
  · by_cases hq : q = pid
    · subst hq
      rw [hcat, Option.some.injEq] at hcat'
      subst hcat'
      rw [hbytes, if_pos rfl, hQ, Option.some.injEq] at hP
      subst hP
      rw [hQc]; exact hconf
    · rw [hbytes, if_neg hq] at hP
      exact hI.files_conform q td' P hcat' hP
  refine .of_entry (Function.update_same pid _ s.idToPage) (fun _ => hcontent)
    (fun u hd' => by cases hd') (fun _ => hdisk.trans hcontent) (fun u hu => ?_) fun td' hcat' => ?_
  · obtain rfl := Option.some.inj ((hA.dirtiedBy_of_ops hc hu).symm.trans hmine)
    rw [hops0] at hu
    exact absurd rfl hu
  · rw [hcat, Option.some.injEq] at hcat'
    subst hcat'
    exact ⟨hpt, hconf⟩

/-- `abort_transaction` on a dirty page: `*page = page.get_before_image()`, then
`mark_dirty(false)`, with a before-image that holds the content on disk. -/
theorem restore {pending : List HeapPageId} {page before : HeapPage} (hInv : Inv catalog s)
    (hp : s.phase t = .finishing false pending) (hmem : pid ∈ pending)
    (hc : s.idToPage pid = some page) (hd : page.isDirty = true)
    (hb : page.getBeforeImage = some before)
    (hsound : some before.content = s.diskContent catalog pid) :
    SerialInv catalog files
      { s with idToPage := Function.update s.idToPage pid (some (before.markDirty false t))
               phase := Function.update s.phase t (.finishing false (pending.erase pid)) }
      (h.record t (.restore pid)) := by
  have hmine := hInv.dirtiedBy_of_pending hp hmem hc hd
  have hnc := hI.not_committed (t := t) (by rw [hp]; exact id)
  have hA := hI.page pid
  have hdisk := (hA.dirty page t hc hmine).2
  rw [History.committedBy_eq_nil hnc, map_applyOps_of_opsOn_eq_nil (show opsOn pid [] = [] from rfl)]
    at hdisk
  obtain ⟨-, hbtd, hbclean, -⟩ := HeapPage.new_eq_some_fields hb
  have hopsT : (h.record t (.restore pid)).ops t = (h.ops t).filter fun op => op.pid ≠ pid :=
    Function.update_same _ _ _
  have hopsU : ∀ u, u ≠ t → (h.record t (.restore pid)).ops u = h.ops u :=
    fun u hu => Function.update_noteq hu _ _
  refine hI.update rfl (fun _ _ => rfl) hI.files_conform rfl (fun u q hq => ?_) rfl
    (fun hc => absurd hc hnc) False.elim (fun hc => absurd hc hnc) hopsU ?_
  · by_cases e : u = t
    · subst e; rw [hopsT, opsOn_filter_ne hq]
    · rw [hopsU u e]
  refine .of_entry (Function.update_same pid _ s.idToPage)
    (fun _ => by rw [HeapPage.content_markDirty, hsound]; exact hdisk)
    (fun u hd' => by cases hd') (fun _ => hdisk) (fun u hu => ?_) fun td hcat => ?_
  · by_cases e : u = t
    · subst e; rw [hopsT, opsOn_filter_self] at hu; exact absurd rfl hu
    · exact absurd (Option.some.inj
        ((hA.dirtiedBy_of_ops hc (by rwa [hopsU u e] at hu)).symm.trans hmine)) e
  · exact ⟨hbtd.trans (hA.conforms page td hc hcat).1,
      hI.files_conform.diskContent hcat hsound.symm⟩

/-- **Every sound step keeps the invariant.** -/
theorem step (hInv : Inv catalog s) {e : Effect} (hs : Step catalog t e s s')
    (hsound : s.Sound catalog e) : SerialInv catalog files s' (h.record t e) := by
  cases hs with
  | commitTransaction t hp => exact hI.commit hp
  | readPage t pid _ _ file _ hp _ hr =>
    refine hI.move_uncommitted rfl (fun n => ?_) rfl (by rw [hp]; exact id) id
    dsimp only
    rw [Function.update_apply]
    split
    · next e => rw [e]; exact (readPage_spec hr).2
    · rfl
  | install t pid page k hp => exact hI.install hInv hp
  | insert t pid page page' tuple hp ha =>
    obtain ⟨-, -, -, -, -, -, -, htd, -⟩ := HeapPage.addTuple_eq_ok ha
    exact hI.write hInv hp rfl rfl (HeapPage.content_addTuple ha) htd
      fun td hcat hc => HeapPage.content_addTuple ha ▸ hc.insertFirst (hsound td hcat)
  | delete t pid page page' tuple hp hd =>
    obtain ⟨-, -, -, -, -, -, htd, -⟩ := HeapPage.deleteTuple_eq_ok hd
    exact hI.write hInv hp rfl rfl (HeapPage.content_deleteTuple hd) htd
      fun _ _ hc => HeapPage.content_deleteTuple hd ▸ hc.set_none _
  | commitPage t pending pid page page' file hp hmem hc hd hcat hw hb =>
    exact hI.commitPage hInv hp hmem hc hd hcat hw hb
  | abortPage t pending pid page before hp hmem hc hd hb =>
    exact hI.restore hInv hp hmem hc hd hb (hsound page before hc hb)
  | skipPage t c pending pid hp =>
    cases c with
    | true =>
      exact hI.move rfl (fun _ => rfl) rfl (fun _ => trivial)
        fun _ => hI.committing t (by rw [hp]; trivial)
    | false => exact hI.move_uncommitted rfl (fun _ => rfl) rfl (by rw [hp]; exact id) id
  | release t c hp => exact hI.move rfl (fun _ => rfl) rfl (fun _ => trivial) False.elim
  | crash t => exact hI.move rfl (fun _ => rfl) rfl (fun _ => trivial) False.elim
  | _ =>
    -- the other steps move a transaction whose commit has not begun, and keep the
    -- cache and the disk
    exact hI.move_uncommitted rfl (fun _ => rfl) rfl (by simp only [*]; exact id) id

end SerialInv

theorem SerialInv.init (hfiles : FilesConform catalog files) :
    SerialInv catalog files (init files) .empty where
  page pid :=
    { clean := fun _ hc => by cases hc
      dirty := fun _ _ hc => by cases hc
      disk := fun _ => (map_applyOps_of_opsOn_eq_nil
        (show opsOn pid History.empty.committed = [] from rfl) _).symm
      owner := fun _ hu => absurd rfl hu
      conforms := fun _ _ hc => by cases hc }
  after_commit _ hu := by simp [History.HasCommitted, History.empty] at hu
  committing _ hu := False.elim hu
  committed_ops _ hu := by simp [History.HasCommitted, History.empty] at hu
  files_conform := hfiles

/-- An empty file holds pages the engine can write: every page of it is a zero page. -/
theorem filesConform_empty (catalog : Nat → Option TupleDesc) : FilesConform catalog fun _ => [] := by
  intro pid td P _ hP
  rw [pageOf_of_length_le (Nat.zero_le _)] at hP
  exact (encodable_new hP).conforms

/-- Transaction 1, up to the write of `add_tuple` into the empty file of a table, as a
sound run that has written nothing yet. -/
theorem runs_first_insert :
    ∃ s page, Run (fun _ => some ⟨[.intType], ["id"]⟩) (fun _ => []) s .empty ∧
      s.phase 1 = .use ⟨1, 0⟩ page (.insert (Tuple.new [.intField ⟨7⟩] ⟨[.intType], ["id"]⟩)) ∧
      (∀ u, u ≠ 1 → s.phase u = .ready) ∧ s.idToPage ⟨1, 0⟩ = some page ∧
      0 < page.getNumEmptySlots ∧
      HeapPage.new ⟨1, 0⟩ (List.replicate pageSize 0) ⟨[.intType], ["id"]⟩ = some page ∧
      pageOf (s.files 1) 0 = List.replicate pageSize 0 := by
  obtain ⟨file, Q, hread, hQ, hn⟩ := read_empty_table ⟨1, 0⟩
  have hfile : pageOf file 0 = List.replicate pageSize 0 := by
    rw [(readPage_spec hread).2, pageOf_of_length_le (Nat.zero_le _)]
  have r := (Run.init : Run (fun _ => some ⟨[.intType], ["id"]⟩) (fun _ => []) _ _).step
    (.insertTuple 1 1 (Tuple.new [.intField ⟨7⟩] ⟨[.intType], ["id"]⟩) rfl (by simp)) trivial
  have r := r.step (.slowPath 1 _ _ _ rfl rfl) trivial
  have r := r.step (.granted 1 _ _ _ rfl rfl) trivial
  have r := r.step (.miss 1 _ _ rfl rfl) trivial
  have r := r.step (.readPage 1 _ _ _ _ _ rfl rfl hread) trivial
  have r := r.step (.install 1 _ _ _ rfl) trivial
  have r := r.step (.probeFree 1 _ _ 1 0 _ rfl hn) trivial
  have r := r.step (.slowPath 1 _ _ _ rfl rfl) trivial
  have r := r.step (.granted 1 _ _ _ rfl rfl) trivial
  have r := r.step (.hit 1 _ _ Q rfl rfl) trivial
  exact ⟨_, Q, r, rfl, fun u hu => by simp [setPhase, init, Function.update_noteq hu], rfl, hn,
    hQ, hfile⟩

end Db

end RusticDb
