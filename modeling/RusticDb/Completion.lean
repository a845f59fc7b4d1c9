/-
# No panic in `get_page`'s read, nor in a commit or an abort (`buffer_pool.rs`)

`commit_transaction` writes each dirty locked page back with `write_page` and
`set_before_image`, both of which call `get_page_data`; `abort_transaction` decodes each
dirty locked page's before-image with `get_before_image`; both end with
`release_locks`.  `get_page_data` panics when the header and the slots do not fit in
`PAGE_SIZE` bytes (`PAGE_SIZE - data.len()` underflows), and `get_before_image` when
`HeapPage::new` cannot decode the saved bytes.  `get_page` calls `read_page`, whose
`read_exact` panics past the end of the file and whose `HeapPage::new` panics on bytes
that do not decode.

`Typed` is what every state of a run whose inserts put well-formed tuples satisfies
(`TypedRun.typed`), a well-formed tuple being one with a value of each column's type and
strings whose `len` is their byte length, at most `STRING_SIZE` (`Tuple.Conforms`):
every page in the cache or in a thread's hands has its own id, its table's descriptor
and well-formed values, and a before-image that decodes to well-formed values; and
every page of the files that decodes holds well-formed values.  From it, a commit or an abort that has begun can
treat each of its pages and release its locks, whatever the other threads did before:
it never reaches a panic (`commit_abort_complete`).  From files of whole pages that
decode, such runs keep the files so (`Readable`), and `progress` follows: a thread
that has not finished can always move on, except in a round that waits, at a page of a
table the catalog does not have, or at the delete of a tuple its page does not hold.
Away from those two panics, a wait is never a deadlock (`no_deadlock`): WAIT-DIE makes
a transaction wait only for younger ones, and the chain of waits ends at a younger
holder of a lock that can move.
-/
import RusticDb.Serializability
import RusticDb.Storage
import RusticDb.WaitDie

namespace RusticDb

namespace Db

variable {catalog : Nat → Option TupleDesc} {s s' : Db} {t : Nat} {pid : HeapPageId}

/-! ## Pages that encode -/

/-- A page the panics of `commit_transaction` and `abort_transaction` spare: its id, its
table's descriptor and well-formed values (so `get_page_data` fits in a page), and a
before-image that decodes to well-formed values. -/
structure PageOk (catalog : Nat → Option TupleDesc) (pid : HeapPageId) (page : HeapPage) :
    Prop where
  encodable : Encodable pid page.td page
  catalog_td : catalog pid.tableId = some page.td
  before : ∃ B, page.getBeforeImage = some B ∧ ContentConforms B.content page.td

namespace PageOk

variable {P P' : HeapPage}

/-- `mark_dirty` changes neither the bytes nor the before-image. -/
theorem markDirty (h : PageOk catalog pid P) (dirty : Bool) (u : Nat) :
    PageOk catalog pid (P.markDirty dirty u) :=
  ⟨⟨h.encodable.pid_eq, h.encodable.td_eq, h.encodable.conforms⟩, h.catalog_td, h.before⟩

/-- A page `read_page` decodes to well-formed values: its before-image is the zero
page. -/
theorem of_new {data : List (BitVec 8)} {td : TupleDesc} (h : HeapPage.new pid data td = some P)
    (hcat : catalog pid.tableId = some td) (hc : ContentConforms P.content td) :
    PageOk catalog pid P := by
  obtain ⟨hpid, htd, -, hold⟩ := HeapPage.new_eq_some_fields h
  subst htd
  obtain ⟨B, hB, -⟩ := HeapPage.new_replicate_zero pid P.td
  refine ⟨⟨hpid, rfl, hc⟩, hcat, B, ?_, (encodable_new hB).conforms⟩
  rw [HeapPage.getBeforeImage, hpid, hold, hB]

/-- `add_tuple` of a well-formed tuple. -/
theorem add {tuple : Tuple} (h : PageOk catalog pid P) (ht : tuple.Conforms P.td)
    (ha : P.addTuple tuple = .ok P') : PageOk catalog pid P' := by
  obtain ⟨-, -, -, -, -, -, hpid, htd, -, hold, -⟩ := HeapPage.addTuple_eq_ok ha
  have hE := h.encodable.add ht ha
  refine ⟨by rw [htd]; exact hE, by rw [htd]; exact h.catalog_td, ?_⟩
  rw [HeapPage.getBeforeImage, hpid, htd, hold, ← HeapPage.getBeforeImage]
  exact h.before

/-- `delete_tuple`. -/
theorem delete {tuple : Tuple} (h : PageOk catalog pid P)
    (hd : P.deleteTuple tuple = some (.ok P')) : PageOk catalog pid P' := by
  obtain ⟨-, -, -, -, -, hpid, htd, -, hold, -⟩ := HeapPage.deleteTuple_eq_ok hd
  have hE := h.encodable.delete hd
  refine ⟨by rw [htd]; exact hE, by rw [htd]; exact h.catalog_td, ?_⟩
  rw [HeapPage.getBeforeImage, hpid, htd, hold, ← HeapPage.getBeforeImage]
  exact h.before

/-- `set_before_image` saves bytes that decode to the page's own values. -/
theorem setBeforeImage (h : PageOk catalog pid P) (hb : P.setBeforeImage = some P') :
    PageOk catalog pid P' := by
  obtain ⟨d, hd, rfl⟩ := Option.map_eq_some'.1 hb
  obtain ⟨Q, hQ, hQc⟩ := h.encodable.content_new_getPageData hd
  refine ⟨⟨h.encodable.pid_eq, h.encodable.td_eq, h.encodable.conforms⟩, h.catalog_td,
    Q, ?_, hQc ▸ h.encodable.conforms⟩
  rw [HeapPage.getBeforeImage, h.encodable.pid_eq]
  exact hQ

/-- The page `abort_transaction` puts back. -/
theorem restore {B : HeapPage} (h : PageOk catalog pid P) (hB : P.getBeforeImage = some B) :
    PageOk catalog pid B := by
  obtain ⟨B', hB', hc⟩ := h.before
  obtain rfl := Option.some.inj (hB.symm.trans hB')
  rw [HeapPage.getBeforeImage, h.encodable.pid_eq] at hB
  exact of_new hB h.catalog_td hc

/-- The write-back of `commit_transaction` does not panic on such a page. -/
theorem commit_ok (h : PageOk catalog pid P) (file : List (BitVec 8)) (u : Nat) :
    (∃ file', writePage file P = some file') ∧
      ∃ P', (P.markDirty false u).setBeforeImage = some P' := by
  have hd := h.encodable.getPageData_eq
  have hd' : (P.markDirty false u).getPageData = P.getPageData := rfl
  exact ⟨⟨_, by rw [writePage, hd]; rfl⟩, ⟨_, by rw [HeapPage.setBeforeImage, hd', hd]; rfl⟩⟩

end PageOk

/-- `write_page` of a page with well-formed values keeps the files' pages decoding to
well-formed values. -/
theorem FilesConform.writePage {fs : Nat → List (BitVec 8)} {P : HeapPage}
    {file : List (BitVec 8)} (hF : FilesConform catalog fs) (hP : PageOk catalog pid P)
    (hw : RusticDb.writePage (fs pid.tableId) P = some file) :
    FilesConform catalog (Function.update fs pid.tableId file) := by
  obtain ⟨d, hgd, hfile⟩ := writePage_spec hw
  rw [hP.encodable.pid_eq] at hfile
  obtain ⟨Q, hQ, hQc⟩ := hP.encodable.content_new_getPageData hgd
  intro q td P' hcat hP'
  rw [pageOf_update_file hfile] at hP'
  split at hP'
  · next hq =>
    subst hq
    rw [hP.catalog_td, Option.some.injEq] at hcat
    subst hcat
    rw [hQ, Option.some.injEq] at hP'
    subst hP'
    exact hQc ▸ hP.encodable.conforms
  · exact hF q td P' hcat hP'

/-! ## The invariant -/

/-- The page a thread holds in its phase. -/
def PhasePageOk (catalog : Nat → Option TupleDesc) : Phase → Prop
  | .loaded pid page _ | .use pid page _ => PageOk catalog pid page
  | _ => True

/-- Every page in the cache or in a thread's hands encodes and has a before-image that
decodes, and the files' pages that decode hold well-formed values. -/
structure Typed (catalog : Nat → Option TupleDesc) (s : Db) : Prop where
  files : FilesConform catalog s.files
  cache : ∀ p page, s.idToPage p = some page → PageOk catalog p page
  phase : ∀ u, PhasePageOk catalog (s.phase u)

theorem cache_update_ok {c : HeapPageId → Option HeapPage} {P : HeapPage}
    (hc : ∀ p page, c p = some page → PageOk catalog p page) (hP : PageOk catalog pid P) :
    ∀ p page, Function.update c pid (some P) p = some page → PageOk catalog p page := by
  intro p page h
  rw [Function.update_apply] at h
  split at h
  · next e => subst e; exact Option.some.inj h ▸ hP
  · exact hc p page h

theorem phase_update_ok {f : Nat → Phase} {ph : Phase} (hf : ∀ u, PhasePageOk catalog (f u))
    (hph : PhasePageOk catalog ph) : ∀ u, PhasePageOk catalog (Function.update f t ph u) := by
  intro u
  rw [Function.update_apply]
  split
  · exact hph
  · exact hf u

theorem Typed.setPhase {ph : Phase} (hT : Typed catalog s) (hph : PhasePageOk catalog ph) :
    Typed catalog (s.setPhase t ph) :=
  ⟨hT.files, hT.cache, phase_update_ok hT.phase hph⟩

/-- The effect of a step puts, if anything, a well-formed tuple of its table: a value of
each column's type, each string's `len` its byte length and at most `STRING_SIZE`
(`Tuple.Conforms`). -/
def InsertFits (catalog : Nat → Option TupleDesc) : Effect → Prop
  | .write (.insert pid tuple) => ∀ td, catalog pid.tableId = some td → tuple.Conforms td
  | _ => True

/-- **Every step keeps the invariant**, when an insert puts a well-formed tuple
(`InsertFits`). -/
theorem Typed.step {e : Effect} (hT : Typed catalog s) (hs : Step catalog t e s s')
    (hfit : InsertFits catalog e) : Typed catalog s' := by
  cases hs
  case hit pid k page hc _ => exact hT.setPhase (hT.cache pid page hc)
  case granted => exact ⟨hT.files, hT.cache, phase_update_ok hT.phase trivial⟩
  case release => exact ⟨hT.files, hT.cache, phase_update_ok hT.phase trivial⟩
  case readPage pid k td file page hc hr _ =>
    obtain ⟨hnew, hbytes⟩ := readPage_spec hr
    have hF : FilesConform catalog (Function.update s.files pid.tableId file) :=
      fun q td' P hcat hP => hT.files q td' P hcat (by
        rwa [pageOf_update_of_pageOf hbytes q] at hP)
    exact ⟨hF, hT.cache, phase_update_ok hT.phase
      (PageOk.of_new hnew hc (hT.files pid td page hc hnew))⟩
  case install pid page k hp =>
    have hP : PageOk catalog pid page := by simpa [hp, PhasePageOk] using hT.phase t
    exact ⟨hT.files, cache_update_ok hT.cache hP, phase_update_ok hT.phase hP⟩
  case insert pid page page' tuple ha hp =>
    have hP : PageOk catalog pid page := by simpa [hp, PhasePageOk] using hT.phase t
    exact ⟨hT.files, cache_update_ok hT.cache ((hP.add (hfit _ hP.catalog_td) ha).markDirty _ _),
      phase_update_ok hT.phase trivial⟩
  case delete pid page page' tuple hd hp =>
    have hP : PageOk catalog pid page := by simpa [hp, PhasePageOk] using hT.phase t
    exact ⟨hT.files, cache_update_ok hT.cache ((hP.delete hd).markDirty _ _),
      phase_update_ok hT.phase trivial⟩
  case commitPage pending pid page page' file _ _ _ hb hc hw _ =>
    have hP := hT.cache pid page hc
    exact ⟨hT.files.writePage hP hw, cache_update_ok hT.cache ((hP.markDirty _ _).setBeforeImage hb),
      phase_update_ok hT.phase trivial⟩
  case abortPage pending pid page before _ _ hB hc _ =>
    exact ⟨hT.files, cache_update_ok hT.cache (((hT.cache pid page hc).restore hB).markDirty _ _),
      phase_update_ok hT.phase trivial⟩
  all_goals exact hT.setPhase trivial

/-- The runs from `files` whose inserts put well-formed tuples (`InsertFits`). -/
inductive TypedRun (catalog : Nat → Option TupleDesc) (files : Nat → List (BitVec 8)) :
    Db → Prop
  | init : TypedRun catalog files (init files)
  | step {s s' : Db} {t : Nat} {e : Effect} :
      TypedRun catalog files s → Step catalog t e s s' → InsertFits catalog e →
      TypedRun catalog files s'

theorem TypedRun.reachable {files : Nat → List (BitVec 8)} (h : TypedRun catalog files s) :
    Reachable catalog files s := by
  induction h with
  | init => exact .init
  | step _ hs _ ih => exact .step ih hs

/-- The runs of the serial-order theorem put well-formed tuples. -/
theorem Run.typedRun {files : Nat → List (BitVec 8)} {h : History} (hr : Run catalog files s h) :
    TypedRun catalog files s := by
  induction hr with
  | init => exact .init
  | step _ hs hsound ih =>
    refine ih.step hs ?_
    rename_i e _
    rcases e with _ | ⟨_ | _⟩ | _ | _ <;> trivial

theorem TypedRun.typed {files : Nat → List (BitVec 8)} (hfiles : FilesConform catalog files)
    (h : TypedRun catalog files s) : Typed catalog s := by
  induction h with
  | init => exact ⟨hfiles, fun _ _ h => Option.noConfusion h, fun _ => trivial⟩
  | step _ hs hfit ih => exact ih.step hs hfit

/-! ## Commit and abort run to the end -/

/-- The next step of a commit or abort at page `pid`: write it back, restore it, or skip
it; none of these panics. -/
theorem finishing_step {files : Nat → List (BitVec 8)} (hfiles : FilesConform catalog files)
    (hr : TypedRun catalog files s) {c : Bool} {rest : List HeapPageId}
    (hp : s.phase t = .finishing c (pid :: rest)) :
    ∃ e s', Step catalog t e s s' ∧ InsertFits catalog e ∧ s'.phase t = .finishing c rest := by
  have hT := hr.typed hfiles
  have hmem : pid ∈ pid :: rest := List.mem_cons_self _ _
  have herase : (pid :: rest).erase pid = rest := List.erase_cons_head _ _
  by_cases hdirty : ∃ page, s.idToPage pid = some page ∧ page.isDirty = true
  · obtain ⟨page, hc, hd⟩ := hdirty
    have hP := hT.cache pid page hc
    cases c with
    | true =>
      obtain ⟨⟨file, hw⟩, P', hb⟩ := hP.commit_ok (s.files pid.tableId) t
      exact ⟨_, _, .commitPage t _ pid page P' file hp hmem hc hd
        (by rw [hP.catalog_td]; exact Option.noConfusion) hw hb, trivial, by simp [herase]⟩
    | false =>
      obtain ⟨B, hB, -⟩ := hP.before
      exact ⟨_, _, .abortPage t _ pid page B hp hmem hc hd hB, trivial, by simp [herase]⟩
  · refine ⟨_, _, .skipPage t c _ pid hp hmem fun page hc => ?_, trivial, by simp [herase]⟩
    cases hd : page.isDirty
    · rfl
    · exact absurd ⟨page, hc, hd⟩ hdirty

/-- **A commit or an abort runs to its end.**  In every state of a run whose inserts put
well-formed tuples, from files whose pages decode to well-formed values, a
transaction whose `commit_transaction` or `abort_transaction` has begun can finish it by
its own steps alone: it writes back, restores or skips each locked page, and
`release_locks` leaves it done, with no panic on the way. -/
theorem commit_abort_complete {files : Nat → List (BitVec 8)} (hfiles : FilesConform catalog files)
    (hr : TypedRun catalog files s) {c : Bool} {pending : List HeapPageId}
    (hp : s.phase t = .finishing c pending) :
    ∃ s', Relation.ReflTransGen (fun a b => ∃ e, Step catalog t e a b) s s' ∧
      s'.phase t = .done := by
  induction pending generalizing s with
  | nil =>
    obtain ⟨S, hS, -⟩ := hr.reachable.inv.locks.represents
    obtain ⟨lm', hrel, -⟩ := hS.releaseLocks t
    exact ⟨_, .single ⟨_, .release t c hp hrel⟩, by simp⟩
  | cons pid rest ih =>
    obtain ⟨e, s₁, hs, hfit, h₁⟩ := finishing_step hfiles hr hp
    obtain ⟨s', hrun, hdone⟩ := ih (hr.step hs hfit) h₁
    exact ⟨s', .head ⟨e, hs⟩ hrun, hdone⟩

/-- Transaction 1 inserts a tuple into the empty file of a table and begins its commit,
with page `(1, 0)` to write back: the commit runs to its end. -/
theorem commit_abort_complete_first_insert :
    ∃ s pending, TypedRun (fun _ => some ⟨[.intType], ["id"]⟩) (fun _ => []) s ∧
      s.phase 1 = .finishing true pending ∧ (⟨1, 0⟩ : HeapPageId) ∈ pending ∧
      ∃ s', Relation.ReflTransGen
          (fun a b => ∃ e, Step (fun _ => some ⟨[.intType], ["id"]⟩) 1 e a b) s s' ∧
        s'.phase 1 = .done := by
  obtain ⟨s, page, hr, hp, -, hc, hn, -, -⟩ := runs_first_insert
  obtain ⟨page', ha⟩ := HeapPage.addTuple_isOk_of_getNumEmptySlots_pos
    (Tuple.new [.intField ⟨7⟩] ⟨[.intType], ["id"]⟩) hn
  have r₁ := hr.typedRun.step (.insert 1 ⟨1, 0⟩ page page' _ hp ha)
    fun _ h => Option.some.inj h ▸ .cons trivial .nil
  have r₂ := r₁.step (.commitTransaction 1 (by simp)) trivial
  have hheld : ⟨1, 0⟩ ∈ s.lm.getLockedPages 1 := by
    obtain ⟨S, hS, -⟩ := hr.reachable.inv.locks.represents
    obtain ⟨⟨b, hb, -⟩, -⟩ := hr.reachable.inv.phaseInv_of_eq hp
    exact (hS.mem_getLockedPages _).2 ⟨b, hb⟩
  exact ⟨_, s.lm.getLockedPages 1, r₂, by simp, hheld,
    @commit_abort_complete _ _ _ _ (filesConform_empty _) r₂ true (s.lm.getLockedPages 1) (by simp)⟩

/-! ## `read_page` does not panic -/

/-- Every page of every catalogued table decodes with the table's descriptor (past the
end of a file, the zero page). -/
def FilesDecode (catalog : Nat → Option TupleDesc) (files : Nat → List (BitVec 8)) : Prop :=
  ∀ pid td, catalog pid.tableId = some td →
    ∃ P, HeapPage.new pid (pageOf (files pid.tableId) pid.pageNumber) td = some P

/-- The files `read_page` reads without panicking: whole pages, each decoding. -/
structure Readable (catalog : Nat → Option TupleDesc) (s : Db) : Prop where
  aligned : ∀ n, (s.files n).length % pageSize = 0
  decodes : FilesDecode catalog s.files

theorem filesDecode_empty (catalog : Nat → Option TupleDesc) :
    FilesDecode catalog fun _ => [] := fun pid td _ => by
  rw [pageOf_of_length_le (Nat.zero_le _)]
  obtain ⟨Q, hQ, -⟩ := HeapPage.new_replicate_zero pid td
  exact ⟨Q, hQ⟩

/-- A step keeps the files readable: `read_page` appends zero pages, and the write-back of
a commit writes a page that decodes. -/
theorem Readable.step {e : Effect} (hR : Readable catalog s) (hT : Typed catalog s)
    (hI : Inv catalog s) (hs : Step catalog t e s s') : Readable catalog s' := by
  refine ⟨fun n => (hs.files hI).2.1 n (hR.aligned n), ?_⟩
  cases hs
  case readPage pid k td file page hc hr _ =>
    intro q td' hcat
    rw [pageOf_update_of_pageOf (readPage_spec hr).2 q]
    exact hR.decodes q td' hcat
  case commitPage pending pid page page' file _ _ _ _ hc hw _ =>
    have hP := hT.cache pid page hc
    obtain ⟨d, hgd, hfile⟩ := writePage_spec hw
    rw [hP.encodable.pid_eq] at hfile
    intro q td hcat
    rw [pageOf_update_file hfile]
    split
    · next hq =>
      subst hq
      rw [hP.catalog_td, Option.some.injEq] at hcat
      subst hcat
      obtain ⟨Q, hQ, -⟩ := hP.encodable.new_getPageData hgd
      exact ⟨Q, hQ⟩
    · exact hR.decodes q td hcat
  all_goals exact hR.decodes

theorem TypedRun.readable {files : Nat → List (BitVec 8)} (hfiles : FilesConform catalog files)
    (hdec : FilesDecode catalog files) (hal : ∀ n, (files n).length % pageSize = 0)
    (h : TypedRun catalog files s) : Readable catalog s := by
  induction h with
  | init => exact ⟨hal, hdec⟩
  | step hr hs _ ih => exact ih.step (hr.typed hfiles) hr.reachable.inv hs

/-- On readable files, `read_page` of a page of a catalogued table does not panic. -/
theorem Readable.readPage (hR : Readable catalog s) {td : TupleDesc}
    (hcat : catalog pid.tableId = some td) :
    ∃ file P, RusticDb.readPage (s.files pid.tableId) td pid = some (file, P) := by
  obtain ⟨file, hf, -⟩ := readPageBytes_eq (hR.aligned pid.tableId) pid
  obtain ⟨P, hP⟩ := hR.decodes pid td hcat
  exact ⟨file, P, by rw [RusticDb.readPage, hf, Option.some_bind]; exact congrArg (Option.map _) hP⟩

/-! ## Progress -/

/-- A thread that has not finished or panicked, does not wait, and stands at neither of
the two panics left can take a step other than a panic. -/
theorem TypedRun.moves {files : Nat → List (BitVec 8)} (hfiles : FilesConform catalog files)
    (hdec : FilesDecode catalog files) (hal : ∀ n, (files n).length % pageSize = 0)
    (hr : TypedRun catalog files s) (hnd : s.phase t ≠ .done) (hnc : s.phase t ≠ .crashed)
    (hnw : ∀ pid x k, s.phase t = .round pid x k → s.lm.attempt t pid x ≠ some .wait)
    (hread : ∀ pid k, s.phase t = .read pid k → catalog pid.tableId ≠ none)
    (hdel : ∀ pid page tuple, s.phase t = .use pid page (.delete tuple) →
      ∃ P', page.deleteTuple tuple = some (.ok P')) :
    ∃ e s', Step catalog t e s s' ∧ s'.phase t ≠ .crashed := by
  have hI := hr.reachable.inv
  obtain ⟨S, hS, -⟩ := hI.locks.represents
  cases hp : s.phase t with
  | ready => exact ⟨_, _, .commitTransaction t hp, by simp⟩
  | acquire pid exclusive k =>
    cases hf : s.lm.fastPath t pid exclusive
    · exact ⟨_, _, .slowPath t pid exclusive k hp hf, by simp⟩
    · exact ⟨_, _, .fastPath t pid exclusive k hp hf, by simp⟩
  | round pid exclusive k =>
    rcases ha : s.lm.attempt t pid exclusive with _ | ⟨lm'⟩ | _ | _
    · exact absurd ha (hS.attempt_ne_none t pid exclusive)
    · exact ⟨_, _, .granted t pid exclusive k hp ha, by simp⟩
    · exact absurd ha (hnw pid exclusive k hp)
    · exact ⟨_, _, .die t pid exclusive k hp ha, by simp⟩
  | lookup pid k =>
    cases hc : s.idToPage pid with
    | none => exact ⟨_, _, .miss t pid k hp hc, by simp⟩
    | some page => exact ⟨_, _, .hit t pid k page hp hc, by simp⟩
  | read pid k =>
    obtain ⟨td, hcat⟩ := Option.ne_none_iff_exists'.1 (hread pid k hp)
    obtain ⟨file, P, hread⟩ := (hr.readable hfiles hdec hal).readPage hcat
    exact ⟨_, _, .readPage t pid k td file P hp hcat hread, by simp⟩
  | loaded pid page k => exact ⟨_, _, .install t pid page k hp, by simp⟩
  | use pid page k =>
    cases k with
    | probe tableId pageNo tuple =>
      rcases Nat.eq_zero_or_pos page.getNumEmptySlots with h0 | hpos
      · exact ⟨_, _, .probeFull t pid page tableId pageNo tuple hp h0, by simp⟩
      · exact ⟨_, _, .probeFree t pid page tableId pageNo tuple hp hpos, by simp⟩
    | insert tuple =>
      obtain ⟨-, hc, -, page', hc', hpos⟩ := hI.phaseInv_of_eq hp
      obtain rfl := Option.some.inj (hc.symm.trans hc')
      obtain ⟨P', ha⟩ := HeapPage.addTuple_isOk_of_getNumEmptySlots_pos tuple hpos
      exact ⟨_, _, .insert t pid page P' tuple hp ha, by simp⟩
    | delete tuple =>
      obtain ⟨P', hd⟩ := hdel pid page tuple hp
      exact ⟨_, _, .delete t pid page P' tuple hp hd, by simp⟩
    | fetch => exact ⟨_, _, .fetched t pid page hp, by simp⟩
  | finishing c pending =>
    cases pending with
    | nil =>
      obtain ⟨lm', hrel, -⟩ := hS.releaseLocks t
      exact ⟨_, _, .release t c hp hrel, by simp⟩
    | cons pid rest =>
      obtain ⟨e, s', hs, -, h'⟩ := finishing_step hfiles hr hp
      exact ⟨e, s', hs, by simp [h']⟩
  | done => exact absurd hp hnd
  | crashed => exact absurd hp hnc

/-- **Progress.**  In every state of a run whose inserts put well-formed tuples, from
files of whole pages that decode to well-formed values, every
thread that has not finished or panicked can take a step other than a panic, unless it
is in a round of `acquire_lock` that waits, at the `read_page` of a page of a table the
catalog does not have, or at the `delete_tuple` of a tuple its page does not hold: the
code panics nowhere else. -/
theorem progress {files : Nat → List (BitVec 8)} (hfiles : FilesConform catalog files)
    (hdec : FilesDecode catalog files) (hal : ∀ n, (files n).length % pageSize = 0)
    (hr : TypedRun catalog files s) (t : Nat) :
    (∃ e s', Step catalog t e s s' ∧ s'.phase t ≠ .crashed) ∨
      s.phase t = .done ∨ s.phase t = .crashed ∨
      (∃ pid exclusive k, s.phase t = .round pid exclusive k ∧
        s.lm.attempt t pid exclusive = some .wait) ∨
      (∃ pid k, s.phase t = .read pid k ∧ catalog pid.tableId = none) ∨
      ∃ pid page tuple, s.phase t = .use pid page (.delete tuple) ∧
        ∀ P', page.deleteTuple tuple ≠ some (.ok P') := by
  by_contra! h
  obtain ⟨hstuck, hnd, hnc, hnw, hread, hdel⟩ := h
  obtain ⟨e, s', hs, hc⟩ := hr.moves hfiles hdec hal hnd hnc hnw hread hdel
  exact hc (hstuck e s' hs)

/-- Transaction 1's first insert into the empty file of a table, at its `read_page`. -/
theorem progress_first_probe :
    ∃ s, TypedRun (fun _ => some ⟨[.intType], ["id"]⟩) (fun _ => []) s ∧
      s.phase 1 = .read ⟨1, 0⟩ (.probe 1 0 (Tuple.new [.intField ⟨7⟩] ⟨[.intType], ["id"]⟩)) ∧
      ((∃ e s', Step (fun _ => some ⟨[.intType], ["id"]⟩) 1 e s s' ∧ s'.phase 1 ≠ .crashed) ∨
        s.phase 1 = .done ∨ s.phase 1 = .crashed ∨
        (∃ pid exclusive k, s.phase 1 = .round pid exclusive k ∧
          s.lm.attempt 1 pid exclusive = some .wait) ∨
        (∃ pid k, s.phase 1 = .read pid k ∧
          (fun _ => some ⟨[.intType], ["id"]⟩ : Nat → Option TupleDesc) pid.tableId = none) ∨
        ∃ pid page tuple, s.phase 1 = .use pid page (.delete tuple) ∧
          ∀ P', page.deleteTuple tuple ≠ some (.ok P')) := by
  have r := (TypedRun.init : TypedRun (fun _ => some ⟨[.intType], ["id"]⟩) (fun _ => []) _).step
    (.insertTuple 1 1 (Tuple.new [.intField ⟨7⟩] ⟨[.intType], ["id"]⟩) rfl (by simp)) trivial
  have r := r.step (.slowPath 1 _ _ _ rfl rfl) trivial
  have r := r.step (.granted 1 _ _ _ rfl rfl) trivial
  have r := r.step (.miss 1 _ _ rfl rfl) trivial
  exact ⟨_, r, rfl, progress (filesConform_empty _) (filesDecode_empty _) (fun _ => rfl) r 1⟩

/-! ## No deadlock -/

/-- Only finitely many transactions have begun: one id bounds every thread that has left
`ready`. -/
theorem Reachable.phase_bounded {files : Nat → List (BitVec 8)} (h : Reachable catalog files s) :
    ∃ B, ∀ u, s.phase u ≠ .ready → u ≤ B := by
  induction h with
  | init => exact ⟨0, fun _ hu => (hu rfl).elim⟩
  | @step _ _ t _ hr hs ih =>
    obtain ⟨B, hB⟩ := ih
    refine ⟨max B t, fun u hu => ?_⟩
    obtain rfl | hut := eq_or_ne u t
    · exact le_max_right _ _
    · have := hB u ((hr.inv.step_frame hs).1.phase u hut ▸ hu)
      omega

/-- **No deadlock.**  In every state of a run whose inserts put well-formed tuples, from
files of whole pages that decode to well-formed values, when
no thread has panicked or stands at one of the two panics `progress` leaves, and WAIT-DIE
makes transaction `t` wait for a page, some younger transaction that holds a lock can
take a step other than a panic: WAIT-DIE lets a transaction wait only for younger ones,
so the chain of waits ends at a holder that moves. -/
theorem no_deadlock {files : Nat → List (BitVec 8)} (hfiles : FilesConform catalog files)
    (hdec : FilesDecode catalog files) (hal : ∀ n, (files n).length % pageSize = 0)
    (hr : TypedRun catalog files s) (hcrash : ∀ u, s.phase u ≠ .crashed)
    (hread : ∀ u pid k, s.phase u = .read pid k → catalog pid.tableId ≠ none)
    (hdel : ∀ u pid page tuple, s.phase u = .use pid page (.delete tuple) →
      ∃ P', page.deleteTuple tuple = some (.ok P'))
    {exclusive : Bool} (hw : s.lm.attempt t pid exclusive = some .wait) :
    ∃ u, t < u ∧ (∃ p, ∃ l ∈ s.lm.locksOn p, l.tid = u) ∧
      ∃ e s', Step catalog u e s s' ∧ s'.phase u ≠ .crashed := by
  have hI := hr.reachable.inv
  obtain ⟨B, hB⟩ := hr.reachable.phase_bounded
  -- climb the chain of waits, which only goes to younger transactions
  suffices ∀ n t pid x, B - t = n → s.lm.attempt t pid x = some .wait →
      ∃ u, t < u ∧ (∃ p, ∃ l ∈ s.lm.locksOn p, l.tid = u) ∧
        ∃ e s', Step catalog u e s s' ∧ s'.phase u ≠ .crashed
    from this _ t pid exclusive rfl hw
  intro n
  induction n using Nat.strong_induction_on with
  | h n ih =>
    rintro t pid x rfl hw
    obtain ⟨hc, hold⟩ := LockManager.attempt_wait_iff.1 hw
    obtain ⟨l, hl, hlt⟩ : ∃ l ∈ s.lm.locksOn pid, l.tid ≠ t := by
      by_contra! hown
      exact hI.locks.not_conflictFound_of_own hown hc
    have hyoung : t < l.tid := lt_of_le_of_ne (hold l hl) (Ne.symm hlt)
    have hnd : s.phase l.tid ≠ .done := fun hd => (hI.phaseInv_of_eq hd).1 pid l hl rfl
    by_cases hlw : ∃ p x k, s.phase l.tid = .round p x k ∧ s.lm.attempt l.tid p x = some .wait
    · obtain ⟨p, x, k, hp, hw'⟩ := hlw
      have hle : l.tid ≤ B := hB _ (by simp [hp])
      obtain ⟨u, hu, hmv⟩ := ih (B - l.tid) (by omega) l.tid p x rfl hw'
      exact ⟨u, hyoung.trans hu, hmv⟩
    · push_neg at hlw
      exact ⟨l.tid, hyoung, ⟨pid, l, hl, rfl⟩,
        hr.moves hfiles hdec hal hnd (hcrash _) hlw (hread _) (hdel _)⟩

/-- Transaction 2 holds page `(1, 0)` for writing and transaction 1, older, waits for it
in `acquire_lock`: transaction 2 can move. -/
theorem no_deadlock_older_waits :
    ∃ s, TypedRun (fun _ => some ⟨[.intType], ["id"]⟩) (fun _ => []) s ∧
      s.phase 1 = .round ⟨1, 0⟩ true .fetch ∧ s.lm.attempt 1 ⟨1, 0⟩ true = some .wait ∧
      ∃ u, 1 < u ∧ (∃ p, ∃ l ∈ s.lm.locksOn p, l.tid = u) ∧
        ∃ e s', Step (fun _ => some ⟨[.intType], ["id"]⟩) u e s s' ∧ s'.phase u ≠ .crashed := by
  have r := (TypedRun.init : TypedRun (fun _ => some ⟨[.intType], ["id"]⟩) (fun _ => []) _).step
    (.getPage 2 ⟨1, 0⟩ true rfl) trivial
  have r := r.step (.slowPath 2 _ _ _ rfl rfl) trivial
  have r := r.step (.granted 2 _ _ _ rfl rfl) trivial
  have r := r.step (.getPage 1 ⟨1, 0⟩ true rfl) trivial
  have r := r.step (.slowPath 1 _ _ _ rfl rfl) trivial
  refine ⟨_, r, rfl, rfl, @no_deadlock _ _ 1 ⟨1, 0⟩ _ (filesConform_empty _) (filesDecode_empty _)
    (fun _ => rfl) r (fun u => ?_) (fun u pid k => ?_) (fun u pid page tuple => ?_) true rfl⟩
  all_goals
    simp only [setPhase_phase, Function.update_apply]
    split_ifs <;> simp [init]

end Db

end RusticDb
