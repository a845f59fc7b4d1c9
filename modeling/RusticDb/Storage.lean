/-
# The disk over a run (`heap_file.rs`, `buffer_pool.rs`)

Two steps of `Db.Step` touch the files: `read_page` appends zero pages until the page
it reads exists, and the write-back of `commit_transaction` writes one page.  Over any
interleaving of the transactions, the files only grow and, when they start as whole
pages, stay whole pages (`files_grow_whole_pages`).  The bytes of a page change only
when a transaction whose commit has begun writes back a page that it dirtied
(`disk_written_only_by_commit`): no write of a transaction reaches the disk before its
commit, and no commit writes another transaction's page.
-/
import RusticDb.Isolation

namespace RusticDb

/-- A `read_page` that does not panic keeps a file of whole pages whole. -/
theorem readPage_aligned {file file' : List (BitVec 8)} {td : TupleDesc} {pid : HeapPageId}
    {page : HeapPage} (h : readPage file td pid = some (file', page))
    (hal : file.length % pageSize = 0) : file'.length % pageSize = 0 := by
  obtain ⟨f, hf, -, hal', -⟩ := readPageBytes_eq hal pid
  rw [readPage, hf, Option.some_bind] at h
  dsimp only at h
  obtain ⟨page₀, -, he⟩ := Option.map_eq_some'.1 h
  rw [← (Prod.mk.inj he).1]
  exact hal'

/-- A `write_page` that does not panic keeps a file of whole pages whole. -/
theorem writePage_aligned {file file' : List (BitVec 8)} {page : HeapPage}
    (h : writePage file page = some file') (hal : file.length % pageSize = 0) :
    file'.length % pageSize = 0 := by
  obtain ⟨d, hd, -⟩ := writePage_spec h
  obtain ⟨hw, hal', -⟩ := writePage_eq hal hd (HeapPage.length_getPageData hd)
  rw [hw, Option.some.injEq] at h
  rw [← h]
  exact hal'

/-- Replacing one table's file by one with the same pages changes no page. -/
theorem pageOf_update_of_pageOf {fs : Nat → List (BitVec 8)} {n : Nat} {file : List (BitVec 8)}
    (h : pageOf file = pageOf (fs n)) (q : HeapPageId) :
    pageOf (Function.update fs n file q.tableId) q.pageNumber = pageOf (fs q.tableId) q.pageNumber := by
  rw [Function.update_apply]
  split
  · next e => rw [e, h]
  · rfl

/-- A relation that holds of each file and itself, and of the file a step replaces and
its replacement, holds of every file before and after the step. -/
theorem update_rel {fs : Nat → List (BitVec 8)} {m : Nat} {file : List (BitVec 8)}
    {R : List (BitVec 8) → List (BitVec 8) → Prop} (hR : ∀ x, R x x) (h : R (fs m) file)
    (n : Nat) : R (fs n) (Function.update fs m file n) := by
  rw [Function.update_apply]
  split
  · next e => subst e; exact h
  · exact hR _

namespace Db

variable {catalog : Nat → Option TupleDesc} {s s' : Db} {t : Nat} {e : Effect}

/-- What a step does to the disk: every file keeps its length or grows, a file of whole
pages stays whole pages, and a page's bytes change only at the write-back of a page
that the moving transaction dirtied, its commit begun. -/
theorem Step.files (h : Inv catalog s) (hs : Step catalog t e s s') :
    (∀ n, (s.files n).length ≤ (s'.files n).length) ∧
    (∀ n, (s.files n).length % pageSize = 0 → (s'.files n).length % pageSize = 0) ∧
    ∀ q, pageOf (s'.files q.tableId) q.pageNumber = pageOf (s.files q.tableId) q.pageNumber ∨
      ∃ pending page, s.phase t = .finishing true pending ∧ q ∈ pending ∧
        s.idToPage q = some page ∧ page.dirtiedBy = some t := by
  cases hs
  case readPage pid k td file page hc hr hp =>
    exact ⟨update_rel (R := fun a b => a.length ≤ b.length) (fun _ => le_rfl) (readPage_length hr).1,
      update_rel (R := fun a b => a.length % pageSize = 0 → b.length % pageSize = 0) (fun _ => id)
        (readPage_aligned hr),
      fun q => .inl (pageOf_update_of_pageOf (readPage_spec hr).2 q)⟩
  case commitPage pending pid page page' file hmem hd _ _ hc hw hp =>
    refine ⟨update_rel (R := fun a b => a.length ≤ b.length) (fun _ => le_rfl) (writePage_length hw),
      update_rel (R := fun a b => a.length % pageSize = 0 → b.length % pageSize = 0) (fun _ => id)
        (writePage_aligned hw), fun q => ?_⟩
    by_cases hq : q = pid
    · subst hq
      exact .inr ⟨pending, page, hp, hmem, hc, h.dirtiedBy_of_pending hp hmem hc hd⟩
    · exact .inl (pageOf_writePage_ne hw (h.page_pid pid page hc) hq)
  all_goals exact ⟨fun _ => le_rfl, fun _ => id, fun _ => .inl rfl⟩

/-- **The files only grow, in whole pages.**  In every state that any interleaving of
the transactions reaches, each table's file is at least as long as it started, and a
file that started as whole pages is whole pages. -/
theorem files_grow_whole_pages {files : Nat → List (BitVec 8)} (hs : Reachable catalog files s)
    (n : Nat) :
    (files n).length ≤ (s.files n).length ∧
      ((files n).length % pageSize = 0 → (s.files n).length % pageSize = 0) := by
  induction hs with
  | init => exact ⟨le_rfl, id⟩
  | step hr hst ih =>
    obtain ⟨hlen, hal, -⟩ := hst.files hr.inv
    exact ⟨ih.1.trans (hlen n), fun h0 => hal n (ih.2 h0)⟩

/-- Transaction 1's first insert into the empty file of a table leaves the file whole
pages. -/
theorem files_grow_whole_pages_first_insert :
    ∃ s, Reachable (fun _ => some ⟨[.intType], ["id"]⟩) (fun _ => []) s ∧
      (s.files 1).length % pageSize = 0 := by
  obtain ⟨s, -, hs, -⟩ := reaches_first_insert
  exact ⟨s, hs, (files_grow_whole_pages hs 1).2 rfl⟩

/-- **Only a commit writes the disk.**  From every reachable state, a step leaves the
bytes of every page on disk as they are, except that the write-back of a transaction
whose commit has begun replaces a page that this transaction dirtied.  No write of a
transaction reaches the disk before its commit. -/
theorem disk_written_only_by_commit {files : Nat → List (BitVec 8)}
    (hs : Reachable catalog files s) (hst : Step catalog t e s s') (q : HeapPageId) :
    pageOf (s'.files q.tableId) q.pageNumber = pageOf (s.files q.tableId) q.pageNumber ∨
      ∃ pending page, s.phase t = .finishing true pending ∧ q ∈ pending ∧
        s.idToPage q = some page ∧ page.dirtiedBy = some t :=
  (hst.files hs.inv).2.2 q

/-- Transaction 2 writes a tuple into page `(2, 0)` while transaction 1 holds page `(1, 0)`
for its own write: neither commit has begun, and the write stays in the cache. -/
theorem disk_written_only_by_commit_two_inserts :
    ∃ s s' e, Reachable (fun _ => some ⟨[.intType], ["id"]⟩) (fun _ => []) s ∧
      Step (fun _ => some ⟨[.intType], ["id"]⟩) 2 e s s' ∧
      e = .write (.insert ⟨2, 0⟩ (Tuple.new [.intField ⟨8⟩] ⟨[.intType], ["id"]⟩)) ∧
      (pageOf (s'.files 2) 0 = pageOf (s.files 2) 0 ∨
        ∃ pending page, s.phase 2 = .finishing true pending ∧ (⟨2, 0⟩ : HeapPageId) ∈ pending ∧
          s.idToPage ⟨2, 0⟩ = some page ∧ page.dirtiedBy = some 2) := by
  obtain ⟨s, -, page₂, lm', hs, -, -, -, hp₂, ha, hc₂, hn₂⟩ := reaches_two_inserts
  obtain ⟨s₁, s₂, s₃, h₁, h₂, h₃⟩ := upgrade_insert_steps hp₂ ha hc₂ hn₂
  have hs₂ := (hs.step h₁).step h₂
  exact ⟨s₂, s₃, _, hs₂, h₃, rfl, disk_written_only_by_commit hs₂ h₃ ⟨2, 0⟩⟩

end Db

end RusticDb
