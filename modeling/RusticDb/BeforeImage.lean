/-
# The before-image (`heap_page.rs`, `buffer_pool.rs`)

`abort_transaction` puts back `get_before_image()`, the page decoded from `old_data`,
and `commit_transaction` sets `old_data` to the page's data after writing it.
`HeapPage::new`, which `read_page` calls, starts `old_data` as `PAGE_SIZE` zero bytes
rather than as the bytes it decodes.  So the before-image of a page fresh from disk is
the empty page, whatever the disk holds (`getBeforeImage_of_new`); and
`get_before_image` itself goes through `HeapPage::new`, so after an abort the
before-image is the empty page again.  `before_image_forgets_disk_page` shows it on a
page whose bytes on disk hold a tuple.
-/
import RusticDb.Isolation

namespace RusticDb

namespace HeapPage

/-- The before-image of a page that `HeapPage::new` decoded, from any bytes, is the page
with every slot free. -/
theorem getBeforeImage_of_new {pid : HeapPageId} {data : List (BitVec 8)} {td : TupleDesc}
    {P : HeapPage} (h : HeapPage.new pid data td = some P) :
    ∃ B, P.getBeforeImage = some B ∧ B.header = List.replicate (headerLen (slotCount td)) 0 := by
  obtain ⟨hpid, htd, -, hold⟩ := new_eq_some_fields h
  obtain ⟨B, hB, -, -, hh, -⟩ := new_replicate_zero pid td
  exact ⟨B, by rw [getBeforeImage, hpid, htd, hold, hB], hh⟩

end HeapPage

/-- A header whose first byte is `1` has slot 0, and only slot 0, taken. -/
theorem getSlot_one_cons (n i : Nat) : getSlot (1#8 :: List.replicate n 0) i = decide (i = 0) := by
  rw [HeapPage.getSlot_eq]
  rcases Nat.lt_or_ge i 8 with hi | hi
  · rw [Nat.div_eq_of_lt hi, Nat.mod_eq_of_lt hi]
    simp [BitVec.getLsbD_one]
  · obtain ⟨k, hk⟩ : ∃ k, i / 8 = k + 1 := ⟨i / 8 - 1, by omega⟩
    simp [hk, List.getD_eq_getElem?_getD, List.getElem?_replicate]
    split <;> simp <;> omega

/-- The page of a one-column `Int` table whose slot 0 holds `0` and whose other slots
are free, as the file of an earlier run leaves it. -/
theorem new_one_tuple_page :
    ∃ P, HeapPage.new ⟨1, 0⟩ (1#8 :: List.replicate 4095 0) ⟨[.intType], ["id"]⟩ = some P ∧
      getSlot P.header 0 = true := by
  set data : List (BitVec 8) := 1#8 :: List.replicate 4095 0 with hdata
  have hhs : headerLen (slotCount ⟨[.intType], ["id"]⟩) = 124 := by decide
  have htake : data.take 124 = 1#8 :: List.replicate 123 0 := by
    rw [hdata, List.take_succ_cons, List.take_replicate]
    rfl
  have hslot : (data.drop 124).take 4 = List.replicate 4 0 := by
    rw [hdata, List.drop_succ_cons, List.drop_replicate, List.take_replicate]
    rfl
  have hlen : data.length = 4096 := by
    rw [hdata, List.length_cons, List.length_replicate]
  obtain ⟨P, hP, -, -, hh, -⟩ := @HeapPage.new_eq_some ⟨1, 0⟩ data ⟨[.intType], ["id"]⟩
    (by rw [hhs, hlen]; decide) (fun i => if i = 0 then
      Tuple.new [.intField ⟨0⟩] ⟨[.intType], ["id"]⟩ else Tuple.new [] ⟨[.intType], ["id"]⟩)
    fun i _ => by
      rw [hhs, htake, HeapPage.decodeSlot, getSlot_one_cons]
      by_cases hi : i = 0
      · subst hi
        simp only [decide_True, if_true, Nat.zero_mul, Nat.add_zero, hlen, hslot]
        rfl
      · simp [hi]
  exact ⟨P, hP, by rw [hh, hhs, htake, getSlot_one_cons]; rfl⟩

/-- **The before-image forgets the disk.**  Transaction 1 reads page `(1, 0)` of a table
whose file holds a tuple in slot 0.  The cached page is clean and has slot 0 taken, as
the bytes on disk decode; its before-image, which an abort puts back, has slot 0
free. -/
theorem before_image_forgets_disk_page :
    ∃ s page disk before, Db.Reachable (fun _ => some ⟨[.intType], ["id"]⟩)
        (fun _ => 1#8 :: List.replicate 4095 0) s ∧
      s.idToPage ⟨1, 0⟩ = some page ∧ page.isDirty = false ∧
      HeapPage.new ⟨1, 0⟩ (pageOf (s.files 1) 0) ⟨[.intType], ["id"]⟩ = some disk ∧
      getSlot disk.header 0 = true ∧
      page.getBeforeImage = some before ∧ getSlot before.header 0 = false := by
  set file : List (BitVec 8) := 1#8 :: List.replicate 4095 0 with hfile
  have hlen : file.length = 4096 := by rw [hfile, List.length_cons, List.length_replicate]
  have hpage : pageOf file 0 = file := by
    rw [← take_drop_eq_pageOf (by rw [hlen]; decide), Nat.zero_mul, List.drop_zero]
    exact List.take_of_length_le (by rw [hlen]; decide)
  obtain ⟨P, hP, hslot⟩ := new_one_tuple_page
  obtain ⟨file', hrb, -, -, hpage'⟩ :=
    readPageBytes_eq (by rw [hlen]; decide : file.length % pageSize = 0) ⟨1, 0⟩
  have hread : readPage file ⟨[.intType], ["id"]⟩ ⟨1, 0⟩ = some (file', P) := by
    rw [readPage, hrb, Option.some_bind]
    dsimp only
    rw [hpage, hP]
    rfl
  obtain ⟨-, -, hclean, -⟩ := HeapPage.new_eq_some_fields hP
  obtain ⟨B, hB, hBh⟩ := HeapPage.getBeforeImage_of_new hP
  refine ⟨_, P, P, B, .step (.step (.step (.step (.step (.step .init
      (.getPage 1 ⟨1, 0⟩ false rfl))
      (.slowPath 1 _ _ _ rfl rfl))
      (.granted 1 _ _ _ rfl rfl))
      (.miss 1 _ _ rfl rfl))
      (.readPage 1 _ _ _ _ _ rfl rfl hread))
      (.install 1 _ _ _ rfl),
    rfl, by simp [HeapPage.isDirty, hclean], ?_, hslot, hB,
    by rw [hBh]; exact HeapPage.getSlot_replicate_zero _ _⟩
  show HeapPage.new ⟨1, 0⟩ (pageOf file' 0) _ = some P
  rw [hpage', hpage, hP]

end RusticDb
