/-
# Heap files (`heap_file.rs`: `read_page`, `write_page`, `num_pages`)

A table's file is its byte contents.  The file operations the code uses are:

* a positioned write (`seek` then `write_all`), `writeAt`: past the end of the file
  it leaves a hole that reads as zeros, as on POSIX files;
* `read_exact` at an offset, `readExact`: `none` (the `unwrap` panics) when fewer
  bytes remain;
* the length in pages, `numPages`: `ceil(len / PAGE_SIZE)`, which the code computes
  in `f64`, exactly for every file shorter than `2^53` bytes.

`readPage` is `HeapFile::read_page`: its `while` loop appends zero pages until page
`page_no` exists (`extendFile`), then it reads the page (`readPageBytes`, the part
that touches the file) and decodes it.  `writePage` is `HeapFile::write_page`.

The store law (`heap_file_store_law`) relates the file to an abstract page store,
`pageOf`: the bytes of page `p`, zeros past the end.  On a file whose length is a
multiple of `PAGE_SIZE`, every sequence of reads and writes of `PAGE_SIZE`-byte pages
keeps the length aligned, writes change only the page written, the zero-extension of
a read changes no page's bytes, and a read of page `p` finds `p + 1` pages, reads
them without failing, and decodes the last bytes written to `p`.  On any file,
`read_page` panics exactly when the file ends in a partial page and the page asked for
is that last one (`read_page_panics_iff`).
-/
import RusticDb.HeapPage
import Mathlib.Data.List.GetD

namespace RusticDb

/-! ## File operations -/

/-- A positioned write of `data` at byte `off` (`seek` + `write_all`). -/
def writeAt (file : List (BitVec 8)) (off : Nat) (data : List (BitVec 8)) : List (BitVec 8) :=
  file.take off ++ List.replicate (off - file.length) 0 ++ data ++ file.drop (off + data.length)

/-- `read_exact` of `n` bytes at byte `off`; `none` when the file is too short. -/
def readExact (file : List (BitVec 8)) (off n : Nat) : Option (List (BitVec 8)) :=
  if off + n ≤ file.length then some ((file.drop off).take n) else none

/-- `HeapFile::num_pages`: `ceil(len / PAGE_SIZE)`. -/
def numPages (file : List (BitVec 8)) : Nat := (file.length + pageSize - 1) / pageSize

/-- The `while num_pages <= page_no` loop of `read_page`, run `k` times from page
`n`: each round writes a zero page at page `n`. -/
def extendFile (file : List (BitVec 8)) (n : Nat) : Nat → List (BitVec 8)
  | 0 => file
  | k + 1 => extendFile (writeAt file (n * pageSize) (List.replicate pageSize 0)) (n + 1) k

/-- The file half of `HeapFile::read_page`: grow the file to hold page `page_no`, then
`read_exact` it.  Returns the new file contents and the page's bytes. -/
def readPageBytes (file : List (BitVec 8)) (pid : HeapPageId) :
    Option (List (BitVec 8) × List (BitVec 8)) :=
  let n := numPages file
  let file' := extendFile file n (pid.pageNumber + 1 - n)
  (readExact file' (pid.pageNumber * pageSize) pageSize).map fun data => (file', data)

/-- `HeapFile::read_page`: the bytes of the page, decoded by `HeapPage::new`. -/
def readPage (file : List (BitVec 8)) (td : TupleDesc) (pid : HeapPageId) :
    Option (List (BitVec 8) × HeapPage) :=
  (readPageBytes file pid).bind fun (file', data) =>
    (HeapPage.new pid data td).map fun page => (file', page)

/-- `HeapFile::write_page`: write `get_page_data()` at the page's offset. -/
def writePage (file : List (BitVec 8)) (page : HeapPage) : Option (List (BitVec 8)) :=
  page.getPageData.map (writeAt file (page.pid.pageNumber * pageSize))

/-! ## Bytes and pages -/

/-- The bytes of page `p`: the file's bytes there, zeros past its end. -/
def pageOf (file : List (BitVec 8)) (p : Nat) : List (BitVec 8) :=
  (List.range pageSize).map fun j => file.getD (p * pageSize + j) 0

theorem length_writeAt (file : List (BitVec 8)) (off : Nat) (data : List (BitVec 8)) :
    (writeAt file off data).length = max file.length (off + data.length) := by
  simp only [writeAt, List.length_append, List.length_take, List.length_replicate,
    List.length_drop]
  omega

/-- Byte `i` after a positioned write. -/
theorem getD_writeAt (file : List (BitVec 8)) (off : Nat) (data : List (BitVec 8)) (i : Nat) :
    (writeAt file off data).getD i 0 =
      if off ≤ i ∧ i < off + data.length then data.getD (i - off) 0 else file.getD i 0 := by
  have hA : (file.take off ++ List.replicate (off - file.length) 0).length = off := by
    simp only [List.length_append, List.length_take, List.length_replicate]; omega
  have hB : (file.take off ++ List.replicate (off - file.length) 0 ++ data).length =
      off + data.length := by rw [List.length_append, hA]
  unfold writeAt
  split
  · rw [List.getD_append _ _ _ _ (by omega), List.getD_append_right _ _ _ _ (by omega), hA]
  · rcases Nat.lt_or_ge i off with h₁ | h₁
    · -- before the data: the file's bytes, then the zeros of the hole past its end
      rw [List.getD_append _ _ _ _ (by omega), List.getD_append _ _ _ _ (by omega)]
      rcases Nat.lt_or_ge i file.length with h₂ | h₂
      · rw [List.getD_append _ _ _ _ (by simp; omega), List.getD_eq_getElem _ _ (by simp; omega),
          List.getD_eq_getElem _ _ h₂, List.getElem_take]
      · rw [List.getD_eq_default _ _ h₂, List.getD_append_right _ _ _ _ (by simp; omega)]
        simp [List.getD_eq_getElem?_getD]
    · -- past the data: the file's bytes after it
      rw [List.getD_append_right _ _ _ _ (by omega), hB]
      simp only [List.getD_eq_getElem?_getD, List.getElem?_drop]
      congr 2
      omega

/-- A page-aligned write of one page's bytes sets that page and no other. -/
theorem pageOf_writeAt (file : List (BitVec 8)) (p : Nat) {d : List (BitVec 8)}
    (hd : d.length = pageSize) (q : Nat) :
    pageOf (writeAt file (p * pageSize) d) q = if q = p then d else pageOf file q := by
  unfold pageOf
  split
  · subst q
    apply List.ext_getElem (by simp [hd])
    intro j hj _
    simp only [List.length_map, List.length_range] at hj
    rw [List.getElem_map, List.getElem_range, getD_writeAt, if_pos (by omega),
      Nat.add_sub_cancel_left, List.getD_eq_getElem _ _ (hd ▸ hj)]
  · rename_i hqp
    refine List.map_congr_left fun j hj => ?_
    have hj := List.mem_range.mp hj
    rw [getD_writeAt, if_neg]
    simp only [hd, pageSize] at hj ⊢
    intro h
    have : q = p := by
      rcases Nat.lt_or_ge q p with hlt | hge
      · have : q * 4096 + 4096 ≤ p * 4096 := by omega
        omega
      · rcases Nat.lt_or_ge p q with hlt' | hge'
        · have : p * 4096 + 4096 ≤ q * 4096 := by omega
          omega
        · omega
    exact hqp this

/-- A page past the end of the file reads as zeros. -/
theorem pageOf_of_length_le {file : List (BitVec 8)} {p : Nat}
    (h : file.length ≤ p * pageSize) : pageOf file p = List.replicate pageSize 0 := by
  apply List.ext_getElem (by simp [pageOf])
  intro j hj _
  simp only [pageOf, List.length_map, List.length_range] at hj
  simp only [pageOf, List.getElem_map, List.getElem_range, List.getElem_replicate]
  exact List.getD_eq_default _ _ (by omega)

/-- Where the page exists, `read_exact` of it returns its bytes. -/
theorem take_drop_eq_pageOf {file : List (BitVec 8)} {p : Nat}
    (h : p * pageSize + pageSize ≤ file.length) :
    (file.drop (p * pageSize)).take pageSize = pageOf file p := by
  apply List.ext_getElem (by simp [pageOf]; omega)
  intro j hj _
  simp only [List.length_take, List.length_drop] at hj
  simp only [List.getElem_take, List.getElem_drop, pageOf, List.getElem_map, List.getElem_range]
  rw [List.getD_eq_getElem _ _ (by omega)]

/-! ## The extension loop -/

/-- Writing zero pages past the end of the file changes no page's bytes. -/
theorem pageOf_extendFile {file : List (BitVec 8)} {n : Nat}
    (hn : file.length ≤ n * pageSize) (k : Nat) : pageOf (extendFile file n k) = pageOf file := by
  induction k generalizing file n with
  | zero => rfl
  | succ k ih =>
    have hlen := length_writeAt file (n * pageSize) (List.replicate pageSize 0)
    simp only [List.length_replicate] at hlen
    rw [extendFile, ih (by rw [hlen, Nat.succ_mul]; omega)]
    funext q
    rw [pageOf_writeAt _ _ (List.length_replicate _ _)]
    split
    · subst q; exact (pageOf_of_length_le hn).symm
    · rfl

/-- After `k + 1` rounds from page `n` (with the file ending by page `n`) the file
holds exactly `n + k + 1` pages. -/
theorem length_extendFile {file : List (BitVec 8)} {n : Nat}
    (hn : file.length ≤ n * pageSize) (k : Nat) :
    (extendFile file n (k + 1)).length = (n + k + 1) * pageSize := by
  induction k generalizing file n with
  | zero =>
    simp only [extendFile, length_writeAt, List.length_replicate]
    rw [Nat.add_zero, Nat.succ_mul]; omega
  | succ k ih =>
    have hlen := length_writeAt file (n * pageSize) (List.replicate pageSize 0)
    simp only [List.length_replicate] at hlen
    rw [extendFile, ih (by rw [hlen, Nat.succ_mul]; omega)]
    simp only [Nat.add_assoc, Nat.add_comm 1 k]

/-- The extension loop only appends. -/
theorem length_le_extendFile (file : List (BitVec 8)) (n k : Nat) :
    file.length ≤ (extendFile file n k).length := by
  induction k generalizing file n with
  | zero => exact le_rfl
  | succ k ih =>
    calc file.length ≤ (writeAt file (n * pageSize) (List.replicate pageSize 0)).length := by
          rw [length_writeAt]; exact le_max_left _ _
      _ ≤ _ := ih _ _

/-! ## `read_page` and `write_page` on an aligned file -/

/-- On a file of whole pages, `read_page` grows the file to at least `p + 1` whole
pages without changing any page, and `read_exact` returns the bytes of page `p`. -/
theorem readPageBytes_eq {file : List (BitVec 8)} (hal : file.length % pageSize = 0)
    (pid : HeapPageId) :
    ∃ file', readPageBytes file pid = some (file', pageOf file pid.pageNumber) ∧
      (pid.pageNumber + 1) * pageSize ≤ file'.length ∧ file'.length % pageSize = 0 ∧
      pageOf file' = pageOf file := by
  have hn : numPages file * pageSize = file.length := by
    simp only [numPages, pageSize] at hal ⊢; omega
  set p := pid.pageNumber
  set file' := extendFile file (numPages file) (p + 1 - numPages file) with hfile'
  have hpage := pageOf_extendFile (Nat.le_of_eq hn.symm) (p + 1 - numPages file)
  have hlen : (p + 1) * pageSize ≤ file'.length ∧ file'.length % pageSize = 0 := by
    rcases Nat.eq_zero_or_pos (p + 1 - numPages file) with h0 | hpos
    · rw [hfile', h0]
      refine ⟨?_, hal⟩
      rw [extendFile, ← hn]; exact Nat.mul_le_mul_right _ (by omega)
    · obtain ⟨k, hk⟩ : ∃ k, p + 1 - numPages file = k + 1 := ⟨_, (Nat.succ_pred_eq_of_pos hpos).symm⟩
      rw [hfile', hk, length_extendFile (Nat.le_of_eq hn.symm)]
      exact ⟨Nat.mul_le_mul_right _ (by omega), Nat.mul_mod_left _ _⟩
  refine ⟨file', ?_, hlen.1, hlen.2, hpage⟩
  have hread : readExact file' (p * pageSize) pageSize = some (pageOf file p) := by
    rw [readExact, if_pos (by rw [← Nat.succ_mul]; exact hlen.1),
      take_drop_eq_pageOf (by rw [← Nat.succ_mul]; exact hlen.1), hpage]
  simp only [readPageBytes, hread, Option.map_some']

/-- On a file of whole pages, `write_page` of a page whose data is one page long
replaces that page's bytes and no other, and keeps the file whole pages. -/
theorem writePage_eq {file : List (BitVec 8)} (hal : file.length % pageSize = 0)
    {page : HeapPage} {d : List (BitVec 8)} (hd : page.getPageData = some d)
    (hlen : d.length = pageSize) :
    writePage file page = some (writeAt file (page.pid.pageNumber * pageSize) d) ∧
      (writeAt file (page.pid.pageNumber * pageSize) d).length % pageSize = 0 ∧
      pageOf (writeAt file (page.pid.pageNumber * pageSize) d) =
        Function.update (pageOf file) page.pid.pageNumber d := by
  refine ⟨by simp [writePage, hd], ?_, ?_⟩
  · rw [length_writeAt, hlen, ← Nat.succ_mul]
    simp only [pageSize] at hal ⊢
    omega
  · funext q
    rw [pageOf_writeAt _ _ hlen, Function.update_apply]

/-- **Where `read_page` panics.**  The `read_exact` of `read_page` fails exactly when
the file ends with a partial page and the page asked for is that last one: on every
other page, of any file, the zero-extension and the read go through. -/
theorem read_page_panics_iff (file : List (BitVec 8)) (pid : HeapPageId) :
    readPageBytes file pid = none ↔
      file.length % pageSize ≠ 0 ∧ pid.pageNumber + 1 = numPages file := by
  have hn : file.length ≤ numPages file * pageSize := by simp only [numPages, pageSize]; omega
  have hn' : numPages file * pageSize < file.length + pageSize := by
    simp only [numPages, pageSize]; omega
  rw [readPageBytes, Option.map_eq_none', readExact]
  rcases Nat.eq_zero_or_pos (pid.pageNumber + 1 - numPages file) with h0 | hpos
  · rw [h0, extendFile, ite_eq_right_iff, ← Nat.succ_mul]
    simp only [reduceCtorEq, imp_false, not_le, numPages, pageSize] at h0 ⊢
    omega
  · obtain ⟨k, hk⟩ : ∃ k, pid.pageNumber + 1 - numPages file = k + 1 :=
      ⟨_, (Nat.succ_pred_eq_of_pos hpos).symm⟩
    rw [hk, length_extendFile hn, show numPages file + k + 1 = pid.pageNumber + 1 by omega,
      Nat.succ_mul, ite_eq_right_iff]
    simp only [reduceCtorEq, imp_false, not_le]
    omega

/-! ## `read_page` and `write_page` on any file -/

/-- Whatever the file, a `read_page` that does not panic returns the bytes of its page
and changes no page. -/
theorem readPageBytes_spec {file file' data : List (BitVec 8)} {pid : HeapPageId}
    (h : readPageBytes file pid = some (file', data)) :
    data = pageOf file pid.pageNumber ∧ pageOf file' = pageOf file := by
  unfold readPageBytes at h
  obtain ⟨data', hread, he⟩ := Option.map_eq_some'.1 h
  simp only [Prod.mk.injEq] at he
  obtain ⟨rfl, rfl⟩ := he
  have hn : file.length ≤ numPages file * pageSize := by simp only [numPages, pageSize]; omega
  have hpage := pageOf_extendFile hn (pid.pageNumber + 1 - numPages file)
  unfold readExact at hread
  split_ifs at hread with hle
  cases hread
  exact ⟨by rw [take_drop_eq_pageOf hle, hpage], hpage⟩

theorem readPage_spec {file file' : List (BitVec 8)} {td : TupleDesc} {pid : HeapPageId}
    {page : HeapPage} (h : readPage file td pid = some (file', page)) :
    HeapPage.new pid (pageOf file pid.pageNumber) td = some page ∧ pageOf file' = pageOf file := by
  unfold readPage at h
  obtain ⟨⟨f, data⟩, hb, hn⟩ := Option.bind_eq_some.1 h
  obtain ⟨page', hnew, he⟩ := Option.map_eq_some'.1 hn
  simp only [Prod.mk.injEq] at he
  obtain ⟨rfl, rfl⟩ := he
  obtain ⟨hd, hpage⟩ := readPageBytes_spec hb
  rw [← hd]
  exact ⟨hnew, hpage⟩

/-- On a file of whole pages, `read_page` of a page whose bytes are all zero decodes
the zero page, grows the file to hold the page, and changes no page's bytes. -/
theorem readPage_of_zero_bytes {file : List (BitVec 8)} (hal : file.length % pageSize = 0)
    (td : TupleDesc) (pid : HeapPageId)
    (hz : pageOf file pid.pageNumber = List.replicate pageSize 0) :
    ∃ file' Q, readPage file td pid = some (file', Q) ∧
      HeapPage.new pid (List.replicate pageSize 0) td = some Q ∧
      (pid.pageNumber + 1) * pageSize ≤ file'.length ∧ file'.length % pageSize = 0 ∧
      pageOf file' = pageOf file := by
  obtain ⟨Q, hQ, -⟩ := HeapPage.new_replicate_zero pid td
  obtain ⟨file', hrb, hlen, hal', hpage⟩ := readPageBytes_eq hal pid
  refine ⟨file', Q, ?_, hQ, hlen, hal', hpage⟩
  rw [readPage, hrb, Option.some_bind]
  dsimp only
  rw [hz, hQ]
  rfl

/-- The file only grows: a `read_page` that does not panic leaves it holding its page. -/
theorem readPage_length {file file' : List (BitVec 8)} {td : TupleDesc} {pid : HeapPageId}
    {page : HeapPage} (h : readPage file td pid = some (file', page)) :
    file.length ≤ file'.length ∧ (pid.pageNumber + 1) * pageSize ≤ file'.length := by
  unfold readPage at h
  obtain ⟨⟨f, data⟩, hb, hn⟩ := Option.bind_eq_some.1 h
  obtain ⟨page', -, he⟩ := Option.map_eq_some'.1 hn
  obtain ⟨rfl, -⟩ := Prod.mk.inj he
  unfold readPageBytes at hb
  obtain ⟨data', hread, he'⟩ := Option.map_eq_some'.1 hb
  obtain ⟨rfl, -⟩ := Prod.mk.inj he'
  unfold readExact at hread
  split_ifs at hread with hle
  exact ⟨length_le_extendFile _ _ _, by rw [Nat.succ_mul]; exact hle⟩

theorem writePage_length {file file' : List (BitVec 8)} {page : HeapPage}
    (h : writePage file page = some file') : file.length ≤ file'.length := by
  obtain ⟨d, -, rfl⟩ := Option.map_eq_some'.1 h
  rw [length_writeAt]
  exact le_max_left _ _

/-- A `write_page` that does not panic replaces the bytes of its page and no other. -/
theorem writePage_spec {file file' : List (BitVec 8)} {page : HeapPage}
    (h : writePage file page = some file') :
    ∃ d, page.getPageData = some d ∧
      pageOf file' = Function.update (pageOf file) page.pid.pageNumber d := by
  unfold writePage at h
  obtain ⟨d, hd, rfl⟩ := Option.map_eq_some'.1 h
  refine ⟨d, hd, funext fun q => ?_⟩
  rw [pageOf_writeAt _ _ (HeapPage.length_getPageData hd), Function.update_apply]

/-- `write_page` of page `pid` into its table's file keeps the bytes of every other
page. -/
theorem pageOf_writePage_ne {fs : Nat → List (BitVec 8)} {pid q : HeapPageId} {page : HeapPage}
    {file : List (BitVec 8)} (hw : writePage (fs pid.tableId) page = some file)
    (hpid : page.pid = pid) (hq : q ≠ pid) :
    pageOf (Function.update fs pid.tableId file q.tableId) q.pageNumber =
      pageOf (fs q.tableId) q.pageNumber := by
  obtain ⟨d, -, hfile⟩ := writePage_spec hw
  rw [Function.update_apply]
  split
  · next e =>
    rw [e, hfile, Function.update_noteq]
    rw [hpid]
    intro hn
    exact hq (by cases q; cases pid; simp_all)
  · rfl

/-! ## What `HeapPage::new`, `get_before_image` and `read_page` reject -/

namespace HeapPage

/-- `HeapPage::new` rejects exactly the images with an occupied slot that fails
`Tuple::deserialize`, decoded from the slot's own bytes. -/
theorem new_eq_none_iff_string (pid : HeapPageId) {data : List (BitVec 8)}
    (hlen : data.length = pageSize) (td : TupleDesc) :
    HeapPage.new pid data td = none ↔ ∃ i < slotCount td,
      getSlot (data.take (headerLen (slotCount td))) i = true ∧
      ∃ k, ∃ hk : k < td.types.length, td.types[k] = .stringType ∧
        let rest := ((data.drop (headerLen (slotCount td) + i * td.getSize)).take td.getSize).drop
          ((td.types.take k).foldl (fun acc t => acc + t.getLen) 0)
        (rest.length < (fromBeBytes rest).toNat + 4 ∨
          validUtf8 ((rest.drop 4).take (fromBeBytes rest).toNat) = false) := by
  rw [new_eq_none_iff pid hlen]
  refine exists_congr fun i => and_congr_right fun hi => and_congr_right fun _ => ?_
  have hslot : ((data.drop (headerLen (slotCount td) + i * td.getSize)).take td.getSize).length =
      td.getSize := by
    have := slot_end_le hi
    simp; omega
  rw [Tuple.deserialize, Option.map_eq_none',
    deserializeFields_eq_none_iff _ _ 0 (le_of_eq hslot.symm)]
  refine exists_congr fun k => exists_congr fun hk => ?_
  have := foldl_take_add_getLen_le td.types hk
  rw [FieldType.parse_eq_none_iff _ (by rw [List.length_drop, hslot, TupleDesc.getSize]; omega)]

/-- **What `HeapPage::new` rejects.**  On a page image of `PAGE_SIZE` bytes the header
and every slot are sliced inside the image, and each occupied slot is decoded from its
own bytes.  `new` panics exactly when, in some occupied slot, a string column's length
prefix reaches past the end of the slot or its payload is not UTF-8.  The payload is
read from the column's offset to the end of the slot, so a prefix above `STRING_SIZE`
that stays in the slot is accepted.  `get_before_image` decodes the saved image with
`new`, and `read_page` the image it reads, so each panics in the same cases. -/
theorem page_decode_panics_iff (pid : HeapPageId) {data : List (BitVec 8)}
    (hlen : data.length = pageSize) (td : TupleDesc) :
    (HeapPage.new pid data td = none ↔ ∃ i < slotCount td,
      getSlot (data.take (headerLen (slotCount td))) i = true ∧
      ∃ k, ∃ hk : k < td.types.length, td.types[k] = .stringType ∧
        let rest := ((data.drop (headerLen (slotCount td) + i * td.getSize)).take td.getSize).drop
          ((td.types.take k).foldl (fun acc t => acc + t.getLen) 0)
        (rest.length < (fromBeBytes rest).toNat + 4 ∨
          validUtf8 ((rest.drop 4).take (fromBeBytes rest).toNat) = false)) ∧
    (∀ P : HeapPage, P.pid = pid → P.oldData = data → P.td = td →
      (P.getBeforeImage = none ↔ HeapPage.new pid data td = none)) ∧
    ∀ file file', readPageBytes file pid = some (file', data) →
      (readPage file td pid = none ↔ HeapPage.new pid data td = none) := by
  refine ⟨new_eq_none_iff_string pid hlen td, fun P h₁ h₂ h₃ => ?_, fun file file' h => ?_⟩
  · rw [getBeforeImage, h₁, h₂, h₃]
  · rw [readPage, h, Option.some_bind, Option.map_eq_none']

set_option maxRecDepth 4000 in
/-- A page image of a string column whose slot 0 holds a string of declared length one
with the byte `0xFF`: the slot is taken and the payload is not UTF-8, so `new` panics, and
so do `get_before_image` of a page that saved this image and `read_page` of a file whose
page `(1, 0)` holds it. -/
theorem page_decode_panics_iff_bad_string :
    ([1, 0, 0, 0, 0, 1, 0xFF] ++ List.replicate 4089 0 : List (BitVec 8)).length = pageSize ∧
    HeapPage.new ⟨1, 0⟩ ([1, 0, 0, 0, 0, 1, 0xFF] ++ List.replicate 4089 0)
      ⟨[.stringType], ["s"]⟩ = none ∧
    (∀ P : HeapPage, P.pid = ⟨1, 0⟩ → P.oldData = [1, 0, 0, 0, 0, 1, 0xFF] ++ List.replicate 4089 0 →
      P.td = ⟨[.stringType], ["s"]⟩ → P.getBeforeImage = none) ∧
    ∀ file file', readPageBytes file ⟨1, 0⟩ =
        some (file', [1, 0, 0, 0, 0, 1, 0xFF] ++ List.replicate 4089 0) →
      readPage file ⟨[.stringType], ["s"]⟩ ⟨1, 0⟩ = none := by
  have hlen : ([1, 0, 0, 0, 0, 1, 0xFF] ++ List.replicate 4089 0 : List (BitVec 8)).length =
      pageSize := by
    simp only [List.length_append, List.length_replicate, List.length_cons, List.length_nil,
      pageSize]
  have h := page_decode_panics_iff ⟨1, 0⟩ hlen ⟨[.stringType], ["s"]⟩
  have hnew := h.1.2 ⟨0, by decide, by decide, 0, by decide, rfl, .inr (by decide)⟩
  exact ⟨hlen, hnew, fun P h₁ h₂ h₃ => (h.2.1 P h₁ h₂ h₃).2 hnew,
    fun file file' hb => (h.2.2 file file' hb).2 hnew⟩

end HeapPage

/-! ## The store law -/

/-- A call on a table's file. -/
inductive FileOp where
  | read (pid : HeapPageId)
  | write (page : HeapPage)

/-- The file after one call; `none` when the call panics. -/
def FileOp.exec (file : List (BitVec 8)) : FileOp → Option (List (BitVec 8))
  | .read pid => (readPageBytes file pid).map Prod.fst
  | .write page => writePage file page

/-- The file after a sequence of calls. -/
def execFileOps : List (BitVec 8) → List FileOp → Option (List (BitVec 8))
  | file, [] => some file
  | file, op :: ops => (op.exec file).bind fun file' => execFileOps file' ops

/-- The abstract store after one call: a write replaces the bytes of its page. -/
def FileOp.store (s : Nat → List (BitVec 8)) : FileOp → Nat → List (BitVec 8)
  | .read _ => s
  | .write page => Function.update s page.pid.pageNumber (page.getPageData.getD [])

/-- The abstract store after a sequence of calls. -/
def storeOps (s : Nat → List (BitVec 8)) (ops : List FileOp) : Nat → List (BitVec 8) :=
  ops.foldl FileOp.store s

@[simp] theorem storeOps_nil (s : Nat → List (BitVec 8)) : storeOps s [] = s := rfl

@[simp] theorem storeOps_cons (s : Nat → List (BitVec 8)) (op : FileOp) (ops : List FileOp) :
    storeOps s (op :: ops) = storeOps (op.store s) ops := rfl

/-- One call keeps the file whole pages and moves its pages as the store moves. -/
theorem FileOp.exec_eq {file : List (BitVec 8)} (hal : file.length % pageSize = 0)
    (op : FileOp)
    (hw : ∀ page, op = .write page → ∃ d, page.getPageData = some d ∧ d.length = pageSize) :
    ∃ file', op.exec file = some file' ∧ file'.length % pageSize = 0 ∧
      pageOf file' = op.store (pageOf file) := by
  cases op with
  | read pid =>
    obtain ⟨file', h, -, hal', hpage⟩ := readPageBytes_eq hal pid
    exact ⟨file', by simp [exec, h], hal', hpage⟩
  | write page =>
    obtain ⟨d, hd, hlen⟩ := hw page rfl
    obtain ⟨h, hal', hpage⟩ := writePage_eq hal hd hlen
    exact ⟨_, h, hal', by simp [store, hpage, hd]⟩

/-- **The heap-file store law.**  Start from a file of whole pages and run any
sequence of `read_page` and `write_page` calls whose pages encode to `PAGE_SIZE`
bytes.  No call panics; the file stays whole pages; each page holds the bytes last
written to it (its initial bytes if never written, zeros if it did not exist), so a
write changes only its page and an extension changes none; and a `read_page` of any
page `p` then grows the file to at least `p + 1` whole pages, reads without failing,
changes no page, and decodes exactly those bytes. -/
theorem heap_file_store_law {file : List (BitVec 8)} (hfile : file.length % pageSize = 0)
    (ops : List FileOp)
    (hw : ∀ page, FileOp.write page ∈ ops →
      ∃ d, page.getPageData = some d ∧ d.length = pageSize) :
    ∃ file', execFileOps file ops = some file' ∧ file'.length % pageSize = 0 ∧
      pageOf file' = storeOps (pageOf file) ops ∧
      ∀ (td : TupleDesc) (pid : HeapPageId), ∃ file'',
        readPageBytes file' pid = some (file'', storeOps (pageOf file) ops pid.pageNumber) ∧
        (pid.pageNumber + 1) * pageSize ≤ file''.length ∧ file''.length % pageSize = 0 ∧
        pageOf file'' = pageOf file' ∧
        readPage file' td pid =
          (HeapPage.new pid (storeOps (pageOf file) ops pid.pageNumber) td).map
            fun page => (file'', page) := by
  induction ops generalizing file with
  | nil =>
    rw [storeOps_nil]
    refine ⟨file, rfl, hfile, rfl, fun td pid => ?_⟩
    obtain ⟨file'', h, hlen, hal, hpage⟩ := readPageBytes_eq hfile pid
    refine ⟨file'', h, hlen, hal, hpage, ?_⟩
    rw [readPage, h, Option.some_bind]
  | cons op ops ih =>
    obtain ⟨file1, h1, hal1, hpage1⟩ :=
      FileOp.exec_eq hfile op fun page hp => hw page (by simp [hp])
    obtain ⟨file', h, hal, hpage, hread⟩ :=
      ih hal1 fun page hp => hw page (List.mem_cons_of_mem _ hp)
    rw [hpage1] at hpage hread
    rw [storeOps_cons]
    refine ⟨file', ?_, hal, hpage, hread⟩
    rw [execFileOps, h1, Option.some_bind, h]

/-- A file of two pages of `0x01` bytes: the zero page of `(1, 0)` is written over page 0,
the zero page of `(1, 3)` past the end of the file, leaving page 2 a hole, and then page 5
is read.  No call panics, and page 0 reads back as the bytes written. -/
theorem heap_file_store_law_write_hole :
    ∃ P₀ P₃ : HeapPage, P₀.pid = ⟨1, 0⟩ ∧ P₃.pid = ⟨1, 3⟩ ∧
      ∃ file', execFileOps (List.replicate (2 * pageSize) 1)
          [.write P₀, .write P₃, .read ⟨1, 5⟩] = some file' ∧ file'.length % pageSize = 0 ∧
        pageOf file' = storeOps (pageOf (List.replicate (2 * pageSize) 1))
          [.write P₀, .write P₃, .read ⟨1, 5⟩] ∧
        ∃ file'', readPage file' ⟨[.intType], ["id"]⟩ ⟨1, 0⟩ =
          (HeapPage.new ⟨1, 0⟩ (storeOps (pageOf (List.replicate (2 * pageSize) 1))
            [.write P₀, .write P₃, .read ⟨1, 5⟩] 0) ⟨[.intType], ["id"]⟩).map
            fun page => (file'', page) := by
  obtain ⟨P₀, -, h₀, -, hh₀, -, -⟩ := HeapPage.new_replicate_zero ⟨1, 0⟩ ⟨[.intType], ["id"]⟩
  obtain ⟨P₃, -, h₃, -, hh₃, -, -⟩ := HeapPage.new_replicate_zero ⟨1, 3⟩ ⟨[.intType], ["id"]⟩
  have hfile : (List.replicate (2 * pageSize) (1 : BitVec 8)).length % pageSize = 0 := by
    rw [List.length_replicate, Nat.mul_mod_left]
  obtain ⟨file', hx, hal, hpage, hread⟩ := heap_file_store_law hfile
    [.write P₀, .write P₃, .read ⟨1, 5⟩] fun page hp => by
      simp only [List.mem_cons, FileOp.write.injEq, reduceCtorEq, List.not_mem_nil,
        or_false] at hp
      rcases hp with rfl | rfl
      exacts [HeapPage.getPageData_of_header_zero hh₀, HeapPage.getPageData_of_header_zero hh₃]
  obtain ⟨file'', -, -, -, -, hr⟩ := hread ⟨[.intType], ["id"]⟩ ⟨1, 0⟩
  exact ⟨P₀, P₃, h₀, h₃, file', hx, hal, hpage, file'', hr⟩

end RusticDb
