/-
# Heap pages (`heap_page.rs`)

A `HeapPage` is the in-memory form of one `PAGE_SIZE`-byte slotted page:

* `numSlots = (PAGE_SIZE * 8) / (td.get_size() * 8 + 1)` (`slotCount`) and
  `headerSize = ceil(numSlots / 8)`; the code computes the ceiling in `f64`, which
  is exact for every slot count here (at most `PAGE_SIZE * 8 < 2^53`).  This is the
  largest layout that fits in a page, and it has no slot exactly when one tuple
  needs `PAGE_SIZE` bytes or more (`slot_count_exact`).
* The header is a bitmap, bit `i` of byte `i / 8` (`getSlot`, `setSlot`); slot `i`
  holds `tuples[i]`.
* `oldData` is the before-image and `dirtiedBy` the transaction that last wrote
  the page.  `HeapPage.new` initialises `oldData` to `PAGE_SIZE` zero bytes.

The structure carries the layout facts every constructor and mutator of the code
keeps (`numSlots_eq`, `headerSize_eq`, `header_length`, `tuples_length`), so that
the indexing of `get_page_data` and `add_tuple` is in range by construction.  The
one index the code can really take out of range, `tuples[tuple_no]` in
`delete_tuple` when a padding bit of the header is set, is the `none` of
`deleteTuple`.  Every other `none` is a panic of the code too: a slice past the end
of the page in `HeapPage::new`, a failed tuple decode, or the padding subtraction
`PAGE_SIZE - data.len()` of `get_page_data`.
-/
import RusticDb.Tuple

namespace RusticDb

/-! ## Layout -/

/-- `num_slots` of a page whose tuples have descriptor `td`. -/
def slotCount (td : TupleDesc) : Nat := (pageSize * 8) / (td.getSize * 8 + 1)

/-- `header_size = ceil(num_slots / 8)`. -/
def headerLen (numSlots : Nat) : Nat := (numSlots + 7) / 8

/-- The header and the slots fit in a page. -/
theorem headerLen_add_slots_le (td : TupleDesc) :
    headerLen (slotCount td) + slotCount td * td.getSize ≤ pageSize := by
  have h := Nat.div_mul_le_self (pageSize * 8) (td.getSize * 8 + 1)
  simp only [headerLen, slotCount, pageSize] at *
  generalize 4096 * 8 / (td.getSize * 8 + 1) = n at *
  rw [Nat.mul_add, Nat.mul_one, ← Nat.mul_assoc] at h
  omega

/-- **The layout is the largest that fits.**  The header and the slots of `HeapPage::new`
fit in `PAGE_SIZE` bytes, one slot more would not, and a table gets no slot at all exactly
when one of its tuples needs `PAGE_SIZE` bytes or more. -/
theorem slot_count_exact (td : TupleDesc) :
    headerLen (slotCount td) + slotCount td * td.getSize ≤ pageSize ∧
      pageSize < headerLen (slotCount td + 1) + (slotCount td + 1) * td.getSize ∧
      (slotCount td = 0 ↔ pageSize ≤ td.getSize) := by
  have hpos : 0 < td.getSize * 8 + 1 := Nat.succ_pos _
  have hmore := Nat.lt_mul_div_succ (pageSize * 8) hpos
  have hzero := Nat.div_eq_zero_iff hpos (a := pageSize * 8)
  refine ⟨headerLen_add_slots_le td, ?_, ?_⟩
  all_goals
    simp only [headerLen, slotCount, pageSize] at *
    generalize 4096 * 8 / (td.getSize * 8 + 1) = n at *
  · rw [Nat.add_mul, Nat.one_mul, Nat.mul_right_comm, Nat.mul_add_one td.getSize] at hmore
    rw [Nat.succ_mul, Nat.mul_comm n]
    omega
  · omega

/-- `HeapPage::get_slot`: bit `i` of the header; `false` past its end. -/
def getSlot (header : List (BitVec 8)) (i : Nat) : Bool :=
  if h : i / 8 < header.length then header.get ⟨i / 8, h⟩ &&& (1#8 <<< (i % 8)) != 0#8
  else false

/-- `HeapPage::set_slot`: set or clear bit `i` (the byte index is in range at both
call sites: `i < num_slots` in `add_tuple`, a set bit in `delete_tuple`). -/
def setSlot (header : List (BitVec 8)) (i : Nat) (value : Bool) : List (BitVec 8) :=
  let byte := header.getD (i / 8) 0
  let mask := 1#8 <<< (i % 8)
  header.set (i / 8) (if value then byte ||| mask else byte &&& ~~~mask)

/-- `HeapPage`. -/
structure HeapPage where
  pid : HeapPageId
  td : TupleDesc
  headerSize : Nat
  header : List (BitVec 8)
  tuples : List Tuple
  numSlots : Nat
  oldData : List (BitVec 8)
  dirtiedBy : Option Nat
  numSlots_eq : numSlots = slotCount td
  headerSize_eq : headerSize = headerLen numSlots
  header_length : header.length = headerSize
  tuples_length : tuples.length = numSlots

instance : Inhabited Tuple := ⟨Tuple.new [] ⟨[], []⟩⟩

namespace HeapPage

/-- Slot `i` of the page data: the tuple's bytes if occupied, zeros otherwise (the
body of the loop of `get_page_data`; `tuples[i]` is in range since `i < num_slots`). -/
def slotBytes (P : HeapPage) (i : Nat) : List (BitVec 8) :=
  if getSlot P.header i then (P.tuples.getD i default).serialize
  else List.replicate P.td.getSize 0

/-- `HeapPage::get_page_data`; `none` when `PAGE_SIZE - data.len()` underflows. -/
def getPageData (P : HeapPage) : Option (List (BitVec 8)) :=
  let data := P.header ++ (List.range P.numSlots).flatMap P.slotBytes
  if pageSize < data.length then none
  else some (data ++ List.replicate (pageSize - data.length) 0)

/-- The decoding of slot `i` in `HeapPage::new`: an occupied slot is deserialized
from `data[start..end]` (a panic when `end` is past the data), a free one is the
empty tuple. -/
def decodeSlot (data header : List (BitVec 8)) (td : TupleDesc) (headerSize i : Nat) :
    Option Tuple :=
  if getSlot header i then
    let start := headerSize + i * td.getSize
    if data.length < start + td.getSize then none
    else Tuple.deserialize ((data.drop start).take td.getSize) td
  else some (Tuple.new [] td)

end HeapPage

namespace HeapPage

/-- `HeapPage::new`: decode a page from `data`.  The before-image starts as
`PAGE_SIZE` zero bytes, not as `data`. -/
def new (pid : HeapPageId) (data : List (BitVec 8)) (td : TupleDesc) : Option HeapPage :=
  let numSlots := slotCount td
  let headerSize := headerLen numSlots
  if hd : data.length < headerSize then none
  else
    let header := data.take headerSize
    match hts : (List.range numSlots).mapM (decodeSlot data header td headerSize) with
    | none => none
    | some tuples =>
      some { pid, td, headerSize, header, tuples, numSlots
             oldData := List.replicate pageSize 0
             dirtiedBy := none
             numSlots_eq := rfl
             headerSize_eq := rfl
             header_length := by simp only [header, List.length_take]; omega
             tuples_length := by simpa using length_of_mapM_eq_some hts }

/-- `HeapPage::get_before_image`: the page decoded from `old_data`. -/
def getBeforeImage (P : HeapPage) : Option HeapPage := HeapPage.new P.pid P.oldData P.td

/-- `HeapPage::set_before_image`: `old_data := get_page_data()`. -/
def setBeforeImage (P : HeapPage) : Option HeapPage :=
  P.getPageData.map fun d => { P with oldData := d }

/-- `HeapPage::mark_dirty`. -/
def markDirty (P : HeapPage) (dirty : Bool) (tid : Nat) : HeapPage :=
  { P with dirtiedBy := if dirty then some tid else none }

/-- `HeapPage::is_dirty`. -/
def isDirty (P : HeapPage) : Bool := P.dirtiedBy.isSome

/-- `HeapPage::get_num_empty_slots`. -/
def getNumEmptySlots (P : HeapPage) : Nat :=
  (List.range P.numSlots).countP fun i => !getSlot P.header i

/-- `HeapPage::add_tuple`: put `t` in the first free slot (scanning up from 0) and set
its bit; `Err` when every slot is taken.  The tuple is stored as given: its record id
is not set. -/
def addTuple (P : HeapPage) (t : Tuple) : Except String HeapPage :=
  match (List.range P.numSlots).find? (fun i => !getSlot P.header i) with
  | some i => .ok { P with
      tuples := P.tuples.set i t
      header := setSlot P.header i true
      header_length := by simp [setSlot, P.header_length]
      tuples_length := by simp [P.tuples_length] }
  | none => .error "No empty slots"

/-- `HeapPage::delete_tuple`: free the slot named by `t`'s record id.  `Err` when the
record id names another page or a free slot; `none` (a panic) when the header bit
is set past the end of `tuples`. -/
def deleteTuple (P : HeapPage) (t : Tuple) : Option (Except String HeapPage) :=
  let rid := t.rid
  let tupleNo := rid.tupleNo
  if rid.pid ≠ P.pid then some (.error "Tuple not on this page")
  else if !getSlot P.header tupleNo then some (.error "Tuple not on this page")
  else if tupleNo < P.tuples.length then
    some (.ok { P with
      tuples := P.tuples.set tupleNo (Tuple.new [] P.td)
      header := setSlot P.header tupleNo false
      header_length := by simp [setSlot, P.header_length]
      tuples_length := by simp [P.tuples_length] })
  else none

/-! ## Header bits -/

/-- The mask test of `get_slot` reads one bit of the byte. -/
theorem and_mask_ne_zero (b : BitVec 8) {k : Nat} (hk : k < 8) :
    (b &&& (1#8 <<< k) != 0#8) = b.getLsbD k := by
  by_cases h : b.getLsbD k
  · simp only [h, bne_iff_ne, ne_eq]
    intro h0
    have := congrArg (fun x => x.getLsbD k) h0
    simp [h, hk] at this
  · simp only [h, bne_eq_false_iff_eq]
    apply BitVec.eq_of_getLsbD_eq
    intro ⟨j, hj⟩
    simp only [BitVec.getLsbD_and, BitVec.getLsbD_shiftLeft, BitVec.getLsbD_one,
      BitVec.getLsbD_zero]
    by_cases hjk : j = k
    · subst hjk; simp [h]
    · simp [hjk]; omega

/-- `get_slot` is bit `i % 8` of byte `i / 8`, a missing byte reading as zero. -/
theorem getSlot_eq (header : List (BitVec 8)) (i : Nat) :
    getSlot header i = (header.getD (i / 8) 0).getLsbD (i % 8) := by
  unfold getSlot
  split
  · rw [and_mask_ne_zero _ (Nat.mod_lt _ (by decide))]
    simp [*]
  · simp [List.getD_eq_getElem?_getD, List.getElem?_eq_none (by omega : header.length ≤ i / 8)]

@[simp] theorem length_setSlot (header : List (BitVec 8)) (i : Nat) (v : Bool) :
    (setSlot header i v).length = header.length := by
  simp [setSlot]

/-- `set_slot` changes bit `i` and no other. -/
theorem getSlot_setSlot {header : List (BitVec 8)} {i : Nat} (hi : i / 8 < header.length)
    (v : Bool) (j : Nat) :
    getSlot (setSlot header i v) j = if j = i then v else getSlot header j := by
  simp only [getSlot_eq, setSlot, List.getD_eq_getElem?_getD, List.getElem?_set]
  by_cases hij : i / 8 = j / 8
  · have hmod : j % 8 < 8 := Nat.mod_lt _ (by decide)
    have hmi : i % 8 < 8 := Nat.mod_lt _ (by decide)
    have hbit : (j = i) ↔ j % 8 = i % 8 := by omega
    rw [← hij, if_pos rfl, if_pos hi, Option.getD_some, List.getElem?_eq_getElem hi,
      Option.getD_some]
    cases v <;> by_cases hji : j % 8 = i % 8 <;>
      simp [hbit, hji, BitVec.getLsbD_shiftLeft, hmod, hmi, Nat.sub_eq_zero_iff_le]
    all_goals omega
  · rw [if_neg hij, if_neg (by omega)]

@[simp] theorem getSlot_replicate_zero (n i : Nat) : getSlot (List.replicate n 0#8) i = false := by
  simp [getSlot_eq, List.getD_eq_getElem?_getD, List.getElem?_replicate]
  split <;> simp

/-- A bit that is set lies inside the header. -/
theorem lt_length_of_getSlot {header : List (BitVec 8)} {i : Nat} (h : getSlot header i) :
    i / 8 < header.length := by
  unfold getSlot at h
  split at h <;> simp_all

/-! ## Decoding and encoding -/

/-- An `Option`-valued `mapM` whose every call succeeds returns the mapped list. -/
theorem mapM_eq_some_map {α β : Type} {f : α → Option β} {g : α → β} :
    ∀ {l : List α}, (∀ a ∈ l, f a = some (g a)) → l.mapM f = some (l.map g)
  | [], _ => rfl
  | a :: l, h => by
    rw [List.mapM_cons, h a (List.mem_cons_self a l),
      mapM_eq_some_map (fun b hb => h b (List.mem_cons_of_mem a hb))]
    rfl

/-- An `Option`-valued `mapM` fails exactly when one of its calls fails. -/
theorem mapM_eq_none_iff {α β : Type} {f : α → Option β} :
    ∀ {l : List α}, l.mapM f = none ↔ ∃ a ∈ l, f a = none
  | [] => ⟨fun h => Option.noConfusion h, fun ⟨_, h, _⟩ => nomatch h⟩
  | a :: l => by
    rw [List.mapM_cons]
    cases h : f a with
    | none => simp [h]
    | some b =>
      have ih := mapM_eq_none_iff (f := f) (l := l)
      cases e : l.mapM f <;> simp_all

/-- `HeapPage::new` succeeds when the header fits and every slot decodes. -/
theorem new_eq_some (pid : HeapPageId) {data : List (BitVec 8)} {td : TupleDesc}
    (hlen : headerLen (slotCount td) ≤ data.length) (g : Nat → Tuple)
    (hg : ∀ i < slotCount td, decodeSlot data (data.take (headerLen (slotCount td))) td
      (headerLen (slotCount td)) i = some (g i)) :
    ∃ Q, HeapPage.new pid data td = some Q ∧ Q.pid = pid ∧ Q.td = td ∧
      Q.header = data.take (headerLen (slotCount td)) ∧
      Q.tuples = (List.range (slotCount td)).map g ∧
      Q.oldData = List.replicate pageSize 0 ∧ Q.dirtiedBy = none := by
  have hm : (List.range (slotCount td)).mapM (decodeSlot data
      (data.take (headerLen (slotCount td))) td (headerLen (slotCount td))) =
        some ((List.range (slotCount td)).map g) :=
    mapM_eq_some_map (fun i hi => hg i (List.mem_range.mp hi))
  unfold HeapPage.new
  rw [dif_neg (by omega)]
  dsimp only
  split
  · simp_all
  · rename_i ts hts
    rw [hts] at hm
    cases hm
    exact ⟨_, rfl, rfl, rfl, rfl, rfl, rfl, rfl⟩

/-- Slot `i` of a page image lies inside it. -/
theorem slot_end_le {td : TupleDesc} {i : Nat} (hi : i < slotCount td) :
    headerLen (slotCount td) + i * td.getSize + td.getSize ≤ pageSize := by
  have h₁ := headerLen_add_slots_le td
  have h₂ := Nat.mul_le_mul_right td.getSize (hi : i + 1 ≤ slotCount td)
  rw [Nat.succ_mul] at h₂
  omega

/-- `HeapPage::new` on a page image never slices outside it: it panics exactly when an
occupied slot, decoded from its own bytes, fails `Tuple::deserialize`. -/
theorem new_eq_none_iff (pid : HeapPageId) {data : List (BitVec 8)}
    (hlen : data.length = pageSize) (td : TupleDesc) :
    HeapPage.new pid data td = none ↔ ∃ i < slotCount td,
      getSlot (data.take (headerLen (slotCount td))) i = true ∧
      Tuple.deserialize ((data.drop (headerLen (slotCount td) + i * td.getSize)).take td.getSize)
        td = none := by
  have hfit := headerLen_add_slots_le td
  have e : HeapPage.new pid data td = none ↔ (List.range (slotCount td)).mapM
      (decodeSlot data (data.take (headerLen (slotCount td))) td (headerLen (slotCount td))) =
        none := by
    unfold HeapPage.new
    rw [dif_neg (by omega)]
    dsimp only
    split
    · next h => exact ⟨fun _ => h, fun _ => rfl⟩
    · next h => exact ⟨fun e => Option.noConfusion e, fun e => Option.noConfusion (h.symm.trans e)⟩
  rw [e, mapM_eq_none_iff]
  simp only [List.mem_range]
  refine exists_congr fun i => and_congr_right fun hi => ?_
  have := slot_end_le hi
  unfold decodeSlot
  split_ifs <;> simp_all

/-- Decoding an all-zero page: every slot free, nothing dirty. -/
theorem new_replicate_zero (pid : HeapPageId) (td : TupleDesc) :
    ∃ Q, HeapPage.new pid (List.replicate pageSize 0) td = some Q ∧ Q.pid = pid ∧
      Q.td = td ∧ Q.header = List.replicate (headerLen (slotCount td)) 0 ∧
      Q.oldData = List.replicate pageSize 0 ∧ Q.dirtiedBy = none := by
  have hfit := headerLen_add_slots_le td
  obtain ⟨Q, hQ, h1, h2, h3, -, h5, h6⟩ := new_eq_some pid
    (show headerLen (slotCount td) ≤ (List.replicate pageSize (0 : BitVec 8)).length by
      simp; omega)
    (fun _ => Tuple.new [] td) (fun i _ => by simp [decodeSlot, List.take_replicate])
  refine ⟨Q, hQ, h1, h2, ?_, h5, h6⟩
  rw [h3, List.take_replicate, Nat.min_eq_left (by omega)]

/-! ## Slot operations -/

/-- What `add_tuple` does: it succeeds exactly when some slot is free, and then fills
the lowest free slot `i`. -/
theorem addTuple_eq_ok {P P' : HeapPage} {t : Tuple} (h : P.addTuple t = .ok P') :
    ∃ i, i < P.numSlots ∧ getSlot P.header i = false ∧
      (∀ j < i, getSlot P.header j = true) ∧
      P'.header = setSlot P.header i true ∧ P'.tuples = P.tuples.set i t ∧
      P'.pid = P.pid ∧ P'.td = P.td ∧ P'.numSlots = P.numSlots ∧
      P'.oldData = P.oldData ∧ P'.dirtiedBy = P.dirtiedBy := by
  unfold addTuple at h
  split at h
  · rename_i i hi
    obtain ⟨h1, h2, h3⟩ := List.find?_range_eq_some.mp hi
    cases h
    exact ⟨i, List.mem_range.mp h2, by simpa using h1, fun j hj => by simpa using h3 j hj,
      rfl, rfl, rfl, rfl, rfl, rfl, rfl⟩
  · cases h

/-- `add_tuple` fails only on a page with no free slot. -/
theorem addTuple_isOk_of_getNumEmptySlots_pos {P : HeapPage} (t : Tuple)
    (h : 0 < P.getNumEmptySlots) : ∃ P', P.addTuple t = .ok P' := by
  unfold addTuple
  split
  · exact ⟨_, rfl⟩
  · rename_i hnone
    rw [List.find?_range_eq_none] at hnone
    simp only [getNumEmptySlots, List.countP_pos_iff, List.mem_range] at h
    obtain ⟨i, hi, hfree⟩ := h
    exact absurd (hnone i hi) (by simpa using hfree)

/-- What `delete_tuple` does when it succeeds: it frees the slot its record id names. -/
theorem deleteTuple_eq_ok {P P' : HeapPage} {t : Tuple}
    (h : P.deleteTuple t = some (.ok P')) :
    t.rid.pid = P.pid ∧ getSlot P.header t.rid.tupleNo = true ∧
      t.rid.tupleNo < P.tuples.length ∧
      P'.header = setSlot P.header t.rid.tupleNo false ∧
      P'.tuples = P.tuples.set t.rid.tupleNo (Tuple.new [] P.td) ∧
      P'.pid = P.pid ∧ P'.td = P.td ∧ P'.numSlots = P.numSlots ∧
      P'.oldData = P.oldData ∧ P'.dirtiedBy = P.dirtiedBy := by
  unfold deleteTuple at h
  dsimp only at h
  split at h
  · cases h
  · rename_i hpid
    split at h
    · cases h
    · rename_i hbit
      split at h
      · cases h
        exact ⟨by simpa using hpid, by simpa using hbit, ‹_›, rfl, rfl, rfl, rfl, rfl, rfl, rfl⟩
      · cases h

@[simp] theorem markDirty_dirtiedBy (P : HeapPage) (dirty : Bool) (tid : Nat) :
    (P.markDirty dirty tid).dirtiedBy = if dirty then some tid else none := rfl

@[simp] theorem markDirty_header (P : HeapPage) (dirty : Bool) (tid : Nat) :
    (P.markDirty dirty tid).header = P.header := rfl

@[simp] theorem markDirty_tuples (P : HeapPage) (dirty : Bool) (tid : Nat) :
    (P.markDirty dirty tid).tuples = P.tuples := rfl

@[simp] theorem markDirty_numSlots (P : HeapPage) (dirty : Bool) (tid : Nat) :
    (P.markDirty dirty tid).numSlots = P.numSlots := rfl

@[simp] theorem markDirty_pid (P : HeapPage) (dirty : Bool) (tid : Nat) :
    (P.markDirty dirty tid).pid = P.pid := rfl

/-- A decoded page has the id and descriptor it was decoded with, and is clean. -/
theorem new_eq_some_fields {pid : HeapPageId} {data : List (BitVec 8)} {td : TupleDesc}
    {Q : HeapPage} (h : HeapPage.new pid data td = some Q) :
    Q.pid = pid ∧ Q.td = td ∧ Q.dirtiedBy = none ∧ Q.oldData = List.replicate pageSize 0 := by
  unfold HeapPage.new at h
  dsimp only at h
  split_ifs at h
  split at h
  · cases h
  · cases h; exact ⟨rfl, rfl, rfl, rfl⟩

theorem setBeforeImage_eq_some {P P' : HeapPage} (h : P.setBeforeImage = some P') :
    P'.pid = P.pid ∧ P'.dirtiedBy = P.dirtiedBy := by
  unfold setBeforeImage at h
  obtain ⟨d, -, rfl⟩ := Option.map_eq_some'.1 h
  exact ⟨rfl, rfl⟩

/-- `get_page_data` is always `PAGE_SIZE` bytes. -/
theorem length_getPageData {P : HeapPage} {d : List (BitVec 8)} (h : P.getPageData = some d) :
    d.length = pageSize := by
  unfold getPageData at h
  dsimp only at h
  split_ifs at h with hlen
  cases h
  simp only [List.length_append, List.length_replicate] at hlen ⊢
  omega

/-- A page whose header is all zero has every slot free. -/
theorem getNumEmptySlots_of_header_zero {P : HeapPage} {n : Nat}
    (h : P.header = List.replicate n 0) : P.getNumEmptySlots = P.numSlots := by
  simp [getNumEmptySlots, h]

/-- Blocks of one width add up. -/
theorem length_flatMap_range {α : Type} {g : Nat → List α} {s : Nat} :
    ∀ {n : Nat}, (∀ j < n, (g j).length = s) → ((List.range n).flatMap g).length = n * s
  | 0, _ => by simp
  | n + 1, hg => by
    rw [List.range_succ, List.flatMap_append, List.length_append,
      length_flatMap_range (fun j hj => hg j (by omega))]
    simp [hg n (by omega), Nat.succ_mul]

/-- A page with no slot taken encodes, its header and zeros filling `PAGE_SIZE` bytes. -/
theorem getPageData_of_header_zero {P : HeapPage} {n : Nat} (h : P.header = List.replicate n 0) :
    ∃ d, P.getPageData = some d ∧ d.length = pageSize := by
  have hs : ∀ i, P.slotBytes i = List.replicate P.td.getSize 0 := fun i => by
    simp [slotBytes, h]
  have hfit := headerLen_add_slots_le P.td
  have hlen : (P.header ++ (List.range P.numSlots).flatMap P.slotBytes).length =
      headerLen (slotCount P.td) + slotCount P.td * P.td.getSize := by
    rw [List.length_append, P.header_length, P.headerSize_eq, P.numSlots_eq,
      length_flatMap_range fun j _ => by rw [hs, List.length_replicate]]
  refine ⟨_, if_neg (by rw [hlen]; omega), ?_⟩
  simp only [List.length_append, List.length_replicate, hlen]
  omega

/-- A page decoded from zero bytes has the descriptor it was decoded with and every slot
free. -/
theorem new_zero_eq_some {pid : HeapPageId} {td : TupleDesc} {Q : HeapPage}
    (hQ : HeapPage.new pid (List.replicate pageSize 0) td = some Q) :
    Q.td = td ∧ (∀ i, getSlot Q.header i = false) ∧ Q.getNumEmptySlots = slotCount td := by
  obtain ⟨Q', hQ', -, htd, hhdr, -⟩ := new_replicate_zero pid td
  obtain rfl : Q' = Q := Option.some.inj (hQ'.symm.trans hQ)
  exact ⟨htd, fun i => by simp [hhdr],
    by rw [getNumEmptySlots_of_header_zero hhdr, Q'.numSlots_eq, htd]⟩

/-! ## The slot laws

A page whose header has no bit set past `num_slots` (`PaddingClear`) is one on which
`add_tuple` and `delete_tuple` behave as a slot allocator: each changes exactly one
bit and one slot, and the count of free slots moves by one. -/

/-- No header bit is set at or past `num_slots`: the header's padding is clear. -/
def PaddingClear (P : HeapPage) : Prop := ∀ i, P.numSlots ≤ i → getSlot P.header i = false

/-- `P'` is `P` with at most its header and tuples changed. -/
structure SlotsOnly (P P' : HeapPage) : Prop where
  pid : P'.pid = P.pid
  td : P'.td = P.td
  numSlots : P'.numSlots = P.numSlots
  oldData : P'.oldData = P.oldData
  dirtiedBy : P'.dirtiedBy = P.dirtiedBy

/-- Changing one value below `n` moves the count below `n` by that value. -/
theorem countP_range_update {n i : Nat} (hi : i < n) {p q : Nat → Bool}
    (hq : ∀ j, j ≠ i → q j = p j) :
    (List.range n).countP q + (if p i then 1 else 0) =
      (List.range n).countP p + (if q i then 1 else 0) := by
  induction n with
  | zero => omega
  | succ n ih =>
    simp only [List.range_succ, List.countP_append, List.countP_singleton]
    rcases Nat.lt_succ_iff_lt_or_eq.1 hi with hi | rfl
    · rw [hq n (by omega)]; have := ih hi; omega
    · rw [List.countP_congr fun j hj => by rw [hq j (by simp at hj; omega)]]
      omega

theorem div_lt_header_length (P : HeapPage) {i : Nat} (hi : i < P.numSlots) :
    i / 8 < P.header.length := by
  rw [P.header_length, P.headerSize_eq, headerLen]; omega

/-- Writing the bit of a slot `i < num_slots` changes that bit alone, moves the count
of free slots by it, and keeps the padding clear. -/
theorem setSlot_laws {P P' : HeapPage} (hs : P.SlotsOnly P') {i : Nat} (hi : i < P.numSlots)
    {v : Bool} (hh : P'.header = setSlot P.header i v) (hP : P.PaddingClear) :
    (∀ j, getSlot P'.header j = if j = i then v else getSlot P.header j) ∧
      P'.getNumEmptySlots + (if !getSlot P.header i then 1 else 0) =
        P.getNumEmptySlots + (if !v then 1 else 0) ∧ P'.PaddingClear := by
  have hbits := getSlot_setSlot (P.div_lt_header_length hi) v
  rw [← hh] at hbits
  refine ⟨hbits, ?_, fun j hj => ?_⟩
  · have e : getSlot P'.header i = v := by rw [hbits, if_pos rfl]
    have := countP_range_update hi (p := fun j => !getSlot P.header j)
      (q := fun j => !getSlot P'.header j) fun j hj => by simp [hbits, hj]
    simpa only [e, getNumEmptySlots, hs.numSlots] using this
  · rw [hs.numSlots] at hj
    rw [hbits, if_neg (by omega), hP j hj]

/-- `add_tuple` on a page with a free slot puts `t` in the lowest one and sets that bit
alone; on a full page it is the error. -/
theorem addTuple_spec (P : HeapPage) (hP : P.PaddingClear) (t : Tuple) :
    (0 < P.getNumEmptySlots → ∃ P' i, P.addTuple t = .ok P' ∧ i < P.numSlots ∧
        getSlot P.header i = false ∧ (∀ j < i, getSlot P.header j = true) ∧
        P'.tuples = P.tuples.set i t ∧
        (∀ j, getSlot P'.header j = if j = i then true else getSlot P.header j) ∧
        P'.getNumEmptySlots + 1 = P.getNumEmptySlots ∧ P'.PaddingClear ∧ P.SlotsOnly P') ∧
    (P.getNumEmptySlots = 0 → P.addTuple t = .error "No empty slots") := by
  refine ⟨fun h => ?_, fun h0 => ?_⟩
  · obtain ⟨P', hP'⟩ := addTuple_isOk_of_getNumEmptySlots_pos t h
    obtain ⟨i, hi, hfree, hmin, hh, ht, hpid, htd, hn, ho, hd⟩ := addTuple_eq_ok hP'
    have hs : P.SlotsOnly P' := ⟨hpid, htd, hn, ho, hd⟩
    obtain ⟨hbits, hcount, hpad⟩ := setSlot_laws hs hi hh hP
    exact ⟨P', i, hP', hi, hfree, hmin, ht, hbits, by simpa [hfree] using hcount, hpad, hs⟩
  · unfold addTuple
    split
    · next i hi =>
      obtain ⟨h1, h2, -⟩ := List.find?_range_eq_some.mp hi
      exact absurd h1 (by simpa using List.countP_eq_zero.1 h0 i h2)
    · rfl

/-- `delete_tuple` of a tuple whose record id names this page and a taken slot frees
that slot and clears that bit alone; of any other tuple it is the error.  It never
indexes `tuples` out of range. -/
theorem deleteTuple_spec (P : HeapPage) (hP : P.PaddingClear) (t : Tuple) :
    (t.rid.pid = P.pid → getSlot P.header t.rid.tupleNo = true →
      ∃ P', P.deleteTuple t = some (.ok P') ∧
        P'.tuples = P.tuples.set t.rid.tupleNo (Tuple.new [] P.td) ∧
        (∀ j, getSlot P'.header j = if j = t.rid.tupleNo then false else getSlot P.header j) ∧
        P'.getNumEmptySlots = P.getNumEmptySlots + 1 ∧ P'.PaddingClear ∧ P.SlotsOnly P') ∧
    (¬(t.rid.pid = P.pid ∧ getSlot P.header t.rid.tupleNo = true) →
      P.deleteTuple t = some (.error "Tuple not on this page")) := by
  refine ⟨fun hpid hbit => ?_, fun h => ?_⟩
  · have hi : t.rid.tupleNo < P.numSlots :=
      Nat.lt_of_not_le fun hle => by simp [hP _ hle] at hbit
    obtain ⟨P', hd⟩ : ∃ P', P.deleteTuple t = some (.ok P') := by
      simp [deleteTuple, hpid, hbit, P.tuples_length, hi]
    obtain ⟨-, -, -, hh, ht, hpid', htd, hn, ho, hdb⟩ := deleteTuple_eq_ok hd
    have hs : P.SlotsOnly P' := ⟨hpid', htd, hn, ho, hdb⟩
    obtain ⟨hbits, hcount, hpad⟩ := setSlot_laws hs hi hh hP
    exact ⟨P', hd, ht, hbits, by simpa [hbit] using hcount, hpad, hs⟩
  · by_cases hpid : t.rid.pid = P.pid
    · simp [deleteTuple, hpid, Bool.eq_false_iff.2 fun hb => h ⟨hpid, hb⟩]
    · simp [deleteTuple, hpid]

/-- `add_tuple` on the zero page of a table with a slot puts the tuple in slot 0. -/
theorem addTuple_zero_page {pid : HeapPageId} {td : TupleDesc} {P : HeapPage}
    (hP : HeapPage.new pid (List.replicate pageSize 0) td = some P) (hpos : 0 < slotCount td)
    (t : Tuple) :
    ∃ P', P.addTuple t = .ok P' ∧ getSlot P'.header 0 = true ∧ P'.tuples.getD 0 default = t ∧
      P'.PaddingClear ∧ P.SlotsOnly P' := by
  obtain ⟨htd, hfree, hcount⟩ := new_zero_eq_some hP
  have hpad : P.PaddingClear := fun i _ => hfree i
  obtain ⟨P', i, ha, hi, -, hlow, ht, hbits, -, hpad', hs⟩ :=
    (P.addTuple_spec hpad t).1 (by rw [hcount]; exact hpos)
  obtain rfl : i = 0 := Nat.eq_zero_of_not_pos fun h => by simpa [hfree] using hlow 0 h
  refine ⟨P', ha, by simp [hbits], ?_, hpad', hs⟩
  rw [ht, List.getD_eq_getElem?_getD, List.getElem?_set_self (by rw [P.tuples_length]; exact hi)]
  rfl

/-- **The slot laws of a heap page.**  On a page whose header padding is clear,
`add_tuple` succeeds iff a slot is free, filling the lowest free slot and setting its
bit alone, and `delete_tuple` succeeds iff the record id names this page and a taken
slot, freeing that slot and clearing its bit alone; the free count moves by one, the
padding stays clear, and a refused call is the error with the code's text. -/
theorem add_delete_tuple_laws (P : HeapPage) (hP : P.PaddingClear) (t : Tuple) :
    ((0 < P.getNumEmptySlots → ∃ P' i, P.addTuple t = .ok P' ∧ i < P.numSlots ∧
        getSlot P.header i = false ∧ (∀ j < i, getSlot P.header j = true) ∧
        P'.tuples = P.tuples.set i t ∧
        (∀ j, getSlot P'.header j = if j = i then true else getSlot P.header j) ∧
        P'.getNumEmptySlots + 1 = P.getNumEmptySlots ∧ P'.PaddingClear ∧ P.SlotsOnly P') ∧
      (P.getNumEmptySlots = 0 → P.addTuple t = .error "No empty slots")) ∧
    ((t.rid.pid = P.pid → getSlot P.header t.rid.tupleNo = true →
      ∃ P', P.deleteTuple t = some (.ok P') ∧
        P'.tuples = P.tuples.set t.rid.tupleNo (Tuple.new [] P.td) ∧
        (∀ j, getSlot P'.header j = if j = t.rid.tupleNo then false else getSlot P.header j) ∧
        P'.getNumEmptySlots = P.getNumEmptySlots + 1 ∧ P'.PaddingClear ∧ P.SlotsOnly P') ∧
      (¬(t.rid.pid = P.pid ∧ getSlot P.header t.rid.tupleNo = true) →
        P.deleteTuple t = some (.error "Tuple not on this page"))) :=
  ⟨P.addTuple_spec hP t, P.deleteTuple_spec hP t⟩

/-- On the zero page `(0, 0)` of an `Int` table, `add_tuple` puts a tuple in slot 0, and
`delete_tuple` of the same tuple, whose record id is the sentinel `((0, 0), 0)` that every
tuple carries, frees slot 0 again. -/
theorem add_delete_tuple_laws_slot_zero :
    ∃ P P₁ P₂, HeapPage.new ⟨0, 0⟩ (List.replicate pageSize 0) ⟨[.intType], ["id"]⟩ = some P ∧
      P.addTuple (Tuple.new [.intField ⟨7⟩] ⟨[.intType], ["id"]⟩) = .ok P₁ ∧
      getSlot P₁.header 0 = true ∧ P₁.PaddingClear ∧
      P₁.deleteTuple (Tuple.new [.intField ⟨7⟩] ⟨[.intType], ["id"]⟩) = some (.ok P₂) ∧
      getSlot P₂.header 0 = false ∧ P₂.getNumEmptySlots = P₁.getNumEmptySlots + 1 := by
  obtain ⟨P, hP, hpid, -⟩ := new_replicate_zero ⟨0, 0⟩ ⟨[.intType], ["id"]⟩
  obtain ⟨P₁, ha, h0, -, hpad, hs⟩ := addTuple_zero_page hP (by decide)
    (Tuple.new [.intField ⟨7⟩] ⟨[.intType], ["id"]⟩)
  obtain ⟨P₂, hd, -, hbits, hcount, -⟩ := (add_delete_tuple_laws P₁ hpad
    (Tuple.new [.intField ⟨7⟩] ⟨[.intType], ["id"]⟩)).2.1 (by rw [hs.pid, hpid]; rfl) h0
  exact ⟨P, P₁, P₂, hP, ha, h0, hpad, hd, by simp [hbits, sentinelRid], hcount⟩

/-! ## What decoding a page image rejects -/

set_option maxRecDepth 4000 in
/-- Two page images of a string column: in the first, slot 0 holds a string of declared
length one with the byte `0xFF`, and `from_utf8(..).unwrap()` panics; in a slot of a
`(String, Int)` table, a length prefix of 260 is accepted, and the string is read over
the bytes of the integer column after it. -/
theorem undecodable_page_image :
    HeapPage.new ⟨1, 0⟩ ([1, 0, 0, 0, 0, 1, 0xFF] ++ List.replicate 4089 0)
      ⟨[.stringType], ["s"]⟩ = none ∧
    Tuple.deserialize (toBeBytes 260#32 ++ List.replicate 260 0)
      ⟨[.stringType, .intType], ["s", "i"]⟩ =
      some (Tuple.new [.stringField ⟨⟨List.replicate 260 0, by decide⟩, 260#32⟩, .intField ⟨0#32⟩]
        ⟨[.stringType, .intType], ["s", "i"]⟩) :=
  ⟨(new_eq_none_iff _ (by simp only [List.length_append, List.length_replicate,
    List.length_cons, List.length_nil, pageSize]) _).2 ⟨0, by decide, by decide, by decide⟩,
    by decide⟩

end HeapPage

end RusticDb
