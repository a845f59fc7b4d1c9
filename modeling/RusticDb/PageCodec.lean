/-
# Page content and the page round trip (`HeapPage::new` after `get_page_data`)

What a transaction sees of a page is its `content`: slot by slot, the field values of
the tuple there, or `none` for a free slot.  `add_tuple` fills the first free slot
(`content_addTuple`), `delete_tuple` frees the slot its record id names
(`content_deleteTuple`), and `mark_dirty` and `set_before_image` leave the content as
it is.

Every page that the engine builds from a fresh zero page with `add_tuple` and
`delete_tuple` (`Built`) encodes to exactly `PAGE_SIZE` bytes, and decoding those
bytes gives back its header, the field values of every occupied slot, and so the
same bytes again (`page_round_trip`).  Inserted tuples must conform to the page's
descriptor (`Tuple.Conforms`: values of the column types, strings whose `len` is
their UTF-8 length, at most `STRING_SIZE`).

The proof goes through one invariant, `Encodable`: the page keeps its id and
descriptor, and its content holds well-formed values.  `Encodable` holds of
a decoded zero page and survives both slot operations; from it, `getPageData_eq` lays
out the bytes slot by slot and `new_getPageData` decodes them, to the same content
(`content_new_getPageData`).
-/
import RusticDb.HeapPage

namespace RusticDb

open HeapPage

/-! ## Content -/

theorem div8_lt_headerLen {i n : Nat} (h : i < n) : i / 8 < headerLen n := by
  unfold headerLen; omega

theorem HeapPage.div8_lt_header_length (P : HeapPage) {i : Nat} (h : i < P.numSlots) :
    i / 8 < P.header.length := by
  rw [P.header_length, P.headerSize_eq]; exact div8_lt_headerLen h

/-- The content of a page: for each slot, the field values of its tuple when the
slot is taken. -/
def HeapPage.content (P : HeapPage) : List (Option (List FieldVal)) :=
  (List.range P.numSlots).map fun i =>
    if getSlot P.header i then some (P.tuples.getD i default).fields else none

/-- Fill the first free slot with `x`; a content with no free slot stays as it is. -/
def insertFirst {α : Type} (x : α) : List (Option α) → List (Option α)
  | [] => []
  | none :: c => some x :: c
  | some y :: c => some y :: insertFirst x c

/-- Filling the first free slot sets the lowest slot that is free. -/
theorem insertFirst_eq_set {α : Type} (x : α) :
    ∀ {xs : List (Option α)} {i : Nat}, xs[i]? = some none → (∀ j < i, xs[j]? ≠ some none) →
      insertFirst x xs = xs.set i (some x)
  | [], _, h, _ => by simp at h
  | none :: _, 0, _, _ => rfl
  | none :: _, i + 1, _, hlt => (hlt 0 (Nat.succ_pos i) (by simp)).elim
  | some _ :: _, 0, h, _ => by simp at h
  | some y :: c, i + 1, h, hlt => by
    rw [insertFirst, List.set_cons_succ, insertFirst_eq_set x (by simpa using h)
      fun j hj => by simpa using hlt (j + 1) (by omega)]

@[simp] theorem HeapPage.length_content (P : HeapPage) : P.content.length = P.numSlots := by
  simp [content]

theorem HeapPage.getElem?_content (P : HeapPage) {i : Nat} (hi : i < P.numSlots) :
    P.content[i]? = some (if getSlot P.header i then some (P.tuples.getD i default).fields
      else none) := by
  simp [content, List.getElem?_range hi]

/-- Setting bit `i` and tuple `i` of a page sets slot `i` of its content. -/
theorem HeapPage.content_set {P P' : HeapPage} {i : Nat} {v : Bool} {t : Tuple}
    (hi : i < P.numSlots) (hn : P'.numSlots = P.numSlots) (hhdr : P'.header = setSlot P.header i v)
    (htup : P'.tuples = P.tuples.set i t) :
    P'.content = P.content.set i (if v then some t.fields else none) := by
  have hbits := getSlot_setSlot (P.div8_lt_header_length hi) v
  refine List.ext_getElem? fun j => ?_
  by_cases hj : j < P.numSlots
  · rw [getElem?_content P' (hn ▸ hj), List.getElem?_set, length_content, hhdr, hbits, htup]
    by_cases hij : i = j
    · subst hij
      simp [List.getD_eq_getElem?_getD, P.tuples_length, hi]
    · rw [if_neg (Ne.symm hij), if_neg hij, getElem?_content P hj, List.getD_eq_getElem?_getD,
        List.getD_eq_getElem?_getD, List.getElem?_set_ne hij]
  · rw [List.getElem?_eq_none (by simp [hn]; omega), List.getElem?_eq_none (by simp; omega)]

/-- `add_tuple` fills the first free slot of the content. -/
theorem HeapPage.content_addTuple {P P' : HeapPage} {t : Tuple} (h : P.addTuple t = .ok P') :
    P'.content = insertFirst t.fields P.content := by
  obtain ⟨i, hi, hfree, hlow, hhdr, htup, -, -, hn, -, -⟩ := addTuple_eq_ok h
  rw [content_set hi hn hhdr htup, if_pos rfl]
  refine (insertFirst_eq_set _ ?_ fun j hj => ?_).symm
  · simp [getElem?_content P hi, hfree]
  · simp [getElem?_content P (by omega : j < P.numSlots), hlow j hj]

/-- `delete_tuple` frees the slot its record id names. -/
theorem HeapPage.content_deleteTuple {P P' : HeapPage} {t : Tuple}
    (h : P.deleteTuple t = some (.ok P')) : P'.content = P.content.set t.rid.tupleNo none := by
  obtain ⟨-, -, hlt, hhdr, htup, -, -, hn, -, -⟩ := deleteTuple_eq_ok h
  rw [content_set (P.tuples_length ▸ hlt) hn hhdr htup]
  rfl

@[simp] theorem HeapPage.content_markDirty (P : HeapPage) (dirty : Bool) (tid : Nat) :
    (P.markDirty dirty tid).content = P.content := rfl

theorem HeapPage.content_setBeforeImage {P P' : HeapPage} (h : P.setBeforeImage = some P') :
    P'.content = P.content := by
  obtain ⟨d, -, rfl⟩ := Option.map_eq_some'.1 h
  rfl

/-- Every taken slot holds well-formed values of the column types of `td`
(`FieldVal.Fits`: strings with `len` their byte length, at most `STRING_SIZE`). -/
def ContentConforms (c : List (Option (List FieldVal))) (td : TupleDesc) : Prop :=
  ∀ x ∈ c, ∀ fs ∈ x, List.Forall₂ FieldVal.Fits fs td.types

theorem ContentConforms.insertFirst {c : List (Option (List FieldVal))} {td : TupleDesc}
    {fs : List FieldVal} (hc : ContentConforms c td) (hfs : List.Forall₂ FieldVal.Fits fs td.types) :
    ContentConforms (RusticDb.insertFirst fs c) td := by
  induction c with
  | nil => exact hc
  | cons x c ih =>
    have hc' : ContentConforms c td := fun y hy => hc y (List.mem_cons_of_mem x hy)
    cases x with
    | none => rintro y (_ | ⟨_, hy⟩) gs hg <;> [exact Option.some.inj hg ▸ hfs; exact hc' y hy gs hg]
    | some x =>
      rintro y (_ | ⟨_, hy⟩)
      · exact hc _ (List.mem_cons_self _ _)
      · exact ih hc' y hy

theorem ContentConforms.set_none {c : List (Option (List FieldVal))} {td : TupleDesc}
    (hc : ContentConforms c td) (i : Nat) : ContentConforms (c.set i none) td := by
  intro x hx fs hfs
  rcases List.mem_or_eq_of_mem_set hx with hx | rfl
  · exact hc x hx fs hfs
  · cases hfs

/-! ## Pages built by the engine -/

/-- Pages built from the zero page of `pid` by successful `add_tuple` calls with
conforming tuples and successful `delete_tuple` calls (a failed call returns `Err`
and leaves the page as it was). -/
inductive Built (pid : HeapPageId) (td : TupleDesc) : HeapPage → Prop
  | new {P : HeapPage} : HeapPage.new pid (List.replicate pageSize 0) td = some P →
      Built pid td P
  | add {P P' : HeapPage} {t : Tuple} : Built pid td P → t.Conforms td →
      P.addTuple t = .ok P' → Built pid td P'
  | delete {P P' : HeapPage} {t : Tuple} : Built pid td P →
      P.deleteTuple t = some (.ok P') → Built pid td P'

/-- The invariant behind the round trip. -/
structure Encodable (pid : HeapPageId) (td : TupleDesc) (P : HeapPage) : Prop where
  pid_eq : P.pid = pid
  td_eq : P.td = td
  conforms : ContentConforms P.content td

/-- A taken slot of an encodable page holds a conforming tuple. -/
theorem Encodable.slot_conforms {pid : HeapPageId} {td : TupleDesc} {P : HeapPage}
    (hE : Encodable pid td P) {i : Nat} (hi : i < P.numSlots) (hocc : getSlot P.header i = true) :
    (P.tuples.getD i default).Conforms td :=
  hE.conforms _ (List.getElem?_mem (P.getElem?_content hi)) _ (by simp [hocc])

theorem encodable_new {pid : HeapPageId} {td : TupleDesc} {P : HeapPage}
    (h : HeapPage.new pid (List.replicate pageSize 0) td = some P) : Encodable pid td P := by
  obtain ⟨Q, hQ, hpid, htd, hhdr, -, -⟩ := new_replicate_zero pid td
  rw [h] at hQ
  cases hQ
  refine ⟨hpid, htd, fun x hx fs hfs => ?_⟩
  obtain ⟨i, -, rfl⟩ := List.mem_map.1 hx
  simp [hhdr] at hfs

theorem Encodable.add {pid : HeapPageId} {td : TupleDesc} {P P' : HeapPage} {t : Tuple}
    (hE : Encodable pid td P) (ht : t.Conforms td) (h : P.addTuple t = .ok P') :
    Encodable pid td P' := by
  obtain ⟨-, -, -, -, -, -, hpid, htd, -⟩ := addTuple_eq_ok h
  exact ⟨hpid ▸ hE.pid_eq, htd ▸ hE.td_eq, content_addTuple h ▸ hE.conforms.insertFirst ht⟩

theorem Encodable.delete {pid : HeapPageId} {td : TupleDesc} {P P' : HeapPage} {t : Tuple}
    (hE : Encodable pid td P) (h : P.deleteTuple t = some (.ok P')) : Encodable pid td P' := by
  obtain ⟨-, -, -, -, -, hpid, htd, -⟩ := deleteTuple_eq_ok h
  exact ⟨hpid ▸ hE.pid_eq, htd ▸ hE.td_eq, content_deleteTuple h ▸ hE.conforms.set_none _⟩

theorem Built.encodable {pid : HeapPageId} {td : TupleDesc} {P : HeapPage}
    (h : Built pid td P) : Encodable pid td P := by
  induction h with
  | new h => exact encodable_new h
  | add _ ht h ih => exact ih.add ht h
  | delete _ h ih => exact ih.delete h

/-! ## Encoding -/

/-- Blocks of one width: block `i` of the concatenation is `g i`. -/
theorem flatMap_range_block {α : Type} {g : Nat → List α} {s : Nat} :
    ∀ {n i : Nat}, (∀ j < n, (g j).length = s) → i < n → ∀ rest : List α,
      (((List.range n).flatMap g ++ rest).drop (i * s)).take s = g i
  | 0, _, _, hi, _ => absurd hi (Nat.not_lt_zero _)
  | n + 1, i, hg, hi, rest => by
    have hg' : ∀ j < n, (g j).length = s := fun j hj => hg j (by omega)
    rw [List.range_succ, List.flatMap_append, List.append_assoc]
    by_cases hin : i < n
    · exact flatMap_range_block hg' hin _
    · have hi : i = n := by omega
      subst hi
      rw [List.drop_left' (HeapPage.length_flatMap_range hg')]
      simpa using List.take_left' (hg i (by omega) : (g i).length = s)

namespace Encodable

variable {pid : HeapPageId} {td : TupleDesc} {P : HeapPage}

theorem numSlots_eq' (hE : Encodable pid td P) : P.numSlots = slotCount td := by
  rw [P.numSlots_eq, hE.td_eq]

theorem headerSize_eq' (hE : Encodable pid td P) : P.headerSize = headerLen (slotCount td) := by
  rw [P.headerSize_eq, hE.numSlots_eq']

theorem slotBytes_length (hE : Encodable pid td P) {i : Nat} (hi : i < P.numSlots) :
    (P.slotBytes i).length = td.getSize := by
  unfold slotBytes
  split
  · exact Tuple.length_serialize (hE.slot_conforms hi ‹_›)
  · simp [hE.td_eq]

/-- The header and the slots fit, so `get_page_data` pads without underflow. -/
theorem layout_le (hE : Encodable pid td P) :
    P.headerSize + P.numSlots * td.getSize ≤ pageSize := by
  rw [hE.headerSize_eq', hE.numSlots_eq']; exact headerLen_add_slots_le td

/-- The page data of an encodable page: header, slots, zero padding. -/
theorem getPageData_eq (hE : Encodable pid td P) :
    P.getPageData = some (P.header ++ (List.range P.numSlots).flatMap P.slotBytes ++
      List.replicate (pageSize - (P.headerSize + P.numSlots * td.getSize)) 0) := by
  have hlen := HeapPage.length_flatMap_range (fun j hj => hE.slotBytes_length hj)
  have hfit := hE.layout_le
  simp only [getPageData, List.length_append, hlen, P.header_length]
  rw [if_neg (by omega)]

end Encodable

/-- Decoding a slot of the page data gives a tuple with the slot's field values. -/
theorem Encodable.decodeSlot_getPageData {pid : HeapPageId} {td : TupleDesc} {P : HeapPage}
    (hE : Encodable pid td P) {i : Nat} (hi : i < P.numSlots) :
    decodeSlot (P.header ++ (List.range P.numSlots).flatMap P.slotBytes ++
        List.replicate (pageSize - (P.headerSize + P.numSlots * td.getSize)) 0)
      P.header td P.headerSize i =
      some (if getSlot P.header i then Tuple.new (P.tuples.getD i default).fields td
        else Tuple.new [] td) := by
  have hlen := HeapPage.length_flatMap_range (fun j hj => hE.slotBytes_length hj)
  have hfit := hE.layout_le
  have hblock := flatMap_range_block (fun j hj => hE.slotBytes_length hj) hi
    (List.replicate (pageSize - (P.headerSize + P.numSlots * td.getSize)) 0)
  unfold decodeSlot
  split
  · rename_i hocc
    have hstart : i * td.getSize + td.getSize ≤ P.numSlots * td.getSize := by
      rw [← Nat.succ_mul]; exact Nat.mul_le_mul_right _ hi
    have hbytes : ((P.header ++ (List.range P.numSlots).flatMap P.slotBytes ++
        List.replicate (pageSize - (P.headerSize + P.numSlots * td.getSize)) 0).drop
          (P.headerSize + i * td.getSize)).take td.getSize =
        (P.tuples.getD i default).serialize := by
      rw [← List.drop_drop, List.append_assoc, List.drop_left' P.header_length, hblock]
      simp [slotBytes, hocc]
    simp only [List.length_append, List.length_replicate, hlen, P.header_length, hbytes]
    rw [if_neg (by omega), Tuple.deserialize_serialize (hE.slot_conforms hi hocc)]
  · rfl

/-- `get_page_data` reads a page only through its header, slot count and slot bytes. -/
theorem getPageData_congr {P Q : HeapPage} (hhdr : Q.header = P.header)
    (hn : Q.numSlots = P.numSlots) (hslot : ∀ i < P.numSlots, Q.slotBytes i = P.slotBytes i) :
    Q.getPageData = P.getPageData := by
  have hflat : (List.range Q.numSlots).flatMap Q.slotBytes =
      (List.range P.numSlots).flatMap P.slotBytes := by
    rw [hn, List.flatMap, List.flatMap,
      List.map_congr_left (fun i hi => hslot i (List.mem_range.mp hi))]
  unfold getPageData
  rw [hhdr, hflat]

/-- Decoding the page data of an encodable page gives its header and slot values, and
encodes to the same bytes. -/
theorem Encodable.new_getPageData {pid : HeapPageId} {td : TupleDesc} {P : HeapPage}
    (hE : Encodable pid td P) {d : List (BitVec 8)} (hd : P.getPageData = some d) :
    ∃ Q, HeapPage.new pid d td = some Q ∧ Q.header = P.header ∧
      (∀ i < P.numSlots, getSlot P.header i = true →
        (Q.tuples.getD i default).fields = (P.tuples.getD i default).fields) ∧
      Q.getPageData = some d := by
  rw [hE.getPageData_eq] at hd
  cases hd
  have hlen := HeapPage.length_flatMap_range (fun j hj => hE.slotBytes_length hj)
  have hfit := hE.layout_le
  have hn := hE.numSlots_eq'
  have hs := hE.headerSize_eq'
  set d := P.header ++ (List.range P.numSlots).flatMap P.slotBytes ++
      List.replicate (pageSize - (P.headerSize + P.numSlots * td.getSize)) 0 with hd
  have htake : d.take (headerLen (slotCount td)) = P.header := by
    rw [← hs, hd, List.append_assoc, List.take_left' P.header_length]
  have hdlen : headerLen (slotCount td) ≤ d.length := by
    simp only [hd, List.length_append, List.length_replicate, hlen, P.header_length]; omega
  obtain ⟨Q, hQ, -, htd, hhdr, htup, -, -⟩ := new_eq_some pid hdlen
    (fun i => if getSlot P.header i then Tuple.new (P.tuples.getD i default).fields td
      else Tuple.new [] td)
    (fun i hi => by rw [htake, ← hs]; exact hE.decodeSlot_getPageData (hn ▸ hi))
  rw [htake] at hhdr
  have hget : ∀ i < P.numSlots, Q.tuples.getD i default =
      if getSlot P.header i then Tuple.new (P.tuples.getD i default).fields td
      else Tuple.new [] td := by
    intro i hi
    simp [htup, List.getD_eq_getElem?_getD, List.getElem?_range, hn ▸ hi]
  refine ⟨Q, hQ, hhdr, fun i hi hocc => by rw [hget i hi, if_pos hocc]; rfl, ?_⟩
  rw [getPageData_congr hhdr (by rw [Q.numSlots_eq, htd, hn]) (fun i hi => ?_),
    hE.getPageData_eq]
  unfold slotBytes
  rw [hhdr, hget i hi, htd, hE.td_eq]
  split <;> rfl

/-- Decoding the page data of an encodable page gives back its content. -/
theorem Encodable.content_new_getPageData {pid : HeapPageId} {td : TupleDesc} {P : HeapPage}
    (hE : Encodable pid td P) {d : List (BitVec 8)} (hd : P.getPageData = some d) :
    ∃ Q, HeapPage.new pid d td = some Q ∧ Q.content = P.content := by
  obtain ⟨Q, hQ, hhdr, hfields, -⟩ := hE.new_getPageData hd
  have hn : Q.numSlots = P.numSlots := by
    rw [Q.numSlots_eq, (new_eq_some_fields hQ).2.1, hE.numSlots_eq']
  refine ⟨Q, hQ, List.ext_getElem? fun i => ?_⟩
  by_cases hi : i < P.numSlots
  · rw [Q.getElem?_content (hn ▸ hi), P.getElem?_content hi, hhdr]
    split
    · next hocc => rw [hfields i hi hocc]
    · rfl
  · rw [List.getElem?_eq_none (by simp [hn]; omega), List.getElem?_eq_none (by simp; omega)]

/-- **The page round trip.**  Every page built from a zero page by `add_tuple` (with
tuples conforming to `td`) and `delete_tuple` lays out within `PAGE_SIZE`, encodes to
exactly `PAGE_SIZE` bytes, and decodes to a page with the same header and the same
field values in every occupied slot, whose own encoding is the same bytes. -/
theorem page_round_trip {pid : HeapPageId} {td : TupleDesc} {P : HeapPage}
    (h : Built pid td P) :
    P.headerSize + P.numSlots * td.getSize ≤ pageSize ∧
    ∃ d, P.getPageData = some d ∧ d.length = pageSize ∧
      ∃ Q, HeapPage.new pid d td = some Q ∧ Q.header = P.header ∧
        (∀ i < P.numSlots, getSlot P.header i = true →
          (Q.tuples.getD i default).fields = (P.tuples.getD i default).fields) ∧
        Q.getPageData = some d := by
  have hE := h.encodable
  have hlen := HeapPage.length_flatMap_range (fun j hj => hE.slotBytes_length hj)
  refine ⟨hE.layout_le, _, hE.getPageData_eq, ?_, hE.new_getPageData hE.getPageData_eq⟩
  simp only [List.length_append, List.length_replicate, hlen, P.header_length]
  have := hE.layout_le
  omega

/-- The zero page of a table `(a: Int, b: String)` with one row added: slot 0 is taken,
and the round trip gives its values back. -/
theorem page_round_trip_one_row :
    ∃ P, Built ⟨1, 0⟩ ⟨[.intType, .stringType], ["a", "b"]⟩ P ∧ getSlot P.header 0 = true ∧
      (P.tuples.getD 0 default).fields = [.intField ⟨7⟩, .stringField ⟨⟨[0x61, 0x62], by decide⟩, 2#32⟩] ∧
      (P.headerSize + P.numSlots * TupleDesc.getSize ⟨[.intType, .stringType], ["a", "b"]⟩ ≤
        pageSize ∧
      ∃ d, P.getPageData = some d ∧ d.length = pageSize ∧
        ∃ Q, HeapPage.new ⟨1, 0⟩ d ⟨[.intType, .stringType], ["a", "b"]⟩ = some Q ∧
          Q.header = P.header ∧
          (∀ i < P.numSlots, getSlot P.header i = true →
            (Q.tuples.getD i default).fields = (P.tuples.getD i default).fields) ∧
          Q.getPageData = some d) := by
  obtain ⟨P₀, hP₀, -⟩ := HeapPage.new_replicate_zero ⟨1, 0⟩ ⟨[.intType, .stringType], ["a", "b"]⟩
  obtain ⟨P, ha, h0, ht, -⟩ := HeapPage.addTuple_zero_page hP₀ (by decide)
    (Tuple.new [.intField ⟨7⟩, .stringField ⟨⟨[0x61, 0x62], by decide⟩, 2#32⟩] ⟨[.intType, .stringType], ["a", "b"]⟩)
  have hb : Built ⟨1, 0⟩ ⟨[.intType, .stringType], ["a", "b"]⟩ P :=
    .add (.new hP₀) (by simp [Tuple.Conforms, FieldVal.Fits, stringSize]) ha
  exact ⟨P, hb, h0, by rw [ht]; rfl, page_round_trip hb⟩

/-! ## Record ids

`HeapPage::new` decodes every tuple through `Tuple::deserialize`, which builds it
with `Tuple::new`, and `add_tuple` stores the tuple it is given: no code path calls
`set_record_id`.  So every tuple a cached page holds carries the sentinel record id
`((0, 0), 0)`, and `delete_tuple` of a tuple read from a page of any other page id
is refused. -/

theorem Tuple.deserialize_rid {bytes : List (BitVec 8)} {td : TupleDesc} {t : Tuple}
    (h : Tuple.deserialize bytes td = some t) : t.rid = sentinelRid := by
  unfold Tuple.deserialize at h
  obtain ⟨fs, -, rfl⟩ := Option.map_eq_some'.mp h
  rfl

/-- Every tuple `HeapPage::new` decodes has the sentinel record id. -/
theorem new_tuples_rid {pid : HeapPageId} {data : List (BitVec 8)} {td : TupleDesc}
    {P : HeapPage} (h : HeapPage.new pid data td = some P) :
    P.pid = pid ∧ ∀ t ∈ P.tuples, t.rid = sentinelRid := by
  unfold HeapPage.new at h
  dsimp only at h
  split at h
  · cases h
  · split at h
    · cases h
    · rename_i ts hts
      cases h
      refine ⟨rfl, forall_of_mapM_eq_some (fun i t ht => ?_) hts⟩
      unfold decodeSlot at ht
      split at ht
      · dsimp only at ht
        split at ht
        · cases ht
        · exact Tuple.deserialize_rid ht
      · cases ht; rfl

/-- The pages the buffer pool can hold for `pid`: decoded from any bytes (`read_page`,
`get_before_image`), then changed by `add_tuple` with tuples the program builds
(`Tuple::new`, or copies of tuples read from pages), `delete_tuple`, `mark_dirty` and
`set_before_image`. -/
inductive Cached (pid : HeapPageId) (td : TupleDesc) : HeapPage → Prop
  | new {data : List (BitVec 8)} {P : HeapPage} : HeapPage.new pid data td = some P →
      Cached pid td P
  | add {P P' : HeapPage} {t : Tuple} : Cached pid td P → t.rid = sentinelRid →
      P.addTuple t = .ok P' → Cached pid td P'
  | delete {P P' : HeapPage} {t : Tuple} : Cached pid td P →
      P.deleteTuple t = some (.ok P') → Cached pid td P'
  | markDirty {P : HeapPage} (dirty : Bool) (tid : Nat) : Cached pid td P →
      Cached pid td (P.markDirty dirty tid)
  | setBeforeImage {P P' : HeapPage} : Cached pid td P → P.setBeforeImage = some P' →
      Cached pid td P'

theorem Cached.pid_and_rids {pid : HeapPageId} {td : TupleDesc} {P : HeapPage}
    (h : Cached pid td P) : P.pid = pid ∧ ∀ t ∈ P.tuples, t.rid = sentinelRid := by
  induction h with
  | new h => exact new_tuples_rid h
  | add _ ht h ih =>
    obtain ⟨i, -, -, -, -, htup, hpid, -⟩ := addTuple_eq_ok h
    refine ⟨hpid ▸ ih.1, fun u hu => ?_⟩
    rw [htup] at hu
    rcases List.mem_or_eq_of_mem_set hu with hu | rfl
    · exact ih.2 u hu
    · exact ht
  | delete _ h ih =>
    obtain ⟨-, -, -, -, htup, hpid, -⟩ := deleteTuple_eq_ok h
    refine ⟨hpid ▸ ih.1, fun u hu => ?_⟩
    rw [htup] at hu
    rcases List.mem_or_eq_of_mem_set hu with hu | rfl
    · exact ih.2 u hu
    · rfl
  | markDirty _ _ _ ih => exact ih
  | setBeforeImage _ h ih =>
    obtain ⟨d, -, rfl⟩ := Option.map_eq_some'.mp h
    exact ih

/-- **Record ids are never stamped.**  Every tuple of every page the buffer pool can
hold has the record id `((0, 0), 0)`, not `(page id, slot)`; so on any page other than
page `(0, 0)`, `delete_tuple` refuses every tuple read from one of its occupied
slots. -/
theorem cached_tuples_rid_sentinel {pid : HeapPageId} {td : TupleDesc} {P : HeapPage}
    (h : Cached pid td P) :
    (∀ t ∈ P.tuples, t.rid = sentinelRid) ∧
    (pid ≠ sentinelRid.pid → ∀ i < P.numSlots, getSlot P.header i = true →
      P.deleteTuple (P.tuples.getD i default) = some (.error "Tuple not on this page")) := by
  obtain ⟨hpid, hrid⟩ := h.pid_and_rids
  refine ⟨hrid, fun hne i hi _ => ?_⟩
  have hmem : P.tuples.getD i default ∈ P.tuples := by
    rw [List.getD_eq_getElem?_getD, List.getElem?_eq_getElem (by rw [P.tuples_length]; exact hi)]
    exact List.getElem_mem _
  have hne' : (P.tuples.getD i default).rid.pid ≠ P.pid := by
    rw [hrid _ hmem, hpid]; exact Ne.symm hne
  unfold deleteTuple
  dsimp only
  rw [if_pos hne']

/-- The failing input: a tuple inserted into page `(1, 0)` of a one-column table
keeps the sentinel record id, and `delete_tuple` of it is refused. -/
theorem cached_tuples_rid_sentinel_after_insert :
    ∃ P, Cached ⟨1, 0⟩ ⟨[.intType], ["id"]⟩ P ∧ getSlot P.header 0 = true ∧
      (P.tuples.getD 0 default).rid = sentinelRid ∧
      P.deleteTuple (P.tuples.getD 0 default) = some (.error "Tuple not on this page") := by
  let td : TupleDesc := ⟨[.intType], ["id"]⟩
  let t := Tuple.new [.intField ⟨7⟩] td
  obtain ⟨P0, hP0, -, htd, hhdr, -, -⟩ := new_replicate_zero ⟨1, 0⟩ td
  have hn : P0.numSlots = 992 := by rw [P0.numSlots_eq, htd]; decide
  have hfree : 0 < P0.getNumEmptySlots := by simp [getNumEmptySlots, hhdr, hn]
  obtain ⟨P1, h1⟩ := addTuple_isOk_of_getNumEmptySlots_pos t hfree
  obtain ⟨i, hi, -, hlow, hhdr1, htup1, -, -, hns, -⟩ := addTuple_eq_ok h1
  have hi0 : i = 0 := by
    by_contra hne
    simpa [hhdr] using hlow 0 (Nat.pos_of_ne_zero hne)
  subst hi0
  have hC : Cached ⟨1, 0⟩ td P1 := Cached.add (Cached.new hP0) rfl h1
  have hocc : getSlot P1.header 0 = true := by
    rw [hhdr1, getSlot_setSlot (P0.div8_lt_header_length hi)]; rfl
  have hget : P1.tuples.getD 0 default = t := by
    rw [htup1]
    simp [List.getD_eq_getElem?_getD, P0.tuples_length, hi]
  have hn1 : 0 < P1.numSlots := by rw [hns, hn]; decide
  obtain ⟨-, hdel⟩ := cached_tuples_rid_sentinel hC
  exact ⟨P1, hC, hocc, by rw [hget]; rfl, hdel (by decide) 0 hn1 hocc⟩

end RusticDb
