/-
# Tuples and tuple descriptors (`tuple.rs`, `heap_page.rs` ids)

* `HeapPageId` is `(table_id, page_number)`; `RecordId` is `(pid, tuple_no)`.
* `TupleDesc` is the ordered column types and names; `getSize` is the fold of
  `TupleDesc::get_size`.
* `Tuple` carries its field values, its descriptor and a `RecordId`; `Tuple.new`
  stamps the sentinel record id `((0, 0), 0)`, as `Tuple::new` does.
* `Tuple.serialize` concatenates the field encodings; `Tuple.deserialize` walks the
  descriptor's types with a running offset, as the loop of `Tuple::deserialize`
  does, and is `none` where that loop panics.

`Tuple.deserialize_serialize` is the tuple round trip: a tuple whose values fit the
descriptor positionally (`Tuple.Conforms`) decodes back to its own field values.
-/
import RusticDb.Types

namespace RusticDb

/-- `HeapPageId`: a page of a table. -/
structure HeapPageId where
  tableId : Nat
  pageNumber : Nat
  deriving DecidableEq, Repr

/-- `RecordId`: a slot of a page. -/
structure RecordId where
  pid : HeapPageId
  tupleNo : Nat
  deriving DecidableEq, Repr

/-- `TupleDesc`: column types and column names. -/
structure TupleDesc where
  types : List FieldType
  fields : List String
  deriving DecidableEq

/-- `TupleDesc::get_size`: the sum of the column widths. -/
def TupleDesc.getSize (td : TupleDesc) : Nat :=
  td.types.foldl (fun acc t => acc + t.getLen) 0

/-- `Tuple`. -/
structure Tuple where
  fields : List FieldVal
  td : TupleDesc
  rid : RecordId
  deriving DecidableEq

/-- The record id `Tuple::new` gives every tuple: page `(0, 0)`, slot `0`. -/
def sentinelRid : RecordId := ⟨⟨0, 0⟩, 0⟩

/-- `Tuple::new`. -/
def Tuple.new (fields : List FieldVal) (td : TupleDesc) : Tuple := ⟨fields, td, sentinelRid⟩

@[simp] theorem Tuple.new_fields (fs : List FieldVal) (td : TupleDesc) :
    (Tuple.new fs td).fields = fs := rfl

@[simp] theorem Tuple.new_rid (fs : List FieldVal) (td : TupleDesc) :
    (Tuple.new fs td).rid = sentinelRid := rfl

/-- `Tuple::set_record_id`. -/
def Tuple.setRecordId (t : Tuple) (rid : RecordId) : Tuple := { t with rid := rid }

/-- `Tuple::serialize`. -/
def Tuple.serialize (t : Tuple) : List (BitVec 8) := t.fields.flatMap FieldVal.serialize

/-- The loop of `Tuple::deserialize` from `offset` on: `bytes[offset..]` panics when
the offset is past the end, and each field is `parse(..).unwrap()`. -/
def deserializeFields (bytes : List (BitVec 8)) : List FieldType → Nat → Option (List FieldVal)
  | [], _ => some []
  | t :: ts, offset =>
    if bytes.length < offset then none
    else do
      let f ← t.parse (bytes.drop offset)
      let fs ← deserializeFields bytes ts (offset + t.getLen)
      pure (f :: fs)

/-- `Tuple::deserialize`. -/
def Tuple.deserialize (bytes : List (BitVec 8)) (td : TupleDesc) : Option Tuple :=
  (deserializeFields bytes td.types 0).map fun fs => Tuple.new fs td

/-- Field values that match the descriptor's types positionally, strings well formed. -/
def Tuple.Conforms (t : Tuple) (td : TupleDesc) : Prop :=
  List.Forall₂ FieldVal.Fits t.fields td.types

/-- The field encodings of conforming values add up, column by column, as `get_size`
adds up the column widths. -/
theorem length_flatMap_serialize {fs : List FieldVal} {tys : List FieldType}
    (h : List.Forall₂ FieldVal.Fits fs tys) (a : Nat) :
    a + (fs.flatMap FieldVal.serialize).length = tys.foldl (fun acc t => acc + t.getLen) a := by
  induction h generalizing a with
  | nil => rfl
  | cons hf _ ih =>
    rw [List.flatMap_cons, List.length_append, FieldVal.length_serialize hf, List.foldl_cons,
      ← ih, Nat.add_assoc]

/-- A conforming tuple serializes to `td.getSize` bytes. -/
theorem Tuple.length_serialize {t : Tuple} {td : TupleDesc} (h : t.Conforms td) :
    t.serialize.length = td.getSize :=
  (Nat.zero_add _).symm.trans (length_flatMap_serialize h 0)

/-- The fields loop reads back conforming values wherever they sit in the buffer. -/
theorem deserializeFields_serialize {fs : List FieldVal} {tys : List FieldType}
    (h : List.Forall₂ FieldVal.Fits fs tys) (pre rest : List (BitVec 8)) :
    deserializeFields (pre ++ fs.flatMap FieldVal.serialize ++ rest) tys pre.length =
      some fs := by
  induction h generalizing pre with
  | nil => rfl
  | @cons f ty fs tys hf _ ih =>
    have hlen := FieldVal.length_serialize hf
    have hdrop : (pre ++ (f :: fs).flatMap FieldVal.serialize ++ rest).drop pre.length =
        f.serialize ++ (fs.flatMap FieldVal.serialize ++ rest) := by simp
    have hih := ih (pre ++ f.serialize)
    simp only [List.length_append, hlen, List.append_assoc] at hih
    rw [deserializeFields, if_neg (by simp), hdrop, FieldVal.parse_serialize hf]
    simp [hih]

/-- **Tuple round trip.**  Decoding the encoding of a conforming tuple gives a tuple
with the same field values. -/
theorem Tuple.deserialize_serialize {t : Tuple} {td : TupleDesc} (h : t.Conforms td) :
    Tuple.deserialize t.serialize td = some (Tuple.new t.fields td) := by
  have := deserializeFields_serialize h [] []
  simp only [List.nil_append, List.append_nil, List.length_nil] at this
  simp [Tuple.deserialize, Tuple.serialize, this]

/-! ## What decoding rejects -/

/-- The running offset of the loop of `Tuple::deserialize` adds up from any start. -/
theorem foldl_add_getLen (tys : List FieldType) (a : Nat) :
    tys.foldl (fun acc t => acc + t.getLen) a = a + tys.foldl (fun acc t => acc + t.getLen) 0 := by
  induction tys generalizing a with
  | nil => rfl
  | cons t tys ih => rw [List.foldl_cons, List.foldl_cons, ih, ih (0 + t.getLen)]; omega

/-- Column `k` ends within the tuple. -/
theorem foldl_take_add_getLen_le :
    ∀ (tys : List FieldType) {k : Nat} (hk : k < tys.length),
      (tys.take k).foldl (fun acc t => acc + t.getLen) 0 + tys[k].getLen ≤
        tys.foldl (fun acc t => acc + t.getLen) 0
  | t :: tys, 0, _ => by
    rw [List.take_zero, List.foldl_nil, List.foldl_cons, foldl_add_getLen]; simp
  | t :: tys, k + 1, hk => by
    have := foldl_take_add_getLen_le tys (k := k) (by simpa using hk)
    rw [List.take_succ_cons, List.foldl_cons, List.foldl_cons, foldl_add_getLen,
      foldl_add_getLen tys, List.getElem_cons_succ]
    omega

/-- The loop of `Tuple::deserialize` over columns that fit in the bytes panics exactly
when the `parse` of one column, from its offset to the end of the bytes, fails. -/
theorem deserializeFields_eq_none_iff (bytes : List (BitVec 8)) :
    ∀ (tys : List FieldType) (offset : Nat),
      tys.foldl (fun acc t => acc + t.getLen) offset ≤ bytes.length →
      (deserializeFields bytes tys offset = none ↔ ∃ k, ∃ hk : k < tys.length,
        tys[k].parse (bytes.drop ((tys.take k).foldl (fun acc t => acc + t.getLen) offset)) = none)
  | [], _, _ => by simp [deserializeFields]
  | t :: tys, offset, hle => by
    rw [List.foldl_cons] at hle
    have hoff := foldl_add_getLen tys (offset + t.getLen)
    rw [deserializeFields, if_neg (by omega)]
    cases hp : t.parse (bytes.drop offset) with
    | none => exact ⟨fun _ => ⟨0, by simp, by simpa using hp⟩, fun _ => rfl⟩
    | some f =>
      have ih := deserializeFields_eq_none_iff bytes tys (offset + t.getLen) hle
      simp only [Option.bind_eq_bind, Option.some_bind]
      constructor
      · intro hn
        have : deserializeFields bytes tys (offset + t.getLen) = none := by
          cases e : deserializeFields bytes tys (offset + t.getLen) <;> simp_all
        obtain ⟨k, hk, h⟩ := ih.1 this
        exact ⟨k + 1, by simp; omega, by simpa using h⟩
      · rintro ⟨k, hk, h⟩
        cases k with
        | zero => simp [hp] at h
        | succ k =>
          have := ih.2 ⟨k, by simpa using hk, by simpa using h⟩
          simp [this]

end RusticDb
