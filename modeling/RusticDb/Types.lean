/-
# Field types and field values (`types.rs`, `fields.rs`)

The two column types of the engine and the on-disk encoding of their values:

* `FieldType` is `Type` of `types.rs` (`Type` is a keyword in Lean): `IntType`
  occupies 4 bytes, `StringType` occupies `STRING_SIZE + 4` bytes (`getLen`).
* Integers are `i32`, kept as their 32 bits (`BitVec 32`); the string length
  prefix is a `u32`, also `BitVec 32`.  Bytes are `u8`, i.e. `BitVec 8`.
* A Rust `String` is a byte vector that is valid UTF-8; `RString` is exactly that,
  with `validUtf8` the acceptance test of `String::from_utf8` (well-formed UTF-8,
  Unicode Table 3-7).
* `IntField.serialize` / `StringField.serialize` are the field encoders of
  `fields.rs`; `FieldType.parse` is `Type::parse`, where `none` stands for a
  panic (a slice past the end of the buffer, or the `unwrap` of `from_utf8`).

The codec facts proved here (`fromBeBytes_toBeBytes`, `parse_serialize`) are the
field half of the page round trip of `PageCodec.lean`.
-/
import Mathlib.Data.List.Basic

namespace RusticDb

/-! ## Constants -/

/-- `STRING_SIZE` (`types.rs`): the payload capacity of a string field. -/
def stringSize : Nat := 256

/-- `PAGE_SIZE` (`buffer_pool.rs`): the size of a page on disk. -/
def pageSize : Nat := 4096

/-! ## Big-endian 32-bit words -/

/-- `to_be_bytes` of a 32-bit word. -/
def toBeBytes (v : BitVec 32) : List (BitVec 8) :=
  [v.extractLsb' 24 8, v.extractLsb' 16 8, v.extractLsb' 8 8, v.extractLsb' 0 8]

/-- `from_be_bytes` of the first four bytes of a buffer (callers check the length). -/
def fromBeBytes : List (BitVec 8) → BitVec 32
  | a :: b :: c :: d :: _ => a ++ b ++ c ++ d
  | _ => 0

@[simp] theorem length_toBeBytes (v : BitVec 32) : (toBeBytes v).length = 4 := rfl

/-- Decoding the four bytes of an encoded word gives the word back, whatever follows. -/
@[simp] theorem fromBeBytes_toBeBytes (v : BitVec 32) (rest : List (BitVec 8)) :
    fromBeBytes (toBeBytes v ++ rest) = v := by
  apply BitVec.eq_of_getLsbD_eq
  intro ⟨i, hi⟩
  have h24 : i - 8 - 8 - 8 < 8 := by omega
  simp only [toBeBytes, fromBeBytes, List.cons_append, BitVec.getLsbD_append,
    BitVec.getLsbD_extractLsb', cond_eq_if, h24]
  split_ifs <;> simp_all <;> congr 1 <;> omega

/-! ## UTF-8 strings -/

/-- A continuation byte `80..BF`. -/
def contByte (b : BitVec 8) : Bool := 0x80 ≤ b.toNat && b.toNat ≤ 0xBF

/-- For a lead byte: how many continuation bytes follow, and the range allowed for
the first of them (Unicode Table 3-7); `(0, 0, 0)` for a byte that cannot lead. -/
def leadRange (a : BitVec 8) : Nat × Nat × Nat :=
  if 0xC2 ≤ a.toNat ∧ a.toNat ≤ 0xDF then (1, 0x80, 0xBF)
  else if a.toNat = 0xE0 then (2, 0xA0, 0xBF)
  else if 0xE1 ≤ a.toNat ∧ a.toNat ≤ 0xEC then (2, 0x80, 0xBF)
  else if a.toNat = 0xED then (2, 0x80, 0x9F)
  else if 0xEE ≤ a.toNat ∧ a.toNat ≤ 0xEF then (2, 0x80, 0xBF)
  else if a.toNat = 0xF0 then (3, 0x90, 0xBF)
  else if 0xF1 ≤ a.toNat ∧ a.toNat ≤ 0xF3 then (3, 0x80, 0xBF)
  else if a.toNat = 0xF4 then (3, 0x80, 0x8F)
  else (0, 0, 0)

/-- Well-formed UTF-8: what `String::from_utf8` accepts. -/
def validUtf8 : List (BitVec 8) → Bool
  | [] => true
  | a :: rest =>
    if a.toNat < 0x80 then validUtf8 rest
    else
      let (n, lo, hi) := leadRange a
      match n, rest with
      | 1, b :: r => (lo ≤ b.toNat && b.toNat ≤ hi) && validUtf8 r
      | 2, b :: c :: r => (lo ≤ b.toNat && b.toNat ≤ hi) && contByte c && validUtf8 r
      | 3, b :: c :: d :: r =>
        (lo ≤ b.toNat && b.toNat ≤ hi) && contByte c && contByte d && validUtf8 r
      | _, _ => false

/-- A Rust `String`: its bytes (`as_bytes`), which are valid UTF-8. -/
structure RString where
  bytes : List (BitVec 8)
  valid : validUtf8 bytes = true
  deriving DecidableEq

/-- `String::from_utf8`: `none` on invalid bytes (the `Err` that the code unwraps). -/
def fromUtf8 (b : List (BitVec 8)) : Option RString :=
  if h : validUtf8 b = true then some ⟨b, h⟩ else none

@[simp] theorem fromUtf8_bytes (s : RString) : fromUtf8 s.bytes = some s := by
  simp [fromUtf8, s.valid]

/-! ## Types and fields -/

/-- `Type` of `types.rs`. -/
inductive FieldType where
  | intType
  | stringType
  deriving DecidableEq, Repr

/-- `Type::get_len`: bytes occupied by a value of the type. -/
def FieldType.getLen : FieldType → Nat
  | .intType => 4
  | .stringType => stringSize + 4

/-- `IntField`: an `i32`. -/
structure IntField where
  value : BitVec 32
  deriving DecidableEq

/-- `StringField`: a string with the length prefix it was built with (`len`, which
`StringField::new` takes from the caller and never checks). -/
structure StringField where
  value : RString
  len : BitVec 32
  deriving DecidableEq

/-- `FieldVal`. -/
inductive FieldVal where
  | intField (f : IntField)
  | stringField (f : StringField)
  deriving DecidableEq

/-- `IntField::serialize`: the big-endian bytes of the value. -/
def IntField.serialize (f : IntField) : List (BitVec 8) := toBeBytes f.value

/-- `StringField::serialize`: the length prefix, then at most `STRING_SIZE` bytes of
the string, zero-padded to `STRING_SIZE`. -/
def StringField.serialize (f : StringField) : List (BitVec 8) :=
  let copy := f.value.bytes.take stringSize
  toBeBytes f.len ++ copy ++ List.replicate (stringSize - copy.length) 0

/-- The per-field case of `Tuple::serialize`. -/
def FieldVal.serialize : FieldVal → List (BitVec 8)
  | .intField f => f.serialize
  | .stringField f => f.serialize

/-- `Type::parse`: decode a field from the front of `bytes`.  `none` is a panic: the
`bytes[..4]` or `bytes[4..len + 4]` slice out of range, or `from_utf8(..).unwrap()`. -/
def FieldType.parse : FieldType → List (BitVec 8) → Option FieldVal
  | .intType, bytes =>
    if bytes.length < 4 then none else some (.intField ⟨fromBeBytes bytes⟩)
  | .stringType, bytes =>
    if bytes.length < 4 then none
    else
      let len := fromBeBytes bytes
      if bytes.length < len.toNat + 4 then none
      else (fromUtf8 ((bytes.drop 4).take len.toNat)).map fun s => .stringField ⟨s, len⟩

/-! ## Well-typed values and the field round trip -/

/-- A field value of type `ty`; a string is well formed when its `len` is the byte
length of its value and fits in `STRING_SIZE`. -/
def FieldVal.Fits : FieldVal → FieldType → Prop
  | .intField _, .intType => True
  | .stringField f, .stringType =>
    f.len.toNat = f.value.bytes.length ∧ f.value.bytes.length ≤ stringSize
  | _, _ => False

instance (v : FieldVal) (ty : FieldType) : Decidable (v.Fits ty) :=
  match v, ty with
  | .intField _, .intType => isTrue trivial
  | .stringField _, .stringType => inferInstanceAs (Decidable (_ ∧ _))
  | .intField _, .stringType | .stringField _, .intType => isFalse id

/-- A value of type `ty` serializes to exactly `ty.getLen` bytes. -/
theorem FieldVal.length_serialize {v : FieldVal} {ty : FieldType} (h : v.Fits ty) :
    v.serialize.length = ty.getLen := by
  cases v <;> cases ty <;> simp only [Fits] at h
  · rfl
  · simp only [serialize, StringField.serialize, List.length_append, length_toBeBytes,
      List.length_take, List.length_replicate, FieldType.getLen]
    omega

/-- **Field round trip.**  Parsing the encoding of a well-typed value, followed by
anything, gives the value back. -/
theorem FieldVal.parse_serialize {v : FieldVal} {ty : FieldType} (h : v.Fits ty)
    (rest : List (BitVec 8)) : ty.parse (v.serialize ++ rest) = some v := by
  cases v with
  | intField f =>
    cases ty <;> simp only [Fits] at h
    simp [FieldType.parse, serialize, IntField.serialize]
  | stringField f =>
    cases ty <;> simp only [Fits] at h
    obtain ⟨hlen, hsz⟩ := h
    have hser : f.serialize = toBeBytes f.len ++ f.value.bytes ++
        List.replicate (stringSize - f.value.bytes.length) 0 := by
      simp [StringField.serialize, List.take_of_length_le hsz]
    simp [FieldType.parse, serialize, hser, hlen]
    omega

/-- `Type::parse` of bytes at least as long as the type panics only on a string whose
length prefix reaches past the end of the bytes or whose payload is not UTF-8. -/
theorem FieldType.parse_eq_none_iff (ty : FieldType) {bytes : List (BitVec 8)}
    (h : ty.getLen ≤ bytes.length) :
    ty.parse bytes = none ↔ ty = .stringType ∧
      (bytes.length < (fromBeBytes bytes).toNat + 4 ∨
        validUtf8 ((bytes.drop 4).take (fromBeBytes bytes).toNat) = false) := by
  cases ty with
  | intType =>
    simp only [FieldType.getLen] at h
    simp [FieldType.parse, show ¬bytes.length < 4 by omega]
  | stringType =>
    simp only [FieldType.getLen, stringSize] at h
    simp only [FieldType.parse, show ¬bytes.length < 4 by omega, if_false, true_and]
    split_ifs with hl
    · simp [hl]
    · simp [hl, fromUtf8]

theorem StringField.length_serialize (f : StringField) : f.serialize.length = stringSize + 4 := by
  simp only [StringField.serialize, List.length_append, length_toBeBytes, List.length_take,
    List.length_replicate]
  omega

/-- Whatever `len` a `StringField` was built with, `Type::parse` of its encoding reads the
first `len` bytes of the zero-padded payload, and panics when `len` is above
`STRING_SIZE`. -/
theorem StringField.parse_serialize (f : StringField) :
    FieldType.stringType.parse f.serialize =
      if stringSize < f.len.toNat then none
      else (fromUtf8 ((f.serialize.drop 4).take f.len.toNat)).map
        fun s => .stringField ⟨s, f.len⟩ := by
  have hpre : fromBeBytes f.serialize = f.len := by
    simp [StringField.serialize, List.append_assoc]
  simp only [FieldType.parse, f.length_serialize, hpre, show ¬stringSize + 4 < 4 by omega, if_false]
  split_ifs <;> first | rfl | omega

/-! ## `mapM` in `Option` -/

/-- An `Option`-valued `mapM` that succeeds returns one result per element. -/
theorem length_of_mapM_eq_some {α β : Type} {f : α → Option β} :
    ∀ {l : List α} {l' : List β}, l.mapM f = some l' → l'.length = l.length
  | [], l', h => by
    simp only [List.mapM_nil, Option.pure_def, Option.some.injEq] at h
    simp [← h]
  | a :: l, l', h => by
    simp only [List.mapM_cons, Option.pure_def, Option.bind_eq_bind, Option.bind_eq_some,
      Option.some.injEq] at h
    obtain ⟨b, -, bs, hbs, rfl⟩ := h
    simp [length_of_mapM_eq_some hbs]

/-- Every result of a successful `Option`-valued `mapM` is the result of `f` on an
element. -/
theorem exists_of_mapM_eq_some {α β : Type} {f : α → Option β} :
    ∀ {l : List α} {l' : List β}, l.mapM f = some l' → ∀ b ∈ l', ∃ a ∈ l, f a = some b
  | [], l', h => by
    simp only [List.mapM_nil, Option.pure_def, Option.some.injEq] at h
    simp [← h]
  | a :: l, l', h => by
    simp only [List.mapM_cons, Option.pure_def, Option.bind_eq_bind, Option.bind_eq_some,
      Option.some.injEq] at h
    obtain ⟨b, hb, bs, hbs, rfl⟩ := h
    intro c hc
    rcases List.mem_cons.mp hc with rfl | hc
    · exact ⟨a, List.mem_cons_self _ _, hb⟩
    · obtain ⟨a', ha', e⟩ := exists_of_mapM_eq_some hbs c hc
      exact ⟨a', List.mem_cons_of_mem _ ha', e⟩

theorem forall_of_mapM_eq_some {α β : Type} {f : α → Option β} {p : β → Prop}
    (hf : ∀ a b, f a = some b → p b) {l : List α} {l' : List β} (h : l.mapM f = some l') :
    ∀ b ∈ l', p b := fun b hb => by
  obtain ⟨a, -, e⟩ := exists_of_mapM_eq_some h b hb
  exact hf a b e

end RusticDb
