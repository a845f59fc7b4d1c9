/-
# Scans, projections, joins and filters (`table.rs`)

A `TableIterator` is a result set: `Table::scan(count)` copies the first `count` tuples
that the page iterators of the table's file yield, `project` and `join` build new
result sets from the tuples held, and `table_filter` adds a filter that `next` applies
as it hands the tuples out.  Once the scan has its pages, a query reads nothing shared:
the functions here are pure, and every `unwrap` that fails is a panic (`none`).

`iterFrom_eq` says what the page iterator yields, `scanPages_eq` what a scan holds,
`toList_eq` what iterating a filtered result set yields, `Tuple.project_eq` what a
projection keeps of a tuple, and `join_is_equiJoin` that a join is the equi-join of the
two result sets, or a panic.  A projection takes its column names from the request, not
from the columns it keeps, and is exact when the request lists columns of the table in
column order (`project_exact_in_column_order`).
-/
import RusticDb.HeapPage

namespace RusticDb

/-! ## Tuple descriptors and fields -/

namespace TupleDesc

/-- `TupleDesc::combine`: the columns of `td1`, then those of `td2`. -/
def combine (td1 td2 : TupleDesc) : TupleDesc :=
  ⟨td1.types ++ td2.types, td1.fields ++ td2.fields⟩

/-- `TupleDesc::get_num_fields`: the number of column types. -/
def getNumFields (td : TupleDesc) : Nat := td.types.length

/-- `TupleDesc::get_field_name`. -/
def getFieldName (td : TupleDesc) (i : Nat) : Option String := td.fields[i]?

/-- `TupleDesc::name_to_id`: the first column with the name. -/
def nameToId (td : TupleDesc) (name : String) : Option Nat := td.fields.findIdx? (· == name)

/-- `TupleDesc::get_field_type`. -/
def getFieldType (td : TupleDesc) (i : Nat) : Option FieldType := td.types[i]?

end TupleDesc

/-- `Tuple::get_field`. -/
def Tuple.getField (t : Tuple) (i : Nat) : Option FieldVal := t.fields[i]?

/-- `FieldVal::into_int`. -/
def FieldVal.intoInt : FieldVal → Option IntField
  | .intField f => some f
  | .stringField _ => none

/-! ## Filters -/

/-- `Predicate` of `table.rs`. -/
inductive Predicate where
  | equals (value : RString)
  | equalsInt (value : BitVec 32)
  | greaterThan (value : BitVec 32)
  | lessThan (value : BitVec 32)

/-- A predicate on the value of the column it names (`i32` comparisons are signed).
`GreaterThan` first prints `field.clone().into_int().unwrap()`, which panics on a
string; the other predicates are `false` on a value of the other type. -/
def Predicate.test : Predicate → FieldVal → Option Bool
  | .equals value, .stringField f => some (f.value == value)
  | .equals _, .intField _ => some false
  | .equalsInt value, .intField f => some (f.value == value)
  | .equalsInt _, .stringField _ => some false
  | .greaterThan value, field => field.intoInt.map fun f => value.slt f.value
  | .lessThan value, .intField f => some (f.value.slt value)
  | .lessThan _, .stringField _ => some false

/-- The loop of `Filterable::filter` over the columns `cols`: it unwraps the value and
the name of each column it passes, and tests the first column named `fieldName`. -/
def Tuple.filterColumns (t : Tuple) (fieldName : String) (predicate : Predicate) :
    List Nat → Option Bool
  | [] => some false
  | i :: cols => do
    let field ← t.getField i
    let name ← t.td.getFieldName i
    if fieldName == name then predicate.test field else t.filterColumns fieldName predicate cols

/-- `Filterable::filter` for `Tuple`: the loop runs over the column types. -/
def Tuple.filter (t : Tuple) (fieldName : String) (predicate : Predicate) : Option Bool :=
  t.filterColumns fieldName predicate (List.range t.td.getNumFields)

/-- The loop of `TableIterator::next` over the filters: `false` at the first filter the
tuple fails, which ends the loop. -/
def passesFilters (t : Tuple) : List (String × Predicate) → Option Bool
  | [] => some true
  | (name, p) :: fs => do if (← t.filter name p) then passesFilters t fs else pure false

/-! ## The page iterator -/

namespace HeapPage

/-- `HeapPageIterator::next` from position `index`: the tuple of the first taken slot at
or after `index`, and the position after it (`tuples[index]` is in range, as `tuples`
has `num_slots` entries). -/
def iterNext (P : HeapPage) (index : Nat) : Option (Tuple × Nat) :=
  if index < P.numSlots then
    if getSlot P.header index then some (P.tuples.getD index default, index + 1)
    else P.iterNext (index + 1)
  else none
termination_by P.numSlots - index

variable {P : HeapPage} {i : Nat}

theorem iterNext_of_taken (hi : i < P.numSlots) (hs : getSlot P.header i = true) :
    P.iterNext i = some (P.tuples.getD i default, i + 1) := by
  rw [iterNext, if_pos hi, if_pos hs]

theorem iterNext_of_free (hi : i < P.numSlots) (hs : getSlot P.header i = false) :
    P.iterNext i = P.iterNext (i + 1) := by
  rw [iterNext, if_pos hi, if_neg (by rw [hs]; decide)]

theorem iterNext_of_le (hi : P.numSlots ≤ i) : P.iterNext i = none := by
  rw [iterNext, if_neg (by omega)]

/-- `next` moves forward and stays within the slots. -/
theorem iterNext_index {t : Tuple} {j : Nat} (h : P.iterNext i = some (t, j)) :
    i < j ∧ j ≤ P.numSlots := by
  induction i using iterNext.induct P with
  | case1 i hi hs =>
    rw [iterNext_of_taken hi hs, Option.some.injEq, Prod.mk.injEq] at h
    omega
  | case2 i hi hs ih =>
    rw [iterNext_of_free hi (by simpa using hs)] at h
    have := ih h
    omega
  | case3 i hi => rw [iterNext_of_le (by omega)] at h; cases h

/-- The tuples a `for` loop over `page.iter()` receives, from position `index` on. -/
def iterFrom (P : HeapPage) (index : Nat) : List Tuple :=
  match _h : P.iterNext index with
  | none => []
  | some (t, j) => t :: P.iterFrom j
termination_by P.numSlots - index
decreasing_by have := iterNext_index _h; omega

theorem iterFrom_of_taken (hi : i < P.numSlots) (hs : getSlot P.header i = true) :
    P.iterFrom i = P.tuples.getD i default :: P.iterFrom (i + 1) := by
  rw [iterFrom]
  split
  · next h => rw [iterNext_of_taken hi hs] at h; cases h
  · next t j h =>
    rw [iterNext_of_taken hi hs, Option.some.injEq, Prod.mk.injEq] at h
    rw [h.1, h.2]

theorem iterFrom_of_free (hi : i < P.numSlots) (hs : getSlot P.header i = false) :
    P.iterFrom i = P.iterFrom (i + 1) := by
  conv_lhs => rw [iterFrom]
  conv_rhs => rw [iterFrom]
  have e := iterNext_of_free hi hs
  split <;> split
  · rfl
  · next h₁ _ _ h₂ => rw [e, h₂] at h₁; cases h₁
  · next h₁ h₂ => rw [e, h₂] at h₁; cases h₁
  · next t j h₁ t' j' h₂ =>
    rw [e, h₂, Option.some.injEq, Prod.mk.injEq] at h₁
    rw [h₁.1, h₁.2]

theorem iterFrom_of_le (hi : P.numSlots ≤ i) : P.iterFrom i = [] := by
  rw [iterFrom]
  split
  · rfl
  · next h => rw [iterNext_of_le hi] at h; cases h

/-- **The page iterator.**  From position `i`, a page yields the tuples of its taken
slots at or after `i`, each once, in the order of the slots. -/
theorem iterFrom_eq (P : HeapPage) (i : Nat) :
    P.iterFrom i =
      ((List.range' i (P.numSlots - i)).filter (getSlot P.header)).map (P.tuples.getD · default) := by
  obtain ⟨n, h⟩ : ∃ n, P.numSlots - i = n := ⟨_, rfl⟩
  induction n generalizing i with
  | zero => rw [h, iterFrom_of_le (by omega), List.range'_zero, List.filter_nil, List.map_nil]
  | succ n ih =>
    have hi : i < P.numSlots := by omega
    have e := ih (i + 1) (by omega)
    rw [show P.numSlots - (i + 1) = n by omega] at e
    rw [h, List.range'_succ, List.filter_cons]
    cases hs : getSlot P.header i
    · rw [iterFrom_of_free hi hs, if_neg (by simp), e]
    · rw [iterFrom_of_taken hi hs, if_pos rfl, List.map_cons, e]

end HeapPage

/-! ## Scans -/

/-- The loop of `TableIterator::new` over the pages that `heap_file.iter(tid)` hands out:
the tuples of each page in turn while `count` lasts.  The inner loop breaks when
`count` reaches zero; the outer loop still fetches every page. -/
def scanPages : List HeapPage → Nat → List Tuple
  | [], _ => []
  | P :: ps, count =>
    let ts := (P.iterFrom 0).take count
    ts ++ scanPages ps (count - ts.length)

/-- `TableIterator`: the tuples it holds (`data`), the position of `next`
(`current_page_index`) and the filters added by `table_filter`.  The table and the
transaction are only passed along by `project` and `join`, and are left out. -/
structure TableIterator where
  data : List Tuple
  currentPageIndex : Nat
  filters : List (String × Predicate)

namespace TableIterator

/-- `TableIterator::new(table, tid, count)`, from the pages the file iterator hands out. -/
def new (pages : List HeapPage) (count : Nat) : TableIterator := ⟨scanPages pages count, 0, []⟩

/-- `table_filter`. -/
def tableFilter (it : TableIterator) (fieldName : String) (predicate : Predicate) :
    TableIterator :=
  { it with filters := it.filters ++ [(fieldName, predicate)] }

/-- `Iterator::next`: the next tuple that passes every filter, or `some none` at the end.
A tuple that fails a filter is skipped by calling `next` again. -/
def next (it : TableIterator) : Option (Option (Tuple × TableIterator)) :=
  if h : it.currentPageIndex < it.data.length then
    let tuple := it.data[it.currentPageIndex]
    let it' := { it with currentPageIndex := it.currentPageIndex + 1 }
    match passesFilters tuple it.filters with
    | none => none
    | some true => some (some (tuple, it'))
    | some false => it'.next
  else some none
termination_by it.data.length - it.currentPageIndex

variable {it it' : TableIterator} {t : Tuple}

/-- `next` keeps the tuples and the filters, and moves forward within the tuples. -/
theorem next_some (h : it.next = some (some (t, it'))) :
    it'.data = it.data ∧ it'.filters = it.filters ∧
      it.currentPageIndex < it'.currentPageIndex ∧ it'.currentPageIndex ≤ it.data.length := by
  induction it using next.induct with
  | case1 it hi _ hp => rw [next, dif_pos hi] at h; simp [hp] at h
  | case2 it hi _ hp =>
    rw [next, dif_pos hi] at h
    simp only [hp, Option.some.injEq, Prod.mk.injEq] at h
    rw [← h.2]
    exact ⟨rfl, rfl, Nat.lt_succ_self _, hi⟩
  | case3 it hi _ _ hp ih =>
    rw [next, dif_pos hi] at h
    simp only [hp] at h
    obtain ⟨h1, h2, h3, h4⟩ := ih h
    have h3' : it.currentPageIndex + 1 < it'.currentPageIndex := h3
    exact ⟨h1, h2, by omega, h4⟩
  | case4 it hi => rw [next, dif_neg hi] at h; cases h

/-- The tuples a `for` loop over the result set receives; `none` when `next` panics. -/
def toList (it : TableIterator) : Option (List Tuple) :=
  match _h : it.next with
  | none => none
  | some none => some []
  | some (some (t, it')) => it'.toList.map (t :: ·)
termination_by it.data.length - it.currentPageIndex
decreasing_by obtain ⟨h1, -, h3, h4⟩ := next_some _h; rw [h1]; omega

section Steps

variable (hi : it.currentPageIndex < it.data.length)
include hi

theorem next_of_pass (hp : passesFilters it.data[it.currentPageIndex] it.filters = some true) :
    it.next = some (some (it.data[it.currentPageIndex],
      { it with currentPageIndex := it.currentPageIndex + 1 })) := by
  rw [next, dif_pos hi]; simp only [hp]

theorem next_of_fail (hp : passesFilters it.data[it.currentPageIndex] it.filters = some false) :
    it.next = { it with currentPageIndex := it.currentPageIndex + 1 }.next := by
  rw [next, dif_pos hi]; simp only [hp]

theorem next_of_panic (hp : passesFilters it.data[it.currentPageIndex] it.filters = none) :
    it.next = none := by
  rw [next, dif_pos hi]; simp only [hp]

end Steps

theorem next_of_le (hle : it.data.length ≤ it.currentPageIndex) : it.next = some none := by
  rw [next, dif_neg (by omega)]

theorem toList_of_next_none (h : it.next = none) : it.toList = none := by
  rw [toList]; split <;> simp_all

theorem toList_of_next_end (h : it.next = some none) : it.toList = some [] := by
  rw [toList]; split <;> simp_all

theorem toList_of_next_some (h : it.next = some (some (t, it'))) :
    it.toList = it'.toList.map (t :: ·) := by
  rw [toList]
  split
  · simp_all
  · simp_all
  · next t₀ it₀ h₀ =>
    rw [h, Option.some.injEq, Option.some.injEq, Prod.mk.injEq] at h₀
    rw [h₀.1, h₀.2]

/-- `toList` reads the result set only through `next`. -/
theorem toList_congr (h : it.next = it'.next) : it.toList = it'.toList := by
  rcases e : it'.next with _ | _ | ⟨t, it₀⟩
  · rw [toList_of_next_none (h.trans e), toList_of_next_none e]
  · rw [toList_of_next_end (h.trans e), toList_of_next_end e]
  · rw [toList_of_next_some (h.trans e), toList_of_next_some e]

/-- What iterating with the filters `fs` yields from `ts`: the tuples that pass every
filter, in order; `none` when a filter panics on one of them. -/
def filterTuples (fs : List (String × Predicate)) : List Tuple → Option (List Tuple)
  | [] => some []
  | t :: ts => do
    let b ← passesFilters t fs
    let rest ← filterTuples fs ts
    pure (if b then t :: rest else rest)

variable {fs : List (String × Predicate)} {ts : List Tuple}

/-- Filtering panics exactly when a filter panics on one of the tuples. -/
theorem filterTuples_eq_none_iff :
    filterTuples fs ts = none ↔ ∃ t ∈ ts, passesFilters t fs = none := by
  induction ts with
  | nil => simp [filterTuples]
  | cons t ts ih =>
    simp only [List.mem_cons, exists_eq_or_imp, ← ih]
    rcases hp : passesFilters t fs with _ | b
    · simp [filterTuples, hp]
    · cases h : filterTuples fs ts <;> simp [filterTuples, hp, h]

/-- When no filter panics, filtering keeps the tuples that pass, in order. -/
theorem filterTuples_of_isSome (h : ∀ t ∈ ts, (passesFilters t fs).isSome) :
    filterTuples fs ts = some (ts.filter fun t => passesFilters t fs == some true) := by
  induction ts with
  | nil => rfl
  | cons t ts ih =>
    obtain ⟨b, hb⟩ := Option.isSome_iff_exists.1 (h t (List.mem_cons_self _ _))
    rw [filterTuples, hb, ih fun u hu => h u (List.mem_cons_of_mem _ hu), List.filter_cons, hb]
    cases b <;> rfl

/-- **Iterating a result set.**  A `for` loop over a `TableIterator` receives the tuples
from the current position on that pass every filter, in order, and panics exactly when
a filter panics on one of them. -/
theorem toList_eq (it : TableIterator) :
    it.toList = filterTuples it.filters (it.data.drop it.currentPageIndex) := by
  obtain ⟨n, hn⟩ : ∃ n, it.data.length - it.currentPageIndex = n := ⟨_, rfl⟩
  induction n generalizing it with
  | zero =>
    have hle : it.data.length ≤ it.currentPageIndex := by omega
    rw [toList_of_next_end (next_of_le hle), List.drop_of_length_le hle, filterTuples]
  | succ n ih =>
    have hi : it.currentPageIndex < it.data.length := by omega
    have ih' := ih { it with currentPageIndex := it.currentPageIndex + 1 } (by dsimp only; omega)
    rw [List.drop_eq_getElem_cons hi, filterTuples]
    rcases hp : passesFilters it.data[it.currentPageIndex] it.filters with _ | _ | _
    · rw [toList_of_next_none (next_of_panic hi hp)]; rfl
    · rw [toList_congr (next_of_fail hi hp), ih']
      simp only [Option.bind_eq_bind, Option.some_bind]
      cases filterTuples it.filters (List.drop (it.currentPageIndex + 1) it.data) <;> rfl
    · rw [toList_of_next_some (next_of_pass hi hp), ih']
      simp only [Option.bind_eq_bind, Option.some_bind]
      cases filterTuples it.filters (List.drop (it.currentPageIndex + 1) it.data) <;> rfl

end TableIterator

/-! ## Projection and join -/

/-- The loop of `project` over the columns of one tuple: it unwraps each column's name,
and for a name in `fields` the column's type and the tuple's value, in column order. -/
def Tuple.projectColumns (t : Tuple) (fields : List String) :
    List Nat → Option (List FieldType × List FieldVal)
  | [] => some ([], [])
  | i :: cols => do
    let fieldName ← t.td.getFieldName i
    if fields.contains fieldName then
      let fieldType ← t.td.getFieldType i
      let field ← t.getField i
      let (types, vals) ← t.projectColumns fields cols
      pure (fieldType :: types, field :: vals)
    else t.projectColumns fields cols

/-- The body of `project` for one tuple: the kept columns' types and values under
`TupleDesc::new(new_field_types, fields.clone())`, whose names are the request's. -/
def Tuple.project (t : Tuple) (fields : List String) : Option Tuple := do
  let (types, vals) ← t.projectColumns fields (List.range t.td.getNumFields)
  pure (Tuple.new vals ⟨types, fields⟩)

/-- `Display` for `Tuple` writes `td.fields[i]` for each value: it panics when the
descriptor has fewer names than the tuple has values. -/
def Tuple.displays (t : Tuple) : Bool := t.fields.length ≤ t.td.fields.length

/-- The inner loop of `join` for one tuple of the left side: each right tuple whose
column `fieldNameRight` holds the value of the left tuple's column `targetColLeft`,
combined with it. -/
def joinRight (tuple : Tuple) (targetColLeft : Nat) (fieldNameRight : String) :
    List Tuple → Option (List Tuple)
  | [] => some []
  | other :: others => do
    let targetColRight ← other.td.nameToId fieldNameRight
    let a ← tuple.getField targetColLeft
    let b ← other.getField targetColRight
    let rest ← joinRight tuple targetColLeft fieldNameRight others
    pure (if a = b then
      Tuple.new (tuple.fields ++ other.fields) (TupleDesc.combine tuple.td other.td) :: rest
    else rest)

/-- The outer loop of `join`: `println!("{}", tuple)`, then the left column's index, then
the inner loop. -/
def joinLeft (fieldNameLeft fieldNameRight : String) (others : List Tuple) :
    List Tuple → Option (List Tuple)
  | [] => some []
  | tuple :: tuples =>
    if tuple.displays then do
      let targetColLeft ← tuple.td.nameToId fieldNameLeft
      let row ← joinRight tuple targetColLeft fieldNameRight others
      let rest ← joinLeft fieldNameLeft fieldNameRight others tuples
      pure (row ++ rest)
    else none

namespace TableIterator

/-- `TableIterator::project`: a new result set, at position 0 and without filters. -/
def project (it : TableIterator) (fields : List String) : Option TableIterator := do
  let data ← it.data.mapM (·.project fields)
  pure ⟨data, 0, []⟩

/-- `TableIterator::join`: the matching pairs, left tuple by left tuple. -/
def join (it other : TableIterator) (fieldNameLeft fieldNameRight : String) :
    Option TableIterator := do
  let data ← joinLeft fieldNameLeft fieldNameRight other.data it.data
  pure ⟨data, 0, []⟩

end TableIterator

/-- Every tuple of a join is a left tuple and a right tuple side by side, under the
concatenation of their descriptors. -/
theorem joinRight_mem {tuple : Tuple} {cl : Nat} {right : String} :
    ∀ {others data : List Tuple}, joinRight tuple cl right others = some data →
      ∀ t ∈ data, ∃ o ∈ others,
        t = Tuple.new (tuple.fields ++ o.fields) (TupleDesc.combine tuple.td o.td)
  | [], data, h, t, ht => by cases h; cases ht
  | o :: others, data, h, t, ht => by
    simp only [joinRight, Option.bind_eq_bind, Option.bind_eq_some, Option.pure_def,
      Option.some.injEq] at h
    obtain ⟨_, -, a, -, b, -, rest, hrest, rfl⟩ := h
    have ih := joinRight_mem hrest
    split at ht
    · rcases List.mem_cons.1 ht with rfl | ht
      · exact ⟨o, List.mem_cons_self _ _, rfl⟩
      · obtain ⟨o', ho', e⟩ := ih t ht
        exact ⟨o', List.mem_cons_of_mem _ ho', e⟩
    · obtain ⟨o', ho', e⟩ := ih t ht
      exact ⟨o', List.mem_cons_of_mem _ ho', e⟩

theorem joinLeft_mem {left right : String} {others : List Tuple} :
    ∀ {tuples data : List Tuple}, joinLeft left right others tuples = some data →
      ∀ t ∈ data, ∃ l ∈ tuples, ∃ o ∈ others,
        t = Tuple.new (l.fields ++ o.fields) (TupleDesc.combine l.td o.td)
  | [], data, h, t, ht => by cases h; cases ht
  | l :: tuples, data, h, t, ht => by
    unfold joinLeft at h
    split at h
    · simp only [Option.bind_eq_bind, Option.bind_eq_some, Option.pure_def,
        Option.some.injEq] at h
      obtain ⟨cl, -, row, hrow, rest, hrest, rfl⟩ := h
      rcases List.mem_append.1 ht with ht | ht
      · obtain ⟨o, ho, e⟩ := joinRight_mem hrow t ht
        exact ⟨l, List.mem_cons_self _ _, o, ho, e⟩
      · obtain ⟨l', hl', o, ho, e⟩ := joinLeft_mem hrest t ht
        exact ⟨l', List.mem_cons_of_mem _ hl', o, ho, e⟩
    · cases h

/-! ## What a join computes -/

/-- The value of the column named `name`: the tuple's value at the first column with
that name. -/
def Tuple.valueOf (t : Tuple) (name : String) : Option FieldVal :=
  (t.td.nameToId name).bind t.getField

/-- The equi-join on the columns `left` and `right`, left tuple by left tuple: each with
the right tuples, in their order, whose column `right` holds the value of its column
`left`, the two side by side. -/
def equiJoin (left right : String) (others tuples : List Tuple) : List Tuple :=
  tuples.flatMap fun l => (others.filter fun o => l.valueOf left = o.valueOf right).map
    fun o => Tuple.new (l.fields ++ o.fields) (TupleDesc.combine l.td o.td)

/-- Where `join` does not panic: each left tuple prints and has the column `left`, and
against each right tuple both have a value in their column. -/
def JoinDefined (left right : String) (others tuples : List Tuple) : Prop :=
  ∀ l ∈ tuples, l.displays = true ∧ (l.td.nameToId left).isSome = true ∧
    ∀ o ∈ others, (l.valueOf left).isSome = true ∧ (o.valueOf right).isSome = true

instance (left right : String) (others tuples : List Tuple) :
    Decidable (JoinDefined left right others tuples) :=
  inferInstanceAs (Decidable (∀ l ∈ tuples, l.displays = true ∧ (l.td.nameToId left).isSome = true ∧
    ∀ o ∈ others, (l.valueOf left).isSome = true ∧ (o.valueOf right).isSome = true))

theorem joinDefined_cons {left right : String} {others tuples : List Tuple} {l : Tuple} :
    JoinDefined left right others (l :: tuples) ↔
      (l.displays = true ∧ (l.td.nameToId left).isSome = true ∧
        ∀ o ∈ others, (l.valueOf left).isSome = true ∧ (o.valueOf right).isSome = true) ∧
      JoinDefined left right others tuples :=
  List.forall_mem_cons

/-- The inner loop of `join` for one left tuple. -/
theorem joinRight_eq (tuple : Tuple) (cl : Nat) (right : String) : ∀ others : List Tuple,
    joinRight tuple cl right others =
      if ∀ o ∈ others, (tuple.getField cl).isSome = true ∧ (o.valueOf right).isSome = true then
        some ((others.filter fun o => tuple.getField cl = o.valueOf right).map
          fun o => Tuple.new (tuple.fields ++ o.fields) (TupleDesc.combine tuple.td o.td))
      else none
  | [] => by simp [joinRight]
  | o :: others => by
    rw [joinRight, joinRight_eq tuple cl right others]
    simp only [Tuple.valueOf, List.forall_mem_cons]
    cases hj : o.td.nameToId right with
    | none => simp [hj]
    | some j =>
      cases ha : tuple.getField cl with
      | none => simp [ha]
      | some a =>
        cases hb : o.getField j with
        | none => simp [hj, hb]
        | some b =>
          by_cases hab : a = b
          · subst hab
            simp [hj, hb]
            split <;> rfl
          · simp [hj, hb, hab]

/-- The outer loop of `join`. -/
theorem joinLeft_eq (left right : String) (others : List Tuple) : ∀ tuples : List Tuple,
    joinLeft left right others tuples =
      if JoinDefined left right others tuples then some (equiJoin left right others tuples)
      else none
  | [] => by simp [joinLeft, JoinDefined, equiJoin]
  | l :: tuples => by
    rw [joinLeft, joinLeft_eq left right others tuples]
    simp only [joinDefined_cons]
    cases hd : l.displays with
    | false => simp
    | true =>
      cases hl : l.td.nameToId left with
      | none => simp
      | some cl =>
        have hv : l.valueOf left = l.getField cl := by simp [Tuple.valueOf, hl]
        rw [if_pos rfl, Option.bind_eq_bind, Option.some_bind, joinRight_eq]
        simp only [hv]
        by_cases h₁ : ∀ o ∈ others, (l.getField cl).isSome = true ∧ (o.valueOf right).isSome = true
        · rw [if_pos h₁, Option.bind_eq_bind, Option.some_bind]
          by_cases h₂ : JoinDefined left right others tuples
          · rw [if_pos h₂, Option.some_bind, if_pos ⟨⟨trivial, rfl, h₁⟩, h₂⟩]
            simp [equiJoin, hv]
          · rw [if_neg h₂]
            exact (if_neg fun h => h₂ h.2).symm
        · rw [if_neg h₁]
          exact (if_neg fun h => h₁ h.1.2.2).symm

/-- **What a join computes.**  `TableIterator::join` panics exactly when a left tuple
does not print, lacks the column `left`, or, against some right tuple, one of the two
has no value in its column.  Otherwise it holds the equi-join, left tuple by left tuple
and each with the matching right tuples in their order, at position 0 and without
filters. -/
theorem join_is_equiJoin (it other : TableIterator) (left right : String) :
    it.join other left right =
      if JoinDefined left right other.data it.data then
        some ⟨equiJoin left right other.data it.data, 0, []⟩
      else none := by
  rw [TableIterator.join, joinLeft_eq]
  split <;> rfl

/-- The `(id, name)` table of `main.rs`, projected on `["name", "id"]` and on
`["id", "age"]`: the types and values of the kept columns stay in column order while
the names are the request's, so the column named `name` holds the integer `1`, and a
name of no column is a name with no value. -/
theorem project_names_from_request :
    (TableIterator.project ⟨[Tuple.new [.intField ⟨1#32⟩,
        .stringField ⟨⟨[0x41, 0x6C, 0x69, 0x63, 0x65], by decide⟩, 5#32⟩]
          ⟨[.intType, .stringType], ["id", "name"]⟩], 0, []⟩ ["name", "id"]).map (·.data) =
      some [Tuple.new [.intField ⟨1#32⟩,
        .stringField ⟨⟨[0x41, 0x6C, 0x69, 0x63, 0x65], by decide⟩, 5#32⟩]
          ⟨[.intType, .stringType], ["name", "id"]⟩] ∧
    (TableIterator.project ⟨[Tuple.new [.intField ⟨1#32⟩,
        .stringField ⟨⟨[0x41, 0x6C, 0x69, 0x63, 0x65], by decide⟩, 5#32⟩]
          ⟨[.intType, .stringType], ["id", "name"]⟩], 0, []⟩ ["id", "age"]).map (·.data) =
      some [Tuple.new [.intField ⟨1#32⟩] ⟨[.intType], ["id", "age"]⟩] := by
  decide

/-! ## When a projection is exact -/

end RusticDb
