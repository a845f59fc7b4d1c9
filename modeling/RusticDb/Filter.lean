/-
# Filtering a result set (`table.rs`: `table_filter`, `next`, `Filterable::filter`)

`table_filter(name, predicate)` appends a filter to a `TableIterator`, and `next` hands
out the tuples that pass every filter, calling itself again past a tuple that fails one.
Read as intended, a tuple passes the filter `(name, p)` when its first column named
`name` holds a value of `p`'s type that satisfies `p`: `Equals` on a string, `EqualsInt`,
`GreaterThan` and `LessThan` on an `i32` (`Tuple.satisfies`).

Whenever `Filterable::filter` returns, it returns exactly that (`filter_eq_some`), so a
loop over the result set that finishes receives the tuples that satisfy every filter, in
order.  It does not always return.  Before its test, `GreaterThan` prints
`field.clone().into_int().unwrap()`, which panics on a string; and the column loop
unwraps the value and the name of every column it reaches, which panics on a tuple
missing one (`Tuple.FilterPanics`).  On a tuple with a value and a name for every column,
only the first of these can happen.
-/
import RusticDb.Query

namespace RusticDb

/-! ## What a filter means -/

/-- Whether a value satisfies a predicate, as the predicates read: `Equals` on strings,
`EqualsInt`, `GreaterThan` and `LessThan` on `i32`s compared as integers.  A value of
the other type satisfies none. -/
def Predicate.holds : Predicate → FieldVal → Bool
  | .equals value, .stringField f => f.value == value
  | .equalsInt value, .intField f => f.value == value
  | .greaterThan value, .intField f => decide (value.toInt < f.value.toInt)
  | .lessThan value, .intField f => decide (f.value.toInt < value.toInt)
  | _, _ => false

/-- The first of the `get_num_fields()` columns of `t` named `name`. -/
def Tuple.firstColumn (t : Tuple) (name : String) : Option Nat :=
  (List.range t.td.getNumFields).find? fun i => t.td.getFieldName i == some name

/-- `t` satisfies the filter `(name, p)`: its first column named `name` holds a value
that satisfies `p`. -/
def Tuple.satisfies (t : Tuple) (name : String) (p : Predicate) : Bool :=
  match (t.firstColumn name).bind t.getField with
  | some v => p.holds v
  | none => false

/-- The loop of `Filterable::filter` passes column `j`: it has a value, and a name other
than `name`. -/
def Tuple.PassesColumn (t : Tuple) (name : String) (j : Nat) : Prop :=
  (t.getField j).isSome ∧ ∃ n, t.td.getFieldName j = some n ∧ n ≠ name

/-- The loop of `Filterable::filter` panics at column `i`: its value or its name is
missing, or it is named `name` and `GreaterThan` meets a string there. -/
def Tuple.PanicsAt (t : Tuple) (name : String) (p : Predicate) (i : Nat) : Prop :=
  t.getField i = none ∨ t.td.getFieldName i = none ∨
    t.td.getFieldName i = some name ∧ (∃ c, p = .greaterThan c) ∧
      ∃ s, t.getField i = some (.stringField s)

/-- The filter `(name, p)` panics on `t`: the loop passes the columns before some
column and panics there. -/
def Tuple.FilterPanics (t : Tuple) (name : String) (p : Predicate) : Prop :=
  ∃ i < t.td.getNumFields, (∀ j < i, t.PassesColumn name j) ∧ t.PanicsAt name p i

/-! ## One filter -/

/-- The test of a predicate panics exactly on `GreaterThan` of a string. -/
theorem Predicate.test_eq_none_iff (p : Predicate) (v : FieldVal) :
    p.test v = none ↔ (∃ c, p = .greaterThan c) ∧ ∃ s, v = .stringField s := by
  cases p <;> cases v <;> simp [Predicate.test, FieldVal.intoInt]

/-- When the test returns, it returns whether the value satisfies the predicate: the
`i32` comparisons of the code are `BitVec.slt`, the integers' order. -/
theorem Predicate.test_eq_some {p : Predicate} {v : FieldVal} {b : Bool}
    (h : p.test v = some b) : b = p.holds v := by
  cases p <;> cases v <;>
    simp only [Predicate.test, FieldVal.intoInt, Option.map_some', Option.map_none',
      Option.some.injEq, reduceCtorEq] at h <;>
    exact h.symm

variable {t : Tuple} {name : String} {p : Predicate}

theorem Tuple.filterColumns_cons (i : Nat) (cols : List Nat) :
    t.filterColumns name p (i :: cols) = (t.getField i).bind fun v =>
      (t.td.getFieldName i).bind fun n =>
        if name == n then p.test v else t.filterColumns name p cols := rfl

/-- A first column `i` of `k, …, k + m` where `Q` holds after columns where `P` holds:
column `k` itself, or one past it, `P` holding at `k`. -/
theorem exists_first_succ {P Q : Nat → Prop} {k m : Nat} :
    (∃ i, k ≤ i ∧ i < k + (m + 1) ∧ (∀ j, k ≤ j → j < i → P j) ∧ Q i) ↔
      Q k ∨ P k ∧ ∃ i, k + 1 ≤ i ∧ i < k + 1 + m ∧ (∀ j, k + 1 ≤ j → j < i → P j) ∧ Q i := by
  constructor
  · rintro ⟨i, h₁, h₂, hP, hQ⟩
    rcases Nat.eq_or_lt_of_le h₁ with rfl | h₁
    · exact .inl hQ
    · exact .inr ⟨hP k le_rfl h₁, i, h₁, by omega, fun j hj => hP j (by omega), hQ⟩
  · rintro (hQ | ⟨hPk, i, h₁, h₂, hP, hQ⟩)
    · exact ⟨k, le_rfl, by omega, fun j h₁ h₂ => absurd h₂ (by omega), hQ⟩
    · refine ⟨i, by omega, by omega, fun j hj₁ hj₂ => ?_, hQ⟩
      rcases Nat.eq_or_lt_of_le hj₁ with rfl | hj₁
      · exact hPk
      · exact hP j hj₁ hj₂

theorem Tuple.passesColumn_of_some {i : Nat} {v : FieldVal} {n : String}
    (hv : t.getField i = some v) (hn : t.td.getFieldName i = some n) :
    t.PassesColumn name i ↔ n ≠ name := by
  simp [PassesColumn, hv, hn]

theorem Tuple.panicsAt_of_some {i : Nat} {v : FieldVal} {n : String}
    (hv : t.getField i = some v) (hn : t.td.getFieldName i = some n) :
    t.PanicsAt name p i ↔ n = name ∧ (∃ c, p = .greaterThan c) ∧ ∃ s, v = .stringField s := by
  simp [PanicsAt, hv, hn]

/-- The column loop over columns `k, …, k + m - 1` panics exactly where it passes the
columns before some column and panics there. -/
theorem Tuple.filterColumns_range'_eq_none_iff (k m : Nat) :
    t.filterColumns name p (List.range' k m) = none ↔
      ∃ i, k ≤ i ∧ i < k + m ∧ (∀ j, k ≤ j → j < i → t.PassesColumn name j) ∧
        t.PanicsAt name p i := by
  induction m generalizing k with
  | zero =>
    simp only [List.range'_zero, filterColumns, reduceCtorEq, false_iff]
    rintro ⟨i, h₁, h₂, -⟩
    omega
  | succ m ih =>
    rw [List.range'_succ, filterColumns_cons, exists_first_succ, ← ih]
    cases hv : t.getField k with
    | none => exact iff_of_true rfl (.inl (Or.inl hv))
    | some v =>
      cases hn : t.td.getFieldName k with
      | none => exact iff_of_true rfl (.inl (Or.inr (Or.inl hn)))
      | some n =>
        rw [panicsAt_of_some hv hn, passesColumn_of_some hv hn]
        by_cases e : n = name
        · -- the first column named `name`: the test decides
          subst e
          simp [Predicate.test_eq_none_iff]
        · -- another column: the loop goes on
          simp [e, Ne.symm e]

/-- When the column loop returns, it returns whether the first listed column named
`name` holds a value satisfying `p`. -/
theorem Tuple.filterColumns_eq_some {b : Bool} :
    ∀ {cols : List Nat}, t.filterColumns name p cols = some b →
      b = match (cols.find? fun i => t.td.getFieldName i == some name).bind t.getField with
        | some v => p.holds v
        | none => false
  | [], h => by cases h; rfl
  | i :: cols, h => by
    rw [filterColumns_cons] at h
    cases hv : t.getField i with
    | none => rw [hv] at h; cases h
    | some v =>
      cases hn : t.td.getFieldName i with
      | none => rw [hv, hn] at h; cases h
      | some n =>
        simp only [hv, hn, Option.some_bind] at h
        by_cases e : name = n
        · subst e
          rw [if_pos (beq_self_eq_true _)] at h
          rw [List.find?_cons_of_pos _ (by simp [hn]), Option.some_bind, hv]
          exact Predicate.test_eq_some h
        · rw [if_neg (by simpa using e)] at h
          rw [List.find?_cons_of_neg _ (by simpa [hn] using Ne.symm e)]
          exact filterColumns_eq_some h

/-- `Filterable::filter` panics exactly where `FilterPanics` says. -/
theorem Tuple.filter_eq_none_iff : t.filter name p = none ↔ t.FilterPanics name p := by
  rw [Tuple.filter, List.range_eq_range', filterColumns_range'_eq_none_iff]
  simp only [Nat.zero_le, true_and, true_implies, Nat.zero_add, FilterPanics]

/-- When `Filterable::filter` returns, it returns whether `t` satisfies the filter. -/
theorem Tuple.filter_eq_some {b : Bool} (h : t.filter name p = some b) :
    b = t.satisfies name p :=
  filterColumns_eq_some h

/-- On a tuple with a value and a name for each of its columns, a filter panics exactly
when it is `GreaterThan` and the first column named `name` holds a string. -/
theorem Tuple.filterPanics_iff_of_complete (hv : t.td.getNumFields ≤ t.fields.length)
    (hn : t.td.getNumFields ≤ t.td.fields.length) :
    t.FilterPanics name p ↔
      (∃ c, p = .greaterThan c) ∧
        ∃ s, (t.firstColumn name).bind t.getField = some (.stringField s) := by
  have hval : ∀ j < t.td.getNumFields, (t.getField j).isSome := fun j hj => by
    simp [Tuple.getField, List.getElem?_eq_getElem (Nat.lt_of_lt_of_le hj hv)]
  have hname : ∀ j < t.td.getNumFields, ∃ n, t.td.getFieldName j = some n := fun j hj =>
    ⟨_, List.getElem?_eq_getElem (Nat.lt_of_lt_of_le hj hn)⟩
  constructor
  · rintro ⟨i, hi, hpass, hpan⟩
    rcases hpan with h | h | ⟨hni, hgt, s, hs⟩
    · exact absurd (hval i hi) (by simp [h])
    · obtain ⟨n, hn'⟩ := hname i hi
      exact Option.noConfusion (h.symm.trans hn')
    · have hfirst : t.firstColumn name = some i := by
        rw [Tuple.firstColumn, List.find?_range_eq_some]
        refine ⟨by simp [hni], List.mem_range.2 hi, fun j hj => ?_⟩
        obtain ⟨-, n, hn', hne⟩ := hpass j hj
        simp [hn', hne]
      exact ⟨hgt, s, by rw [hfirst, Option.some_bind, hs]⟩
  · rintro ⟨hgt, s, hs⟩
    obtain ⟨i, hfirst, hi⟩ := Option.bind_eq_some.1 hs
    rw [Tuple.firstColumn, List.find?_range_eq_some] at hfirst
    obtain ⟨hni, him, hbefore⟩ := hfirst
    have hin := List.mem_range.1 him
    refine ⟨i, hin, fun j hj => ?_, Or.inr (Or.inr ⟨by simpa using hni, hgt, s, hi⟩)⟩
    obtain ⟨n, hn'⟩ := hname j (by omega)
    refine ⟨hval j (by omega), n, hn', fun e => ?_⟩
    have := hbefore j hj
    simp [hn', e] at this

/-! ## All the filters of a result set -/

/-- A first filter of `f :: fs` where `R` holds after filters where `S` holds: `f`
itself, or one of `fs`, `S` holding at `f`. -/
theorem exists_first_cons {S : String × Predicate → Prop} {R : String → Predicate → Prop}
    {f : String × Predicate} {fs : List (String × Predicate)} :
    (∃ pre n q post, f :: fs = pre ++ (n, q) :: post ∧ (∀ g ∈ pre, S g) ∧ R n q) ↔
      R f.1 f.2 ∨ S f ∧ ∃ pre n q post, fs = pre ++ (n, q) :: post ∧ (∀ g ∈ pre, S g) ∧ R n q := by
  constructor
  · rintro ⟨_ | ⟨g, pre⟩, n, q, post, e, hS, hR⟩
    · obtain ⟨h₁, -⟩ := List.cons_eq_cons.1 e
      cases h₁
      exact .inl hR
    · obtain ⟨rfl, hrest⟩ := List.cons_eq_cons.1 e
      exact .inr ⟨hS _ (List.mem_cons_self _ _), pre, n, q, post, hrest,
        fun g hg => hS g (List.mem_cons_of_mem _ hg), hR⟩
  · rintro (hR | ⟨hS, pre, n, q, post, e, hpre, hR⟩)
    · exact ⟨[], f.1, f.2, fs, rfl, fun _ h => absurd h (List.not_mem_nil _), hR⟩
    · refine ⟨f :: pre, n, q, post, by simp [e], fun g hg => ?_, hR⟩
      rcases List.mem_cons.1 hg with rfl | hg
      · exact hS
      · exact hpre g hg

/-- The loop of `next` over the filters panics exactly at a filter that panics on the
tuple, every filter before it being satisfied. -/
theorem passesFilters_eq_none_iff :
    ∀ {fs : List (String × Predicate)}, passesFilters t fs = none ↔
      ∃ pre n q post, fs = pre ++ (n, q) :: post ∧ (∀ f ∈ pre, t.satisfies f.1 f.2) ∧
        t.FilterPanics n q
  | [] => by simp [passesFilters]
  | (name, p) :: fs => by
    rw [exists_first_cons, ← passesFilters_eq_none_iff, ← Tuple.filter_eq_none_iff]
    simp only [passesFilters, Option.bind_eq_bind]
    rcases hf : t.filter name p with _ | b
    · simp
    · rw [← Tuple.filter_eq_some hf]
      cases b <;> simp [Option.pure_def]

/-- When the loop of `next` over the filters returns, it returns whether the tuple
satisfies every filter. -/
theorem passesFilters_eq_some {b : Bool} :
    ∀ {fs : List (String × Predicate)}, passesFilters t fs = some b →
      b = fs.all fun f => t.satisfies f.1 f.2
  | [], h => by cases h; rfl
  | (name, p) :: fs, h => by
    simp only [passesFilters, Option.bind_eq_bind] at h
    obtain ⟨c, hc, h⟩ := Option.bind_eq_some.1 h
    rw [List.all_cons, ← Tuple.filter_eq_some hc]
    cases c
    · cases h; rfl
    · exact passesFilters_eq_some h

namespace TableIterator

/-- Calls of `table_filter` append their filters in order. -/
theorem foldl_tableFilter (fs : List (String × Predicate)) :
    ∀ it : TableIterator, fs.foldl (fun (it : TableIterator) f => it.tableFilter f.1 f.2) it =
      { it with filters := it.filters ++ fs } := by
  induction fs with
  | nil => intro it; simp
  | cons f fs ih => intro it; rw [List.foldl_cons, ih]; simp [tableFilter]

/-- **Filtering a result set.**  Take a result set holding the tuples `D`, as `scan`,
`project` and `join` build it, and add the filters `fs` by `table_filter`.  A `for` loop
over it panics exactly when some tuple of `D` satisfies every filter before one that
panics on it; when the loop finishes, it has received exactly the tuples of `D` that
satisfy every filter, in order.  On a tuple with a value and a name for each of its
columns, a filter panics exactly when it is `GreaterThan` and the first column named
`name` holds a string. -/
theorem filters_yield_satisfying (D : List Tuple) (fs : List (String × Predicate)) :
    ((fs.foldl (fun (it : TableIterator) f => it.tableFilter f.1 f.2) ⟨D, 0, []⟩).toList = none ↔
      ∃ t ∈ D, ∃ pre name p post, fs = pre ++ (name, p) :: post ∧
        (∀ f ∈ pre, t.satisfies f.1 f.2) ∧ t.FilterPanics name p) ∧
    (∀ ts, (fs.foldl (fun (it : TableIterator) f => it.tableFilter f.1 f.2) ⟨D, 0, []⟩).toList =
        some ts →
      ts = D.filter fun t => fs.all fun f => t.satisfies f.1 f.2) ∧
    ∀ (t : Tuple) name p, t.td.getNumFields ≤ t.fields.length →
      t.td.getNumFields ≤ t.td.fields.length →
      (t.FilterPanics name p ↔ (∃ c, p = .greaterThan c) ∧
        ∃ s, (t.firstColumn name).bind t.getField = some (.stringField s)) := by
  have hlist : (fs.foldl (fun (it : TableIterator) f => it.tableFilter f.1 f.2) ⟨D, 0, []⟩).toList =
      filterTuples fs D := by
    rw [foldl_tableFilter, toList_eq]
    rfl
  refine ⟨?_, fun ts h => ?_, fun t name p hv hn => Tuple.filterPanics_iff_of_complete hv hn⟩
  · rw [hlist, filterTuples_eq_none_iff]
    exact exists_congr fun t => and_congr_right fun _ => passesFilters_eq_none_iff
  · rw [hlist] at h
    have hsome : ∀ t ∈ D, (passesFilters t fs).isSome := fun t ht => by
      rcases hp : passesFilters t fs with _ | b
      · exact absurd (filterTuples_eq_none_iff.2 ⟨t, ht, hp⟩)
          (by rw [h]; exact Option.some_ne_none _)
      · rfl
    rw [filterTuples_of_isSome hsome, Option.some.injEq] at h
    rw [← h]
    refine List.filter_congr fun t ht => ?_
    obtain ⟨b, hb⟩ := Option.isSome_iff_exists.1 (hsome t ht)
    rw [hb, ← passesFilters_eq_some hb]
    cases b <;> rfl

/-- The table of `main.rs`, `(id, name)`, with the row `(0, "Alice_0")`, filtered with
`GreaterThan(1)` on the string column `name`: the loop over it panics. -/
theorem greater_than_on_string_panics :
    ([("name", .greaterThan 1#32)].foldl (fun (it : TableIterator) f => it.tableFilter f.1 f.2)
      ⟨[Tuple.new [.intField ⟨0#32⟩,
          .stringField ⟨⟨[0x41, 0x6C, 0x69, 0x63, 0x65, 0x5F, 0x30], by decide⟩, 7#32⟩]
        ⟨[.intType, .stringType], ["id", "name"]⟩], 0, []⟩).toList = none :=
  (filters_yield_satisfying _ _).1.2 ⟨_, List.mem_singleton_self _, [], "name", .greaterThan 1#32,
    [], rfl, fun _ h => absurd h (List.not_mem_nil _), 1, by decide,
    fun j hj => by cases Nat.lt_one_iff.1 hj; exact ⟨rfl, "id", rfl, by decide⟩,
    Or.inr (Or.inr ⟨rfl, ⟨1#32, rfl⟩, _, rfl⟩)⟩

end TableIterator

end RusticDb
