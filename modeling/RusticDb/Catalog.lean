/-
# The catalog (`catalog.rs`)

`Catalog` keeps the heap files twice: `tables` by table name and `table_ids` by the
file's id, which `HeapFile::new` draws from `Uuid::new_v4`.  `add_table` inserts the
file under its name, then under its id the entry it reads back from `tables`.
`load_schema` makes one `add_table` call per line of the schema file, each with a new
`HeapFile`; `get_tuple_desc` is the `catalog` parameter of `Db.Step`.

A `HeapFile` is seen here through its id and its descriptor; the file handle is the
`files` of `Db`.

What `add_table` keeps, over every run of calls with fresh ids (`addTables_wellKeyed`):
every name's file is found under its id, and every id's entry is a file with that id.
What it does not keep is the converse.  Registering a name again, as a second
`load_schema` does, replaces the name's file but leaves the old file under its old id,
so `get_table_from_id` keeps resolving an id that no name names
(`table_id_outlives_name`).
-/
import RusticDb.Tuple

namespace RusticDb

/-- A `HeapFile` as the catalog sees it: the id `get_id` returns and the descriptor
`get_tuple_desc` returns. -/
structure HeapFile where
  id : Nat
  td : TupleDesc
  deriving DecidableEq

/-- `Catalog`: the heap files by table name and by id. -/
structure Catalog where
  tables : String → Option HeapFile
  tableIds : Nat → Option HeapFile

namespace Catalog

/-- `Catalog::new`. -/
def new : Catalog := ⟨fun _ => none, fun _ => none⟩

/-- `Catalog::add_table`: insert under the name, then under the file's id the entry just
inserted (`tables.get(&name).unwrap()`). -/
def addTable (c : Catalog) (file : HeapFile) (name : String) : Option Catalog :=
  let tables := Function.update c.tables name (some file)
  (tables name).map fun f => ⟨tables, Function.update c.tableIds file.id (some f)⟩

/-- `Catalog::get_table_from_name`. -/
def getTableFromName (c : Catalog) (name : String) : Option HeapFile := c.tables name

/-- `Catalog::get_table_from_id`. -/
def getTableFromId (c : Catalog) (id : Nat) : Option HeapFile := c.tableIds id

/-- `Catalog::get_tuple_desc`. -/
def getTupleDesc (c : Catalog) (tableId : Nat) : Option TupleDesc :=
  (c.getTableFromId tableId).map HeapFile.td

/-- A run of `add_table` calls, as `load_schema` makes them. -/
def addTables : List (HeapFile × String) → Catalog → Option Catalog
  | [], c => some c
  | (file, name) :: rest, c => (c.addTable file name).bind (addTables rest)

/-- `add_table` never panics: the `unwrap` reads back the entry just inserted. -/
theorem addTable_eq (c : Catalog) (file : HeapFile) (name : String) :
    c.addTable file name = some ⟨Function.update c.tables name (some file),
      Function.update c.tableIds file.id (some file)⟩ := by
  simp [addTable]

/-- Every name's file is found under its id, and every id's entry has that id. -/
structure WellKeyed (c : Catalog) : Prop where
  name_id : ∀ n f, c.getTableFromName n = some f → c.getTableFromId f.id = some f
  id_eq : ∀ id f, c.getTableFromId id = some f → f.id = id

theorem wellKeyed_new : Catalog.new.WellKeyed :=
  ⟨fun _ _ h => Option.noConfusion h, fun _ _ h => Option.noConfusion h⟩

/-- `add_table` of a file with a fresh id keeps the catalog well keyed. -/
theorem WellKeyed.addTable {c : Catalog} (h : c.WellKeyed) {file : HeapFile} (name : String)
    (hfresh : c.getTableFromId file.id = none) :
    (⟨Function.update c.tables name (some file),
      Function.update c.tableIds file.id (some file)⟩ : Catalog).WellKeyed where
  name_id n f hn := by
    simp only [getTableFromName, getTableFromId, Function.update_apply] at hn ⊢
    split at hn
    · cases hn; simp
    · have hf : c.tableIds f.id = some f := h.name_id n f hn
      have : f.id ≠ file.id := fun e => by
        rw [e, show c.tableIds file.id = none from hfresh] at hf; cases hf
      simpa [this] using hf
  id_eq id f hf := by
    simp only [getTableFromId, Function.update_apply] at hf
    split at hf
    · next e => cases hf; exact e.symm
    · exact h.id_eq id f hf

/-- Over every run of `add_table` calls whose files have pairwise distinct ids, none
already in the catalog, the catalog stays well keyed. -/
theorem addTables_wellKeyed :
    ∀ (calls : List (HeapFile × String)) {c c' : Catalog}, c.WellKeyed →
      (calls.map fun call => call.1.id).Nodup →
      (∀ call ∈ calls, c.getTableFromId call.1.id = none) →
      addTables calls c = some c' → c'.WellKeyed
  | [], _, _, h, _, _, e => by cases e; exact h
  | (file, name) :: rest, c, c', h, hnd, hfresh, e => by
    rw [addTables, addTable_eq, Option.some_bind] at e
    rw [List.map_cons, List.nodup_cons] at hnd
    refine addTables_wellKeyed rest (h.addTable name (hfresh _ (List.mem_cons_self _ _)))
      hnd.2 (fun call hc => ?_) e
    have hne : call.1.id ≠ file.id := fun e' => hnd.1 (e' ▸ List.mem_map_of_mem _ hc)
    simpa [getTableFromId, hne] using hfresh call (List.mem_cons_of_mem _ hc)

/-- A run of `add_table` calls never panics. -/
theorem addTables_isSome : ∀ (calls : List (HeapFile × String)) (c : Catalog),
    (addTables calls c).isSome
  | [], _ => rfl
  | (file, name) :: rest, c => by
    rw [addTables, addTable_eq, Option.some_bind]
    exact addTables_isSome rest _

/-- A name no call registers keeps its file. -/
theorem getTableFromName_addTables_of_not_mem :
    ∀ {calls : List (HeapFile × String)} {c c' : Catalog} {n : String},
      addTables calls c = some c' → n ∉ calls.map Prod.snd →
        c'.getTableFromName n = c.getTableFromName n
  | [], _, _, _, e, _ => by cases e; rfl
  | (file, name) :: rest, c, c', n, e, hn => by
    rw [addTables, addTable_eq, Option.some_bind] at e
    rw [List.map_cons, List.mem_cons, not_or] at hn
    rw [getTableFromName_addTables_of_not_mem e hn.2]
    simp [getTableFromName, hn.1]

/-- After a run of `add_table` calls with distinct names, each name names the file of
its call. -/
theorem getTableFromName_addTables :
    ∀ {calls : List (HeapFile × String)} {c c' : Catalog}, (calls.map Prod.snd).Nodup →
      addTables calls c = some c' → ∀ call ∈ calls, c'.getTableFromName call.2 = some call.1
  | [], _, _, _, _, _, h => by cases h
  | (file, name) :: rest, c, c', hnd, e, call, hcall => by
    rw [addTables, addTable_eq, Option.some_bind] at e
    rw [List.map_cons, List.nodup_cons] at hnd
    rcases List.mem_cons.1 hcall with rfl | hcall
    · rw [getTableFromName_addTables_of_not_mem e hnd.1]
      simp [getTableFromName]
    · exact getTableFromName_addTables hnd.2 e call hcall

/-- `load_schema` run twice on one schema line: the name `employees` is registered with a
file of id `1`, then with a file of id `2`.  Id `1` still resolves to the first file,
which no name names any more. -/
theorem table_id_outlives_name :
    ∃ c, addTables [(⟨1, ⟨[.intType, .stringType], ["id", "name"]⟩⟩, "employees"),
        (⟨2, ⟨[.intType, .stringType], ["id", "name"]⟩⟩, "employees")] Catalog.new = some c ∧
      c.getTableFromId 1 = some ⟨1, ⟨[.intType, .stringType], ["id", "name"]⟩⟩ ∧
      ∀ n, c.getTableFromName n ≠ some ⟨1, ⟨[.intType, .stringType], ["id", "name"]⟩⟩ := by
  refine ⟨_, rfl, rfl, fun n => ?_⟩
  simp only [getTableFromName, Function.update_apply]
  split_ifs <;> simp [Catalog.new]

end Catalog

end RusticDb
