/-
# The schema file (`catalog.rs`: `load_schema`; `table.rs`: `Table::new`)

`load_schema` makes a table of each line of the schema file, a line such as
`employees(id: Int, name: String)`.  It reads the lines with `BufRead::lines` and cuts
each with `str::split` on a character, which is `List.splitOn` on the characters:
at each `(`, where `split_parens[0]` less its spaces is the table name and
`split_parens[1]` the text of the columns (a panic when the line has no `(`); that text
at each `,`; and each column at each `:`, into a name (`field[0]`, spaces removed) and a
type (`field[1]`, spaces and `)` removed, a panic when the column has no `:`), which
must read `Int` or `String`.  A panic is `none`.  Each line opens the data file
`data/{table_name}.dat`, whose outcome is the parameter `opens` (a failed open panics at
its `unwrap`), then gets a `HeapFile` whose id `Uuid::new_v4` draws, given here beside
the line, and `add_table` registers it under the table name.  `Table::new` looks a table
up by name.

`schemaLine` writes a table as a line.  The parser reads back what it writes, and
accepts only what it can write (`schema_line_format`): the tables a line can declare
are those whose name has no space or `(`, whose column names have no space, `(`, `,`
or `:`, and which have at least one column (`Declarable`).  A schema file written from
such tables, with distinct names whose data files open, loads into a catalog where
`Table::new` finds each table with its columns and `get_tuple_desc` finds them under its
id (`load_schema_file`).
-/
import RusticDb.Catalog

namespace RusticDb

/-! ## Reading the schema file -/

/-- The `match` on a column's type: `Int`, `String`, or `panic!("invalid field type")`. -/
def parseFieldType (fieldType : String) : Option FieldType :=
  match fieldType with
  | "Int" => some .intType
  | "String" => some .stringType
  | _ => none

/-- The body of `load_schema`'s column loop: the column split at each `:`, its name with
the spaces removed and its type with the spaces and `)` removed. -/
def parseColumn (field : List Char) : Option (String × FieldType) := do
  let field := field.splitOn ':'
  let fieldName ← field[0]?
  let fieldType ← field[1]?
  let fieldType ← parseFieldType ⟨(fieldType.filter (· != ' ')).filter (· != ')')⟩
  pure (⟨fieldName.filter (· != ' ')⟩, fieldType)

/-- The body of `load_schema`'s line loop up to `HeapFile::new`: the table name and
`TupleDesc::new(field_types, field_names)`. -/
def parseSchemaLine (line : String) : Option (String × TupleDesc) := do
  let splitParens := line.data.splitOn '('
  let tableName ← splitParens[0]?
  let columns ← splitParens[1]?
  let fields ← (columns.splitOn ',').mapM parseColumn
  pure (⟨tableName.filter (· != ' ')⟩, ⟨fields.map Prod.snd, fields.map Prod.fst⟩)

/-- `BufRead::lines`: the text cut at each `\n`, less a last empty piece, each line less
a final `\r`. -/
def lines (text : String) : List String :=
  let pieces := text.data.splitOn '\n'
  let pieces := if pieces.getLast? = some [] then pieces.dropLast else pieces
  pieces.map fun line => ⟨if line.getLast? = some '\r' then line.dropLast else line⟩

namespace Catalog

/-- `Catalog::load_schema` on the lines of the schema file, each with the id its
`HeapFile::new` draws: an `add_table` per line, and a panic at the first line that does
not parse or whose data file does not open.  `opens tableName` is the outcome of
`OpenOptions::new().create(true).read(true).write(true).open(format!("data/{}.dat",
table_name))`, which `file.unwrap()` reads after the columns are parsed. -/
def loadSchema (opens : String → Bool) (c : Catalog) : List (String × Nat) → Option Catalog
  | [] => some c
  | (line, id) :: rest => do
    let (tableName, td) ← parseSchemaLine line
    let c ← if opens tableName then c.addTable ⟨id, td⟩ tableName else none
    c.loadSchema opens rest

end Catalog

/-- `Table`: a table of the catalog, with its file, id and descriptor. -/
structure Table where
  name : String
  heapFile : HeapFile
  tableId : Nat
  tupleDesc : TupleDesc
  deriving DecidableEq

/-- `Table::new(name, schema)`: the catalog's table of that name (the `unwrap` panics
when there is none); `schema` is not read. -/
def Table.new (c : Catalog) (name : String) : Option Table :=
  (c.getTableFromName name).map fun heapFile => ⟨name, heapFile, heapFile.id, heapFile.td⟩

/-! ## Writing the schema file -/

/-- How a schema line spells a column type. -/
def FieldType.name : FieldType → String
  | .intType => "Int"
  | .stringType => "String"

/-- The columns of a schema line: `name: Type` each, `, ` between two, then `)`. -/
def columnsText : List (String × FieldType) → String
  | [] => ")"
  | [(fieldName, ty)] => fieldName ++ ": " ++ ty.name ++ ")"
  | (fieldName, ty) :: c :: cs => fieldName ++ ": " ++ ty.name ++ ", " ++ columnsText (c :: cs)

/-- A table as a line of the schema file, `name(col: Type, col: Type)`. -/
def schemaLine (tableName : String) (td : TupleDesc) : String :=
  tableName ++ "(" ++ columnsText (td.fields.zip td.types)

/-- Tables as a schema file, a line each. -/
def schemaFile : List (String × TupleDesc) → String
  | [] => ""
  | (tableName, td) :: tables => schemaLine tableName td ++ "\n" ++ schemaFile tables

/-- A table name the parser can return: no space and no `(`. -/
def TableNamePlain (s : String) : Prop := ∀ c ∈ s.data, c ≠ ' ' ∧ c ≠ '('

/-- A column name the parser can return: no space, `(`, `,` or `:`. -/
def ColumnNamePlain (s : String) : Prop := ∀ c ∈ s.data, c ≠ ' ' ∧ c ≠ '(' ∧ c ≠ ',' ∧ c ≠ ':'

instance (s : String) : Decidable (TableNamePlain s) :=
  inferInstanceAs (Decidable (∀ c ∈ s.data, c ≠ ' ' ∧ c ≠ '('))

instance (s : String) : Decidable (ColumnNamePlain s) :=
  inferInstanceAs (Decidable (∀ c ∈ s.data, c ≠ ' ' ∧ c ≠ '(' ∧ c ≠ ',' ∧ c ≠ ':'))

/-- A table a schema line can declare: plain names, a type per column, and a column at
least. -/
structure Declarable (tableName : String) (td : TupleDesc) : Prop where
  name_plain : TableNamePlain tableName
  columns_plain : ∀ f ∈ td.fields, ColumnNamePlain f
  length_eq : td.types.length = td.fields.length
  pos : 0 < td.fields.length

instance (tableName : String) (td : TupleDesc) : Decidable (Declarable tableName td) :=
  decidable_of_iff (TableNamePlain tableName ∧ (∀ f ∈ td.fields, ColumnNamePlain f) ∧
      td.types.length = td.fields.length ∧ 0 < td.fields.length)
    ⟨fun ⟨a, b, c, d⟩ => ⟨a, b, c, d⟩, fun ⟨a, b, c, d⟩ => ⟨a, b, c, d⟩⟩

/-! ## Pieces of a split -/

/-- Every piece of a split holds characters of the text, none of them a separator. -/
theorem mem_of_mem_splitOnP {α : Type} {p : α → Bool} :
    ∀ {l w : List α}, w ∈ l.splitOnP p → ∀ c ∈ w, c ∈ l ∧ p c = false
  | [], w, hw => by
    rw [List.splitOnP_nil, List.mem_singleton] at hw
    subst hw
    simp
  | x :: xs, w, hw => by
    have ih : ∀ {w}, w ∈ xs.splitOnP p → ∀ c ∈ w, c ∈ x :: xs ∧ p c = false := fun hw c hc =>
      ⟨List.mem_cons_of_mem _ (mem_of_mem_splitOnP hw c hc).1, (mem_of_mem_splitOnP hw c hc).2⟩
    rw [List.splitOnP_cons] at hw
    split_ifs at hw with hx
    · rcases List.mem_cons.1 hw with rfl | hw
      · simp
      · exact ih hw
    · obtain ⟨r, rs, hr⟩ := List.exists_cons_of_ne_nil (List.splitOnP_ne_nil p xs)
      rw [hr, List.modifyHead_cons] at hw
      rcases List.mem_cons.1 hw with rfl | hw
      · intro c hc
        rcases List.mem_cons.1 hc with rfl | hc
        · exact ⟨List.mem_cons_self _ _, by simpa using hx⟩
        · exact ih (hr ▸ List.mem_cons_self r rs) c hc
      · exact ih (hr ▸ List.mem_cons_of_mem r hw)

theorem mem_of_mem_splitOn {c : Char} {sep : Char} {l w : List Char} (hw : w ∈ l.splitOn sep)
    (hc : c ∈ w) : c ∈ l ∧ c ≠ sep := by
  have := mem_of_mem_splitOnP hw c hc
  simpa using this

/-! ## A line reads back -/

@[simp] theorem string_mk_data (s : String) : (⟨s.data⟩ : String) = s := rfl

@[simp] theorem parseFieldType_name (ty : FieldType) : parseFieldType ty.name = some ty := by
  cases ty <;> rfl

/-- A space before a column changes nothing. -/
theorem parseColumn_cons_space (field : List Char) :
    parseColumn (' ' :: field) = parseColumn field := by
  obtain ⟨r, rs, hr⟩ := List.exists_cons_of_ne_nil (List.splitOnP_ne_nil (· == ':') field)
  simp [parseColumn, List.splitOn, List.splitOnP_cons, hr]

@[simp] theorem FieldType.data_name_intType : FieldType.intType.name.data = ['I', 'n', 't'] := rfl

@[simp] theorem FieldType.data_name_stringType :
    FieldType.stringType.name.data = ['S', 't', 'r', 'i', 'n', 'g'] := rfl

/-- A type's name holds none of the characters the reader cuts or strips at. -/
theorem FieldType.mem_data_name (ty : FieldType) :
    ∀ c ∈ ty.name.data, c ≠ ' ' ∧ c ≠ '(' ∧ c ≠ ')' ∧ c ≠ ',' ∧ c ≠ ':' ∧ c ≠ '\n' := by
  cases ty <;> decide

/-- A column `name: Type` reads back, whatever spaces or `)` follow it. -/
theorem parseColumn_text {fieldName : String} (hn : ColumnNamePlain fieldName) (ty : FieldType)
    {s : List Char} (hs : ∀ c ∈ s, c = ' ' ∨ c = ')') :
    parseColumn (fieldName.data ++ ':' :: ' ' :: (ty.name.data ++ s)) = some (fieldName, ty) := by
  have hT := ty.mem_data_name
  have hsplit : (fieldName.data ++ ':' :: ' ' :: (ty.name.data ++ s)).splitOn ':' =
      [fieldName.data, ' ' :: (ty.name.data ++ s)] := by
    rw [List.splitOn, List.splitOnP_first _ _ (fun c hc => by simpa using (hn c hc).2.2.2) _
      (by simp), List.splitOnP_eq_single]
    intro c hc
    simp only [List.mem_cons, List.mem_append] at hc
    rcases hc with rfl | hc | hc
    · decide
    · simpa using (hT c hc).2.2.2.2.1
    · rcases hs c hc with rfl | rfl <;> decide
  have hT' : ty.name.data.filter (fun a => a != ')' && a != ' ') = ty.name.data :=
    List.filter_eq_self.2 fun c hc => by simp [(hT c hc).1, (hT c hc).2.2.1]
  have hs' : s.filter (fun a => a != ')' && a != ' ') = [] :=
    List.filter_eq_nil_iff.2 fun c hc => by rcases hs c hc with rfl | rfl <;> decide
  have hname : fieldName.data.filter (· != ' ') = fieldName.data :=
    List.filter_eq_self.2 fun c hc => by simpa using (hn c hc).1
  simp only [parseColumn, hsplit]
  simp [hT', hs', hname]

theorem data_columnsText_single (fieldName : String) (ty : FieldType) :
    (columnsText [(fieldName, ty)]).data = fieldName.data ++ ':' :: ' ' :: (ty.name.data ++ [')']) := by
  simp [columnsText, String.data_append]

theorem data_columnsText_cons (fieldName : String) (ty : FieldType) (c : String × FieldType)
    (cs : List (String × FieldType)) :
    (columnsText ((fieldName, ty) :: c :: cs)).data =
      (fieldName.data ++ ':' :: ' ' :: ty.name.data) ++ ',' :: ' ' :: (columnsText (c :: cs)).data := by
  simp [columnsText, String.data_append]

/-- A space before the first column changes nothing. -/
theorem mapM_parseColumn_modifyHead (l : List (List Char)) :
    (l.modifyHead (' ' :: ·)).mapM parseColumn = l.mapM parseColumn := by
  cases l with
  | nil => rfl
  | cons a l => simp only [List.modifyHead_cons, List.mapM_cons, parseColumn_cons_space]

/-- The columns of a schema line read back. -/
theorem mapM_parseColumn_columnsText :
    ∀ {cs : List (String × FieldType)}, cs ≠ [] → (∀ p ∈ cs, ColumnNamePlain p.1) →
      ((columnsText cs).data.splitOn ',').mapM parseColumn = some cs
  | [], h, _ => absurd rfl h
  | [(fieldName, ty)], _, hp => by
    have hn := hp _ (List.mem_singleton_self _)
    rw [data_columnsText_single, List.splitOn, List.splitOnP_eq_single]
    · rw [List.mapM_cons, parseColumn_text hn ty (s := [')']) (by simp)]
      rfl
    · intro c hc
      simp only [List.mem_append, List.mem_cons, List.not_mem_nil, or_false] at hc
      rcases hc with hc | rfl | rfl | hc | rfl
      · simpa using (hn c hc).2.2.1
      all_goals first | decide | simpa using (ty.mem_data_name c hc).2.2.2.1
  | (fieldName, ty) :: c :: cs, _, hp => by
    have hn := hp _ (List.mem_cons_self _ _)
    have ih := mapM_parseColumn_columnsText (List.cons_ne_nil c cs)
      fun p h => hp p (List.mem_cons_of_mem _ h)
    rw [data_columnsText_cons, List.splitOn, List.splitOnP_first _ _ ?_ _ (by decide),
      List.splitOnP_cons, if_neg (by decide)]
    · rw [List.mapM_cons, ← List.splitOn, mapM_parseColumn_modifyHead, ih]
      have h := parseColumn_text hn ty (s := []) (by simp)
      rw [List.append_nil] at h
      rw [h]
      rfl
    · intro c hc
      simp only [List.mem_append, List.mem_cons] at hc
      rcases hc with hc | rfl | rfl | hc
      · simpa using (hn c hc).2.2.1
      all_goals first | decide | simpa using (ty.mem_data_name c hc).2.2.2.1

/-- A character of the columns of a line is in a column name, or is neither `(` nor a
newline. -/
theorem mem_columnsText {c : Char} : ∀ {cs : List (String × FieldType)},
    c ∈ (columnsText cs).data → (∃ p ∈ cs, c ∈ p.1.data) ∨ (c ≠ '(' ∧ c ≠ '\n')
  | [], hc => by
    rw [columnsText] at hc
    change c ∈ [')'] at hc
    rw [List.mem_singleton] at hc
    subst hc
    exact .inr (by decide)
  | [(fieldName, ty)], hc => by
    rw [data_columnsText_single] at hc
    simp only [List.mem_append, List.mem_cons, List.not_mem_nil, or_false] at hc
    rcases hc with hc | rfl | rfl | hc | rfl
    · exact .inl ⟨_, List.mem_singleton_self _, hc⟩
    all_goals first
      | exact .inr (by decide)
      | exact .inr ⟨(ty.mem_data_name c hc).2.1, (ty.mem_data_name c hc).2.2.2.2.2⟩
  | (fieldName, ty) :: c' :: cs, hc => by
    rw [data_columnsText_cons] at hc
    simp only [List.mem_append, List.mem_cons] at hc
    rcases hc with (hc | rfl | rfl | hc) | rfl | rfl | hc
    · exact .inl ⟨_, List.mem_cons_self _ _, hc⟩
    all_goals first
      | exact .inr (by decide)
      | exact .inr ⟨(ty.mem_data_name c hc).2.1, (ty.mem_data_name c hc).2.2.2.2.2⟩
      | rcases mem_columnsText hc with ⟨p, hp, h⟩ | h
        · exact .inl ⟨p, List.mem_cons_of_mem _ hp, h⟩
        · exact .inr h

theorem data_schemaLine (tableName : String) (td : TupleDesc) :
    (schemaLine tableName td).data =
      tableName.data ++ '(' :: (columnsText (td.fields.zip td.types)).data := by
  simp [schemaLine, String.data_append]

/-- A declarable table's line reads back. -/
theorem parseSchemaLine_schemaLine {tableName : String} {td : TupleDesc}
    (h : Declarable tableName td) : parseSchemaLine (schemaLine tableName td) = some (tableName, td) := by
  have hcols : ∀ p ∈ td.fields.zip td.types, ColumnNamePlain p.1 := fun p hp =>
    h.columns_plain _ (List.of_mem_zip hp).1
  have hne : td.fields.zip td.types ≠ [] := by
    rw [← List.length_pos, List.length_zip, h.length_eq, min_self]
    exact h.pos
  have hsplit : (schemaLine tableName td).data.splitOn '(' =
      [tableName.data, (columnsText (td.fields.zip td.types)).data] := by
    rw [data_schemaLine, List.splitOn, List.splitOnP_first _ _
      (fun c hc => by simpa using (h.name_plain c hc).2) _ (by decide), List.splitOnP_eq_single]
    intro c hc
    rcases mem_columnsText hc with ⟨p, hp, hc⟩ | hc
    · simpa using (hcols p hp c hc).2.1
    · simpa using hc.1
  have hname : tableName.data.filter (· != ' ') = tableName.data :=
    List.filter_eq_self.2 fun c hc => by simpa using (h.name_plain c hc).1
  simp only [parseSchemaLine, hsplit, List.getElem?_cons_zero, List.getElem?_cons_succ,
    Option.bind_eq_bind, Option.some_bind, mapM_parseColumn_columnsText hne hcols, hname,
    string_mk_data, Option.pure_def, List.map_fst_zip _ _ (le_of_eq h.length_eq.symm),
    List.map_snd_zip _ _ (le_of_eq h.length_eq)]

/-- Every line `load_schema` accepts declares a declarable table. -/
theorem Declarable.of_parseSchemaLine {line tableName : String} {td : TupleDesc}
    (h : parseSchemaLine line = some (tableName, td)) : Declarable tableName td := by
  simp only [parseSchemaLine, Option.bind_eq_bind, Option.bind_eq_some, Option.pure_def,
    Option.some.injEq, Prod.mk.injEq] at h
  obtain ⟨t0, h0, t1, h1, fields, hf, rfl, rfl⟩ := h
  refine ⟨fun c hc => ?_, fun f hf' => ?_, by simp, ?_⟩
  · obtain ⟨hc, hsp⟩ := List.mem_filter.1 hc
    exact ⟨by simpa using hsp, (mem_of_mem_splitOn (List.getElem?_mem h0) hc).2⟩
  · obtain ⟨⟨f', ty⟩, hmem, rfl⟩ := List.mem_map.1 hf'
    obtain ⟨piece, hpiece, hparse⟩ := exists_of_mapM_eq_some hf _ hmem
    simp only [parseColumn, Option.bind_eq_bind, Option.bind_eq_some, Option.pure_def,
      Option.some.injEq, Prod.mk.injEq] at hparse
    obtain ⟨n0, hn0, -, -, -, -, rfl, -⟩ := hparse
    intro c hc
    obtain ⟨hc, hsp⟩ := List.mem_filter.1 hc
    have h₁ := mem_of_mem_splitOn (List.getElem?_mem hn0) hc
    have h₂ := mem_of_mem_splitOn hpiece h₁.1
    have h₃ := mem_of_mem_splitOn (List.getElem?_mem h1) h₂.1
    exact ⟨by simpa using hsp, h₃.2, h₂.2, h₁.2⟩
  · rw [List.length_map, length_of_mapM_eq_some hf]
    exact List.length_pos.2 (List.splitOnP_ne_nil _ _)

/-- **The schema line format.**  Every line `load_schema` accepts declares a table whose
name has no space or `(`, whose column names have no space, `(`, `,` or `:`, with a type
per column and a column at least; and a table's line reads back to the table exactly
when the table is such a one. -/
theorem schema_line_format :
    (∀ line tableName td, parseSchemaLine line = some (tableName, td) → Declarable tableName td) ∧
    ∀ tableName td,
      parseSchemaLine (schemaLine tableName td) = some (tableName, td) ↔ Declarable tableName td :=
  ⟨fun _ _ _ h => .of_parseSchemaLine h, fun _ _ => ⟨.of_parseSchemaLine, parseSchemaLine_schemaLine⟩⟩

/-- The `employees` table of `main.rs` reads back from its line. -/
theorem schema_line_format_employees :
    Declarable "employees" ⟨[.intType, .stringType], ["id", "name"]⟩ ∧
      parseSchemaLine (schemaLine "employees" ⟨[.intType, .stringType], ["id", "name"]⟩) =
        some ("employees", ⟨[.intType, .stringType], ["id", "name"]⟩) :=
  ⟨by decide, (schema_line_format.2 _ _).2 (by decide)⟩

/-! ## A schema file loads -/

/-- The columns of a line end with `)`. -/
theorem columnsText_eq_concat : ∀ cs : List (String × FieldType),
    ∃ l, (columnsText cs).data = l ++ [')']
  | [] => ⟨[], rfl⟩
  | [(fieldName, ty)] => ⟨fieldName.data ++ ':' :: ' ' :: ty.name.data, by
      rw [data_columnsText_single]; simp⟩
  | (fieldName, ty) :: c :: cs => by
    obtain ⟨l, hl⟩ := columnsText_eq_concat (c :: cs)
    exact ⟨(fieldName.data ++ ':' :: ' ' :: ty.name.data) ++ ',' :: ' ' :: l, by
      rw [data_columnsText_cons, hl]; simp⟩

/-- A schema line ends with `)`. -/
theorem getLast?_schemaLine (tableName : String) (td : TupleDesc) :
    (schemaLine tableName td).data.getLast? = some ')' := by
  obtain ⟨l, hl⟩ := columnsText_eq_concat (td.fields.zip td.types)
  rw [data_schemaLine, hl, ← List.cons_append, ← List.append_assoc, List.getLast?_concat]

/-- A schema file is its lines, each followed by a newline. -/
theorem splitOn_schemaFile {tables : List (String × TupleDesc)}
    (hnl : ∀ t ∈ tables, '\n' ∉ (schemaLine t.1 t.2).data) :
    (schemaFile tables).data.splitOn '\n' = tables.map (fun t => (schemaLine t.1 t.2).data) ++ [[]] := by
  induction tables with
  | nil => rfl
  | cons t tables ih =>
    have h : (schemaFile (t :: tables)).data = (schemaLine t.1 t.2).data ++ '\n' :: (schemaFile tables).data := by
      simp [schemaFile, String.data_append]
    rw [h, List.splitOn, List.splitOnP_first _ _ (fun c hc e => hnl t (List.mem_cons_self _ _) (by
      rw [beq_iff_eq] at e; exact e ▸ hc)) _ (by decide), ← List.splitOn,
      ih fun t' ht' => hnl t' (List.mem_cons_of_mem _ ht')]
    rfl

/-- `BufRead::lines` reads a schema file back as its lines. -/
theorem lines_schemaFile {tables : List (String × TupleDesc)}
    (hnl : ∀ t ∈ tables, '\n' ∉ (schemaLine t.1 t.2).data) :
    lines (schemaFile tables) = tables.map fun t => schemaLine t.1 t.2 := by
  simp only [lines, splitOn_schemaFile hnl, List.getLast?_concat, if_true, List.dropLast_concat,
    List.map_map]
  refine List.map_congr_left fun t _ => ?_
  simp [getLast?_schemaLine]

/-- `load_schema` of declarable lines whose data files open is the run of their
`add_table` calls. -/
theorem loadSchema_zip {opens : String → Bool} {tables : List (String × TupleDesc)}
    (hdecl : ∀ t ∈ tables, Declarable t.1 t.2) (hopen : ∀ t ∈ tables, opens t.1 = true)
    (ids : List Nat) (c : Catalog) :
    c.loadSchema opens ((tables.map fun t => schemaLine t.1 t.2).zip ids) =
      Catalog.addTables ((tables.zip ids).map fun p => (⟨p.2, p.1.2⟩, p.1.1)) c := by
  induction tables generalizing ids c with
  | nil => rfl
  | cons t tables ih =>
    cases ids with
    | nil => rfl
    | cons id ids =>
      have ht := parseSchemaLine_schemaLine (hdecl t (List.mem_cons_self _ _))
      simp only [List.map_cons, List.zip_cons_cons, Catalog.loadSchema, ht,
        hopen t (List.mem_cons_self _ _), if_true, Catalog.addTables, Catalog.addTable_eq,
        Option.bind_eq_bind, Option.some_bind]
      exact ih (fun t' ht' => hdecl t' (List.mem_cons_of_mem _ ht'))
        (fun t' ht' => hopen t' (List.mem_cons_of_mem _ ht')) ids _

/-- A schema line holds a newline only where a name does. -/
theorem newline_not_mem_schemaLine {tableName : String} {td : TupleDesc}
    (hn : '\n' ∉ tableName.data) (hf : ∀ f ∈ td.fields, '\n' ∉ f.data) :
    '\n' ∉ (schemaLine tableName td).data := by
  rw [data_schemaLine, List.mem_append, List.mem_cons, not_or, not_or]
  refine ⟨hn, by decide, fun h => ?_⟩
  rcases mem_columnsText h with ⟨p, hp, h⟩ | h
  · exact hf p.1 (List.of_mem_zip hp).1 h
  · exact h.2 rfl

/-- **A schema file loads into the catalog.**  Write declarable tables with distinct
names and no newline in a name as a schema file, and load it into a well-keyed catalog,
each table's data file opening and each line's `HeapFile` drawing a fresh id, all
distinct: `load_schema` does not panic, the catalog stays well keyed, `Table::new` finds
each table under its name with its id and columns, and `get_tuple_desc` finds the
columns under the id. -/
theorem load_schema_file {opens : String → Bool} {tables : List (String × TupleDesc)}
    {ids : List Nat} {c : Catalog} (hdecl : ∀ t ∈ tables, Declarable t.1 t.2)
    (hopen : ∀ t ∈ tables, opens t.1 = true)
    (hnl : ∀ t ∈ tables, '\n' ∉ t.1.data ∧ ∀ f ∈ t.2.fields, '\n' ∉ f.data)
    (hnames : (tables.map Prod.fst).Nodup) (hids : ids.Nodup) (hlen : ids.length = tables.length)
    (hc : c.WellKeyed) (hfresh : ∀ id ∈ ids, c.getTableFromId id = none) :
    ∃ c', c.loadSchema opens ((lines (schemaFile tables)).zip ids) = some c' ∧ c'.WellKeyed ∧
      ∀ t ∈ tables.zip ids, Table.new c' t.1.1 = some ⟨t.1.1, ⟨t.2, t.1.2⟩, t.2, t.1.2⟩ ∧
        c'.getTupleDesc t.2 = some t.1.2 := by
  set calls := (tables.zip ids).map fun p => ((⟨p.2, p.1.2⟩ : HeapFile), p.1.1) with hcalls
  rw [lines_schemaFile fun t ht => newline_not_mem_schemaLine (hnl t ht).1 (hnl t ht).2,
    loadSchema_zip hdecl hopen]
  obtain ⟨c', hc'⟩ := Option.isSome_iff_exists.1 (Catalog.addTables_isSome calls c)
  have hids' : (calls.map fun call => call.1.id) = ids := by
    simp only [hcalls, List.map_map, Function.comp_def]
    exact List.map_snd_zip _ _ (le_of_eq hlen)
  have hnames' : calls.map Prod.snd = tables.map Prod.fst := by
    rw [← List.map_fst_zip tables ids (le_of_eq hlen.symm), hcalls, List.map_map, List.map_map]
    rfl
  have hwk := Catalog.addTables_wellKeyed calls hc (hids' ▸ hids)
    (fun call hcall => hfresh _ (hids' ▸ List.mem_map_of_mem _ hcall)) hc'
  refine ⟨c', hc', hwk, fun t ht => ?_⟩
  have hname := Catalog.getTableFromName_addTables (hnames' ▸ hnames) hc' _
    (List.mem_map_of_mem (fun p => ((⟨p.2, p.1.2⟩ : HeapFile), p.1.1)) ht)
  refine ⟨by simp [Table.new, hname], ?_⟩
  simp [Catalog.getTupleDesc, hwk.name_id _ _ hname]

/-- The schema file of `main.rs`, one `employees` line, loaded into the new catalog with
the id `1`, its data file opening. -/
theorem load_schema_file_employees :
    ∃ c', Catalog.new.loadSchema (fun _ => true)
        ((lines (schemaFile [("employees", ⟨[.intType, .stringType], ["id", "name"]⟩)])).zip [1]) =
          some c' ∧ c'.WellKeyed ∧
      Table.new c' "employees" = some ⟨"employees", ⟨1, ⟨[.intType, .stringType], ["id", "name"]⟩⟩,
        1, ⟨[.intType, .stringType], ["id", "name"]⟩⟩ ∧
      c'.getTupleDesc 1 = some ⟨[.intType, .stringType], ["id", "name"]⟩ := by
  obtain ⟨c', h, hwk, hlook⟩ := @load_schema_file (fun _ => true)
    [("employees", ⟨[.intType, .stringType], ["id", "name"]⟩)] [1] Catalog.new
    (by decide) (fun _ _ => rfl) (by decide) (by decide) (by decide) rfl Catalog.wellKeyed_new
    (fun _ _ => rfl)
  exact ⟨c', h, hwk, hlook _ (List.mem_singleton_self _)⟩

end RusticDb
