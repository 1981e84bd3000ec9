import PathQuery.Path.Segment
import PathQuery.Filter.Clause
import PathQuery.Proofs.Catalog.Linked
import PathQuery.Proofs.Text.Percent
import PathQuery.Proofs.Text.Separated

namespace PathQuery.Reading

/-! # Reading a path

The text of a path is split at its slashes and read from left to right.  The reader keeps
the table at hand and the tables that were given an alias.  A join has to be that of a
foreign key of the catalog from the table at hand, a column of a filter has to be one of
the table at hand or of the table of its alias, and an alias has to be bound before.
-/

/-- What the reader of a path knows. -/
structure Scope where
  table : Table
  /-- The tables with an alias, the last one first. -/
  aliases : List (String × Table)

def isWordChar (c : Char) : Bool := c.isAlphanum || c == '_'

/-- A plain word of letters, digits and underscores. -/
def IsWord (name : String) : Prop := name ≠ "" ∧ ∀ c ∈ name.toList, isWordChar c = true

/-- What stands for a column in a filter: its name, or an alias and its name.  The whole
    row has a name of its own. -/
inductive Target (scope : Scope) : String → Prop
  | wholeRow : Target scope "*"
  | column {column : Column} (member : column ∈ scope.table.columns) :
      Target scope (Text.percentEncode column.name)
  | aliased {name : String} {table : Table} {column : Column} (word : IsWord name)
      (bound : scope.aliases.lookup name = some table) (member : column ∈ table.columns) :
      Target scope (name ++ ":" ++ Text.percentEncode column.name)

def comparisons : List String :=
  ["=", "::null::", "::lt::", "::leq::", "::gt::", "::geq::", "::regexp::", "::ciregexp::", "::ts::",
    "<", "<=", ">", ">="]

/-- Nothing in the text structures a path. -/
def IsEncoded (text : String) : Prop := ∀ c ∈ text.toList, Text.isEncoded c = true

/-- What a column is compared with: an encoded value, or a list of them. -/
inductive Operand : String → Prop
  | value {text : String} (encoded : IsEncoded text) : Operand text
  | values {quantifier : String} {texts : List String}
      (known : quantifier = "any" ∨ quantifier = "all")
      (encoded : ∀ text ∈ texts, IsEncoded text) :
      Operand (quantifier ++ "(" ++ ",".intercalate texts ++ ")")

/-- A filter on the table at hand. -/
inductive Clause (scope : Scope) : String → Prop
  | comparison {target operator operand : String} (column : Target scope target)
      (known : operator ∈ comparisons) (value : Operand operand) :
      Clause scope (target ++ operator ++ operand)
  | joined {separator : String} (known : separator = "&" ∨ separator = ";")
      {clauses : List String} (each : ∀ clause ∈ clauses, Clause scope clause) :
      Clause scope (separator.intercalate clauses)
  | grouped {clause : String} (inner : Clause scope clause) : Clause scope ("(" ++ clause ++ ")")
  | negated {clause : String} (inner : Clause scope clause) : Clause scope ("!(" ++ clause ++ ")")

/-- The columns of a join, with a comma between any two. -/
def columnList (columns : List String) : String :=
  ",".intercalate (columns.map Text.percentEncode)

/-- The name of a table in a path. -/
def tableText (name : TableName) : String :=
  Text.percentEncode name.schema ++ ":" ++ Text.percentEncode name.table

/-- A join with its columns on this side, and the table and its columns on the other one. -/
def joinForm (columns : List String) (next : TableName) (nextColumns : List String) : String :=
  "(" ++ columnList columns ++ ")=(" ++ tableText next ++ ":" ++ columnList nextColumns ++ ")"

/-- A join from the table at hand to the next one.  It names the next table, and its
    columns are those of a foreign key that relates the two, in their order. -/
inductive Join (catalog : Catalog) (table next : Table) : String → Prop
  /-- The foreign key is one of the table at hand. -/
  | outbound {key : ForeignKey} {kind : String} (kinds : kind ∈ ["", "left", "right"])
      (known : catalog.HasKey key) (starts : key.table = table.tableName)
      (reaches : catalog.table? key.referencedTable = some next) :
      Join catalog table next
        (kind ++ joinForm key.columns key.referencedTable key.referencedColumns)
  /-- The foreign key references the table at hand. -/
  | inbound {key : ForeignKey} {kind : String} (kinds : kind ∈ ["", "left", "right"])
      (known : catalog.HasKey key) (starts : key.referencedTable = table.tableName)
      (reaches : catalog.table? key.table = some next) :
      Join catalog table next (kind ++ joinForm key.referencedColumns key.table key.columns)

/-- One piece of a path. -/
inductive Reads (catalog : Catalog) : Scope → String → Scope → Prop
  | join {scope : Scope} {next : Table} {text : String}
      (joins : Join catalog scope.table next text) :
      Reads catalog scope text { scope with table := next }
  | bind {scope : Scope} {next : Table} {text name : String}
      (joins : Join catalog scope.table next text) (word : IsWord name)
      (fresh : scope.aliases.lookup name = none) :
      Reads catalog scope (name ++ ":=" ++ text) ⟨next, (name, next) :: scope.aliases⟩
  | goTo {scope : Scope} {name : String} {table : Table} (word : IsWord name)
      (bound : scope.aliases.lookup name = some table) :
      Reads catalog scope ("$" ++ name) { scope with table }
  | filter {scope : Scope} {clause : String} (holds : Clause scope clause) :
      Reads catalog scope clause scope

inductive ReadsAll (catalog : Catalog) : Scope → List String → Scope → Prop
  | nil {scope : Scope} : ReadsAll catalog scope [] scope
  | cons {first second last : Scope} {piece : String} {pieces : List String}
      (read : Reads catalog first piece second) (rest : ReadsAll catalog second pieces last) :
      ReadsAll catalog first (piece :: pieces) last

/-- The pieces of a text between its slashes. -/
def pieces (text : String) : List String := (text.split '/').toList.map fun piece => piece.copy

/-- Read the whole path of some facets of `root`.  A path with a right join names the
    table that it starts at. -/
inductive ReadsPath (catalog : Catalog) (root : Table) (rootAlias : String) :
    Bool → String → Prop
  | fromRoot {text : String} {aliases : List (String × Table)}
      (read : ReadsAll catalog ⟨root, [(rootAlias, root)]⟩ (pieces text) ⟨root, aliases⟩) :
      ReadsPath catalog root rootAlias false text
  | fromEnd {text : String} {start : Table} {rest : List String}
      {aliases : List (String × Table)}
      (opens : pieces text = tableText start.tableName :: rest)
      (known : catalog.table? start.tableName = some start)
      (read : ReadsAll catalog ⟨start, []⟩ rest ⟨root, aliases⟩) :
      ReadsPath catalog root rootAlias true text

variable {catalog : Catalog}

theorem ReadsAll.append {first middle last : Scope} {left right : List String}
    (before : ReadsAll catalog first left middle) (after : ReadsAll catalog middle right last) :
    ReadsAll catalog first (left ++ right) last := by
  induction before with
  | nil => exact after
  | cons read _ ih => exact .cons read (ih after)

theorem ReadsAll.single {first last : Scope} {piece : String}
    (read : Reads catalog first piece last) : ReadsAll catalog first [piece] last :=
  .cons read .nil

theorem mem_intercalate {separator : String} {texts : List String} {c : Char}
    (member : c ∈ (separator.intercalate texts).toList) :
    c ∈ separator.toList ∨ ∃ text ∈ texts, c ∈ text.toList := by
  rw [String.toList_intercalate] at member
  exact (Text.mem_intercalate member).imp_right fun ⟨_, listed, inPiece⟩ =>
    have ⟨text, inTexts, same⟩ := List.mem_map.mp listed
    ⟨text, inTexts, same ▸ inPiece⟩

theorem not_mem_intercalate {separator : String} {texts : List String} {c : Char}
    (apart : c ∉ separator.toList) (each : ∀ text ∈ texts, c ∉ text.toList) :
    c ∉ (separator.intercalate texts).toList := by
  intro member
  rcases mem_intercalate member with inSeparator | ⟨text, listed, inText⟩
  · exact apart inSeparator
  · exact each text listed inText

def NoSlash (text : String) : Prop := '/' ∉ text.toList

instance (text : String) : Decidable (NoSlash text) :=
  inferInstanceAs (Decidable ('/' ∉ text.toList))

theorem NoSlash.append {left right : String} (first : NoSlash left) (second : NoSlash right) :
    NoSlash (left ++ right) := by
  rw [NoSlash, String.toList_append, List.mem_append]
  exact fun member => member.elim first second

theorem NoSlash.intercalate {separator : String} {texts : List String}
    (separates : NoSlash separator) (each : ∀ text ∈ texts, NoSlash text) :
    NoSlash (separator.intercalate texts) :=
  not_mem_intercalate separates each

theorem IsEncoded.noSlash {text : String} (encoded : IsEncoded text) : NoSlash text :=
  fun member => absurd (encoded '/' member) (by decide)

theorem IsEncoded.percentEncode (text : String) : IsEncoded (Text.percentEncode text) :=
  fun _ member => Text.percentEncode_isEncoded member

theorem noSlash_percentEncode (text : String) : NoSlash (Text.percentEncode text) :=
  (IsEncoded.percentEncode text).noSlash

theorem IsWord.noSlash {name : String} (word : IsWord name) : NoSlash name :=
  fun member => absurd (word.2 '/' member) (by decide)

theorem noSlash_tableText (name : TableName) : NoSlash (tableText name) :=
  ((noSlash_percentEncode _).append (by decide)).append (noSlash_percentEncode _)

theorem noSlash_columnList (columns : List String) : NoSlash (columnList columns) := by
  refine NoSlash.intercalate (by decide) ?_
  intro text listed
  obtain ⟨column, -, rfl⟩ := List.mem_map.mp listed
  exact noSlash_percentEncode column

theorem noSlash_joinForm (columns : List String) (next : TableName) (nextColumns : List String) :
    NoSlash (joinForm columns next nextColumns) := by
  refine (((((NoSlash.append ?_ ?_).append ?_).append ?_).append ?_).append ?_).append ?_
  · decide
  · exact noSlash_columnList columns
  · decide
  · exact noSlash_tableText next
  · decide
  · exact noSlash_columnList nextColumns
  · decide

theorem Join.noSlash {table next : Table} {text : String} (joins : Join catalog table next text) :
    NoSlash text := by
  have kindText : ∀ kind ∈ ["", "left", "right"], NoSlash kind := by decide
  cases joins with
  | outbound kinds => exact (kindText _ kinds).append (noSlash_joinForm _ _ _)
  | inbound kinds => exact (kindText _ kinds).append (noSlash_joinForm _ _ _)

theorem encoded_eq_tableText (name : TableName) : name.encoded = tableText name := rfl

/-- Along a foreign key, the program's own text of a join is the one of its direction. -/
theorem join_joinText {table next : Table} {key : ForeignKey} {direction : Direction}
    (kind : JoinKind) (known : catalog.HasKey key)
    (starts : key.fromTable direction = table.tableName)
    (reaches : catalog.table? (key.toTable direction) = some next) :
    Join catalog table next (key.joinText direction kind) := by
  have kinds : kind.text ∈ ["", "left", "right"] := by cases kind <;> decide
  have spelled : key.joinText direction kind = kind.text ++
      joinForm (key.fromColumns direction) (key.toTable direction) (key.toColumns direction) := by
    simp only [ForeignKey.joinText, joinForm, columnList, encodedColumns, encoded_eq_tableText,
      String.append_assoc]
  rw [spelled]
  cases direction with
  | outbound => exact .outbound kinds known starts reaches
  | inbound => exact .inbound kinds known starts reaches

theorem Target.noSlash {scope : Scope} {target : String} (column : Target scope target) :
    NoSlash target := by
  cases column with
  | wholeRow => decide
  | column member => exact noSlash_percentEncode _
  | aliased word bound member => exact (word.noSlash.append (by decide)).append (noSlash_percentEncode _)

theorem Operand.noSlash {text : String} (operand : Operand text) : NoSlash text := by
  cases operand with
  | value encoded => exact encoded.noSlash
  | @values quantifier texts known encoded =>
      have noSlash : NoSlash quantifier := by rcases known with rfl | rfl <;> decide
      exact ((noSlash.append (by decide)).append
        (NoSlash.intercalate (by decide) fun text listed => (encoded text listed).noSlash)).append
        (by decide)

theorem Clause.noSlash {scope : Scope} {clause : String} (holds : Clause scope clause) :
    NoSlash clause := by
  have operators : ∀ operator ∈ comparisons, NoSlash operator := by decide
  induction holds with
  | comparison column known value =>
      exact (column.noSlash.append (operators _ known)).append value.noSlash
  | joined known _ ih => exact NoSlash.intercalate (by rcases known with rfl | rfl <;> decide) ih
  | grouped _ ih => exact (NoSlash.append (by decide) ih).append (by decide)
  | negated _ ih => exact (NoSlash.append (by decide) ih).append (by decide)

theorem Reads.noSlash {scope next : Scope} {piece : String}
    (read : Reads catalog scope piece next) : NoSlash piece := by
  cases read with
  | join joins => exact joins.noSlash
  | bind joins word fresh => exact (word.noSlash.append (by decide)).append joins.noSlash
  | goTo word bound => exact NoSlash.append (by decide) word.noSlash
  | filter holds => exact holds.noSlash

theorem ReadsAll.noSlash {scope last : Scope} {pieces : List String}
    (read : ReadsAll catalog scope pieces last) : ∀ piece ∈ pieces, NoSlash piece := by
  induction read with
  | nil => exact nofun
  | cons read _ ih =>
      intro piece listed
      obtain rfl | listed := List.mem_cons.mp listed
      · exact read.noSlash
      · exact ih piece listed

theorem pieces_text {path : Path} (nonempty : path ≠ [])
    (noSlash : ∀ piece ∈ path.map Segment.text, NoSlash piece) :
    pieces path.text = path.map Segment.text := by
  have split := String.toList_split_intercalate noSlash
  rw [if_neg (by simpa using nonempty)] at split
  exact split

end PathQuery.Reading
