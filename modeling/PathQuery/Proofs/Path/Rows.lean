import PathQuery.Proofs.Path.Formula

namespace PathQuery

/-! # Rows along a path

A path is read as a query.  A join moves on to some row of the table it names that has the
same values in the joined columns, and each join may choose a row of its own, even where
another one of the path joins the same tables.  A filter accepts the row at hand, and `$`
goes back to the row that an alias stands for.
-/

/-- The values of a row as texts, by column. -/
abbrev Record := String → Option String

/-- The rows of each table. -/
abbrev Content := TableName → Record → Prop

/-- The row at hand, and the rows that aliases stand for. -/
structure Place where
  row : Record
  aliases : List (String × Record)

/-- Which comparisons hold at a place.  Only what it means to be equal is said. -/
structure Interpretation where
  truth : Place → Truth
  equal : ∀ place column value,
    truth place ⟨.column none column, .equal, some value⟩ = (place.row column == some value)

def Interpretation.accepts (interpretation : Interpretation) (clause : String) (place : Place) :
    Bool :=
  (Reading.read clause).any fun formula => formula.holds (interpretation.truth place)

/-- The rows have the same values in the columns that the foreign key joins, and lack none. -/
def ForeignKey.Joins (key : ForeignKey) (direction : Direction) (here there : Record) : Prop :=
  ∀ pair ∈ (key.fromColumns direction).zip (key.toColumns direction),
    ∃ value, here pair.1 = some value ∧ there pair.2 = some value

/-- The path can be followed from a place.  Joins that keep rows without a partner, and paths
    that start at another table, are left out. -/
def Path.Selects (interpretation : Interpretation) (content : Content) : Path → Place → Prop
  | [], _ => True
  | .filter clause :: later, place =>
    interpretation.accepts clause place = true ∧ Selects interpretation content later place
  | .join binding .inner key direction :: later, place =>
    ∃ next, content (key.toTable direction) next ∧ key.Joins direction place.row next ∧
      Selects interpretation content later
        ⟨next, (binding.map fun name => (name, next)).toList ++ place.aliases⟩
  | .goTo name :: later, place =>
    ∃ row, place.aliases.lookup name = some row ∧
      Selects interpretation content later ⟨row, place.aliases⟩
  | _ :: _, _ => False

/-- One walk along some hops, from a row to another one. -/
def Reaches (content : Content) : List (ForeignKey × Direction) → Record → Record → Prop
  | [], first, last => first = last
  | (key, direction) :: later, first, last =>
    ∃ next, content (key.toTable direction) next ∧ key.Joins direction first next ∧
      Reaches content later next last

/-- Joins that bind no alias, along some hops. -/
def hopJoins (hops : List (ForeignKey × Direction)) : Path :=
  hops.map fun hop => .join none .inner hop.1 hop.2

variable {interpretation : Interpretation} {content : Content}

theorem selects_hopJoins (hops : List (ForeignKey × Direction)) (later : Path) (place : Place) :
    Path.Selects interpretation content (hopJoins hops ++ later) place ↔
      ∃ last, Reaches content hops place.row last ∧
        Path.Selects interpretation content later ⟨last, place.aliases⟩ := by
  induction hops generalizing place with
  | nil => simp [hopJoins, Reaches]
  | cons hop hops ih =>
      obtain ⟨key, direction⟩ := hop
      constructor
      · rintro ⟨next, inTable, joins, selects⟩
        obtain ⟨last, reaches, selects⟩ := (ih _).mp selects
        exact ⟨last, ⟨next, inTable, joins, reaches⟩, selects⟩
      · rintro ⟨last, ⟨next, inTable, joins, reaches⟩, selects⟩
        exact ⟨next, inTable, joins, (ih _).mpr ⟨last, reaches, selects⟩⟩

/-- A part of a path that filters at the end of some hops and comes back. -/
theorem selects_roundTrip (hops : List (ForeignKey × Direction)) (clause name : String)
    (later : Path) (place : Place) (known : place.aliases.lookup name = some place.row) :
    Path.Selects interpretation content
        (hopJoins hops ++ [.filter clause, .goTo name] ++ later) place ↔
      (∃ last, Reaches content hops place.row last ∧
        interpretation.accepts clause ⟨last, place.aliases⟩ = true) ∧
      Path.Selects interpretation content later place := by
  rw [List.append_assoc, selects_hopJoins]
  constructor
  · rintro ⟨last, reaches, accepts, row, isRow, selects⟩
    obtain rfl := Option.some.inj (known.symm.trans isRow)
    exact ⟨⟨last, reaches, accepts⟩, selects⟩
  · rintro ⟨⟨last, reaches, accepts⟩, selects⟩
    exact ⟨last, reaches, accepts, place.row, known, selects⟩

end PathQuery
