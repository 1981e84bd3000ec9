import Mathlib.Data.List.Nodup
import Mathlib.Data.List.Perm.Subperm
import PathQuery.Proofs.Catalog.Linked

namespace PathQuery

/-! # Foreign keys by their columns

A foreign key that is not named is looked up by the columns that it relates.  It takes any
columns that pair up to as many pairs as it has, all of them its own.  If no pair is given
twice these are its pairs in some order.  But a pair may also be given in the place of
another one, and so every foreign key with two different pairs takes columns that are not
its own.
-/

namespace ForeignKey

variable {key : ForeignKey} {columns referenced : List String}

/-- The foreign key has as many columns as it references. -/
def Even (key : ForeignKey) : Prop := key.columns.length = key.referencedColumns.length

/-- The columns pair up to the pairs of the foreign key, in whatever order. -/
def Relates (key : ForeignKey) (columns referenced : List String) : Prop :=
  columns.length = referenced.length ∧ (columns.zip referenced).Perm key.pairs

/-- The columns pair up to as many pairs as the foreign key has, all of them its own, but one
    comes up more often than the foreign key has it. -/
def Repeats (key : ForeignKey) (columns referenced : List String) : Prop :=
  columns.length = referenced.length ∧
  (columns.zip referenced).length = key.pairs.length ∧
  columns.zip referenced ⊆ key.pairs ∧
  ∃ pair, key.pairs.count pair < (columns.zip referenced).count pair

theorem Even.length_pairs (even : key.Even) : key.pairs.length = key.columns.length := by
  rw [pairs, List.length_zip, ← even, Nat.min_self]

theorem mapsColumns_iff (even : key.Even) :
    key.mapsColumns columns referenced = true ↔
      columns.length = referenced.length ∧
      (columns.zip referenced).length = key.pairs.length ∧
      columns.zip referenced ⊆ key.pairs := by
  have each : ((columns.zip referenced).all fun pair => key.pairs.contains pair) = true ↔
      columns.zip referenced ⊆ key.pairs := by
    simp only [List.all_eq_true, List.contains_iff_mem]
    rfl
  rw [mapsColumns, Bool.and_eq_true, Bool.and_eq_true, beq_iff_eq, beq_iff_eq, each,
    even.length_pairs, List.length_zip]
  constructor
  · rintro ⟨⟨long, paired⟩, within⟩
    exact ⟨paired.symm, by omega, within⟩
  · rintro ⟨paired, long, within⟩
    exact ⟨⟨by omega, paired.symm⟩, within⟩

/-- Of two lists of one length, the first is the second in another order or holds something more
    often. -/
theorem perm_or_count_lt [BEq α] [LawfulBEq α] {given pairs : List α}
    (long : given.length = pairs.length) :
    given.Perm pairs ∨ ∃ pair, pairs.count pair < given.count pair := by
  by_cases more : ∃ pair, pairs.count pair < given.count pair
  · exact .inr more
  · have within : given.Subperm pairs :=
      List.subperm_ext_iff.mpr fun pair _ => Nat.le_of_not_lt fun less => more ⟨pair, less⟩
    exact .inl (within.perm_of_length_le (Nat.le_of_eq long.symm))

theorem mapsColumns_cases (even : key.Even) :
    key.mapsColumns columns referenced = true ↔
      key.Relates columns referenced ∨ key.Repeats columns referenced := by
  rw [mapsColumns_iff even]
  constructor
  · rintro ⟨paired, long, within⟩
    obtain permuted | more := perm_or_count_lt long
    · exact .inl ⟨paired, permuted⟩
    · exact .inr ⟨paired, long, within, more⟩
  · rintro (⟨paired, permuted⟩ | ⟨paired, long, within, -⟩)
    · exact ⟨paired, permuted.length_eq, permuted.subset⟩
    · exact ⟨paired, long, within⟩

theorem not_repeats (distinct : (columns.zip referenced).Nodup) :
    ¬ key.Repeats columns referenced := by
  rintro ⟨-, -, within, pair, more⟩
  have once := List.nodup_iff_count_le_one.mp distinct pair
  have given : pair ∈ columns.zip referenced := List.count_pos_iff.mp (by omega)
  have known := List.count_pos_iff.mpr (within given)
  omega

/-- A pair that is given all the time stands for any other one. -/
theorem repeats_replicate {pair other : String × String} (isPair : pair ∈ key.pairs)
    (isOther : other ∈ key.pairs) (apart : pair ≠ other) :
    key.Repeats (List.replicate key.pairs.length pair.1)
      (List.replicate key.pairs.length pair.2) := by
  have whole : (List.replicate key.pairs.length pair.1).zip
      (List.replicate key.pairs.length pair.2) = List.replicate key.pairs.length pair := by
    simp
  refine ⟨by simp, ?_, ?_, pair, ?_⟩
  · rw [whole, List.length_replicate]
  · rw [whole]
    intro given member
    rwa [List.eq_of_mem_replicate member]
  · rw [whole, List.count_replicate_self]
    refine Nat.lt_of_le_of_ne List.count_le_length fun all => apart ?_
    exact List.count_eq_length.mp all other isOther

theorem exists_repeats_iff :
    (∃ columns referenced, key.Repeats columns referenced) ↔
      ∃ pair ∈ key.pairs, ∃ other ∈ key.pairs, pair ≠ other := by
  constructor
  · rintro ⟨columns, referenced, -, long, within, pair, more⟩
    have given : pair ∈ columns.zip referenced := List.count_pos_iff.mp (by omega)
    refine ⟨pair, within given, ?_⟩
    by_contra same
    simp only [not_exists, not_and, not_not] at same
    have all := List.count_eq_length.mpr same
    have bound : (columns.zip referenced).count pair ≤ (columns.zip referenced).length :=
      List.count_le_length
    omega
  · rintro ⟨pair, isPair, other, isOther, apart⟩
    exact ⟨_, _, repeats_replicate isPair isOther apart⟩

/-- The foreign key references the table through the columns. -/
def Connects (key : ForeignKey) (columns : List String) (table : TableName)
    (referenced : List String) : Prop :=
  key.referencedTable = table ∧ key.Relates columns referenced

/-- The first of some foreign keys that is as wanted. -/
def IsFirst (keys : List ForeignKey) (wanted : ForeignKey → Prop) (key : ForeignKey) : Prop :=
  ∃ before after, keys = before ++ key :: after ∧ wanted key ∧ ∀ earlier ∈ before, ¬ wanted earlier

theorem find?_eq_some_iff_isFirst {keys : List ForeignKey} {test : ForeignKey → Bool}
    {wanted : ForeignKey → Prop} (decides : ∀ key ∈ keys, test key = true ↔ wanted key) :
    keys.find? test = some key ↔ IsFirst keys wanted key := by
  rw [List.find?_eq_some_iff_append, IsFirst]
  constructor
  · rintro ⟨passes, before, after, rfl, fail⟩
    refine ⟨before, after, rfl, (decides key (by simp)).mp passes, ?_⟩
    intro earlier member isWanted
    have passed := (decides earlier (List.mem_append_left _ member)).mpr isWanted
    simpa [passed] using fail earlier member
  · rintro ⟨before, after, rfl, isWanted, unwanted⟩
    refine ⟨(decides key (by simp)).mpr isWanted, before, after, rfl, ?_⟩
    intro earlier member
    rw [Bool.not_eq_true', Bool.eq_false_iff]
    intro passes
    exact unwanted earlier member ((decides earlier (List.mem_append_left _ member)).mp passes)

end ForeignKey

/-- In a catalog without fault every foreign key has as many columns as it references. -/
theorem Catalog.even_of_error?_eq_none {catalog : Catalog} (faultless : catalog.error? = none)
    {name : TableName} {table : Table} (found : catalog.directory.table? name = some table)
    {key : ForeignKey} (declared : key ∈ table.foreignKeys) : key.Even := by
  have inTable := List.findSome?_eq_none_iff.mp faultless table (mem_tables_of_table? found)
  have sound := Option.map_eq_none_iff.mp (List.findSome?_eq_none_iff.mp inTable key declared)
  unfold Catalog.fault? at sound
  split at sound
  · contradiction
  · rename_i paired
    simp only [Bool.or_eq_true, decide_eq_true_eq, not_or, not_not] at paired
    exact paired.2

open ForeignKey

variable {directory : Directory} {name referenced : TableName}
  {columns referencedColumns : List String} {key : ForeignKey}

/-- Whether a foreign key is the one that is looked for, if no pair is given twice. -/
theorem connects_iff (even : key.Even) (distinct : (columns.zip referencedColumns).Nodup) :
    (decide (key.referencedTable = referenced) &&
        key.mapsColumns columns referencedColumns) = true ↔
      key.Connects columns referenced referencedColumns := by
  rw [Bool.and_eq_true, decide_eq_true_eq, mapsColumns_cases even,
    or_iff_left (not_repeats distinct), Connects]

/-- A foreign key takes columns just if they pair up to its own pairs, in whatever order, or
    repeat some of its pairs in the place of others.  It can be given such columns just if it has
    two different pairs.  Without a repeated pair the look-up gives the first foreign key of the
    table that references the other one through exactly the given pairs, if there is one. -/
theorem foreign_key_by_columns
    (even : ∀ table, directory.table? name = some table → ∀ key ∈ table.foreignKeys, key.Even)
    (columns : List String) (referenced : TableName) (referencedColumns : List String) :
    (∀ key : ForeignKey, key.Even →
      (key.mapsColumns columns referencedColumns = true ↔
        key.Relates columns referencedColumns ∨ key.Repeats columns referencedColumns) ∧
      ((columns.zip referencedColumns).Nodup → ¬ key.Repeats columns referencedColumns) ∧
      ((∃ given referencedGiven, key.Repeats given referencedGiven) ↔
        ∃ pair ∈ key.pairs, ∃ other ∈ key.pairs, pair ≠ other)) ∧
    ((columns.zip referencedColumns).Nodup →
      (∀ key, directory.constraintByColumns? name columns referenced referencedColumns = some key ↔
        ∃ table, directory.table? name = some table ∧
          IsFirst table.foreignKeys (Connects · columns referenced referencedColumns) key) ∧
      (directory.constraintByColumns? name columns referenced referencedColumns = none ↔
        ∀ table, directory.table? name = some table →
          ∀ key ∈ table.foreignKeys, ¬ key.Connects columns referenced referencedColumns)) := by
  refine ⟨fun key even => ⟨mapsColumns_cases even, not_repeats, exists_repeats_iff⟩, ?_⟩
  intro distinct
  have decides : ∀ table, directory.table? name = some table → ∀ key ∈ table.foreignKeys,
      ((decide (key.referencedTable = referenced) &&
        key.mapsColumns columns referencedColumns) = true ↔
          key.Connects columns referenced referencedColumns) :=
    fun table found key member => connects_iff (even table found key member) distinct
  constructor
  · intro key
    rw [Directory.constraintByColumns?, Option.bind_eq_some_iff]
    refine exists_congr fun table => and_congr_right fun found => ?_
    exact find?_eq_some_iff_isFirst (decides table found)
  · rw [Directory.constraintByColumns?, Option.bind_eq_none_iff]
    refine forall₂_congr fun table found => ?_
    rw [List.find?_eq_none]
    exact forall₂_congr fun key member => not_congr (decides table found key member)

namespace Sample

/-- A ticket is for one seat, which has a row and a number in it. -/
def seat : Table where
  schema := "s"
  name := "seat"
  columns := [⟨"row", .int4, false⟩, ⟨"number", .int4, false⟩]
  keys := [⟨["row", "number"]⟩]
  foreignKeys := []
  sourceDefinitions := []
  searchColumns := []

def seatKey : ForeignKey where
  schema := "s"
  name := "seat"
  table := ⟨"s", "ticket"⟩
  columns := ["row", "number"]
  referencedTable := ⟨"s", "seat"⟩
  referencedColumns := ["row", "number"]

def ticket : Table where
  schema := "s"
  name := "ticket"
  columns := [⟨"id", .int4, false⟩, ⟨"row", .int4, true⟩, ⟨"number", .int4, true⟩]
  keys := [⟨["id"]⟩]
  foreignKeys := [seatKey]
  sourceDefinitions := []
  searchColumns := []

def theatre : Catalog := ⟨⟨false, false⟩, [⟨"s", [seat, ticket]⟩]⟩

end Sample

/-- A seat is found by its row and number in either order, but not with the two crossed. -/
theorem foreign_key_by_columns_swapped :
    (∀ table, Sample.theatre.directory.table? ⟨"s", "ticket"⟩ = some table →
      ∀ key ∈ table.foreignKeys, key.Even) ∧
    Sample.seatKey.mapsColumns ["number", "row"] ["number", "row"] = true ∧
    Sample.theatre.directory.constraintByColumns? ⟨"s", "ticket"⟩ ["number", "row"]
      ⟨"s", "seat"⟩ ["number", "row"] = some Sample.seatKey ∧
    Sample.theatre.directory.constraintByColumns? ⟨"s", "ticket"⟩ ["number", "row"]
      ⟨"s", "seat"⟩ ["row", "number"] = none := by
  have faultless : Sample.theatre.error? = none := by decide
  have even : ∀ table, Sample.theatre.directory.table? ⟨"s", "ticket"⟩ = some table →
      ∀ key ∈ table.foreignKeys, key.Even :=
    fun _ found _ declared => Catalog.even_of_error?_eq_none faultless found declared
  obtain ⟨takes, finds⟩ :=
    foreign_key_by_columns even ["number", "row"] ⟨"s", "seat"⟩ ["number", "row"]
  obtain ⟨-, crossed⟩ :=
    foreign_key_by_columns even ["number", "row"] ⟨"s", "seat"⟩ ["row", "number"]
  have relates : Sample.seatKey.Relates ["number", "row"] ["number", "row"] :=
    ⟨rfl, by decide⟩
  refine ⟨even, (takes Sample.seatKey rfl).1.mpr (.inl relates), ?_, ?_⟩
  · refine ((finds (by decide)).1 Sample.seatKey).mpr ⟨Sample.ticket, rfl, ?_⟩
    exact ⟨[], [], rfl, ⟨rfl, relates⟩, nofun⟩
  · refine (crossed (by decide)).2.mpr ?_
    rintro table ⟨⟩ key member ⟨-, -, permuted⟩
    rw [List.mem_singleton.mp member] at permuted
    exact absurd permuted (by decide)

/-- The row of a seat is given twice, the second time in the place of its number. -/
theorem repeated_pair_taken :
    Sample.theatre.error? = none ∧ Sample.seatKey.Even ∧
    Sample.seatKey.mapsColumns ["row", "row"] ["row", "row"] = true ∧
    ¬ Sample.seatKey.Relates ["row", "row"] ["row", "row"] ∧
    Sample.theatre.directory.constraintByColumns? ⟨"s", "ticket"⟩ ["row", "row"] ⟨"s", "seat"⟩
      ["row", "row"] = some Sample.seatKey := by
  refine ⟨by decide, rfl, by decide, ?_, rfl⟩
  rintro ⟨-, permuted⟩
  exact absurd permuted (by decide)

end PathQuery
