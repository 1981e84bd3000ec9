import PathQuery.Catalog.ColumnType
import PathQuery.Proofs.Outcome
import PathQuery.Proofs.Text.Trimmed

namespace PathQuery.ColumnType

/-! # Names of column types

The name of a type that was read is read as the same type, however it was spelled: a name with
a meaning stands for a type whose own name has that meaning, and any other name is kept without
the blanks around it.  Only a text of which nothing is left names no type.
-/

open Text (AllBlank Trimmed trim trim_around trim_eq trim_eq_nil_iff trim_trim)

def arrayMark : List Char := ['[', ']']

theorem elementName?_eq_some {text element : List Char} :
    elementName? text = some element ↔ text = element ++ arrayMark := by
  unfold elementName?
  constructor
  · intro found
    split at found
    · rename_i rest reversed
      cases found
      rw [← List.reverse_reverse text, reversed]
      simp [arrayMark]
    · contradiction
  · intro marked
    simp [marked, arrayMark]

section

variable {text element : List Char}

theorem ofChars_blank (blank : AllBlank text) : ofChars text = .error text := by
  rw [ofChars, trim_eq_nil_iff.mpr blank]
  rfl

/-- A final array mark makes an array of what stands before it. -/
theorem ofChars_array (marked : trim text = element ++ arrayMark) :
    ofChars text = (ofChars element).map array := by
  have given : ¬(trim text).isEmpty = true := by
    rw [marked]
    simp [arrayMark]
  have found := elementName?_eq_some.mpr marked
  rw [ofChars, if_neg given]
  split
  · rename_i other found'
    rw [Option.some.inj (found.symm.trans found')]
  · rename_i missing
    rw [found] at missing
    contradiction

theorem ofChars_simple (given : trim text ≠ []) (unmarked : elementName? (trim text) = none) :
    ofChars text = .ok (ofSimpleName (trim text)) := by
  rw [ofChars, if_neg fun nothing => given (List.isEmpty_iff.mp nothing)]
  split
  · rename_i found
    rw [unmarked] at found
    contradiction
  · rfl

theorem length_marked (marked : trim text = element ++ arrayMark) :
    element.length + 2 ≤ text.length := by
  have shorter := Text.length_trim_le text
  rwa [marked, List.length_append] at shorter

/-- A text is blank, or it has an array mark at its end and what stands before that is read on,
    or it has neither. -/
theorem ofChars_induction {motive : List Char → Prop} (blank : ∀ text, AllBlank text → motive text)
    (array : ∀ text element, trim text = element ++ arrayMark → motive element → motive text)
    (simple : ∀ text, trim text ≠ [] → elementName? (trim text) = none → motive text)
    (text : List Char) : motive text := by
  induction text using ofChars.induct with
  | case1 text nothing => exact blank text (trim_eq_nil_iff.mp (List.isEmpty_iff.mp nothing))
  | case2 text _ element found ih => exact array text element (elementName?_eq_some.mp found) ih
  | case3 text given missing =>
      exact simple text (fun nothing => given (List.isEmpty_iff.mpr nothing)) missing

theorem isOk_map (outcome : Except (List Char) ColumnType) :
    (outcome.map array).isOk = outcome.isOk := by
  cases outcome <;> rfl

/-- Whether a text names a type is told by what is left of it without blanks around. -/
theorem ofChars_isOk_congr {other : List Char} (same : trim text = trim other) :
    (ofChars text).isOk = (ofChars other).isOk := by
  induction text using ofChars_induction with
  | blank text blank =>
      rw [trim_eq_nil_iff.mpr blank] at same
      rw [ofChars_blank blank, ofChars_blank (trim_eq_nil_iff.mp same.symm)]
      rfl
  | array text element marked =>
      rw [ofChars_array marked, ofChars_array (same.symm.trans marked)]
  | simple text given unmarked =>
      rw [ofChars_simple given unmarked]
      rw [same] at given unmarked
      rw [ofChars_simple given unmarked]
      rfl

end

/-- Once some array marks are taken off its end, with the blanks around them, nothing is left of
    the text but blanks. -/
inductive Unnamed : List Char → Prop
  | blank {text : List Char} (blank : AllBlank text) : Unnamed text
  | array {element blanks : List Char} (unnamed : Unnamed element) (blank : AllBlank blanks) :
      Unnamed (element ++ arrayMark ++ blanks)

theorem Unnamed.after_blanks {blanks text : List Char} (blank : AllBlank blanks)
    (unnamed : Unnamed text) : Unnamed (blanks ++ text) := by
  induction unnamed with
  | blank isBlank => exact .blank (blank.append isBlank)
  | array _ isBlank ih =>
      rw [← List.append_assoc, ← List.append_assoc]
      exact .array ih isBlank

theorem trim_marked {element blanks : List Char} (blank : AllBlank blanks) :
    trim (element ++ arrayMark ++ blanks) = element.dropWhile Text.isBlank ++ arrayMark := by
  have starts := List.takeWhile_append_dropWhile (p := Text.isBlank) (l := element)
  have trimmed : Trimmed (element.dropWhile Text.isBlank ++ arrayMark) := by
    constructor
    · intro c first
      cases rest : element.dropWhile Text.isBlank with
      | nil =>
          rw [rest] at first
          cases first
          decide
      | cons d later =>
          rw [rest] at first
          exact Text.head?_dropWhile element c (by rwa [rest])
    · intro c last
      rw [List.getLast?_append] at last
      cases last
      decide
  have same := trim_around (Text.allBlank_takeWhile element) trimmed blank
  rwa [← List.append_assoc, starts] at same

/-- Just the texts without a name are refused. -/
theorem isOk_eq_false_iff {text : List Char} : (ofChars text).isOk = false ↔ Unnamed text := by
  constructor
  · intro fails
    induction text using ofChars_induction with
    | blank text blank => exact .blank blank
    | array text element marked ih =>
        rw [ofChars_array marked, isOk_map] at fails
        obtain ⟨-, before, after, blankBefore, blankAfter, same⟩ := trim_eq text
        rw [same, marked, ← List.append_assoc]
        exact .array ((ih fails).after_blanks blankBefore) blankAfter
    | simple text given unmarked =>
        rw [ofChars_simple given unmarked] at fails
        contradiction
  · intro unnamed
    induction unnamed with
    | blank blank =>
        rw [ofChars_blank blank]
        rfl
    | @array element blanks _ blank ih =>
        have same : trim (element.dropWhile Text.isBlank) = trim element := by
          rw [trim, trim, Text.dropWhile_eq_self (Text.head?_dropWhile element)]
        rw [ofChars_array (trim_marked blank), isOk_map, ofChars_isOk_congr same]
        exact ih

/-- The type is read from its own name, which has no blank before it. -/
structure Settled (type : ColumnType) : Prop where
  starts : ∃ c rest, type.name.toList = c :: rest ∧ Text.isBlank c = false
  reads : ofChars type.name.toList = .ok type

/-- A trimmed name is that of a settled type if it is read as the type. -/
theorem Settled.of_simple {type : ColumnType} (given : type.name.toList ≠ [])
    (trimmed : trim type.name.toList = type.name.toList)
    (unmarked : elementName? type.name.toList = none)
    (same : ofSimpleName type.name.toList = type) : Settled type := by
  constructor
  · obtain ⟨c, rest, written⟩ := List.exists_cons_of_ne_nil given
    have ends := (trim_eq type.name.toList).1
    rw [trimmed, written] at ends
    exact ⟨c, rest, written, ends.first c rfl⟩
  · rw [ofChars_simple (by rwa [trimmed]) (by rwa [trimmed]), trimmed, same]

/-- The types with a name of their own are settled. -/
theorem settled_of_mem_byName : ∀ entry ∈ byName, Settled entry.2 := by
  have plain : ∀ entry ∈ byName, entry.2.name.toList ≠ [] ∧
      trim entry.2.name.toList = entry.2.name.toList ∧
      elementName? entry.2.name.toList = none ∧
      ofSimpleName entry.2.name.toList = entry.2 := by decide +kernel
  intro entry member
  obtain ⟨given, trimmed, unmarked, same⟩ := plain entry member
  exact .of_simple given trimmed unmarked same

theorem settled_ofSimpleName {name : List Char} (given : name ≠ []) (trimmed : trim name = name)
    (unmarked : elementName? name = none) : Settled (ofSimpleName name) := by
  unfold ofSimpleName
  split
  · rename_i type found
    obtain ⟨before, after, listed, -⟩ := List.lookup_eq_some_iff.mp found
    have member : (String.ofList (name.map lower), type) ∈ byName := by
      rw [listed]
      exact List.mem_append_right _ List.mem_cons_self
    exact settled_of_mem_byName _ member
  · rename_i missing
    have same : (other (String.ofList name)).name.toList = name := String.toList_ofList
    refine .of_simple (by rwa [same]) (by rwa [same]) (by rwa [same]) ?_
    rw [same, ofSimpleName, missing]

theorem Settled.array {element : ColumnType} (settled : Settled element) :
    Settled (.array element) := by
  obtain ⟨⟨c, rest, written, nonblank⟩, reads⟩ := settled
  have name : (ColumnType.array element).name.toList = element.name.toList ++ arrayMark := by
    rw [ColumnType.name, String.toList_append]
    rfl
  constructor
  · exact ⟨c, rest ++ arrayMark, by rw [name, written, List.cons_append], nonblank⟩
  · have marked : trim (element.name.toList ++ arrayMark ++ []) =
        element.name.toList.dropWhile Text.isBlank ++ arrayMark := trim_marked nofun
    have kept : element.name.toList.dropWhile Text.isBlank = element.name.toList := by
      rw [written, List.dropWhile_cons_of_neg (by simp [nonblank])]
    rw [List.append_nil, kept] at marked
    rw [name, ofChars_array marked, reads]
    rfl

theorem settled_of_ofChars {text : List Char} {type : ColumnType} (read : ofChars text = .ok type) :
    Settled type := by
  induction text using ofChars_induction generalizing type with
  | blank text blank =>
      rw [ofChars_blank blank] at read
      contradiction
  | array text element marked ih =>
      rw [ofChars_array marked] at read
      cases inner : ofChars element with
      | error input =>
          rw [inner] at read
          contradiction
      | ok elementType =>
          rw [inner] at read
          cases read
          exact (ih inner).array
  | simple text given unmarked =>
      rw [ofChars_simple given unmarked] at read
      cases read
      exact settled_ofSimpleName given (trim_trim text) unmarked

/-- Reading a text comes to an outcome, with this many array marks taken off on the way. -/
inductive Reads : Nat → List Char → Except (List Char) ColumnType → Prop
  | blank {text : List Char} (blank : AllBlank text) : Reads 0 text (.error text)
  | array {levels : Nat} {text element : List Char} {outcome : Except (List Char) ColumnType}
      (marked : trim text = element ++ arrayMark) (reads : Reads levels element outcome) :
      Reads (levels + 1) text (outcome.map .array)
  | simple {text : List Char} (given : trim text ≠ []) (unmarked : elementName? (trim text) = none) :
      Reads 0 text (.ok (ofSimpleName (trim text)))

/-- Each array mark takes two characters off the text, so reading comes to an end. -/
theorem exists_reads (text : List Char) :
    ∃ levels, 2 * levels ≤ text.length ∧ Reads levels text (ofChars text) := by
  induction text using ofChars_induction with
  | blank text blank =>
      rw [ofChars_blank blank]
      exact ⟨0, Nat.zero_le _, .blank blank⟩
  | array text element marked ih =>
      obtain ⟨levels, bounded, reads⟩ := ih
      have shorter := length_marked marked
      rw [ofChars_array marked]
      exact ⟨levels + 1, by omega, .array marked reads⟩
  | simple text given unmarked =>
      rw [ofChars_simple given unmarked]
      exact ⟨0, Nat.zero_le _, .simple given unmarked⟩

theorem ofName_eq_ok {text : String} {type : ColumnType} :
    ofName text = .ok type ↔ ofChars text.toList = .ok type := by
  unfold ofName
  cases ofChars text.toList with
  | ok found => simp
  | error input => simp

/-- The name of a type that was read is read as that type again.  A text is refused just if
    nothing is left of it without the array marks at its end and the blanks.  And to read a text
    takes no more than one level for every two characters of it. -/
theorem type_name_settles (text : String) :
    (∀ type, ofName text = .ok type → ofName type.name = .ok type) ∧
    ((∃ error, ofName text = .error error) ↔ Unnamed text.toList) ∧
    ∃ levels, 2 * levels ≤ text.length ∧ Reads levels text.toList (ofChars text.toList) := by
  refine ⟨fun type read => ?_, ?_, exists_reads text.toList⟩
  · exact ofName_eq_ok.mpr (settled_of_ofChars (ofName_eq_ok.mp read)).reads
  · rw [← isOk_eq_false_iff, ofName]
    cases ofChars text.toList with
    | ok type => simp [Except.isOk, Except.toBool]
    | error input => simp [Except.isOk, Except.toBool]

/-- Blanks, capitals and spellings do not count, and a text may be refused below array marks. -/
theorem type_name_settles_spelled :
    ofName " Double Precision [] []\t" = .ok (.array (.array .float8)) ∧
    ofName "float8[][]" = .ok (.array (.array .float8)) ∧
    Unnamed " [] []\t".toList ∧
    ∃ error, ofName " [] []\t" = .error error := by
  have read := toOption_eq_some.mp (by decide +kernel :
    (ofName " Double Precision [] []\t").toOption = some (.array (.array .float8)))
  have space : AllBlank [' '] := by decide
  have tab : AllBlank ['\t'] := by decide
  have unnamed : Unnamed " [] []\t".toList := .array (.array (.blank space) space) tab
  refine ⟨read, ?_, unnamed, (type_name_settles " [] []\t").2.1.mpr unnamed⟩
  exact (type_name_settles " Double Precision [] []\t").1 _ read

end PathQuery.ColumnType
