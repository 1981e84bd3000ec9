import PathQuery.Filter.Template
import PathQuery.Proofs.Text.Trimmed

namespace PathQuery.Template

/-! # Templates in pieces

A template that is put together from texts without braces and from placeholders comes to the
texts and the values, one after the other.  No placeholder takes a brace of the one next to it,
and what is put in is not looked at again.
-/

/-- A name as it stands in a template, with blanks on both sides of it and two or three braces
    around. -/
structure Placeholder where
  isTriple : Bool
  before : List Char
  name : List Char
  after : List Char
  blankBefore : Text.AllBlank before
  named : name ≠ []
  plainName : ∀ c ∈ name, c ≠ '{' ∧ c ≠ '}' ∧ Text.isBlank c = false
  blankAfter : Text.AllBlank after

/-- What a template is put together from. -/
inductive Piece where
  | literal (text : List Char) (plain : ∀ c ∈ text, c ≠ '{' ∧ c ≠ '}')
  | placeholder (placeholder : Placeholder)

namespace Placeholder

def width (placeholder : Placeholder) : Nat := if placeholder.isTriple then 3 else 2

def text (placeholder : Placeholder) : List Char :=
  List.replicate placeholder.width '{' ++ placeholder.before ++ placeholder.name ++
    placeholder.after ++ List.replicate placeholder.width '}'

end Placeholder

/-- What a row puts in for a name: nothing for a column that is missing or null, a string as it
    is, and any other value as JSON text. -/
def filling (row : Row) (name : String) : String :=
  match row.lookup name with
  | none => ""
  | some .null => ""
  | some (.string text) => text
  | some other => other.text

namespace Piece

def text : Piece → List Char
  | .literal text _ => text
  | .placeholder written => written.text

def filled (row : Row) : Piece → List Char
  | .literal text _ => text
  | .placeholder written => (filling row (String.ofList written.name)).toList

end Piece

theorem value_eq_filling (row : Row) (name : String) : value row name = filling row name := by
  unfold value filling
  cases row.lookup name with
  | none => rfl
  | some value => cases value <;> rfl

theorem opening?_braces (isTriple : Bool) {inside : List Char} (ends : inside.head? ≠ some '{') :
    opening? (List.replicate (if isTriple then 3 else 2) '{' ++ inside) = some inside := by
  cases isTriple with
  | true => rfl
  | false =>
      cases inside with
      | nil => rfl
      | cons c inside =>
          have other : c ≠ '{' := fun same => ends (congrArg some same)
          simp [opening?, other]

theorem closing?_braces (isTriple : Bool) {rest : List Char} (ends : rest.head? ≠ some '}') :
    closing? (List.replicate (if isTriple then 3 else 2) '}' ++ rest) = some rest := by
  cases isTriple with
  | true => rfl
  | false =>
      cases rest with
      | nil => rfl
      | cons c rest =>
          have other : c ≠ '}' := fun same => ends (congrArg some same)
          simp [closing?, other]

namespace Placeholder

variable (placeholder : Placeholder)

theorem text_opens : ∃ later, placeholder.text = '{' :: later := by
  unfold text width
  cases placeholder.isTriple with
  | true => exact ⟨_, rfl⟩
  | false => exact ⟨_, rfl⟩

/-- The name begins where the blanks after the opening braces end. -/
theorem dropWhile_before (rest : List Char) :
    (placeholder.before ++ (placeholder.name ++ rest)).dropWhile Text.isBlank =
      placeholder.name ++ rest := by
  obtain ⟨c, later, isName⟩ := List.exists_cons_of_ne_nil placeholder.named
  have plain := placeholder.plainName c (isName ▸ List.mem_cons_self)
  refine Text.dropWhile_run placeholder.blankBefore fun first isFirst => ?_
  rw [isName] at isFirst
  cases isFirst
  exact plain.2.2

theorem head_inside (rest : List Char) :
    (placeholder.before ++ (placeholder.name ++ rest)).head? ≠ some '{' := by
  intro opens
  cases isBefore : placeholder.before with
  | nil =>
      obtain ⟨c, later, isName⟩ := List.exists_cons_of_ne_nil placeholder.named
      rw [isBefore, isName] at opens
      exact (placeholder.plainName c (isName ▸ List.mem_cons_self)).1 (Option.some.inj opens)
  | cons c later =>
      have blank := placeholder.blankBefore c (isBefore ▸ List.mem_cons_self)
      rw [isBefore] at opens
      rw [Option.some.inj opens] at blank
      exact absurd blank (by decide)

theorem isNameChar_name : ∀ c ∈ placeholder.name, isNameChar c = true := by
  intro c member
  obtain ⟨noOpening, noClosing, noBlank⟩ := placeholder.plainName c member
  simp [isNameChar, noOpening, noClosing, noBlank]

/-- The name goes on to the blanks or the braces that close. -/
theorem span_name (rest : List Char) :
    (placeholder.name ++ (placeholder.after ++ '}' :: rest)).takeWhile isNameChar =
        placeholder.name ∧
      (placeholder.name ++ (placeholder.after ++ '}' :: rest)).dropWhile isNameChar =
        placeholder.after ++ '}' :: rest := by
  have stops : ∀ c ∈ (placeholder.after ++ '}' :: rest).head?, isNameChar c = false := by
    intro c first
    cases isAfter : placeholder.after with
    | nil =>
        rw [isAfter] at first
        cases first
        decide
    | cons blank later =>
        have isBlank := placeholder.blankAfter blank (isAfter ▸ List.mem_cons_self)
        rw [isAfter] at first
        cases first
        rw [isNameChar, isBlank, Bool.not_true, Bool.and_false]
  exact ⟨Text.takeWhile_run placeholder.isNameChar_name stops,
    Text.dropWhile_run placeholder.isNameChar_name stops⟩

/-- A placeholder is read to its last brace, if no further one follows. -/
theorem read_text {rest : List Char} (ends : rest.head? ≠ some '}') :
    placeholder? (placeholder.text ++ rest) = some (placeholder.name, rest) := by
  obtain ⟨closes, braces⟩ : ∃ closes,
      List.replicate placeholder.width '}' ++ rest = '}' :: closes := by
    unfold width
    cases placeholder.isTriple with
    | true => exact ⟨_, rfl⟩
    | false => exact ⟨_, rfl⟩
  obtain ⟨isName, afterName⟩ := placeholder.span_name closes
  have nonblank : ∀ c ∈ ('}' :: closes).head?, Text.isBlank c = false := by
    intro c first
    cases first
    decide
  have closed : closing? ((placeholder.after ++ '}' :: closes).dropWhile Text.isBlank) =
      some rest := by
    rw [Text.dropWhile_run placeholder.blankAfter nonblank, ← braces]
    exact closing?_braces placeholder.isTriple ends
  have whole : placeholder.text ++ rest = List.replicate placeholder.width '{' ++
      (placeholder.before ++ (placeholder.name ++ (placeholder.after ++ '}' :: closes))) := by
    rw [← braces]
    simp only [text, List.append_assoc]
  have opened : opening? (placeholder.text ++ rest) =
      some (placeholder.before ++ (placeholder.name ++ (placeholder.after ++ '}' :: closes))) := by
    rw [whole]
    exact opening?_braces placeholder.isTriple (placeholder.head_inside _)
  rw [placeholder?, opened]
  simp only [placeholder.dropWhile_before, isName, afterName, closed]
  obtain ⟨c, later, same⟩ := List.exists_cons_of_ne_nil placeholder.named
  rw [same]
  rfl

end Placeholder

variable (row : Row)

theorem substitute_literal {text : List Char} (plain : ∀ c ∈ text, c ≠ '{' ∧ c ≠ '}')
    (rest : List Char) : substitute row (text ++ rest) = text ++ substitute row rest := by
  induction text with
  | nil => rfl
  | cons c text ih =>
      have noOpening := (plain c List.mem_cons_self).1
      have closed : placeholder? (c :: (text ++ rest)) = none := by
        simp [placeholder?, opening?, noOpening]
      rw [List.cons_append, substitute]
      split
      · rename_i found
        rw [closed] at found
        contradiction
      · rw [ih fun c member => plain c (List.mem_cons_of_mem _ member), List.cons_append]

theorem substitute_placeholder (placeholder : Placeholder) {rest : List Char}
    (ends : rest.head? ≠ some '}') :
    substitute row (placeholder.text ++ rest) =
      (filling row (String.ofList placeholder.name)).toList ++ substitute row rest := by
  have read := placeholder.read_text ends
  obtain ⟨later, opens⟩ := placeholder.text_opens
  rw [opens, List.cons_append] at read ⊢
  rw [substitute]
  split
  · rename_i found
    rw [read] at found
    cases found
    rw [value_eq_filling]
  · rename_i notFound
    rw [read] at notFound
    contradiction

/-- No piece begins with a brace that closes. -/
theorem head_pieces (pieces : List Piece) : (pieces.flatMap Piece.text).head? ≠ some '}' := by
  induction pieces with
  | nil => simp
  | cons piece pieces ih =>
      rw [List.flatMap_cons]
      cases piece with
      | literal text plain =>
          cases text with
          | nil => exact ih
          | cons c text =>
              intro closes
              exact (plain c List.mem_cons_self).2 (Option.some.inj closes)
      | placeholder written =>
          obtain ⟨later, opens⟩ := written.text_opens
          rw [Piece.text, opens]
          simp

/-- A template made of pieces is expanded to what its pieces come to.  A value stands in the
    result as it is, with the braces that may be in it. -/
theorem pieces_expanded (pieces : List Piece) :
    braces (String.ofList (pieces.flatMap Piece.text)) row =
      String.ofList (pieces.flatMap (Piece.filled row)) := by
  rw [braces, String.toList_ofList]
  congr 1
  induction pieces with
  | nil => rw [List.flatMap_nil, substitute, List.flatMap_nil]
  | cons piece pieces ih =>
      rw [List.flatMap_cons, List.flatMap_cons, ← ih]
      cases piece with
      | literal text plain => exact substitute_literal row plain _
      | placeholder written => exact substitute_placeholder row written (head_pieces pieces)

namespace Sample

/-- A number, a truth value, a string that is a placeholder, and no value at all. -/
def values : Row :=
  [("n", .number (.integer (-12))), ("b", .bool true), ("t", .string "\x7b\x7bn\x7d\x7d"),
    ("no", .null)]

theorem plainName_of_all {name : List Char} (all : name.all isNameChar = true) :
    ∀ c ∈ name, c ≠ '{' ∧ c ≠ '}' ∧ Text.isBlank c = false := by
  simpa [isNameChar, and_assoc] using all

def tab : List Char := ['\t', ' ']

def pieces : List Piece := [
  .literal ['n', '='] (by simp),
  .placeholder ⟨false, tab, ['n'], ['\u00a0'], by decide, by simp, plainName_of_all rfl, by decide⟩,
  .placeholder ⟨true, [], ['b'], [], by decide, by simp, plainName_of_all rfl, by decide⟩,
  .placeholder ⟨false, [], ['t'], tab, by decide, by simp, plainName_of_all rfl, by decide⟩,
  .placeholder ⟨true, tab, ['n', 'o'], tab, by decide, by simp, plainName_of_all rfl, by decide⟩,
  .placeholder ⟨false, [], ['z'], [], by decide, by simp, plainName_of_all rfl, by decide⟩,
  .literal ['!'] (by simp)]

def template : String :=
  "n=\x7b\x7b\t n\u00a0\x7d\x7d\x7b\x7b\x7bb\x7d\x7d\x7d\x7b\x7bt\t \x7d\x7d" ++
    "\x7b\x7b\x7b\t no\t \x7d\x7d\x7d\x7b\x7bz\x7d\x7d!"

end Sample

/-- The placeholder that is put in stays one. -/
theorem pieces_expanded_values :
    braces Sample.template Sample.values = "n=-12true\x7b\x7bn\x7d\x7d!" := by
  have written : Sample.template = String.ofList (Sample.pieces.flatMap Piece.text) := by
    decide +kernel
  have filled : String.ofList (Sample.pieces.flatMap (Piece.filled Sample.values)) =
      "n=-12true\x7b\x7bn\x7d\x7d!" := by
    decide +kernel
  rw [written, pieces_expanded, filled]

end PathQuery.Template
