import PathQuery.Json.Text
import PathQuery.Text.Basic

namespace PathQuery

/-- A row of a table, from column names to values. -/
abbrev Row := Json.Fields

namespace Template

/-! # Templates

The operand of a filter is a template: text with placeholders that name columns of
a row.  A placeholder is a name between two or three opening and two or three
closing braces, with any blanks around the name.  What is put in for it is not
looked at again.
-/

/-- A way to expand a template against a row. -/
abbrev Engine := String → Row → String

def isNameChar (c : Char) : Bool := c != '{' && c != '}' && !Text.isBlank c

/-- The text after two opening braces, or three if there are three. -/
def opening? : List Char → Option (List Char)
  | '{' :: '{' :: '{' :: rest => some rest
  | '{' :: '{' :: rest => some rest
  | _ => none

/-- The text after two closing braces, or three if there are three. -/
def closing? : List Char → Option (List Char)
  | '}' :: '}' :: '}' :: rest => some rest
  | '}' :: '}' :: rest => some rest
  | _ => none

/-- The name in the placeholder that a text opens with, and the text after it. -/
def placeholder? (text : List Char) : Option (List Char × List Char) :=
  match opening? text with
  | none => none
  | some inside =>
    let inside := inside.dropWhile Text.isBlank
    match inside.takeWhile isNameChar with
    | [] => none
    | name =>
      (closing? ((inside.dropWhile isNameChar).dropWhile Text.isBlank)).map fun rest =>
        (name, rest)

theorem length_opening? {text rest : List Char} (opened : opening? text = some rest) :
    rest.length < text.length := by
  unfold opening? at opened
  split at opened
  · cases opened; simp only [List.length_cons]; omega
  · cases opened; simp only [List.length_cons]; omega
  · contradiction

theorem length_closing? {text rest : List Char} (closed : closing? text = some rest) :
    rest.length < text.length := by
  unfold closing? at closed
  split at closed
  · cases closed; simp only [List.length_cons]; omega
  · cases closed; simp only [List.length_cons]; omega
  · contradiction

/-- A placeholder takes characters off the text. -/
theorem length_placeholder? {text name rest : List Char}
    (found : placeholder? text = some (name, rest)) : rest.length < text.length := by
  unfold placeholder? at found
  cases opened : opening? text with
  | none => simp [opened] at found
  | some inside =>
    simp only [opened] at found
    split at found
    · simp at found
    · obtain ⟨rest', closed, same⟩ := Option.map_eq_some_iff.mp found
      obtain ⟨-, rfl⟩ := Prod.mk.inj same
      have shorter := length_closing? closed
      have blanks := Text.length_dropWhile_le Text.isBlank
        ((inside.dropWhile Text.isBlank).dropWhile isNameChar)
      have named := Text.length_dropWhile_le isNameChar (inside.dropWhile Text.isBlank)
      have lead := Text.length_dropWhile_le Text.isBlank inside
      have first := length_opening? opened
      omega

def value (row : Row) (name : String) : String :=
  match row.lookup name with
  | none => ""
  | some .null => ""
  | some value => value.plainText

/-- Put in the values for the placeholders of a text, from left to right. -/
def substitute (row : Row) (text : List Char) : List Char :=
  match text with
  | [] => []
  | c :: rest =>
    match _found : placeholder? (c :: rest) with
    | some (name, after) => (value row (String.ofList name)).toList ++ substitute row after
    | none => c :: substitute row rest
termination_by text.length
decreasing_by
  · exact length_placeholder? _found
  · simp

/-- Expansion of placeholders in braces. -/
def braces : Engine := fun template row => String.ofList (substitute row template.toList)

end Template

end PathQuery
