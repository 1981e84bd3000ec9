import PathQuery.Text.Basic

namespace PathQuery.Text

/-! # Trimmed texts

A text is trimmed if no blank stands at either end of it.  Trimming a text gives the one
trimmed text that makes it up with nothing but blanks around.
-/

def AllBlank (text : List Char) : Prop := ∀ c ∈ text, isBlank c = true

instance (text : List Char) : Decidable (AllBlank text) :=
  List.decidableBAll (fun c => isBlank c = true) text

structure Trimmed (text : List Char) : Prop where
  first : ∀ c ∈ text.head?, isBlank c = false
  last : ∀ c ∈ text.getLast?, isBlank c = false

theorem AllBlank.append {left right : List Char} (inLeft : AllBlank left)
    (inRight : AllBlank right) : AllBlank (left ++ right) :=
  List.forall_mem_append.mpr ⟨inLeft, inRight⟩

theorem AllBlank.reverse {text : List Char} (blank : AllBlank text) : AllBlank text.reverse :=
  fun c member => blank c (List.mem_reverse.mp member)

theorem allBlank_takeWhile (text : List Char) : AllBlank (text.takeWhile isBlank) :=
  List.all_eq_true.mp List.all_takeWhile

/-- The first character that is left once the blanks are taken off is not a blank. -/
theorem head?_dropWhile (text : List Char) : ∀ c ∈ (text.dropWhile isBlank).head?,
    isBlank c = false := by
  intro c first
  have nonblank := List.head?_dropWhile_not isBlank text
  rw [Option.mem_def.mp first] at nonblank
  simpa using nonblank

theorem dropWhile_eq_self {p : Char → Bool} {text : List Char}
    (stops : ∀ c ∈ text.head?, p c = false) : text.dropWhile p = text := by
  cases text with
  | nil => rfl
  | cons c rest => rw [List.dropWhile_cons_of_neg (by simp [stops c rfl])]

/-- A run goes on to the first character that is not of its kind. -/
theorem takeWhile_run {p : Char → Bool} {run rest : List Char} (each : ∀ c ∈ run, p c = true)
    (stops : ∀ c ∈ rest.head?, p c = false) : (run ++ rest).takeWhile p = run := by
  rw [List.takeWhile_append_of_pos each]
  cases rest with
  | nil => rw [List.takeWhile_nil, List.append_nil]
  | cons c rest => rw [List.takeWhile_cons_of_neg (by simp [stops c rfl]), List.append_nil]

theorem dropWhile_run {p : Char → Bool} {run rest : List Char} (each : ∀ c ∈ run, p c = true)
    (stops : ∀ c ∈ rest.head?, p c = false) : (run ++ rest).dropWhile p = rest := by
  rw [List.dropWhile_append_of_pos each, dropWhile_eq_self stops]

/-- Blanks around a trimmed text are what is trimmed. -/
theorem trim_around {before text after : List Char} (blankBefore : AllBlank before)
    (trimmed : Trimmed text) (blankAfter : AllBlank after) :
    trim (before ++ text ++ after) = text := by
  rw [trim, List.append_assoc, List.dropWhile_append_of_pos blankBefore]
  cases text with
  | nil =>
      have nothing : (after ++ []).dropWhile isBlank = [] :=
        List.dropWhile_append_of_pos blankAfter
      rw [List.append_nil] at nothing
      rw [List.nil_append, nothing]
      rfl
  | cons c rest =>
      have starts : ((c :: rest) ++ after).dropWhile isBlank = (c :: rest) ++ after :=
        dropWhile_eq_self fun other first => trimmed.first other first
      have ends : (c :: rest).reverse.dropWhile isBlank = (c :: rest).reverse :=
        dropWhile_eq_self fun other last => trimmed.last other (by rwa [List.head?_reverse] at last)
      rw [starts, List.reverse_append, List.dropWhile_append_of_pos blankAfter.reverse, ends,
        List.reverse_reverse]

theorem trim_eq_self {text : List Char} (trimmed : Trimmed text) : trim text = text := by
  have same : trim ([] ++ text ++ []) = text := trim_around nofun trimmed nofun
  rwa [List.nil_append, List.append_nil] at same

/-- What trimming takes off are blanks. -/
theorem trim_eq (text : List Char) : Trimmed (trim text) ∧
    ∃ before after, AllBlank before ∧ AllBlank after ∧ text = before ++ trim text ++ after := by
  have starts := List.takeWhile_append_dropWhile (p := isBlank) (l := text)
  have ends := congrArg List.reverse
    (List.takeWhile_append_dropWhile (p := isBlank) (l := (text.dropWhile isBlank).reverse))
  rw [List.reverse_append, List.reverse_reverse] at ends
  have split : text.dropWhile isBlank =
      trim text ++ ((text.dropWhile isBlank).reverse.takeWhile isBlank).reverse := ends.symm
  refine ⟨⟨fun c first => ?_, fun c last => ?_⟩, text.takeWhile isBlank,
    ((text.dropWhile isBlank).reverse.takeWhile isBlank).reverse, allBlank_takeWhile text,
    (allBlank_takeWhile _).reverse, ?_⟩
  · refine head?_dropWhile text c ?_
    rw [split, List.head?_append, Option.mem_def.mp first]
    rfl
  · refine head?_dropWhile (text.dropWhile isBlank).reverse c ?_
    rwa [trim, List.getLast?_reverse] at last
  · rw [List.append_assoc, ← split, starts]

theorem trim_eq_nil_iff {text : List Char} : trim text = [] ↔ AllBlank text := by
  constructor
  · intro nothing
    obtain ⟨-, before, after, blankBefore, blankAfter, same⟩ := trim_eq text
    rw [nothing, List.append_nil] at same
    rw [same]
    exact blankBefore.append blankAfter
  · intro blank
    have same : trim (text ++ [] ++ []) = [] := trim_around blank ⟨nofun, nofun⟩ nofun
    rwa [List.append_nil, List.append_nil] at same

theorem trim_trim (text : List Char) : trim (trim text) = trim text := trim_eq_self (trim_eq text).1

end PathQuery.Text
