import PathQuery.Search.Pattern

namespace PathQuery.Search

/-! # Regular expressions

How a search pattern is read as a regular expression, and what it finds in a text.  Of the
characters `. * + ? ( ) [ ] { } ^ $ |` and the backslash none stands for itself, unless a
backslash comes before it; after a backslash any character does that is neither a letter nor
a digit.  Expressions that need more than this are not read at all: repetitions with counts,
classes with names, and sets of characters with a backslash or a bracket in them.
-/

/-- The characters in one of some ranges, or those in none of them. -/
structure CharSet where
  negated : Bool
  ranges : List (Char × Char)
  deriving DecidableEq

namespace CharSet

def contains (set : CharSet) (c : Char) : Bool :=
  set.negated ^^ set.ranges.any fun range => range.1 ≤ c && c ≤ range.2

def all : CharSet := ⟨true, []⟩

def single (c : Char) : CharSet := ⟨false, [(c, c)]⟩

end CharSet

inductive Regex where
  | never
  | empty
  | start
  | finish
  | one (set : CharSet)
  | append (first second : Regex)
  | either (left right : Regex)
  | star (repeated : Regex)
  deriving DecidableEq

namespace Regex

/-- The middle one of three texts is read by reading some parts of it one after the other, each
    where it stands. -/
inductive Repeats (reads : (before text after : List Char) → Prop) :
    (before text after : List Char) → Prop
  | nil {before after : List Char} : Repeats reads before [] after
  | cons {before text more after : List Char} (first : reads before text (more ++ after))
      (rest : Repeats reads (before ++ text) more after) :
      Repeats reads before (text ++ more) after

/-- The expression reads the middle one of three texts where it stands between the others. -/
def Reads : Regex → (before text after : List Char) → Prop
  | never, _, _, _ => False
  | empty, _, text, _ => text = []
  | start, before, text, _ => before = [] ∧ text = []
  | finish, _, text, after => text = [] ∧ after = []
  | one set, _, text, _ => ∃ c, set.contains c = true ∧ text = [c]
  | append first second, before, text, after => ∃ head tail, text = head ++ tail ∧
      first.Reads before head (tail ++ after) ∧ second.Reads (before ++ head) tail after
  | either left right, before, text, after =>
      left.Reads before text after ∨ right.Reads before text after
  | star repeated, before, text, after => Repeats repeated.Reads before text after

/-- The expression reads some part of the text. -/
def FindsIn (regex : Regex) (text : List Char) : Prop :=
  ∃ before found after, text = before ++ found ++ after ∧ regex.Reads before found after

/-- One expression after the other. -/
def sequence (parts : List Regex) : Regex := parts.foldr append empty

/-- One of some sequences. -/
def alternatives (branches : List (List Regex)) : Regex :=
  branches.foldr (fun branch others => either (sequence branch) others) never

/-- What the next character counts as. -/
inductive Mode where
  | plain
  | escaped
  /-- The first one of a set. -/
  | opened
  | member (negated : Bool) (ranges : List (Char × Char))
  /-- The end of a range of a set. -/
  | range (negated : Bool) (ranges : List (Char × Char)) (low : Char)
  deriving DecidableEq

/-- What has been read of a group: the alternatives before the one at hand, and its parts. -/
structure Group where
  branches : List (List Regex)
  parts : List Regex
  deriving DecidableEq

namespace Group

def nothing : Group := ⟨[], []⟩

def push (part : Regex) (group : Group) : Group :=
  { group with parts := group.parts ++ [part] }

def nextBranch (group : Group) : Group := ⟨group.branches ++ [group.parts], []⟩

/-- The group with its last part repeated in some way. -/
def repeatLast? (repeated : Regex → Regex) (group : Group) : Option Group :=
  group.parts.getLast?.map fun last =>
    { group with parts := group.parts.dropLast ++ [repeated last] }

def close (group : Group) : Regex := alternatives (group.branches ++ [group.parts])

end Group

/-- What has been read of an expression: the group at hand, and the groups around it, from the
    innermost one on. -/
structure Reader where
  mode : Mode
  group : Group
  outer : List Group
  deriving DecidableEq

namespace Reader

def start : Reader := ⟨.plain, .nothing, []⟩

def push (part : Regex) (reader : Reader) : Reader :=
  { reader with mode := .plain, group := reader.group.push part }

def stepPlain (reader : Reader) (c : Char) : Option Reader :=
  match c with
  | '\\' => some { reader with mode := .escaped }
  | '[' => some { reader with mode := .opened }
  | '(' => some ⟨.plain, .nothing, reader.group :: reader.outer⟩
  | ')' =>
    match reader.outer with
    | [] => none
    | group :: outer => some ⟨.plain, group.push reader.group.close, outer⟩
  | '|' => some { reader with group := reader.group.nextBranch }
  | '*' => (reader.group.repeatLast? star).map ({ reader with group := · })
  | '+' =>
    (reader.group.repeatLast? fun last => append last (star last)).map ({ reader with group := · })
  | '?' => (reader.group.repeatLast? fun last => either last empty).map ({ reader with group := · })
  | '.' => some (reader.push (one .all))
  | '^' => some (reader.push .start)
  | '$' => some (reader.push .finish)
  | ']' | '{' | '}' => none
  | c => some (reader.push (one (.single c)))

def stepMember (negated : Bool) (ranges : List (Char × Char)) (reader : Reader) (c : Char) :
    Option Reader :=
  match c, ranges with
  | ']', _ :: _ => some (reader.push (one ⟨negated, ranges⟩))
  | '-', (low, high) :: others =>
    if low = high then some { reader with mode := .range negated others low } else none
  | '\\', _ | '[', _ | ']', _ | '-', _ => none
  | c, _ => some { reader with mode := .member negated ((c, c) :: ranges) }

def step (reader : Reader) (c : Char) : Option Reader :=
  match reader.mode with
  | .plain => reader.stepPlain c
  | .escaped => if c.isAlphanum then none else some (reader.push (one (.single c)))
  | .opened =>
    if c = '^' then some { reader with mode := .member true [] } else reader.stepMember false [] c
  | .member negated ranges => reader.stepMember negated ranges c
  | .range negated ranges low =>
    if c ∈ ['\\', '[', ']', '-'] ∨ c < low then none
    else some { reader with mode := .member negated ((low, c) :: ranges) }

/-- The expression that was read, if nothing of it is open. -/
def finish? (reader : Reader) : Option Regex :=
  match reader.mode, reader.outer with
  | .plain, [] => some reader.group.close
  | _, _ => none

end Reader

def ofText? (text : String) : Option Regex :=
  text.toList.foldlM Reader.step Reader.start >>= Reader.finish?

end Regex

/-- The pattern is a regular expression that reads some part of the text. -/
def Finds (pattern text : String) : Prop :=
  ∃ regex, Regex.ofText? pattern = some regex ∧ regex.FindsIn text.toList

namespace CharSet

theorem contains_single {c d : Char} : (single c).contains d = true ↔ d = c := by
  simp only [contains, single, List.any_cons, List.any_nil, Bool.or_false,
    Bool.false_xor, Bool.and_eq_true, decide_eq_true_eq]
  constructor
  · rintro ⟨low, high⟩
    exact Char.le_antisymm high low
  · rintro rfl
    exact ⟨Char.le_refl d, Char.le_refl d⟩

/-- The characters from `0` to `9`. -/
def digits : CharSet := ⟨false, [('0', '9')]⟩

theorem contains_digits (c : Char) : digits.contains c = c.isDigit := by
  rw [contains, digits, Bool.false_xor, List.any_cons, List.any_nil, Bool.or_false]
  rfl

end CharSet

namespace Regex

theorem reads_star_one {set : CharSet} {before text after : List Char} :
    (star (one set)).Reads before text after ↔ ∀ c ∈ text, set.contains c = true := by
  constructor
  · intro repeats
    change Repeats (one set).Reads before text after at repeats
    induction repeats with
    | nil => nofun
    | cons first _ ih =>
        obtain ⟨c, isMember, rfl⟩ := first
        exact List.forall_mem_cons.mpr ⟨isMember, ih⟩
  · intro each
    change Repeats (one set).Reads before text after
    induction text generalizing before with
    | nil => exact .nil
    | cons c rest ih =>
        obtain ⟨isMember, others⟩ := List.forall_mem_cons.mp each
        exact .cons ⟨c, isMember, rfl⟩ (ih others)

theorem reads_plus_one {set : CharSet} {before text after : List Char} :
    (append (one set) (star (one set))).Reads before text after ↔
      text ≠ [] ∧ ∀ c ∈ text, set.contains c = true := by
  constructor
  · rintro ⟨_, rest, rfl, ⟨c, isMember, rfl⟩, repeats⟩
    exact ⟨nofun, List.forall_mem_cons.mpr ⟨isMember, reads_star_one.mp repeats⟩⟩
  · rintro ⟨nonempty, each⟩
    obtain ⟨c, rest, rfl⟩ := List.exists_cons_of_ne_nil nonempty
    obtain ⟨isMember, others⟩ := List.forall_mem_cons.mp each
    exact ⟨[c], rest, rfl, ⟨c, isMember, rfl⟩, reads_star_one.mpr others⟩

theorem reads_sequence_append {first second : List Regex} {before text after : List Char} :
    (sequence (first ++ second)).Reads before text after ↔ ∃ head tail, text = head ++ tail ∧
      (sequence first).Reads before head (tail ++ after) ∧
      (sequence second).Reads (before ++ head) tail after := by
  induction first generalizing before text with
  | nil =>
      constructor
      · intro reads
        exact ⟨[], text, rfl, rfl, by rwa [List.append_nil]⟩
      · rintro ⟨head, tail, rfl, rfl, reads⟩
        rwa [List.append_nil] at reads
  | cons part parts ih =>
      constructor
      · rintro ⟨head, tail, rfl, reads, others⟩
        obtain ⟨middle, tail, rfl, readsMiddle, readsTail⟩ := ih.mp others
        refine ⟨head ++ middle, tail, (List.append_assoc ..).symm,
          ⟨head, middle, rfl, ?_, readsMiddle⟩, ?_⟩
        · rwa [List.append_assoc] at reads
        · rwa [List.append_assoc] at readsTail
      · rintro ⟨_, tail, rfl, ⟨head, middle, rfl, reads, readsMiddle⟩, readsTail⟩
        refine ⟨head, middle ++ tail, List.append_assoc .., ?_,
          ih.mpr ⟨middle, tail, rfl, readsMiddle, ?_⟩⟩
        · rwa [List.append_assoc]
        · rwa [List.append_assoc]

theorem reads_sequence_singleton {part : Regex} {before text after : List Char} :
    (sequence [part]).Reads before text after ↔ part.Reads before text after := by
  constructor
  · rintro ⟨head, _, rfl, reads, rfl⟩
    rwa [List.append_nil]
  · intro reads
    exact ⟨text, [], (List.append_nil text).symm, reads, rfl⟩

theorem reads_sequence_one {set : CharSet} {parts : List Regex} {before text after : List Char} :
    (sequence (one set :: parts)).Reads before text after ↔ ∃ c tail, text = c :: tail ∧
      set.contains c = true ∧ (sequence parts).Reads (before ++ [c]) tail after := by
  constructor
  · rintro ⟨_, tail, rfl, ⟨c, isMember, rfl⟩, reads⟩
    exact ⟨c, tail, rfl, isMember, reads⟩
  · rintro ⟨c, tail, rfl, isMember, reads⟩
    exact ⟨[c], tail, rfl, ⟨c, isMember, rfl⟩, reads⟩

theorem reads_sequence_start {parts : List Regex} {before text after : List Char} :
    (sequence (start :: parts)).Reads before text after ↔
      before = [] ∧ (sequence parts).Reads [] text after := by
  constructor
  · rintro ⟨_, _, rfl, ⟨rfl, rfl⟩, reads⟩
    exact ⟨rfl, reads⟩
  · rintro ⟨rfl, reads⟩
    exact ⟨[], text, rfl, ⟨rfl, rfl⟩, reads⟩

theorem reads_sequence_finish {part : Regex} {before text after : List Char} :
    (sequence [part, finish]).Reads before text after ↔
      after = [] ∧ part.Reads before text [] := by
  constructor
  · rintro ⟨head, _, rfl, reads, _, _, rfl, ⟨rfl, ends⟩, rfl⟩
    obtain rfl : after = [] := ends
    exact ⟨rfl, by simpa using reads⟩
  · rintro ⟨rfl, reads⟩
    exact ⟨text, [], (List.append_nil text).symm, reads, [], [], rfl, ⟨rfl, rfl⟩, rfl⟩

theorem reads_alternatives {branches : List (List Regex)} {before text after : List Char} :
    (alternatives branches).Reads before text after ↔
      ∃ branch ∈ branches, (sequence branch).Reads before text after := by
  induction branches with
  | nil => exact iff_of_false id (by simp)
  | cons branch others ih =>
      simp only [List.mem_cons, exists_eq_or_imp, ← ih]
      rfl

theorem reads_alternatives_singleton {branch : List Regex} {before text after : List Char} :
    (alternatives [branch]).Reads before text after ↔
      (sequence branch).Reads before text after := by
  simp [reads_alternatives]

/-- The expression for a character that stands for itself. -/
def literal (c : Char) : Regex := one (.single c)

theorem reads_literals {characters before text after : List Char} :
    (sequence (characters.map literal)).Reads before text after ↔ text = characters := by
  induction characters generalizing before text with
  | nil => exact Iff.rfl
  | cons c rest ih =>
      rw [List.map_cons, literal, reads_sequence_one]
      constructor
      · rintro ⟨d, tail, rfl, isMember, reads⟩
        rw [CharSet.contains_single.mp isMember, ih.mp reads]
      · rintro rfl
        exact ⟨c, rest, rfl, CharSet.contains_single.mpr rfl, ih.mpr rfl⟩

end Regex

end PathQuery.Search
