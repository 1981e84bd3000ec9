import PathQuery.Proofs.Search.Pattern

namespace PathQuery.Search

/-! # What numbers are found

The pattern of an integer finds it where it stands as a number of its own: neither a digit nor
a point comes before it, but for zeros, and no digit after it.  So it is found in a list of
numbers just if it is one of them.
-/

open Regex

namespace CharSet

def nonDigits : CharSet := ⟨true, [('0', '9')]⟩

def nonNumeric : CharSet := ⟨true, [('.', '.'), ('0', '9')]⟩

theorem contains_nonDigits {c : Char} : nonDigits.contains c = true ↔ c.isDigit = false := by
  rw [← contains_digits, contains, contains, nonDigits, digits, Bool.true_xor, Bool.false_xor,
    Bool.not_eq_true']

theorem contains_nonNumeric {c : Char} :
    nonNumeric.contains c = true ↔ c.isDigit = false ∧ c ≠ '.' := by
  have point : nonNumeric.contains c = !((single '.').contains c || digits.contains c) := by
    simp [contains, nonNumeric, single, digits]
  rw [point, contains_digits, Bool.not_eq_true', Bool.or_eq_false_iff, and_comm, ne_eq,
    ← contains_single, Bool.not_eq_true]

end CharSet

/-- The expression for what may stand before a number, before its zeros. -/
def beforeNumber : Regex :=
  .either (alternatives [[.star (.one .all), .one .nonNumeric]]) .empty

/-- The expression for what may stand after an integer. -/
def afterInteger : Regex := alternatives [[.one .nonDigits, .star (.one .all)], [.finish]]

/-- The expression for an integer. -/
def integer (digits : List Char) : Regex :=
  alternatives [.start :: ([beforeNumber] ++ ([.star (literal '0')] ++
    (digits.map literal ++ [afterInteger])))]

theorem read_numberStart : numberStart.toList.foldlM Reader.step .start =
    some ⟨.plain, ⟨[], [.start, beforeNumber, .star (literal '0')]⟩, []⟩ := by
  decide

theorem read_integerEnd (parts : List Regex) :
    integerEnd.toList.foldlM Reader.step ⟨.plain, ⟨[], parts⟩, []⟩ =
      some ⟨.plain, ⟨[], parts ++ [afterInteger]⟩, []⟩ := rfl

theorem isInteger_iff {digits : List Char} :
    isInteger digits = true ↔ digits ≠ [] ∧ ∀ c ∈ digits, c.isDigit = true := by
  simp [isInteger]

theorem ofText?_integer {digits : List Char} (isNumber : isInteger digits = true) :
    ofText? (pattern (String.ofList digits)) = some (integer digits) := by
  have noBar : '|' ∉ digits :=
    fun member => absurd ((isInteger_iff.mp isNumber).2 '|' member) (by decide)
  rw [ofText?, pattern, String.toList_ofList, if_pos isNumber, String.toList_append,
    String.toList_append, String.toList_ofList, read_append, read_append,
    read_numberStart, Option.bind_some, read_escape noBar, Option.bind_some, read_integerEnd]
  rfl

/-- The last character before a number, if there is one, does not belong to a number. -/
def NumberMayStart (lead : List Char) : Prop := ∀ c ∈ lead.getLast?, c.isDigit = false ∧ c ≠ '.'

def IntegerMayEnd (rest : List Char) : Prop := ∀ c ∈ rest.head?, c.isDigit = false

theorem reads_any {before text after : List Char} : (star (one .all)).Reads before text after :=
  reads_star_one.mpr fun _ _ => rfl

theorem reads_beforeNumber {before text after : List Char} :
    beforeNumber.Reads before text after ↔ NumberMayStart text := by
  change (alternatives [[.star (.one .all)] ++ [.one .nonNumeric]]).Reads before text after ∨
    text = [] ↔ _
  simp only [reads_alternatives_singleton, reads_sequence_append, reads_sequence_singleton]
  constructor
  · rintro (⟨lead, _, rfl, -, c, apart, rfl⟩ | rfl)
    · intro last isLast
      obtain rfl : c = last := by simpa using isLast
      exact CharSet.contains_nonNumeric.mp apart
    · nofun
  · intro apart
    obtain rfl | ⟨lead, c, rfl⟩ := List.eq_nil_or_concat' text
    · exact .inr rfl
    · have last := CharSet.contains_nonNumeric.mpr (apart c (by simp))
      exact .inl ⟨lead, [c], rfl, reads_any, c, last, rfl⟩

theorem reads_afterInteger {before text after : List Char} :
    afterInteger.Reads before text after ↔ IntegerMayEnd text ∧ (text = [] → after = []) := by
  simp only [afterInteger, reads_alternatives, List.mem_cons, List.not_mem_nil, or_false,
    exists_eq_or_imp, exists_eq_left, reads_sequence_one, reads_sequence_singleton,
    CharSet.contains_nonDigits]
  constructor
  · rintro (⟨c, rest, rfl, apart, -⟩ | ⟨rfl, rfl⟩)
    · refine ⟨fun first isFirst => ?_, nofun⟩
      obtain rfl := Option.some.inj isFirst
      exact apart
    · exact ⟨nofun, fun _ => rfl⟩
  · rintro ⟨apart, ends⟩
    cases text with
    | nil => exact .inr ⟨rfl, ends rfl⟩
    | cons c rest => exact .inl ⟨c, rest, rfl, apart c rfl, reads_any⟩

theorem reads_zeros {before text after : List Char} :
    (star (literal '0')).Reads before text after ↔ ∀ c ∈ text, c = '0' := by
  rw [literal, reads_star_one]
  simp only [CharSet.contains_single]

/-- An integer is found as a whole number, with any zeros before it. -/
theorem integer_findsIn {digits text : List Char} :
    (integer digits).FindsIn text ↔ ∃ lead zeros rest, text = lead ++ (zeros ++ digits) ++ rest ∧
      NumberMayStart lead ∧ (∀ c ∈ zeros, c = '0') ∧ IntegerMayEnd rest := by
  simp only [FindsIn, integer, reads_alternatives_singleton, reads_sequence_start,
    reads_sequence_append, reads_sequence_singleton, reads_beforeNumber, reads_zeros,
    reads_literals, reads_afterInteger]
  constructor
  · rintro ⟨_, _, after, rfl, rfl, lead, _, rfl, mayStart, zeros, _, rfl, areZeros, _, rest, rfl,
      rfl, mayEnd, ends⟩
    refine ⟨lead, zeros, rest ++ after, by simp, mayStart, areZeros, ?_⟩
    cases rest with
    | nil => rwa [ends rfl]
    | cons c rest => exact mayEnd
  · rintro ⟨lead, zeros, rest, rfl, mayStart, areZeros, mayEnd⟩
    exact ⟨[], lead ++ (zeros ++ (digits ++ rest)), [], by simp, rfl, lead, _, rfl, mayStart, zeros,
      _, rfl, areZeros, digits, rest, rfl, rfl, mayEnd, fun _ => rfl⟩

/-- Where all words are numbers, an integer is found if one of them is it, after some zeros. -/
theorem integer_findsIn_words {digits : List Char} (isNumber : isInteger digits = true)
    {words : List (List Char)} (numbers : ∀ word ∈ words, ∀ c ∈ word, c.isDigit = true) :
    (integer digits).FindsIn ([' '].intercalate words) ↔
      ∃ count, List.replicate count '0' ++ digits ∈ words := by
  obtain ⟨nonempty, areDigits⟩ := isInteger_iff.mp isNumber
  rw [integer_findsIn]
  constructor
  · rintro ⟨lead, zeros, rest, text, mayStart, areZeros, mayEnd⟩
    have blank : ∀ c ∈ lead ++ (zeros ++ digits) ++ rest, c.isDigit = false → c = ' ' := by
      intro c member apart
      rw [← text] at member
      obtain separates | ⟨word, listed, inWord⟩ := Text.mem_intercalate member
      · exact List.mem_singleton.mp separates
      · rw [numbers word listed c inWord] at apart
        contradiction
    have whole : ' ' ∉ zeros ++ digits := by
      intro member
      obtain inZeros | inDigits := List.mem_append.mp member
      · exact absurd (areZeros ' ' inZeros) (by decide)
      · exact absurd (areDigits ' ' inDigits) (by decide)
    have isWord := Text.mem_splitOn_around whole
      (fun c last => blank c (by simp [List.mem_of_mem_getLast? last]) (mayStart c last).1)
      (fun c first => blank c (by simp [List.mem_of_mem_head? first]) (mayEnd c first))
    have given : words ≠ [] := by
      rintro rfl
      simp only [List.intercalate_nil] at text
      simp_all
    rw [← text, List.splitOn_intercalate ' ' (fun word listed member => ?_) given] at isWord
    · rw [List.eq_replicate_of_mem areZeros] at isWord
      exact ⟨zeros.length, isWord⟩
    · exact absurd (numbers word listed ' ' member) (by decide)
  · rintro ⟨count, member⟩
    obtain ⟨before, after, rfl⟩ := List.append_of_mem member
    refine ⟨_, _, _, Text.intercalate_around ' ' before after _, ?_,
      fun c => List.eq_of_mem_replicate, ?_⟩
    · obtain rfl | ⟨before, word, rfl⟩ := List.eq_nil_or_concat' before
      · nofun
      · intro c last
        obtain rfl : ' ' = c := by simpa using last
        decide
    · cases after with
      | nil => nofun
      | cons word after =>
          intro c first
          obtain rfl : ' ' = c := by simpa using first
          decide

theorem value_padded (count number : Nat) :
    Nat.ofDigitChars 10 (List.replicate count '0' ++ Nat.toDigits 10 number) 0 = number := by
  rw [Nat.ofDigitChars_append, Nat.ofDigitChars_replicate_zero, Nat.mul_zero,
    Nat.ofDigitChars_ten_toDigits]

theorem toList_toString (number : Nat) : (toString number).toList = Nat.toDigits 10 number := by
  rw [Nat.toString_eq_ofList_toDigits, String.toList_ofList]

theorem isDigit_toDigits {number : Nat} : ∀ c ∈ Nat.toDigits 10 number, c.isDigit = true :=
  fun _ => Nat.isDigit_of_mem_toDigits (by decide) (by decide)

theorem isInteger_toDigits (number : Nat) : isInteger (Nat.toDigits 10 number) = true := by
  rw [isInteger, List.all_eq_true.mpr isDigit_toDigits]
  simp [Nat.toDigits_ne_nil]

def zeros (count : Nat) : String := String.ofList (List.replicate count '0')

/-- A number with some zeros before it. -/
def padded (entry : Nat × Nat) : String := zeros entry.1 ++ toString entry.2

theorem toList_padded (entry : Nat × Nat) :
    (padded entry).toList = List.replicate entry.1 '0' ++ Nat.toDigits 10 entry.2 := by
  rw [padded, zeros, String.toList_append, String.toList_ofList, toList_toString]

theorem padded_zero (numbers : List Nat) :
    (numbers.map fun number => padded (0, number)) = numbers.map toString :=
  List.map_congr_left fun number _ => by
    rw [← String.toList_inj, toList_padded, toList_toString]
    rfl

theorem isDigit_padded (entry : Nat × Nat) : ∀ c ∈ (padded entry).toList, c.isDigit = true := by
  rw [toList_padded, List.forall_mem_append]
  refine ⟨fun c isZero => ?_, isDigit_toDigits⟩
  rw [List.eq_of_mem_replicate isZero]
  rfl

/-- What is written with blanks between it. -/
def spaced (texts : List String) : String := " ".intercalate texts

theorem toList_spaced (texts : List String) :
    (spaced texts).toList = [' '].intercalate (texts.map String.toList) := by
  rw [spaced, String.toList_intercalate]
  rfl

/-- A number is found among others, whatever zeros they have before them, if it is one of them. -/
theorem integer_findsIn_padded (number : Nat) (entries : List (Nat × Nat)) :
    (integer (Nat.toDigits 10 number)).FindsIn (spaced (entries.map padded)).toList ↔
      number ∈ entries.map Prod.snd := by
  have isNumber : ∀ word ∈ (entries.map padded).map String.toList, ∀ c ∈ word, c.isDigit = true :=
    List.forall_mem_map.mpr (List.forall_mem_map.mpr fun entry _ => isDigit_padded entry)
  rw [toList_spaced, integer_findsIn_words (isInteger_toDigits number) isNumber, List.map_map]
  constructor
  · rintro ⟨count, member⟩
    obtain ⟨entry, listed, same⟩ := List.mem_map.mp member
    rw [Function.comp_apply, toList_padded] at same
    have value := congrArg (Nat.ofDigitChars 10 · 0) same
    simp only [value_padded] at value
    exact List.mem_map.mpr ⟨entry, listed, value⟩
  · intro member
    obtain ⟨⟨count, number⟩, listed, rfl⟩ := List.mem_map.mp member
    exact ⟨count, List.mem_map.mpr ⟨_, listed, toList_padded _⟩⟩

/-- The pattern of a number is found in a list of numbers just if it is one of them, also where
    zeros are put before it or before the others. -/
theorem number_found (number : Nat) : ∃ regex, ofText? (pattern (toString number)) = some regex ∧
    (∀ numbers : List Nat,
      regex.FindsIn (spaced (numbers.map toString)).toList ↔ number ∈ numbers) ∧
    ∀ entries : List (Nat × Nat),
      regex.FindsIn (spaced (entries.map padded)).toList ↔ number ∈ entries.map Prod.snd := by
  refine ⟨integer (Nat.toDigits 10 number), ?_, fun numbers => ?_,
    integer_findsIn_padded number⟩
  · rw [Nat.toString_eq_ofList_toDigits]
    exact ofText?_integer (isInteger_toDigits number)
  · have finds := integer_findsIn_padded number (numbers.map (0, ·))
    rw [List.map_map, List.map_map] at finds
    rw [← padded_zero]
    simpa [Function.comp_def] using finds

end PathQuery.Search
