import PathQuery.Proofs.Search.Regex
import PathQuery.Proofs.Text.Separated

namespace PathQuery.Search

/-! # What is searched for as it is written

The pattern of a token that is no number finds just the texts with the token in them.  Only the
bar keeps its meaning: the pattern of a token with bars finds the texts with one of the pieces
between them.
-/

open Regex

theorem isAlphanum_of_isSpecial {c : Char} (special : isSpecial c = true) :
    c.isAlphanum = false := by
  have each : "-[]/\x7b\x7d()*+?.\\^$".toList.all (fun c => !c.isAlphanum) = true := by decide
  simpa using List.all_eq_true.mp each c (List.contains_iff_mem.mp special)

/-- A character that is not special stands for itself, but for the bar. -/
theorem stepPlain_of_not_isSpecial {c : Char} (plain : isSpecial c = false) (noBar : c ≠ '|')
    (reader : Reader) : reader.stepPlain c = some (reader.push (literal c)) := by
  have apart :
      c ∉ ['-', '[', ']', '/', '{', '}', '(', ')', '*', '+', '?', '.', '\\', '^', '$'] := by
    simpa [isSpecial] using plain
  unfold Reader.stepPlain
  split
  all_goals first
    | exact absurd (by decide) apart
    | exact absurd rfl noBar
    | rfl

theorem read_escape {text : List Char} (noBar : '|' ∉ text) (branches : List (List Regex))
    (parts : List Regex) (outer : List Group) :
    (escape text).foldlM Reader.step ⟨.plain, ⟨branches, parts⟩, outer⟩ =
      some ⟨.plain, ⟨branches, parts ++ text.map literal⟩, outer⟩ := by
  induction text generalizing parts with
  | nil => simp [escape]
  | cons c rest ih =>
      rw [List.mem_cons, not_or] at noBar
      have first : (if isSpecial c then ['\\', c] else [c]).foldlM Reader.step
          ⟨.plain, ⟨branches, parts⟩, outer⟩ =
            some ⟨.plain, ⟨branches, parts ++ [literal c]⟩, outer⟩ := by
        cases special : isSpecial c with
        | true =>
            have escaped := isAlphanum_of_isSpecial special
            simp [Reader.step, Reader.stepPlain, escaped]
            rfl
        | false =>
            simp [Reader.step, stepPlain_of_not_isSpecial special (Ne.symm noBar.1)]
            rfl
      rw [escape, List.flatMap_cons, List.foldlM_append, first, Option.bind_eq_bind,
        Option.bind_some, ← escape, ih noBar.2]
      simp

theorem escape_append (left right : List Char) :
    escape (left ++ right) = escape left ++ escape right :=
  List.flatMap_append

theorem read_append (left right : List Char) (reader : Reader) :
    (left ++ right).foldlM Reader.step reader =
      (left.foldlM Reader.step reader).bind (right.foldlM Reader.step) :=
  List.foldlM_append

/-- A bar between two pieces ends an alternative. -/
theorem read_pieces {first : List Char} {later : List (List Char)}
    (noBar : ∀ piece ∈ first :: later, '|' ∉ piece) (branches : List (List Regex))
    (parts : List Regex) :
    ((escape (['|'].intercalate (first :: later))).foldlM Reader.step
        ⟨.plain, ⟨branches, parts⟩, []⟩).bind Reader.finish? =
      some (alternatives
        (branches ++ (parts ++ first.map literal) :: later.map (List.map literal))) := by
  induction later generalizing first branches parts with
  | nil =>
      rw [List.intercalate_singleton, read_escape (noBar first List.mem_cons_self)]
      rfl
  | cons second later ih =>
      obtain ⟨inFirst, inLater⟩ := List.forall_mem_cons.mp noBar
      have bar : (escape ['|']).foldlM Reader.step
          ⟨.plain, ⟨branches, parts ++ first.map literal⟩, []⟩ =
            some ⟨.plain, ⟨branches ++ [parts ++ first.map literal], []⟩, []⟩ := rfl
      rw [List.intercalate_cons_cons, escape_append, escape_append, read_append, read_append,
        read_escape inFirst, Option.bind_some, bar, Option.bind_some, ih inLater]
      simp

/-- The alternatives in an escaped text are its pieces between bars. -/
theorem ofText?_escape (text : List Char) : ofText? (String.ofList (escape text)) =
    some (alternatives ((text.splitOn '|').map (List.map literal))) := by
  obtain ⟨first, later, cut⟩ := List.exists_cons_of_ne_nil (List.splitOn_ne_nil '|' text)
  have noBar : ∀ piece ∈ first :: later, '|' ∉ piece :=
    fun piece member => Text.not_mem_of_mem_splitOn (cut ▸ member)
  have whole : ['|'].intercalate (text.splitOn '|') = text := List.intercalate_splitOn '|'
  have read := read_pieces noBar [] []
  rw [← cut, whole] at read
  rw [ofText?, String.toList_ofList, cut]
  exact read

theorem literals_findsIn {pieces : List (List Char)} {text : List Char} :
    (alternatives (pieces.map (List.map literal))).FindsIn text ↔
      ∃ piece ∈ pieces, piece <:+: text := by
  simp only [FindsIn, reads_alternatives, List.mem_map, exists_exists_and_eq_and, reads_literals]
  constructor
  · rintro ⟨before, piece, after, rfl, _, listed, rfl⟩
    exact ⟨piece, listed, before, after, rfl⟩
  · rintro ⟨piece, listed, before, after, rfl⟩
    exact ⟨before, piece, after, rfl, piece, listed, rfl⟩

/-- How integers look. -/
def integerForm : String := "^[0-9]+$"

/-- How decimals look. -/
def decimalForm : String := "^([0-9]+[.][0-9]*|[0-9]*[.][0-9]+)$"

/-- An expression that reads whole texts. -/
theorem whole_findsIn {part : Regex} {text : List Char} :
    (alternatives [[.start, part, .finish]]).FindsIn text ↔ part.Reads [] text [] := by
  simp only [FindsIn, reads_alternatives_singleton, reads_sequence_start, reads_sequence_finish]
  constructor
  · rintro ⟨_, found, _, rfl, rfl, rfl, reads⟩
    rwa [List.nil_append, List.append_nil]
  · intro reads
    exact ⟨[], text, [], by simp, rfl, rfl, reads⟩

theorem finds_integerForm {token : String} :
    Finds integerForm token ↔ isInteger token.toList = true := by
  have read : ofText? integerForm =
      some (alternatives [[.start, .append (.one .digits) (.star (.one .digits)), .finish]]) := by
    decide
  rw [Finds, read]
  simp only [Option.some.injEq, exists_eq_left', whole_findsIn, reads_plus_one,
    CharSet.contains_digits]
  simp [isInteger]

/-- A decimal is made of digits around one point, with a digit on one of its sides. -/
theorem isDecimal_iff {token : List Char} : isDecimal token = true ↔
    ∃ whole fraction, token = whole ++ '.' :: fraction ∧ (∀ c ∈ whole, c.isDigit = true) ∧
      (∀ c ∈ fraction, c.isDigit = true) ∧ (whole ≠ [] ∨ fraction ≠ []) := by
  unfold isDecimal
  constructor
  · intro decimal
    split at decimal
    · rename_i fraction afterWhole
      rw [Bool.and_eq_true, List.all_eq_true] at decimal
      refine ⟨token.takeWhile Char.isDigit, fraction, ?_, List.all_eq_true.mp List.all_takeWhile,
        decimal.1, ?_⟩
      · rw [← afterWhole, List.takeWhile_append_dropWhile]
      · simpa [Decidable.not_and_iff_or_not] using decimal.2
    · contradiction
  · rintro ⟨whole, fraction, rfl, areDigits, inFraction, present⟩
    have afterWhole : (whole ++ '.' :: fraction).dropWhile Char.isDigit = '.' :: fraction := by
      rw [List.dropWhile_append_of_pos areDigits]
      rfl
    have isWhole : (whole ++ '.' :: fraction).takeWhile Char.isDigit = whole := by
      rw [List.takeWhile_append_of_pos areDigits]
      exact List.append_nil whole
    rw [afterWhole, isWhole]
    change (fraction.all Char.isDigit && !(whole.isEmpty && fraction.isEmpty)) = true
    rw [List.all_eq_true.mpr inFraction, Bool.true_and, Bool.not_eq_true',
      Bool.and_eq_false_iff, List.isEmpty_eq_false_iff, List.isEmpty_eq_false_iff]
    exact present

theorem finds_decimalForm {token : String} :
    Finds decimalForm token ↔ isDecimal token.toList = true := by
  have read : ofText? decimalForm = some (alternatives [[.start, alternatives [
      [.append (.one .digits) (.star (.one .digits))] ++
        .one (.single '.') :: [.star (.one .digits)],
      [.star (.one .digits)] ++
        .one (.single '.') :: [.append (.one .digits) (.star (.one .digits))]],
      .finish]]) := by
    decide
  rw [Finds, read, isDecimal_iff]
  simp only [Option.some.injEq, exists_eq_left', whole_findsIn, reads_alternatives, List.mem_cons,
    List.not_mem_nil, or_false, exists_eq_or_imp, exists_eq_left, reads_sequence_append,
    reads_sequence_one, reads_sequence_singleton, reads_plus_one, reads_star_one,
    CharSet.contains_digits, CharSet.contains_single]
  constructor
  · rintro (⟨whole, _, text, ⟨given, areDigits⟩, _, fraction, rfl, rfl, inFraction⟩ |
      ⟨whole, _, text, areDigits, _, fraction, rfl, rfl, given, inFraction⟩)
    · exact ⟨whole, fraction, text, areDigits, inFraction, .inl given⟩
    · exact ⟨whole, fraction, text, areDigits, inFraction, .inr given⟩
  · rintro ⟨whole, fraction, text, areDigits, inFraction, given | given⟩
    · exact .inl ⟨whole, _, text, ⟨given, areDigits⟩, _, fraction, rfl, rfl, inFraction⟩
    · exact .inr ⟨whole, _, text, areDigits, _, fraction, rfl, rfl, given, inFraction⟩

/-- The pattern of a token that is no number is a regular expression that finds the texts with
    one of the pieces of the token between bars in them.  If it has no bar, these are the texts
    with the token in them. -/
theorem text_found_literally {token : String} (noInteger : ¬Finds integerForm token)
    (noDecimal : ¬Finds decimalForm token) :
    ∃ regex, ofText? (pattern token) = some regex ∧
      (∀ text : String, regex.FindsIn text.toList ↔
        ∃ piece ∈ token.toList.splitOn '|', piece <:+: text.toList) ∧
      ('|' ∉ token.toList → ∀ text : String,
        regex.FindsIn text.toList ↔ token.toList <:+: text.toList) := by
  rw [finds_integerForm] at noInteger
  rw [finds_decimalForm] at noDecimal
  refine ⟨_, ?_, fun text => literals_findsIn, fun noBar text => ?_⟩
  · rw [pattern, if_neg noInteger, if_neg noDecimal]
    exact ofText?_escape token.toList
  · rw [literals_findsIn, List.splitOn_eq_singleton noBar]
    simp

/-- Each other mark than the bar is found as it is written. -/
theorem text_found_literally_marked : ¬Finds integerForm "1.*|^[(\\$" ∧
    ¬Finds decimalForm "1.*|^[(\\$" ∧
    ∃ regex, ofText? (pattern "1.*|^[(\\$") = some regex ∧ regex.FindsIn "21.*3".toList ∧
      regex.FindsIn "a^[(\\$".toList ∧ ¬regex.FindsIn "1.23\\$".toList := by
  have noInteger : ¬Finds integerForm "1.*|^[(\\$" := by
    rw [finds_integerForm]
    decide
  have noDecimal : ¬Finds decimalForm "1.*|^[(\\$" := by
    rw [finds_decimalForm]
    decide
  have cut : "1.*|^[(\\$".toList.splitOn '|' = ["1.*".toList, "^[(\\$".toList] := by
    decide +kernel
  obtain ⟨regex, read, finds, -⟩ := text_found_literally noInteger noDecimal
  rw [cut] at finds
  refine ⟨noInteger, noDecimal, regex, read, ?_, ?_, ?_⟩
  · exact (finds _).mpr ⟨_, List.mem_cons_self, ['2'], ['3'], rfl⟩
  · exact (finds _).mpr ⟨_, List.mem_cons_of_mem _ List.mem_cons_self, ['a'], [], rfl⟩
  · rw [finds]
    decide +kernel

end PathQuery.Search
