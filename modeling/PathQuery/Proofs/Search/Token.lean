import PathQuery.Proofs.Text.Separated
import PathQuery.Search.Pattern

namespace PathQuery

/-! # The tokens of a search term

The double quotes of a term cut it into segments, which are by turns outside and inside of
quotes.  The tokens are the segments inside that have any text, and then the words of those
outside.  So nothing but quotes and blanks is lost, and each token is found again if all of
them are put in quotes.
-/

namespace Text

/-- A text that consists of words and blanks.  A word is a run of characters that are not
    blank, and it is followed by a blank or by nothing. -/
inductive Worded : List Char → List (List Char) → Prop
  | nil : Worded [] []
  | blank {c : Char} {rest : List Char} {words : List (List Char)} (blank : isBlank c = true)
      (later : Worded rest words) : Worded (c :: rest) words
  | word {word rest : List Char} {words : List (List Char)} (nonempty : word ≠ [])
      (solid : ∀ c ∈ word, isBlank c = false) (ends : ∀ c ∈ rest.head?, isBlank c = true)
      (later : Worded rest words) : Worded (word ++ rest) (word :: words)

theorem exists_worded (text : List Char) : ∃ words, Worded text words := by
  induction text with
  | nil => exact ⟨[], .nil⟩
  | cons c rest ih =>
      obtain ⟨words, later⟩ := ih
      cases blank : isBlank c with
      | true => exact ⟨words, .blank blank later⟩
      | false =>
          have alone : ∀ c' ∈ [c], isBlank c' = false := List.forall_mem_singleton.mpr blank
          cases later with
          | nil => exact ⟨[[c]], .word (List.cons_ne_nil c []) alone nofun .nil⟩
          | blank next later =>
              refine ⟨[c] :: words, .word (List.cons_ne_nil c []) alone ?_ (.blank next later)⟩
              exact fun c' isHead => Option.some.inj isHead ▸ next
          | @word word rest words nonempty solid ends later =>
              -- The character comes before the first word and belongs to it.
              exact ⟨(c :: word) :: words,
                .word (List.cons_ne_nil c word) (List.forall_mem_cons.mpr ⟨blank, solid⟩) ends later⟩

theorem words_append_blank {c : Char} (blank : isBlank c = true) (left right : List Char) :
    words (left ++ c :: right) = words left ++ words right := by
  rw [words, List.splitOnP_append_cons left right blank, List.filter_append]
  rfl

theorem words_cons_blank {c : Char} (blank : isBlank c = true) (rest : List Char) :
    words (c :: rest) = words rest :=
  words_append_blank blank [] rest

theorem words_of_solid {word : List Char} (nonempty : word ≠ [])
    (solid : ∀ c ∈ word, isBlank c = false) : words word = [word] := by
  rw [words, List.splitOnP_eq_singleton solid]
  simpa using nonempty

theorem Worded.words_eq {text : List Char} {found : List (List Char)}
    (worded : Worded text found) : words text = found := by
  induction worded with
  | nil => rfl
  | blank blank _ ih => rw [words_cons_blank blank, ih]
  | @word word rest words nonempty solid ends later ih =>
      cases rest with
      | nil => rw [List.append_nil, words_of_solid nonempty solid, ← ih]; rfl
      | cons c rest =>
          have blank := ends c rfl
          rw [words_append_blank blank, words_of_solid nonempty solid, ← ih, words_cons_blank blank]
          rfl

/-- The words of a text are the only ones that it consists of. -/
theorem words_eq_iff {text : List Char} {found : List (List Char)} :
    words text = found ↔ Worded text found := by
  refine ⟨?_, Worded.words_eq⟩
  rintro rfl
  obtain ⟨found, worded⟩ := exists_worded text
  rwa [worded.words_eq]

theorem mem_words {text word : List Char} (member : word ∈ words text) :
    word ≠ [] ∧ ∀ c ∈ word, c ∈ text := by
  obtain ⟨isPiece, nonempty⟩ := List.mem_filter.mp member
  exact ⟨by simpa using nonempty, fun c inWord => (of_mem_splitOnP isPiece c inWord).1⟩

end Text

namespace Search

/-- The first item of a list and every second one after it. -/
def everyOther : List α → List α
  | [] => []
  | [item] => [item]
  | item :: _ :: later => item :: everyOther later

theorem everyOther_cons (item : α) (later : List α) :
    everyOther (item :: later) = item :: everyOther later.tail := by
  cases later <;> rfl

theorem everyOther_sublist (items : List α) : (everyOther items).Sublist items := by
  fun_induction everyOther items with
  | case1 => exact .slnil
  | case2 item => exact .refl _
  | case3 item skipped later ih => exact .cons_cons item (.cons skipped ih)

/-- What stands between the double quotes of a text. -/
def segments (text : List Char) : List (List Char) := text.splitOn '"'

/-- A text with a blank in place of each segment in quotes. -/
def blanked : List (List Char) → List Char
  | [] => []
  | [segment] => segment
  | segment :: _ :: later => segment ++ ' ' :: blanked later

theorem words_blanked (cut : List (List Char)) :
    Text.words (blanked cut) = (everyOther cut).flatMap Text.words := by
  fun_induction everyOther cut with
  | case1 => rfl
  | case2 segment => rw [blanked, List.flatMap_singleton]
  | case3 segment phrase later ih =>
      rw [blanked, Text.words_append_blank (by decide), ih, List.flatMap_cons]

/-- What is cut out of a text are its segments in quotes.  If a phrase is open already, its text
    goes on with the first segment. -/
theorem cutPhrases_segments {text first : List Char} {later : List (List Char)}
    (cut : segments text = first :: later) :
    cutPhrases none text = (everyOther later, blanked (first :: later)) ∧
    ∀ phrase, cutPhrases (some phrase) text =
      ((phrase.reverse ++ first) :: everyOther later.tail, ' ' :: blanked later) := by
  induction text generalizing first later with
  | nil =>
      cases cut
      exact ⟨rfl, fun phrase => by rw [cutPhrases, List.reverse_nil, List.append_nil]; rfl⟩
  | cons c rest ih =>
      obtain ⟨next, others, cut'⟩ := List.exists_cons_of_ne_nil (List.splitOn_ne_nil '"' rest)
      obtain ⟨outside, inside⟩ := ih cut'
      rw [segments, List.splitOn_cons_eq_if_modifyHead, cut'] at cut
      by_cases quote : c = '"'
      · rw [if_pos (beq_iff_eq.mpr quote)] at cut
        cases cut
        refine ⟨?_, fun phrase => ?_⟩
        · rw [cutPhrases, if_pos quote, inside, everyOther_cons]
          rfl
        · rw [cutPhrases, if_pos quote, outside, List.append_nil]
          rfl
      · rw [if_neg (by simpa using quote), List.modifyHead_cons] at cut
        cases cut
        refine ⟨?_, fun phrase => ?_⟩
        · rw [cutPhrases, if_neg quote, outside]
          cases later <;> rfl
        · rw [cutPhrases, if_neg quote, inside]
          simp

/-- The phrases of a text that is cut into segments, and then its words. -/
def tokensOf (cut : List (List Char)) : List (List Char) :=
  (everyOther cut.tail).filter (fun phrase => !phrase.isEmpty) ++
    (everyOther cut).flatMap Text.words

theorem tokens_eq (term : String) :
    tokens term = (tokensOf (segments term.toList)).map String.ofList := by
  obtain ⟨first, later, cut⟩ := List.exists_cons_of_ne_nil (List.splitOn_ne_nil '"' term.toList)
  rw [tokens, (cutPhrases_segments cut).1]
  dsimp only
  rw [words_blanked, tokensOf, segments, cut, List.tail_cons]

theorem mem_tokensOf {text token : List Char} (member : token ∈ tokensOf (segments text)) :
    token ≠ [] ∧ '"' ∉ token := by
  have unquoted : ∀ segment ∈ segments text, '"' ∉ segment :=
    fun _ => Text.not_mem_of_mem_splitOn
  rw [tokensOf, List.mem_append] at member
  obtain isPhrase | isWord := member
  · obtain ⟨isSegment, nonempty⟩ := List.mem_filter.mp isPhrase
    exact ⟨by simpa using nonempty, unquoted token
      (List.mem_of_mem_tail ((everyOther_sublist _).mem isSegment))⟩
  · obtain ⟨segment, isSegment, isWord⟩ := List.mem_flatMap.mp isWord
    obtain ⟨nonempty, within⟩ := Text.mem_words isWord
    exact ⟨nonempty, fun quoted =>
      unquoted segment ((everyOther_sublist _).mem isSegment) (within _ quoted)⟩

def quoted (token : String) : String := "\"" ++ token ++ "\""

theorem segments_quoted {before phrase : List Char} (outside : '"' ∉ before)
    (inside : '"' ∉ phrase) (rest : List Char) :
    segments (before ++ '"' :: (phrase ++ '"' :: rest)) = before :: phrase :: segments rest := by
  rw [segments, List.splitOn_append_cons_self_of_not_mem outside,
    List.splitOn_append_cons_self_of_not_mem inside]
  rfl

/-- The phrases, each in quotes, with blanks between them. -/
def laterPhrases (phrases : List (List Char)) : List Char :=
  phrases.flatMap fun phrase => ' ' :: '"' :: (phrase ++ ['"'])

theorem segments_laterPhrases {phrases : List (List Char)}
    (unquoted : ∀ phrase ∈ phrases, '"' ∉ phrase) :
    everyOther (segments (laterPhrases phrases)).tail = phrases ∧
      (everyOther (segments (laterPhrases phrases))).flatMap Text.words = [] := by
  induction phrases with
  | nil => exact ⟨rfl, rfl⟩
  | cons phrase later ih =>
      obtain ⟨inside, others⟩ := List.forall_mem_cons.mp unquoted
      obtain ⟨phrases, words⟩ := ih others
      have cut : segments (laterPhrases (phrase :: later)) =
          [' '] :: phrase :: segments (laterPhrases later) := by
        rw [← segments_quoted (by decide) inside]
        simp [laterPhrases]
      refine ⟨?_, ?_⟩
      · rw [cut, List.tail_cons, everyOther_cons, phrases]
      · rw [cut, everyOther_cons, List.tail_cons, List.flatMap_cons, words]
        rfl

theorem tokens_quoted {phrases : List String}
    (each : ∀ phrase ∈ phrases, phrase ≠ "" ∧ '"' ∉ phrase.toList) :
    tokens (" ".intercalate (phrases.map quoted)) = phrases := by
  cases phrases with
  | nil => rfl
  | cons first later =>
      obtain ⟨⟨nonempty, inside⟩, others⟩ := List.forall_mem_cons.mp each
      have unquoted : ∀ phrase ∈ later.map String.toList, '"' ∉ phrase :=
        List.forall_mem_map.mpr fun phrase member => (others phrase member).2
      have text : (" ".intercalate ((first :: later).map quoted)).toList =
          [] ++ '"' :: (first.toList ++ '"' :: laterPhrases (later.map String.toList)) := by
        rw [String.toList_intercalate, show (" " : String).toList = [' '] from rfl, List.map_cons,
          List.map_cons, Text.intercalate_cons_eq]
        simp [quoted, laterPhrases, List.flatMap_map]
      have present : ∀ phrase ∈ first.toList :: later.map String.toList,
          (!phrase.isEmpty) = true := by
        rw [← List.map_cons (f := String.toList), List.forall_mem_map]
        intro phrase member
        simpa using (each phrase member).1
      obtain ⟨phrases, words⟩ := segments_laterPhrases unquoted
      rw [tokens_eq, text, segments_quoted List.not_mem_nil inside, tokensOf, List.tail_cons,
        everyOther_cons, phrases, everyOther_cons, List.tail_cons, List.flatMap_cons, words,
        List.filter_eq_self.mpr present]
      simp [Text.words]

/-- The tokens of a term are its phrases with some text, which are the segments with odd numbers,
    and then the words of the segments with even ones, with nothing but blanks between them.
    None is empty or has a quote in it, and they are the tokens again if each of them is put
    in quotes. -/
theorem tokens_of_segments (term : String) :
    tokens term =
      ((everyOther (segments term.toList).tail).filter (fun phrase => !phrase.isEmpty) ++
        (everyOther (segments term.toList)).flatMap Text.words).map String.ofList ∧
    (∀ segment ∈ everyOther (segments term.toList), Text.Worded segment (Text.words segment)) ∧
    (∀ token ∈ tokens term, token ≠ "" ∧ '"' ∉ token.toList) ∧
    tokens (" ".intercalate ((tokens term).map quoted)) = tokens term := by
  have each : ∀ token ∈ tokens term, token ≠ "" ∧ '"' ∉ token.toList := by
    rw [tokens_eq, List.forall_mem_map]
    intro token member
    obtain ⟨nonempty, unquoted⟩ := mem_tokensOf member
    rw [String.toList_ofList]
    exact ⟨fun empty => nonempty (String.ofList_eq_empty_iff.mp empty), unquoted⟩
  exact ⟨tokens_eq term, fun segment _ => Text.words_eq_iff.mp rfl, each, tokens_quoted each⟩

/-- A phrase that goes on to the end of the term comes before the words around the one before. -/
example : tokens "one\"two three\"\"\"four \u00a0 five\" six" =
    ["two three", " six", "one", "four", "five"] := by
  decide

end Search

end PathQuery
