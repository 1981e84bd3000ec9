import PathQuery.Proofs.Filter.Meaning
import PathQuery.Proofs.Path.Reading

namespace PathQuery

/-! # Reading a clause

A clause is a list of alternatives with `;` between them, and an alternative is a list of
conditions with `&` between them.  A condition is a comparison, or a clause in parentheses,
which may be negated; separators within parentheses do not count.  A comparison with a
list stands for a comparison with each of its members, of which one has to hold after
`any` and all have to hold after `all`.
-/

namespace Subject

def text : Subject → String
  | wholeRow => "*"
  | column none name => Text.percentEncode name
  | column (some owner) name => owner ++ ":" ++ Text.percentEncode name

/-- The alias in front of a column, if there is one, is a plain word. -/
def Addressable : Subject → Prop
  | column (some owner) _ => Reading.IsWord owner
  | _ => True

end Subject

namespace Reading

inductive Formula where
  | comparison (comparison : Comparison)
  | join (junction : Filter.Junction) (parts : List Formula)
  | not (part : Formula)

namespace Formula

mutual

def holds (truth : Truth) : Formula → Bool
  | comparison single => truth single
  | join junction parts => junction.combine (eachHolds truth parts)
  | not part => !holds truth part

def eachHolds (truth : Truth) : List Formula → List Bool
  | [] => []
  | part :: parts => holds truth part :: eachHolds truth parts

end

theorem eachHolds_eq (truth : Truth) (parts : List Formula) :
    eachHolds truth parts = parts.map (holds truth) := by
  induction parts with
  | nil => rfl
  | cons part parts ih => rw [eachHolds, ih, List.map_cons]

@[simp] theorem holds_comparison (truth : Truth) (single : Comparison) :
    (comparison single).holds truth = truth single := by
  rw [holds]

@[simp] theorem holds_any (truth : Truth) (parts : List Formula) :
    (join .any parts).holds truth = parts.any (holds truth) := by
  rw [holds, eachHolds_eq, Filter.Junction.combine, List.any_map]
  rfl

@[simp] theorem holds_all (truth : Truth) (parts : List Formula) :
    (join .all parts).holds truth = parts.all (holds truth) := by
  rw [holds, eachHolds_eq, Filter.Junction.combine, List.all_map]
  rfl

@[simp] theorem holds_not (truth : Truth) (part : Formula) :
    (not part).holds truth = !part.holds truth := by
  rw [holds]

end Formula

/-- How the operators are spelled, no one after another that it begins with. -/
def spellings : List (String × Filter.Operator) :=
  Filter.Operator.all.map (fun operator => (operator.text, operator)) ++
    [("<=", .atMost), (">=", .atLeast), ("<", .less), (">", .greater)]

def cutOperator (text : List Char) : Option (Filter.Operator × List Char) :=
  spellings.findSome? fun (spelling, operator) =>
    (operator, ·) <$> spelling.toList.isPrefixOf? text

/-- The text that was encoded. -/
def decode? (text : List Char) : Option String :=
  if text.all Text.isEncoded then
    (fun chars => String.ofList chars.toList) <$> (Text.percentBytes text).toByteArray.utf8Decode?
  else none

/-- What stands before an operator: the whole row, a column, or an alias and a column. -/
def readSubject : List Char → Option (Subject × List Char)
  | '*' :: rest => some (.wholeRow, rest)
  | text =>
    let rest := text.dropWhile Text.isEncoded
    if (cutOperator rest).isSome then
      (fun name => (.column none name, rest)) <$> decode? (text.takeWhile Text.isEncoded)
    else
      match text.dropWhile isWordChar with
      | ':' :: rest =>
        (fun name => (.column (some (String.ofList (text.takeWhile isWordChar))) name,
          rest.dropWhile Text.isEncoded)) <$> decode? (rest.takeWhile Text.isEncoded)
      | _ => none

/-- The text before a final parenthesis. -/
def closed? (text : List Char) : Option (List Char) :=
  if text.getLast? = some ')' then some text.dropLast else none

def quantifier : Filter.Junction → String
  | .any => "any"
  | .all => "all"

/-- The members of a list in parentheses, after a word that says how they are joined. -/
def readMembers (junction : Filter.Junction) (text : List Char) : Option (List String) := do
  let members ← closed? (← (quantifier junction ++ "(").toList.isPrefixOf? text)
  (members.splitOn ',').mapM decode?

def readOperand (compare : String → Formula) (text : List Char) : Option Formula :=
  compare <$> decode? text <|>
  (fun members => .join .any (members.map compare)) <$> readMembers .any text <|>
  (fun members => .join .all (members.map compare)) <$> readMembers .all text

def readComparison (text : List Char) : Option Formula := do
  let (subject, rest) ← readSubject text
  let (operator, rest) ← cutOperator rest
  if operator.takesOperand then
    readOperand (fun operand => .comparison ⟨subject, operator, some operand⟩) rest
  else if rest.isEmpty then some (.comparison ⟨subject, operator, none⟩)
  else none

def addToFirst (start : List Char) : List (List Char) → List (List Char)
  | [] => [start]
  | first :: later => (start ++ first) :: later

def depthAfter (depth : Nat) (c : Char) : Nat :=
  if c = '(' then depth + 1 else if c = ')' then depth - 1 else depth

/-- Cut a text at the separators that stand outside all parentheses.  The depth is the
    number of parentheses that are open. -/
def cutOutside (separator : Char) : Nat → List Char → List (List Char)
  | _, [] => [[]]
  | depth, c :: rest =>
    if c = separator ∧ depth = 0 then [] :: cutOutside separator 0 rest
    else addToFirst [c] (cutOutside separator (depthAfter depth c) rest)

def readCondition (inside : List Char → Option Formula) : List Char → Option Formula
  | '!' :: '(' :: rest => do Formula.not <$> inside (← closed? rest)
  | '(' :: rest => do inside (← closed? rest)
  | text => readComparison text

def readAlternative (inside : List Char → Option Formula) (text : List Char) : Option Formula :=
  Formula.join .all <$> (cutOutside '&' 0 text).mapM (readCondition inside)

/-- Read a clause with fewer parentheses in each other than a bound. -/
def readAt : Nat → List Char → Option Formula
  | 0, _ => none
  | bound + 1, text =>
    Formula.join .any <$> (cutOutside ';' 0 text).mapM (readAlternative (readAt bound))

/-- Read a clause.  There cannot be more parentheses in it than characters. -/
def read (text : String) : Option Formula := readAt (text.length + 1) text.toList

theorem addToFirst_ne_nil (start : List Char) (pieces : List (List Char)) :
    addToFirst start pieces ≠ [] := by
  cases pieces <;> simp [addToFirst]

theorem addToFirst_append (start further : List Char) (pieces : List (List Char)) :
    addToFirst (start ++ further) pieces = addToFirst start (addToFirst further pieces) := by
  cases pieces <;> simp [addToFirst]

theorem addToFirst_nil {pieces : List (List Char)} (nonempty : pieces ≠ []) :
    addToFirst [] pieces = pieces := by
  cases pieces with
  | nil => contradiction
  | cons first later => rfl

theorem cutOutside_ne_nil (separator : Char) (depth : Nat) (text : List Char) :
    cutOutside separator depth text ≠ [] := by
  cases text with
  | nil => simp [cutOutside]
  | cons c rest =>
      unfold cutOutside
      split
      · exact List.cons_ne_nil _ _
      · exact addToFirst_ne_nil _ _

/-- The text stays in one piece wherever it stands at this depth, and leaves the depth as
    it was. -/
def Uncut (separator : Char) (depth : Nat) (text : List Char) : Prop :=
  ∀ rest, cutOutside separator depth (text ++ rest) =
    addToFirst text (cutOutside separator depth rest)

namespace Uncut

variable {separator : Char} {depth : Nat}

theorem append {left right : List Char} (first : Uncut separator depth left)
    (second : Uncut separator depth right) : Uncut separator depth (left ++ right) := by
  intro rest
  rw [List.append_assoc, first, second, addToFirst_append]

/-- Nothing in the text separates, opens or closes. -/
theorem of_plain {text : List Char}
    (plain : ∀ c ∈ text, c ≠ separator ∧ c ≠ '(' ∧ c ≠ ')') : Uncut separator depth text := by
  induction text with
  | nil =>
      intro rest
      exact (addToFirst_nil (cutOutside_ne_nil _ _ _)).symm
  | cons c text ih =>
      obtain ⟨noSeparator, noOpening, noClosing⟩ := plain c List.mem_cons_self
      intro rest
      rw [List.cons_append, cutOutside, if_neg fun cut => noSeparator cut.1, depthAfter,
        if_neg noOpening, if_neg noClosing, ih fun c member => plain c (List.mem_cons_of_mem _ member)]
      exact (addToFirst_append [c] text _).symm

/-- In parentheses the separators do not count. -/
theorem grouped {text : List Char} (opening : separator ≠ '(') (closing : separator ≠ ')')
    (inside : Uncut separator (depth + 1) text) :
    Uncut separator depth ('(' :: (text ++ [')'])) := by
  intro rest
  have closes : cutOutside separator (depth + 1) (')' :: rest) =
      addToFirst [')'] (cutOutside separator depth rest) := by
    rw [cutOutside, if_neg fun cut => closing cut.1.symm]
    rfl
  rw [List.cons_append, cutOutside, if_neg fun cut => opening cut.1.symm]
  change addToFirst ['('] (cutOutside separator (depth + 1) (text ++ [')'] ++ rest)) = _
  rw [List.append_assoc, inside, List.singleton_append, closes, ← addToFirst_append,
    ← addToFirst_append]
  rfl

end Uncut

/-- A text is cut into the pieces that it was put together from. -/
theorem cutOutside_intercalate {separator : Char} {pieces : List (List Char)}
    (given : pieces ≠ []) (each : ∀ piece ∈ pieces, Uncut separator 0 piece) :
    cutOutside separator 0 ([separator].intercalate pieces) = pieces := by
  induction pieces with
  | nil => contradiction
  | cons first later ih =>
      have whole := each first List.mem_cons_self
      cases later with
      | nil =>
          rw [List.intercalate_singleton, ← List.append_nil first, whole []]
          simp [cutOutside, addToFirst]
      | cons second later =>
          rw [List.intercalate_cons_cons, List.append_assoc, whole, List.singleton_append,
            cutOutside, if_pos ⟨rfl, rfl⟩,
            ih (List.cons_ne_nil _ _) fun piece member => each piece (List.mem_cons_of_mem _ member)]
          simp [addToFirst]

theorem IsEncoded.all {text : String} (encoded : IsEncoded text) :
    text.toList.all Text.isEncoded = true :=
  List.all_eq_true.mpr encoded

theorem decode?_percentEncode (text : String) :
    decode? (Text.percentEncode text).toList = some text := by
  have bytes : (Text.percentBytes (Text.percentEncode text).toList).toByteArray =
      text.toList.utf8Encode := by
    rw [Text.percentEncode, String.toList_ofList, Text.percentBytes_encode, List.utf8Encode]
  rw [decode?, if_pos (IsEncoded.percentEncode text).all, bytes, List.utf8Decode?_utf8Encode]
  simp

/-- An operator is cut off, unless what follows makes it a longer one. -/
theorem cutOperator_append {spelling : String} {operator : Filter.Operator} {rest : List Char}
    (spelled : (spelling, operator) ∈ spellings) (ends : rest.head? ≠ some '=') :
    cutOperator (spelling.toList ++ rest) = some (operator, rest) := by
  have longer : ['='].isPrefixOf? rest = none := by
    cases rest with
    | nil => rfl
    | cons c rest =>
        have other : c ≠ '=' := fun same => ends (by rw [List.head?_cons, same])
        rw [List.isPrefixOf?, if_neg (by simpa using other.symm)]
  have each : ∀ entry ∈ spellings, cutOperator (entry.1.toList ++ rest) = some (entry.2, rest) := by
    simp [cutOperator, spellings, Filter.Operator.all, Filter.Operator.text, List.isPrefixOf?,
      longer]
  exact each (spelling, operator) spelled

theorem spelling_head {spelling : String} {operator : Filter.Operator}
    (spelled : (spelling, operator) ∈ spellings) :
    ∃ c rest, spelling.toList = c :: rest ∧ Text.isEncoded c = false ∧
      c ≠ '*' ∧ c ≠ '!' ∧ c ≠ '(' := by
  have starts : spellings.all (fun entry => entry.1.toList.head?.any fun c =>
      !Text.isEncoded c && c != '*' && c != '!' && c != '(') = true := by decide
  have start := List.all_eq_true.mp starts _ spelled
  cases written : spelling.toList with
  | nil => simp [written] at start
  | cons c rest => exact ⟨c, rest, rfl, by simpa [written, and_assoc] using start⟩

/-- Neither the whole row nor a parenthesis is mistaken for a column. -/
theorem comparison_head (name : String) {spelling : String} {operator : Filter.Operator}
    (spelled : (spelling, operator) ∈ spellings) (operand : List Char) :
    ∃ c rest, (Text.percentEncode name).toList ++ (spelling.toList ++ operand) = c :: rest ∧
      c ≠ '*' ∧ c ≠ '!' ∧ c ≠ '(' := by
  cases named : (Text.percentEncode name).toList with
  | nil =>
      obtain ⟨c, rest, same, -, others⟩ := spelling_head spelled
      exact ⟨c, rest ++ operand, by rw [same]; rfl, others⟩
  | cons c rest =>
      have encoded : Text.isEncoded c = true :=
        IsEncoded.percentEncode name c (by rw [named]; exact List.mem_cons_self)
      refine ⟨c, _, rfl, ?_⟩
      refine ⟨?_, ?_, ?_⟩ <;> rintro rfl <;> revert encoded <;> decide

theorem takeWhile_column (name : String) {spelling : String} {operator : Filter.Operator}
    (spelled : (spelling, operator) ∈ spellings) (operand : List Char) :
    ((Text.percentEncode name).toList ++ (spelling.toList ++ operand)).takeWhile Text.isEncoded =
      (Text.percentEncode name).toList := by
  obtain ⟨c, rest, same, stops, -⟩ := spelling_head spelled
  rw [List.takeWhile_append_of_pos (IsEncoded.percentEncode name)]
  simp [same, stops]

theorem dropWhile_column (name : String) {spelling : String} {operator : Filter.Operator}
    (spelled : (spelling, operator) ∈ spellings) (operand : List Char) :
    ((Text.percentEncode name).toList ++ (spelling.toList ++ operand)).dropWhile Text.isEncoded =
      spelling.toList ++ operand := by
  obtain ⟨c, rest, same, stops, -⟩ := spelling_head spelled
  rw [List.dropWhile_append_of_pos (IsEncoded.percentEncode name)]
  simp [same, stops]

/-- A name is read up to the operator after it. -/
theorem readSubject_column (name : String) {spelling : String} {operator : Filter.Operator}
    (spelled : (spelling, operator) ∈ spellings) {operand : List Char}
    (ends : operand.head? ≠ some '=') :
    readSubject ((Text.percentEncode name).toList ++ (spelling.toList ++ operand)) =
      some (.column none name, spelling.toList ++ operand) := by
  unfold readSubject
  split
  · rename_i starred
    obtain ⟨first, later, split, notStar, -⟩ := comparison_head name spelled operand
    rw [split] at starred
    exact absurd (List.cons.inj starred).1 notStar
  · dsimp only
    rw [takeWhile_column name spelled, dropWhile_column name spelled,
      cutOperator_append spelled ends, decode?_percentEncode]
    rfl

theorem isEncoded_of_isWordChar {c : Char} (word : isWordChar c = true) :
    Text.isEncoded c = true := by
  simp only [isWordChar, Bool.or_eq_true, beq_iff_eq] at word
  obtain letter | rfl := word
  · simp [Text.isEncoded, Text.isUnreserved, letter]
  · decide

/-- The colon after an alias begins no operator. -/
theorem cutOperator_colon (name : String) {spelling : String} {operator : Filter.Operator}
    (spelled : (spelling, operator) ∈ spellings) (operand : List Char) :
    cutOperator (':' :: ((Text.percentEncode name).toList ++ (spelling.toList ++ operand))) =
      none := by
  cases named : (Text.percentEncode name).toList with
  | nil =>
      have each : ∀ entry ∈ spellings, cutOperator (':' :: (entry.1.toList ++ operand)) = none := by
        simp [cutOperator, spellings, Filter.Operator.all, Filter.Operator.text, List.isPrefixOf?]
      exact each (spelling, operator) spelled
  | cons c rest =>
      have encoded : Text.isEncoded c = true :=
        IsEncoded.percentEncode name c (by rw [named]; exact List.mem_cons_self)
      have noColon : ¬ ':' = c := by
        rintro rfl
        revert encoded
        decide
      simp [cutOperator, spellings, Filter.Operator.all, Filter.Operator.text, List.isPrefixOf?,
        noColon]

theorem IsWord.head {word : String} (isWord : IsWord word) :
    ∃ c rest, word.toList = c :: rest ∧ isWordChar c = true := by
  cases written : word.toList with
  | nil => exact absurd (String.toList_eq_nil_iff.mp written) isWord.1
  | cons c rest => exact ⟨c, rest, rfl, isWord.2 c (written ▸ List.mem_cons_self)⟩

/-- An alias is told from a column by the colon after it. -/
theorem readSubject_aliased {owner : String} (word : IsWord owner) (name : String)
    {spelling : String} {operator : Filter.Operator} (spelled : (spelling, operator) ∈ spellings)
    (operand : List Char) :
    readSubject (owner.toList ++ ':' :: ((Text.percentEncode name).toList ++
      (spelling.toList ++ operand))) =
        some (.column (some owner) name, spelling.toList ++ operand) := by
  have encoded : ∀ c ∈ owner.toList, Text.isEncoded c = true :=
    fun c member => isEncoded_of_isWordChar (word.2 c member)
  unfold readSubject
  split
  · rename_i starred
    obtain ⟨c, rest, same, isWord⟩ := word.head
    rw [same] at starred
    obtain rfl := (List.cons.inj starred).1
    exact absurd isWord (by decide)
  · dsimp only
    rw [List.dropWhile_append_of_pos encoded, List.dropWhile_cons_of_neg (by decide),
      cutOperator_colon name spelled, List.dropWhile_append_of_pos word.2,
      List.dropWhile_cons_of_neg (by decide), List.takeWhile_append_of_pos word.2,
      List.takeWhile_cons_of_neg (by decide), List.append_nil, String.ofList_toList]
    simp only [takeWhile_column name spelled, dropWhile_column name spelled,
      decode?_percentEncode]
    rfl

variable {subject : Subject}

theorem readSubject_text (addressable : subject.Addressable) {spelling : String}
    {operator : Filter.Operator} (spelled : (spelling, operator) ∈ spellings)
    {operand : List Char} (ends : operand.head? ≠ some '=') :
    readSubject (subject.text.toList ++ (spelling.toList ++ operand)) =
      some (subject, spelling.toList ++ operand) := by
  match subject with
  | .wholeRow => rfl
  | .column none name => exact readSubject_column name spelled ends
  | .column (some owner) name =>
      have written : (Subject.column (some owner) name).text.toList =
          owner.toList ++ ':' :: (Text.percentEncode name).toList := by
        simp [Subject.text]
      rw [written, List.append_assoc, List.cons_append]
      exact readSubject_aliased addressable name spelled operand

theorem readComparison_text (addressable : subject.Addressable) {spelling : String}
    {operator : Filter.Operator} (spelled : (spelling, operator) ∈ spellings)
    {operand : List Char} (ends : operand.head? ≠ some '=') :
    readComparison (subject.text.toList ++ (spelling.toList ++ operand)) =
      if operator.takesOperand then
        readOperand (fun value => .comparison ⟨subject, operator, some value⟩) operand
      else if operand.isEmpty then some (.comparison ⟨subject, operator, none⟩)
      else none := by
  rw [readComparison, readSubject_text addressable spelled ends]
  simp only [Option.bind_eq_bind, Option.bind_some, cutOperator_append spelled ends]

theorem readComparison_column (name : String) {spelling : String} {operator : Filter.Operator}
    (spelled : (spelling, operator) ∈ spellings) {operand : List Char}
    (ends : operand.head? ≠ some '=') :
    readComparison ((Text.percentEncode name).toList ++ (spelling.toList ++ operand)) =
      if operator.takesOperand then
        readOperand (fun value => .comparison ⟨.column none name, operator, some value⟩) operand
      else if operand.isEmpty then some (.comparison ⟨.column none name, operator, none⟩)
      else none :=
  @readComparison_text (.column none name) trivial spelling operator spelled operand ends

/-- No comparison is mistaken for a parenthesis. -/
theorem text_head (addressable : subject.Addressable) {spelling : String}
    {operator : Filter.Operator} (spelled : (spelling, operator) ∈ spellings)
    (operand : List Char) :
    ∃ c rest, subject.text.toList ++ (spelling.toList ++ operand) = c :: rest ∧
      c ≠ '!' ∧ c ≠ '(' := by
  match subject with
  | .wholeRow => exact ⟨'*', _, rfl, by decide⟩
  | .column none name =>
      obtain ⟨c, rest, same, -, others⟩ := comparison_head name spelled operand
      exact ⟨c, rest, same, others⟩
  | .column (some owner) name =>
      obtain ⟨c, rest, same, isWord⟩ := IsWord.head addressable
      refine ⟨c, rest ++ (":" ++ Text.percentEncode name).toList ++ (spelling.toList ++ operand), ?_,
        ?_⟩
      · simp [Subject.text, same]
      · constructor <;> rintro rfl <;> revert isWord <;> decide

theorem readOperand_value (compare : String → Formula) (value : String) :
    readOperand compare (Text.percentEncode value).toList = some (compare value) := by
  rw [readOperand, decode?_percentEncode]
  rfl

theorem mapM_decode? (values : List String) :
    (values.map fun value => (Text.percentEncode value).toList).mapM decode? = some values := by
  induction values with
  | nil => rfl
  | cons value values ih => simp [decode?_percentEncode, ih]

/-- A list is cut at its commas and each of its members is decoded. -/
theorem readMembers_encoded (junction : Filter.Junction) {values : List String}
    (given : values ≠ []) :
    readMembers junction ((quantifier junction ++ "(").toList ++
      ([','].intercalate (values.map fun value => (Text.percentEncode value).toList) ++ [')'])) =
      some values := by
  have opens : ∀ start rest : List Char, start.isPrefixOf? (start ++ rest) = some rest := by
    intro start rest
    induction start with
    | nil => rfl
    | cons c start ih => simp [List.isPrefixOf?, ih]
  have closes : ∀ inside : List Char, closed? (inside ++ [')']) = some inside := by
    intro inside
    simp [closed?]
  have noComma : ∀ member ∈ values.map fun value => (Text.percentEncode value).toList,
      ',' ∉ member := by
    intro member listed comma
    obtain ⟨value, -, rfl⟩ := List.mem_map.mp listed
    exact absurd (IsEncoded.percentEncode value ',' comma) (by decide)
  rw [readMembers, opens]
  simp only [Option.bind_eq_bind, Option.bind_some, closes]
  rw [List.splitOn_intercalate ',' noComma (by simpa using given), mapM_decode?]

theorem readOperand_list (compare : String → Formula) (junction : Filter.Junction)
    {values : List String} (given : values ≠ []) :
    readOperand compare ((quantifier junction ++ "(").toList ++
      ([','].intercalate (values.map fun value => (Text.percentEncode value).toList) ++ [')'])) =
      some (.join junction (values.map compare)) := by
  have members := readMembers_encoded junction given
  have noValue : ∀ rest : List Char,
      decode? ((quantifier junction ++ "(").toList ++ rest) = none := by
    intro rest
    have opens : Text.isEncoded '(' = false := by decide
    rw [decode?, if_neg]
    simp [opens]
  rw [readOperand, noValue]
  cases junction with
  | any =>
      rw [members]
      rfl
  | all =>
      have noAny : ∀ rest : List Char,
          readMembers .any ((quantifier .all ++ "(").toList ++ rest) = none := fun _ => rfl
      rw [noAny, members]
      rfl

end Reading

end PathQuery
