import PathQuery.Proofs.Path.Formula

namespace PathQuery.Reading

/-! # Texts that are read as clauses

A condition stays together between separators, conditions with `&` between them are an
alternative, and alternatives with `;` between them are a clause.  So a clause that was put
together is read as the formulas of its parts, and clauses one after the other are read as
all their alternatives.
-/

/-- The text stays together between separators and is read as the formula, with no more
    than so many parentheses in each other. -/
structure Condition (bound : Nat) (text : String) (formula : Formula) : Prop where
  uncut : ∀ separator ∈ [';', '&'], ∀ depth, Uncut separator depth text.toList
  reads : ∀ depth, bound ≤ depth → readCondition (readAt depth) text.toList = some formula

namespace Condition

variable {bound : Nat} {subject : Subject} {spelling : String} {operator : Filter.Operator}

/-- What neither separates nor groups. -/
def isPlain (c : Char) : Bool := c != ';' && c != '&' && c != '(' && c != ')'

theorem uncut_of_plain {text : List Char} (plain : ∀ c ∈ text, isPlain c = true) :
    ∀ separator ∈ [';', '&'], ∀ depth, Uncut separator depth text := by
  intro separator listed depth
  refine .of_plain fun c member => ?_
  have plain := plain c member
  simp only [isPlain, Bool.and_eq_true, bne_iff_ne] at plain
  obtain ⟨⟨⟨noAny, noAll⟩, noOpening⟩, noClosing⟩ := plain
  simp only [List.mem_cons, List.not_mem_nil, or_false] at listed
  rcases listed with rfl | rfl
  · exact ⟨noAny, noOpening, noClosing⟩
  · exact ⟨noAll, noOpening, noClosing⟩

theorem isPlain_of_encoded {c : Char} (encoded : Text.isEncoded c = true) : isPlain c = true := by
  simp only [isPlain, Bool.and_eq_true, bne_iff_ne]
  refine ⟨⟨⟨?_, ?_⟩, ?_⟩, ?_⟩ <;> rintro rfl <;> revert encoded <;> decide

theorem isPlain_spelling (spelled : (spelling, operator) ∈ spellings) :
    ∀ c ∈ spelling.toList, isPlain c = true := by
  have plain : ∀ entry ∈ spellings, entry.1.toList.all isPlain = true := by decide
  exact List.all_eq_true.mp (plain (spelling, operator) spelled)

theorem uncut_encoded (text : String) :
    ∀ separator ∈ [';', '&'], ∀ depth, Uncut separator depth (Text.percentEncode text).toList :=
  uncut_of_plain fun c member => isPlain_of_encoded (IsEncoded.percentEncode text c member)

theorem isPlain_text (addressable : subject.Addressable) :
    ∀ c ∈ subject.text.toList, isPlain c = true := by
  intro c member
  match subject with
  | .wholeRow =>
      obtain rfl := List.mem_singleton.mp member
      decide
  | .column none name => exact isPlain_of_encoded (IsEncoded.percentEncode name c member)
  | .column (some owner) name =>
      simp only [Subject.text, String.toList_append, List.mem_append] at member
      obtain (inOwner | isColon) | inName := member
      · exact isPlain_of_encoded (isEncoded_of_isWordChar (addressable.2 c inOwner))
      · obtain rfl := List.mem_singleton.mp isColon
        decide
      · exact isPlain_of_encoded (IsEncoded.percentEncode name c inName)

/-- A comparison is read whatever may stand in parentheses. -/
theorem of_comparison {operand : List Char} {formula : Formula}
    (addressable : subject.Addressable) (spelled : (spelling, operator) ∈ spellings)
    (uncut : ∀ separator ∈ [';', '&'], ∀ depth, Uncut separator depth operand)
    (reads : readComparison (subject.text.toList ++ (spelling.toList ++ operand)) =
      some formula) :
    Condition bound (subject.text ++ spelling ++ String.ofList operand) formula where
  uncut separator listed depth := by
    rw [String.toList_append, String.toList_append, String.toList_ofList]
    exact ((uncut_of_plain (isPlain_text addressable) separator listed depth).append
      (uncut_of_plain (isPlain_spelling spelled) separator listed depth)).append
      (uncut separator listed depth)
  reads depth _ := by
    rw [String.toList_append, String.toList_append, String.toList_ofList, List.append_assoc]
    obtain ⟨c, rest, split, noNegation, noGroup⟩ := text_head addressable spelled operand
    rw [split] at reads ⊢
    rw [readCondition.eq_def]
    split
    · simp_all
    · simp_all
    · exact reads

/-- A comparison with one value. -/
theorem value (addressable : subject.Addressable) (value : String)
    (spelled : (spelling, operator) ∈ spellings) (compares : operator.takesOperand = true) :
    Condition bound (subject.text ++ spelling ++ Text.percentEncode value)
      (.comparison ⟨subject, operator, some value⟩) := by
  have ends : (Text.percentEncode value).toList.head? ≠ some '=' := fun same =>
    absurd (IsEncoded.percentEncode value '=' (List.mem_of_head? same)) (by decide)
  have condition : Condition bound (subject.text ++ spelling ++
      String.ofList (Text.percentEncode value).toList)
      (.comparison ⟨subject, operator, some value⟩) :=
    of_comparison addressable spelled (uncut_encoded value) (by
      rw [readComparison_text addressable spelled ends, if_pos compares, readOperand_value])
  rwa [String.ofList_toList] at condition

/-- A comparison with nothing. -/
theorem test (addressable : subject.Addressable) (spelled : (spelling, operator) ∈ spellings)
    (tests : operator.takesOperand = false) :
    Condition bound (subject.text ++ spelling) (.comparison ⟨subject, operator, none⟩) := by
  have condition : Condition bound (subject.text ++ spelling ++ String.ofList [])
      (.comparison ⟨subject, operator, none⟩) :=
    of_comparison addressable spelled (uncut_of_plain nofun) (by
      rw [readComparison_text addressable spelled (by simp), if_neg (by simp [tests])]
      rfl)
  rwa [String.ofList_nil, String.append_empty] at condition

/-- A list is in parentheses, and nothing else in it separates or groups. -/
theorem uncut_list (junction : Filter.Junction) (values : List String) :
    ∀ separator ∈ [';', '&'], ∀ depth, Uncut separator depth (quantifier junction ++ "(" ++
      ",".intercalate (values.map Text.percentEncode) ++ ")").toList := by
  intro separator listed depth
  have word : (quantifier junction).toList.all isPlain = true := by
    cases junction <;> decide
  have members : ∀ c ∈ (",".intercalate (values.map Text.percentEncode)).toList,
      isPlain c = true := by
    intro c member
    rcases mem_intercalate member with inSeparator | ⟨text, encoded, inText⟩
    · rw [List.mem_singleton.mp inSeparator]
      decide
    · obtain ⟨value, -, rfl⟩ := List.mem_map.mp encoded
      exact isPlain_of_encoded (IsEncoded.percentEncode value c inText)
  have written : (quantifier junction ++ "(" ++
      ",".intercalate (values.map Text.percentEncode) ++ ")").toList =
      (quantifier junction).toList ++
        ('(' :: ((",".intercalate (values.map Text.percentEncode)).toList ++ [')'])) := by
    simp
  have parentheses : separator ≠ '(' ∧ separator ≠ ')' := by
    simp only [List.mem_cons, List.not_mem_nil, or_false] at listed
    rcases listed with rfl | rfl <;> decide
  rw [written]
  exact (uncut_of_plain (List.all_eq_true.mp word) separator listed depth).append
    (.grouped parentheses.1 parentheses.2 (uncut_of_plain members separator listed _))

/-- A comparison with each value of a list. -/
theorem list (addressable : subject.Addressable) (junction : Filter.Junction)
    {values : List String} (spelled : (spelling, operator) ∈ spellings)
    (compares : operator.takesOperand = true) (given : values ≠ []) :
    Condition bound (subject.text ++ spelling ++
        (quantifier junction ++ "(" ++ ",".intercalate (values.map Text.percentEncode) ++ ")"))
      (.join junction (values.map fun value =>
        .comparison ⟨subject, operator, some value⟩)) := by
  have written : (quantifier junction ++ "(" ++
      ",".intercalate (values.map Text.percentEncode) ++ ")").toList =
      (quantifier junction ++ "(").toList ++
        ([','].intercalate (values.map fun value => (Text.percentEncode value).toList) ++ [')']) := by
    simp [String.toList_intercalate, List.map_map, Function.comp_def]
  have ends : (quantifier junction ++ "(" ++
      ",".intercalate (values.map Text.percentEncode) ++ ")").toList.head? ≠ some '=' := by
    rw [written]
    cases junction <;> simp [quantifier]
  have condition : Condition bound (subject.text ++ spelling ++ String.ofList
      (quantifier junction ++ "(" ++ ",".intercalate (values.map Text.percentEncode) ++
        ")").toList)
      (.join junction (values.map fun value =>
        .comparison ⟨subject, operator, some value⟩)) := by
    refine of_comparison addressable spelled (uncut_list junction values) ?_
    rw [readComparison_text addressable spelled ends, if_pos compares, written,
      readOperand_list _ junction given]
  rwa [String.ofList_toList] at condition

end Condition

/-- Conditions with `&` between them, which do not count in parentheses. -/
structure Alternative (bound : Nat) (text : String) (formula : Formula) : Prop where
  uncut : Uncut ';' 0 text.toList
  inside : ∀ separator ∈ [';', '&'], ∀ depth, Uncut separator (depth + 1) text.toList
  reads : ∀ depth, bound ≤ depth → readAlternative (readAt depth) text.toList = some formula

theorem mapM_toList {read : List Char → Option Formula} {texts : List String}
    {formulas : List Formula}
    (each : List.Forall₂ (fun text formula => read text.toList = some formula) texts formulas) :
    (texts.map String.toList).mapM read = some formulas := by
  induction each with
  | nil => rfl
  | cons first _ ih => simp [first, ih]

theorem Uncut.intercalate {pieces : List (List Char)} {joint : List Char} {separator : Char}
    {depth : Nat} (joins : Uncut separator depth joint)
    (each : ∀ piece ∈ pieces, Uncut separator depth piece) :
    Uncut separator depth (joint.intercalate pieces) := by
  induction pieces with
  | nil => exact .of_plain nofun
  | cons first later ih =>
      have whole := each first List.mem_cons_self
      cases later with
      | nil => rwa [List.intercalate_singleton]
      | cons second later =>
          rw [List.intercalate_cons_cons]
          exact (whole.append joins).append
            (ih fun piece member => each piece (List.mem_cons_of_mem _ member))

theorem uncut_inside {c separator : Char} {depth : Nat} (opening : c ≠ '(') (closing : c ≠ ')') :
    Uncut separator (depth + 1) [c] := by
  intro rest
  rw [List.singleton_append, cutOutside, if_neg (fun cut => Nat.succ_ne_zero depth cut.2),
    depthAfter, if_neg opening, if_neg closing]

theorem Alternative.of_conditions {bound : Nat} {texts : List String} {formulas : List Formula}
    (given : texts ≠ []) (each : List.Forall₂ (Condition bound) texts formulas) :
    Alternative bound ("&".intercalate texts) (.join .all formulas) := by
  have uncut : ∀ separator ∈ [';', '&'], ∀ depth, ∀ piece ∈ texts.map String.toList,
      Uncut separator depth piece := by
    intro separator listed depth piece member
    obtain ⟨text, inTexts, rfl⟩ := List.mem_map.mp member
    have kept := ((List.forall₂_and_left texts formulas).mp (each.imp fun text _ condition =>
      ⟨condition.uncut separator listed depth, condition⟩)).1
    exact kept text inTexts
  have joined : ("&".intercalate texts).toList = ['&'].intercalate (texts.map String.toList) :=
    String.toList_intercalate
  constructor
  · rw [joined]
    exact .intercalate (.of_plain (by simp)) (uncut ';' (by decide) 0)
  · intro separator listed depth
    rw [joined]
    exact .intercalate (uncut_inside (by decide) (by decide)) (uncut separator listed (depth + 1))
  · intro depth deep
    rw [readAlternative, joined,
      cutOutside_intercalate (by simpa using given) (uncut '&' (by decide) 0),
      mapM_toList (each.imp fun _ _ condition => condition.reads depth deep)]
    rfl

/-- A condition is an alternative by itself. -/
theorem Alternative.single {bound : Nat} {text : String} {formula : Formula}
    (condition : Condition bound text formula) :
    Alternative bound text (.join .all [formula]) := by
  have alternative := of_conditions (List.cons_ne_nil text []) (.cons condition .nil)
  rwa [String.intercalate_singleton] at alternative

/-- The text is the alternatives with `;` between them. -/
def Alternatives (bound : Nat) (text : String) (formulas : List Formula) : Prop :=
  ∃ texts : List String, texts ≠ [] ∧ text = ";".intercalate texts ∧
    List.Forall₂ (Alternative bound) texts formulas

namespace Alternatives

variable {bound : Nat} {text : String} {formulas : List Formula}

theorem of_alternatives {texts : List String} (given : texts ≠ [])
    (each : List.Forall₂ (Alternative bound) texts formulas) :
    Alternatives bound (";".intercalate texts) formulas :=
  ⟨texts, given, rfl, each⟩

theorem append {left right : String} {first second : List Formula}
    (before : Alternatives bound left first) (after : Alternatives bound right second) :
    Alternatives bound (left ++ ";" ++ right) (first ++ second) := by
  obtain ⟨lefts, given, rfl, each⟩ := before
  obtain ⟨rights, given', rfl, each'⟩ := after
  refine ⟨lefts ++ rights, by simp [given], ?_, List.rel_append each each'⟩
  rw [String.intercalate_append_of_ne_nil given given']

/-- Texts with `;` between them say what one of them says. -/
theorem join {texts : List String} {lists : List (List Formula)} (given : texts ≠ [])
    (each : List.Forall₂ (Alternatives bound) texts lists) :
    Alternatives bound (";".intercalate texts) lists.flatten := by
  induction each with
  | nil => contradiction
  | @cons first list later lists written rest ih =>
      cases rest with
      | nil => simpa using written
      | @cons second _ _ _ _ _ =>
          rw [String.intercalate_cons_cons, List.flatten_cons]
          exact written.append (ih (List.cons_ne_nil _ _))

theorem inside (written : Alternatives bound text formulas) :
    ∀ separator ∈ [';', '&'], ∀ depth, Uncut separator (depth + 1) text.toList := by
  intro separator listed depth
  obtain ⟨texts, -, rfl, each⟩ := written
  rw [String.toList_intercalate]
  refine .intercalate (uncut_inside (by decide) (by decide)) fun piece member => ?_
  obtain ⟨text, inTexts, rfl⟩ := List.mem_map.mp member
  have kept := ((List.forall₂_and_left texts formulas).mp (each.imp fun text _ alternative =>
    ⟨alternative.inside separator listed depth, alternative⟩)).1
  exact kept text inTexts

theorem readAt_eq (written : Alternatives bound text formulas) {depth : Nat} (deep : bound ≤ depth) :
    readAt (depth + 1) text.toList = some (.join .any formulas) := by
  obtain ⟨texts, given, rfl, each⟩ := written
  have uncut : ∀ piece ∈ texts.map String.toList, Uncut ';' 0 piece := by
    intro piece member
    obtain ⟨text, inTexts, rfl⟩ := List.mem_map.mp member
    have kept := ((List.forall₂_and_left texts formulas).mp
      (each.imp fun text _ alternative => ⟨alternative.uncut, alternative⟩)).1
    exact kept text inTexts
  have joined : (";".intercalate texts).toList = [';'].intercalate (texts.map String.toList) :=
    String.toList_intercalate
  rw [readAt, joined, cutOutside_intercalate (by simpa using given) uncut,
    mapM_toList (each.imp fun _ _ alternative => alternative.reads depth deep)]
  rfl

theorem nonempty (written : Alternatives bound text formulas) : text ≠ "" := by
  rintro rfl
  have read := written.readAt_eq (Nat.le_refl bound)
  rw [show readAt (bound + 1) "".toList = none from rfl] at read
  contradiction

theorem read_eq (written : Alternatives bound text formulas) (bounded : bound ≤ text.length) :
    read text = some (.join .any formulas) :=
  written.readAt_eq bounded

end Alternatives

namespace Condition

variable {bound : Nat} {text : String} {formulas : List Formula}

theorem uncut_grouped (inside : Alternatives bound text formulas) :
    ∀ separator ∈ [';', '&'], ∀ depth, Uncut separator depth ('(' :: (text.toList ++ [')'])) := by
  intro separator listed depth
  have other : separator ≠ '(' ∧ separator ≠ ')' := by
    simp only [List.mem_cons, List.not_mem_nil, or_false] at listed
    rcases listed with rfl | rfl <;> decide
  exact .grouped other.1 other.2 (inside.inside separator listed depth)

theorem closed?_concat (text : List Char) : closed? (text ++ [')']) = some text := by
  simp [closed?]

/-- What is in parentheses is read as one condition. -/
theorem grouped (inside : Alternatives bound text formulas) :
    Condition (bound + 1) ("(" ++ text ++ ")") (.join .any formulas) := by
  have written : ("(" ++ text ++ ")").toList = '(' :: (text.toList ++ [')']) := by simp
  constructor
  · rw [written]
    exact uncut_grouped inside
  · intro depth deep
    obtain ⟨depth, rfl⟩ := Nat.exists_eq_add_one.mpr (Nat.lt_of_lt_of_le (Nat.succ_pos _) deep)
    rw [written, readCondition, closed?_concat]
    exact inside.readAt_eq (Nat.le_of_succ_le_succ deep)

/-- What is in parentheses after a `!` is negated. -/
theorem negated (inside : Alternatives bound text formulas) :
    Condition (bound + 1) (Filter.negated text) (.not (.join .any formulas)) := by
  have written : (Filter.negated text).toList = '!' :: '(' :: (text.toList ++ [')']) := by
    simp [Filter.negated]
  constructor
  · intro separator listed depth
    have mark : Uncut separator depth ['!'] := by
      refine uncut_of_plain (fun c member => ?_) separator listed depth
      obtain rfl := List.mem_singleton.mp member
      decide
    rw [written]
    exact mark.append (uncut_grouped inside separator listed depth)
  · intro depth deep
    obtain ⟨depth, rfl⟩ := Nat.exists_eq_add_one.mpr (Nat.lt_of_lt_of_le (Nat.succ_pos _) deep)
    rw [written, readCondition, closed?_concat]
    simp only [Option.bind_eq_bind, Option.bind_some]
    rw [inside.readAt_eq (Nat.le_of_succ_le_succ deep)]
    rfl

end Condition

end PathQuery.Reading
