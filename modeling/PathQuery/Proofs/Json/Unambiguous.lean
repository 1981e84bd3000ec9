import PathQuery.Json.Text
import PathQuery.Json.Reader
import PathQuery.Proofs.Text.Separated

namespace PathQuery.Json

/-! # Values and their texts

A string literal is read back as the string it was written for, and it ends where the
reader stops.  So no text of a value is the beginning of another one, and the text of a
value without numbers determines it.
-/

theorem hexUnit_lowerHexDigit : ∀ n, n < 32 →
    hexUnit '0' '0' (Text.lowerHexDigit (n / 16)) (Text.lowerHexDigit (n % 16)) = some n := by
  decide

theorem readString_plain {c : Char} (quote : c ≠ '"') (backslash : c ≠ '\\')
    (printable : 0x20 ≤ c.toNat) (rest : List Char) :
    readString (c :: rest) = (readString rest).map fun (text, rest) => (c :: text, rest) := by
  rw [readString.eq_def]
  split <;> simp_all [Nat.not_lt.mpr]

theorem readString_code {n : Nat} (control : n < 32) (rest : List Char) :
    readString ('\\' :: 'u' :: '0' :: '0' :: Text.lowerHexDigit (n / 16) ::
      Text.lowerHexDigit (n % 16) :: rest) =
      (readString rest).map fun (text, rest) => (Char.ofNat n :: text, rest) := by
  have high : ¬ (0xD800 ≤ n ∧ n < 0xDC00) := by omega
  have low : ¬ (0xDC00 ≤ n ∧ n < 0xE000) := by omega
  simp only [readString, hexUnit_lowerHexDigit n control, if_neg high, if_neg low]

theorem readString_escapeChar (c : Char) (rest : List Char) :
    readString (escapeChar c ++ rest) =
      (readString rest).map fun (text, rest) => (c :: text, rest) := by
  by_cases quote : c = '"'
  · subst quote
    rfl
  by_cases backslash : c = '\\'
  · subst backslash
    rfl
  by_cases printable : 0x20 ≤ c.toNat
  · simp only [escapeChar, if_neg quote, if_neg backslash, if_pos printable]
    exact readString_plain quote backslash printable rest
  by_cases newline : c = '\n'
  · subst newline
    rfl
  by_cases carriageReturn : c = '\r'
  · subst carriageReturn
    rfl
  by_cases tab : c = '\t'
  · subst tab
    rfl
  by_cases backspace : c.toNat = 8
  · obtain rfl : c = Char.ofNat 8 := by rw [← backspace, Char.ofNat_toNat]
    rfl
  by_cases formFeed : c.toNat = 12
  · obtain rfl : c = Char.ofNat 12 := by rw [← formFeed, Char.ofNat_toNat]
    rfl
  simp only [escapeChar, if_neg quote, if_neg backslash, if_neg printable, if_neg newline,
    if_neg carriageReturn, if_neg tab, if_neg backspace, if_neg formFeed]
  have code := readString_code (Nat.lt_of_not_le printable) rest
  rwa [Char.ofNat_toNat] at code

theorem readString_escape (text rest : List Char) :
    readString (text.flatMap escapeChar ++ '"' :: rest) = some (text, rest) := by
  induction text with
  | nil => rfl
  | cons c text ih =>
      rw [List.flatMap_cons, List.append_assoc, readString_escapeChar, ih]
      rfl

theorem toList_quote (text : String) :
    (quote text).toList = '"' :: (text.toList.flatMap escapeChar ++ ['"']) := by
  simp [quote]

theorem quote_unambiguous {left right : String} {rest rest' : List Char}
    (same : (quote left).toList ++ rest = (quote right).toList ++ rest') :
    left = right ∧ rest = rest' := by
  simp only [toList_quote, List.cons_append, List.append_assoc, List.nil_append,
    List.cons.injEq, true_and] at same
  have read := congrArg readString same
  rw [readString_escape, readString_escape] at read
  obtain ⟨texts, rests⟩ := Prod.mk.inj (Option.some.inj read)
  exact ⟨String.toList_inj.mp texts, rests⟩

inductive Numberless : Json → Prop
  | null : Numberless .null
  | bool (value : Bool) : Numberless (.bool value)
  | string (value : String) : Numberless (.string value)
  | array {items : List Json} (numberless : ∀ item ∈ items, Numberless item) :
      Numberless (.array items)
  | object {fields : Fields} (numberless : ∀ field ∈ fields, Numberless field.2) :
      Numberless (.object fields)

theorem itemTexts_eq (items : List Json) : itemTexts items = items.map text := by
  induction items with
  | nil => rfl
  | cons item items ih => rw [itemTexts, ih, List.map_cons]

theorem fieldTexts_eq (fields : Fields) :
    fieldTexts fields = fields.map fun field => quote field.1 ++ ":" ++ text field.2 := by
  induction fields with
  | nil => rfl
  | cons field fields ih => rw [fieldTexts, ih, List.map_cons]

theorem text_array (items : List Json) :
    (array items).text = "[" ++ ",".intercalate (items.map text) ++ "]" := by
  rw [text, itemTexts_eq]

theorem text_object (fields : Fields) :
    (object fields).text = "\x7b" ++
      ",".intercalate (fields.map fun field => quote field.1 ++ ":" ++ text field.2) ++
        "\x7d" := by
  rw [text, fieldTexts_eq]

theorem toList_text_array (items : List Json) :
    (array items).text.toList =
      '[' :: ([','].intercalate (items.map fun item => item.text.toList) ++ [']']) := by
  simp [text_array, String.toList_intercalate, Function.comp_def]

def fieldChars (field : String × Json) : List Char :=
  (quote field.1).toList ++ ':' :: field.2.text.toList

theorem toList_text_object (fields : Fields) :
    (object fields).text.toList =
      '\x7b' :: ([','].intercalate (fields.map fieldChars) ++ ['\x7d']) := by
  have pieces : (String.toList ∘ fun field : String × Json =>
      quote field.1 ++ ":" ++ field.2.text) = fieldChars := by
    funext field
    simp [fieldChars]
  simp only [text_object, String.toList_append, String.toList_intercalate, List.map_map, pieces]
  rfl

/-- The character that the text of a value without numbers opens with. -/
def opening : Json → Char
  | .null => 'n'
  | .bool false => 'f'
  | .bool true => 't'
  | .number _ => '0'
  | .string _ => '"'
  | .array _ => '['
  | .object _ => '\x7b'

theorem Numberless.text_opens {value : Json} (numberless : Numberless value) :
    ∃ rest, value.text.toList = value.opening :: rest ∧ value.opening ≠ ']' := by
  cases numberless with
  | null => exact ⟨_, rfl, by decide⟩
  | bool value =>
      cases value with
      | false => exact ⟨_, rfl, by decide⟩
      | true => exact ⟨_, rfl, by decide⟩
  | string value => exact ⟨_, toList_quote value, by simp [opening]⟩
  | array numberless => exact ⟨_, toList_text_array _, by simp [opening]⟩
  | object numberless => exact ⟨_, toList_text_object _, by simp [opening]⟩

theorem Numberless.opening_eq {left right : Json} (numberless : Numberless left)
    (numberless' : Numberless right) {rest rest' : List Char}
    (same : left.text.toList ++ rest = right.text.toList ++ rest') :
    left.opening = right.opening := by
  obtain ⟨tail, opens, -⟩ := numberless.text_opens
  obtain ⟨tail', opens', -⟩ := numberless'.text_opens
  rw [opens, opens'] at same
  exact (List.cons.inj same).1

/-- The items between two brackets, from what tells each of them from what follows. -/
theorem items_unambiguous {write : α → List Char} {close : Char} (distinct : ',' ≠ close)
    {left right : List α}
    (opens : ∀ item, item ∈ left ∨ item ∈ right → ∃ c rest, write item = c :: rest ∧ c ≠ close)
    (reads : ∀ x ∈ left, ∀ y ∈ right, ∀ rest rest',
      write x ++ rest = write y ++ rest' → x = y ∧ rest = rest')
    {rest rest' : List Char}
    (same : [','].intercalate (left.map write) ++ close :: rest =
      [','].intercalate (right.map write) ++ close :: rest') :
    left = right ∧ rest = rest' := by
  cases left with
  | nil =>
      cases right with
      | nil => exact ⟨rfl, (List.cons.inj same).2⟩
      | cons y right =>
          obtain ⟨c, tail, written, other⟩ := opens y (.inr List.mem_cons_self)
          rw [List.map_cons, Text.intercalate_cons_eq, written] at same
          exact absurd (List.cons.inj same).1.symm other
  | cons x left =>
      cases right with
      | nil =>
          obtain ⟨c, tail, written, other⟩ := opens x (.inl List.mem_cons_self)
          rw [List.map_cons, Text.intercalate_cons_eq, written] at same
          exact absurd (List.cons.inj same).1 other
      | cons y right =>
          simp only [List.map_cons, Text.intercalate_cons_eq, List.append_assoc,
            List.flatMap_map] at same
          obtain ⟨first, tails⟩ := reads x List.mem_cons_self y List.mem_cons_self _ _ same
          have told : ∀ x ∈ left, ∀ y ∈ right, ∀ rest rest', True → True →
              write x ++ rest = write y ++ rest' → x = y ∧ rest = rest' :=
            fun x inLeft y inRight rest rest' _ _ =>
              reads x (List.mem_cons_of_mem _ inLeft) y (List.mem_cons_of_mem _ inRight) rest rest'
          obtain ⟨later, ended, -⟩ := Text.separated_eq distinct distinct
            (fun _ => trivial) (fun _ => trivial) (fun _ => trivial) told tails
          rw [List.forall₂_eq_eq_eq] at later
          exact ⟨by rw [first, later], ended⟩

theorem fieldChars_unambiguous {left right : String × Json} {rest rest' : List Char}
    (values : ∀ {rest rest' : List Char},
      left.2.text.toList ++ rest = right.2.text.toList ++ rest' →
        left.2 = right.2 ∧ rest = rest')
    (same : fieldChars left ++ rest = fieldChars right ++ rest') :
    left = right ∧ rest = rest' := by
  simp only [fieldChars, List.append_assoc, List.cons_append] at same
  obtain ⟨keys, same⟩ := quote_unambiguous same
  obtain ⟨items, ended⟩ := values (List.cons.inj same).2
  exact ⟨Prod.ext keys items, ended⟩

theorem array_unambiguous {items items' : List Json} (numberless : ∀ item ∈ items, Numberless item)
    (numberless' : ∀ item ∈ items', Numberless item)
    (reads : ∀ x ∈ items, ∀ y ∈ items', ∀ rest rest' : List Char,
      x.text.toList ++ rest = y.text.toList ++ rest' → x = y ∧ rest = rest')
    {rest rest' : List Char}
    (same : (array items).text.toList ++ rest = (array items').text.toList ++ rest') :
    items = items' ∧ rest = rest' := by
  simp only [toList_text_array, List.cons_append, List.append_assoc, List.nil_append,
    List.cons.injEq, true_and] at same
  refine items_unambiguous (by decide) (fun item member => ?_) reads same
  obtain ⟨tail, opens, other⟩ := (member.elim (numberless item) (numberless' item)).text_opens
  exact ⟨item.opening, tail, opens, other⟩

theorem object_unambiguous {fields fields' : Fields}
    (reads : ∀ x ∈ fields, ∀ y ∈ fields', ∀ {rest rest' : List Char},
      x.2.text.toList ++ rest = y.2.text.toList ++ rest' → x.2 = y.2 ∧ rest = rest')
    {rest rest' : List Char}
    (same : (object fields).text.toList ++ rest = (object fields').text.toList ++ rest') :
    fields = fields' ∧ rest = rest' := by
  simp only [toList_text_object, List.cons_append, List.append_assoc, List.nil_append,
    List.cons.injEq, true_and] at same
  refine items_unambiguous (by decide) (fun field _ => ?_) (fun x inLeft y inRight rest rest' =>
    fieldChars_unambiguous (reads x inLeft y inRight)) same
  exact ⟨'"', _, by rw [fieldChars, toList_quote]; rfl, by decide⟩

/-- The text of a value without numbers cannot be the beginning of another one. -/
theorem Numberless.text_unambiguous {left : Json} (numberless : Numberless left) :
    ∀ {right : Json}, Numberless right → ∀ {rest rest' : List Char},
      left.text.toList ++ rest = right.text.toList ++ rest' → left = right ∧ rest = rest' := by
  intro right numberless' rest rest' same
  -- The first character leaves only values of one kind.
  have opens := numberless.opening_eq numberless' same
  induction numberless generalizing right rest rest' with
  | null =>
      cases numberless' with
      | null => exact ⟨rfl, List.append_cancel_left same⟩
      | bool value => cases value <;> simp [opening] at opens
      | string _ | array _ | object _ => simp [opening] at opens
  | bool value =>
      cases numberless' with
      | bool value' =>
          obtain rfl : value = value' := by cases value <;> cases value' <;> simp [opening] at opens ⊢
          exact ⟨rfl, List.append_cancel_left same⟩
      | null | string _ | array _ | object _ => cases value <;> simp [opening] at opens
  | string value =>
      cases numberless' with
      | string value' => exact (quote_unambiguous same).imp_left (congrArg Json.string)
      | bool value' => cases value' <;> simp [opening] at opens
      | null | array _ | object _ => simp [opening] at opens
  | @array items numberless ih =>
      cases numberless' with
      | @array items' numberless' =>
          refine (array_unambiguous numberless numberless' ?_ same).imp_left (congrArg Json.array)
          exact fun x inLeft y inRight _ _ same =>
            ih x inLeft (numberless' y inRight) same
              ((numberless x inLeft).opening_eq (numberless' y inRight) same)
      | bool value' => cases value' <;> simp [opening] at opens
      | null | string _ | object _ => simp [opening] at opens
  | @object fields numberless ih =>
      cases numberless' with
      | @object fields' numberless' =>
          refine (object_unambiguous ?_ same).imp_left (congrArg Json.object)
          exact fun x inLeft y inRight _ _ same =>
            ih x inLeft (numberless' y inRight) same
              ((numberless x inLeft).opening_eq (numberless' y inRight) same)
      | bool value' => cases value' <;> simp [opening] at opens
      | null | string _ | array _ => simp [opening] at opens

theorem Numberless.text_injective {left right : Json} (numberless : Numberless left)
    (numberless' : Numberless right) (same : left.text = right.text) : left = right :=
  (@Numberless.text_unambiguous left numberless right numberless' [] [] (by rw [same])).1

end PathQuery.Json
