import PathQuery.Text.Basic

namespace PathQuery.Text

/-! # Percent-encoded texts

Only unreserved characters and `%` come out of the encoding, so none of the characters
that structure a path does.  The bytes of a text can be read back from its encoded
form, so the encoding loses nothing.
-/

/-- The characters that come out of the encoding. -/
def isEncoded (c : Char) : Bool := isUnreserved c || c == '%'

theorem upperHexDigit_unreserved :
    ∀ n, n < 16 → isUnreserved (upperHexDigit n) = true := by decide

theorem hexValue?_upperHexDigit :
    ∀ n, n < 16 → hexValue? (upperHexDigit n) = some n := by decide

theorem percentChar_isEncoded {c d : Char} (member : d ∈ percentChar c) :
    isEncoded d = true := by
  unfold percentChar at member
  split at member
  · rename_i plain
    rw [List.mem_singleton.mp member]
    simp [isEncoded, plain]
  · obtain ⟨byte, -, member⟩ := List.mem_flatMap.mp member
    have width := byte.toNat_lt
    simp only [percentByte, List.mem_cons, List.not_mem_nil, or_false] at member
    rcases member with rfl | rfl | rfl
    · rfl
    · simp [isEncoded, upperHexDigit_unreserved (byte.toNat / 16) (by omega)]
    · simp [isEncoded, upperHexDigit_unreserved (byte.toNat % 16) (by omega)]

theorem percentEncode_isEncoded {text : String} {c : Char}
    (member : c ∈ (percentEncode text).toList) : isEncoded c = true := by
  rw [percentEncode, String.toList_ofList] at member
  obtain ⟨source, -, member⟩ := List.mem_flatMap.mp member
  exact percentChar_isEncoded member

/-- Read the bytes of an encoded text. -/
def percentBytes : List Char → List UInt8
  | [] => []
  | '%' :: high :: low :: rest =>
    UInt8.ofNat ((hexValue? high).getD 0 * 16 + (hexValue? low).getD 0) :: percentBytes rest
  | c :: rest => UInt8.ofNat c.toNat :: percentBytes rest

theorem isUnreserved_ascii {c : Char} (plain : isUnreserved c = true) :
    c.toNat < 128 ∧ c ≠ '%' := by
  simp only [isUnreserved, Bool.or_eq_true, beq_iff_eq] at plain
  rcases plain with (((plain | rfl) | rfl) | rfl) | rfl
  · change (decide (65 ≤ c.val ∧ c.val ≤ 90) ||
      (decide (97 ≤ c.val) && decide (c.val ≤ 122)) ||
      (decide (48 ≤ c.val) && decide (c.val ≤ 57))) = true at plain
    have ascii : c.toNat < 128 := by
      simp only [Bool.or_eq_true, Bool.and_eq_true, decide_eq_true_eq,
        UInt32.le_iff_toNat_le] at plain
      change (((65 ≤ c.toNat ∧ c.toNat ≤ 90) ∨ (97 ≤ c.toNat ∧ c.toNat ≤ 122)) ∨
        (48 ≤ c.toNat ∧ c.toNat ≤ 57)) at plain
      omega
    refine ⟨ascii, ?_⟩
    rintro rfl
    revert plain
    decide
  all_goals exact ⟨by decide, by decide⟩

theorem percentBytes_unreserved {c : Char} (plain : isUnreserved c = true)
    (rest : List Char) : percentBytes (c :: rest) = UInt8.ofNat c.toNat :: percentBytes rest := by
  have other := (isUnreserved_ascii plain).2
  rw [percentBytes.eq_def]
  split <;> simp_all

theorem percentBytes_percentByte (byte : UInt8) (rest : List Char) :
    percentBytes (percentByte byte ++ rest) = byte :: percentBytes rest := by
  have width := byte.toNat_lt
  have high := hexValue?_upperHexDigit (byte.toNat / 16) (by omega)
  have low := hexValue?_upperHexDigit (byte.toNat % 16) (by omega)
  have whole : byte.toNat / 16 * 16 + byte.toNat % 16 = byte.toNat := by omega
  simp [percentByte, percentBytes, high, low, whole]

theorem percentBytes_bytes (bytes : List UInt8) (rest : List Char) :
    percentBytes (bytes.flatMap percentByte ++ rest) = bytes ++ percentBytes rest := by
  induction bytes with
  | nil => rfl
  | cons byte bytes ih =>
      rw [List.flatMap_cons, List.append_assoc, percentBytes_percentByte, ih]
      rfl

theorem percentBytes_percentChar (c : Char) (rest : List Char) :
    percentBytes (percentChar c ++ rest) = String.utf8EncodeChar c ++ percentBytes rest := by
  unfold percentChar
  split
  · rename_i plain
    have ascii := (isUnreserved_ascii plain).1
    have code : c.val.toNat ≤ 0x7f := Nat.le_of_lt_succ ascii
    change percentBytes (c :: rest) = _
    rw [percentBytes_unreserved plain, String.utf8EncodeChar, if_pos code]
    rfl
  · exact percentBytes_bytes _ rest

theorem percentBytes_encode (text : List Char) :
    percentBytes (text.flatMap percentChar) = text.flatMap String.utf8EncodeChar := by
  induction text with
  | nil => rfl
  | cons c text ih =>
      rw [List.flatMap_cons, percentBytes_percentChar, ih]
      rfl

theorem utf8_injective {left right : List Char}
    (same : left.flatMap String.utf8EncodeChar = right.flatMap String.utf8EncodeChar) :
    left = right := by
  have encoded : left.utf8Encode = right.utf8Encode := by
    simp only [List.utf8Encode, same]
  have decoded := congrArg ByteArray.utf8Decode? encoded
  rw [List.utf8Decode?_utf8Encode, List.utf8Decode?_utf8Encode] at decoded
  exact congrArg Array.toList (Option.some.inj decoded)

theorem percentEncode_injective {left right : String}
    (same : percentEncode left = percentEncode right) : left = right := by
  have texts := congrArg String.toList same
  simp only [percentEncode, String.toList_ofList] at texts
  have bytes := congrArg percentBytes texts
  rw [percentBytes_encode, percentBytes_encode] at bytes
  exact String.toList_inj.mp (utf8_injective bytes)

/-- An encoded text ends where the first character stands that cannot come out of the
    encoding. -/
theorem percentEncode_unambiguous {left right : String} {rest rest' : List Char}
    (ends : ∀ c ∈ rest.head?, isEncoded c = false)
    (ends' : ∀ c ∈ rest'.head?, isEncoded c = false)
    (same : (percentEncode left).toList ++ rest = (percentEncode right).toList ++ rest') :
    left = right ∧ rest = rest' := by
  have encoded : ∀ (text : String) (rest : List Char),
      (∀ c ∈ rest.head?, isEncoded c = false) →
      ((percentEncode text).toList ++ rest).takeWhile isEncoded = (percentEncode text).toList := by
    intro text rest ends
    rw [List.takeWhile_append_of_pos fun c member => percentEncode_isEncoded member]
    cases rest with
    | nil => simp
    | cons c rest => simp [ends c rfl]
  have texts : (percentEncode left).toList = (percentEncode right).toList := by
    rw [← encoded left rest ends, same, encoded right rest' ends']
  rw [texts] at same
  exact ⟨percentEncode_injective (String.toList_inj.mp texts), List.append_cancel_left same⟩

end PathQuery.Text
