import Mathlib.Data.List.Forall2

namespace PathQuery.Text

/-! # Separated pieces

Pieces with a separator before each and a closing character at the end can be told apart
from left to right, as long as each piece can be told from what may follow it.
-/

theorem intercalate_cons_eq (separator : Char) (first : List Char) (rest : List (List Char)) :
    [separator].intercalate (first :: rest) =
      first ++ rest.flatMap (fun piece => separator :: piece) := by
  induction rest generalizing first with
  | nil => simp
  | cons next rest ih =>
      rw [List.intercalate_cons_cons, ih, List.flatMap_cons]
      simp

theorem mem_intercalate {separator : List α} {pieces : List (List α)} {item : α}
    (member : item ∈ separator.intercalate pieces) :
    item ∈ separator ∨ ∃ piece ∈ pieces, item ∈ piece := by
  induction pieces with
  | nil => contradiction
  | cons first rest ih =>
      cases rest with
      | nil =>
          rw [List.intercalate_singleton] at member
          exact .inr ⟨first, List.mem_cons_self, member⟩
      | cons second rest =>
          rw [List.intercalate_cons_cons, List.mem_append, List.mem_append] at member
          obtain (inFirst | inSeparator) | inRest := member
          · exact .inr ⟨first, List.mem_cons_self, inFirst⟩
          · exact .inl inSeparator
          · exact (ih inRest).imp_right fun ⟨piece, listed, inPiece⟩ =>
              ⟨piece, List.mem_cons_of_mem first listed, inPiece⟩

/-- What stands before and after one of the pieces. -/
theorem intercalate_around (separator : Char) (before after : List (List Char))
    (piece : List Char) :
    [separator].intercalate (before ++ piece :: after) =
      before.flatMap (· ++ [separator]) ++ piece ++ after.flatMap (separator :: ·) := by
  induction before with
  | nil => simp [intercalate_cons_eq]
  | cons first before ih =>
      rw [List.cons_append, List.intercalate_cons_of_ne_nil (by simp), ih]
      simp

/-- What two lists of pieces come to is the same only if the pieces match in turn, and
if there is a piece at all, the separators are the same. -/
theorem separated_eq {write : α → List Char} {follows : List Char → Prop}
    {related : α → α → Prop} {separator separator' close : Char}
    (distinct : separator ≠ close) (distinct' : separator' ≠ close)
    (afterSeparator : ∀ rest, follows (separator :: rest))
    (afterSeparator' : ∀ rest, follows (separator' :: rest))
    (beforeClose : ∀ rest, follows (close :: rest)) {left right : List α}
    (reads : ∀ x ∈ left, ∀ y ∈ right, ∀ rest rest', follows rest → follows rest' →
      write x ++ rest = write y ++ rest' → related x y ∧ rest = rest')
    {rest rest' : List Char}
    (same : left.flatMap (fun item => separator :: write item) ++ close :: rest =
      right.flatMap (fun item => separator' :: write item) ++ close :: rest') :
    List.Forall₂ related left right ∧ rest = rest' ∧ (left = [] ∨ separator = separator') := by
  induction left generalizing right with
  | nil =>
      cases right with
      | nil =>
          exact ⟨.nil, (List.cons.inj same).2, .inl rfl⟩
      | cons y right =>
          exact absurd (List.cons.inj same).1.symm distinct'
  | cons x left ih =>
      cases right with
      | nil =>
          exact absurd (List.cons.inj same).1 distinct
      | cons y right =>
          simp only [List.flatMap_cons, List.cons_append, List.append_assoc,
            List.cons.injEq] at same
          obtain ⟨separators, same⟩ := same
          have followed : ∀ (items : List α) c, (∀ rest, follows (c :: rest)) → ∀ rest, follows
              (items.flatMap (fun item => c :: write item) ++ close :: rest) := by
            intro items c afterChar rest
            cases items with
            | nil => exact beforeClose rest
            | cons item items => exact afterChar _
          obtain ⟨first, same⟩ := reads x List.mem_cons_self y List.mem_cons_self _ _
            (followed left separator afterSeparator rest)
            (followed right separator' afterSeparator' rest') same
          obtain ⟨later, ended, -⟩ := ih (fun x inLeft y inRight =>
            reads x (List.mem_cons_of_mem _ inLeft) y (List.mem_cons_of_mem _ inRight)) same
          exact ⟨.cons first later, ended, .inr separators⟩

theorem of_mem_splitOnP {p : α → Bool} {items piece : List α}
    (member : piece ∈ items.splitOnP p) : ∀ item ∈ piece, item ∈ items ∧ p item = false := by
  induction items generalizing piece with
  | nil =>
      rw [List.splitOnP_nil, List.mem_singleton] at member
      rw [member]
      nofun
  | cons first rest ih =>
      have later : piece ∈ rest.splitOnP p → ∀ item ∈ piece, item ∈ first :: rest ∧ p item = false :=
        fun member item inPiece => (ih member item inPiece).imp_left (List.mem_cons_of_mem first)
      rw [List.splitOnP_cons_eq_if_modifyHead] at member
      cases isCut : p first with
      | true =>
          rw [if_pos isCut, List.mem_cons] at member
          obtain rfl | member := member
          · nofun
          · exact later member
      | false =>
          rw [if_neg (Bool.eq_false_iff.mp isCut)] at member
          obtain ⟨head, others, split⟩ := List.exists_cons_of_ne_nil (List.splitOnP_ne_nil p rest)
          rw [split, List.modifyHead_cons, List.mem_cons] at member
          obtain rfl | member := member
          · rw [List.forall_mem_cons]
            refine ⟨⟨List.mem_cons_self, isCut⟩, fun item inHead => ?_⟩
            exact (ih (split ▸ List.mem_cons_self) item inHead).imp_left (List.mem_cons_of_mem first)
          · exact later (split ▸ List.mem_cons_of_mem head member)

theorem not_mem_of_mem_splitOn {separator : Char} {text piece : List Char}
    (member : piece ∈ text.splitOn separator) : separator ∉ piece := by
  intro separates
  rw [List.splitOn_eq_splitOnP] at member
  simpa using (of_mem_splitOnP member separator separates).2

/-- What separators, or the ends of the text, stand around is one of its pieces. -/
theorem mem_splitOn_around {separator : Char} {before piece after : List Char}
    (whole : separator ∉ piece) (cutBefore : ∀ c ∈ before.getLast?, c = separator)
    (cutAfter : ∀ c ∈ after.head?, c = separator) :
    piece ∈ (before ++ piece ++ after).splitOn separator := by
  have isFirst : piece ∈ (piece ++ after).splitOn separator := by
    cases after with
    | nil =>
        rw [List.append_nil, List.splitOn_eq_singleton whole]
        exact List.mem_singleton_self piece
    | cons c after =>
        obtain rfl := cutAfter c rfl
        rw [List.splitOn_append_cons_self_of_not_mem whole]
        exact List.mem_cons_self
  obtain rfl | ⟨before, c, rfl⟩ := List.eq_nil_or_concat' before
  · exact isFirst
  · obtain rfl := cutBefore c (by simp)
    rw [List.append_assoc, List.append_assoc, List.singleton_append,
      List.splitOn_append_cons_self]
    exact List.mem_append_right _ isFirst

end PathQuery.Text
