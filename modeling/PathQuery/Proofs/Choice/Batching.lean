import Mathlib.Data.List.Induction
import Mathlib.Data.List.Nodup
import Mathlib.Data.List.Pairwise
import PathQuery.Choice.Batch

namespace PathQuery.Choice

/-! # What is looked up

A string, an integer, a boolean or a null is told by its text.  Among such values each text
is looked up once, so no text belongs to two batches, and none of a value is left out.
-/

variable {value other : Json} {values choices : List Json}

/-- Strings, integers, booleans and nulls. -/
def isDiscrete : Json → Bool
  | .null | .bool _ | .string _ | .number (.integer _) => true
  | _ => false

/-- A value is the choice if it has the same text. -/
theorem sameChoice_iff (discrete : isDiscrete value = true) :
    sameChoice other value = true ↔ other.plainText = value.plainText := by
  have same : other.sameValue value = true → other.plainText = value.plainText := by
    intro same
    match value, other with
    | .null, .null => rfl
    | .bool _, .bool _ => rw [eq_of_beq same]
    | .string _, .string _ => rw [eq_of_beq same]
    | .number (.integer _), .number (.integer _) => rw [eq_of_beq same]
  simp only [sameChoice, Bool.or_eq_true, beq_iff_eq, or_iff_right_iff_imp]
  exact same

/-- The choices are those of some values, each text once and nulls left out. -/
structure IsDistinct (values choices : List Json) : Prop where
  texts : (choices.map Json.plainText).Nodup
  among : ∀ choice ∈ choices, choice ∈ values ∧ choice.isNull = false
  covers : ∀ value ∈ values, value.isNull = false →
    value.plainText ∈ choices.map Json.plainText

theorem IsDistinct.add (distinct : IsDistinct values choices) (discrete : isDiscrete value = true) :
    IsDistinct (values ++ [value]) (addChoice choices value) := by
  have among : ∀ choice ∈ choices, choice ∈ values ++ [value] ∧ choice.isNull = false :=
    fun choice member => ⟨List.mem_append_left _ (distinct.among choice member).1,
      (distinct.among choice member).2⟩
  rw [addChoice]
  split
  · rename_i known
    refine ⟨distinct.texts, among, fun other member present => ?_⟩
    obtain before | isNew := List.mem_append.mp member
    · exact distinct.covers other before present
    · obtain rfl := List.mem_singleton.mp isNew
      rw [present, Bool.false_or, List.any_eq_true] at known
      obtain ⟨choice, isChoice, same⟩ := known
      exact List.mem_map.mpr ⟨choice, isChoice, (sameChoice_iff discrete).mp same⟩
  · rename_i unknown
    simp only [Bool.or_eq_true, List.any_eq_true, not_or, Bool.not_eq_true, not_exists,
      not_and] at unknown
    obtain ⟨present, fresh⟩ := unknown
    refine ⟨?_, fun choice member => ?_, fun other member isPresent => ?_⟩
    · rw [List.map_append, List.map_singleton]
      refine distinct.texts.append (List.nodup_singleton _) fun text isText isNew => ?_
      obtain ⟨choice, isChoice, same⟩ := List.mem_map.mp isText
      rw [List.mem_singleton.mp isNew] at same
      have known := (sameChoice_iff discrete).mpr same
      rw [fresh choice isChoice] at known
      contradiction
    · obtain before | isNew := List.mem_append.mp member
      · exact among choice before
      · rw [List.mem_singleton.mp isNew]
        exact ⟨List.mem_append_right _ (List.mem_singleton_self _), present⟩
    · rw [List.map_append]
      obtain before | isNew := List.mem_append.mp member
      · exact List.mem_append_left _ (distinct.covers other before isPresent)
      · rw [List.mem_singleton.mp isNew]
        exact List.mem_append_right _ (List.mem_singleton_self _)

theorem isDistinct_distinct (discrete : ∀ value ∈ values, isDiscrete value = true) :
    IsDistinct values (distinct values) := by
  induction values using List.reverseRecOn with
  | nil => exact ⟨List.nodup_nil, nofun, nofun⟩
  | append_singleton values value ih =>
      have before := ih fun other member => discrete other (List.mem_append_left _ member)
      have isDiscrete := discrete value (List.mem_append_right _ (List.mem_singleton_self value))
      rw [distinct, List.foldl_concat]
      exact before.add isDiscrete

theorem flatten_batches (size : Nat) (choices : List Json) :
    (batches size choices).flatten = choices := by
  induction choices using batches.induct size with
  | case1 => simp [batches]
  | case2 choice later ih =>
      rw [batches, List.flatten_cons, ih, List.cons_append, List.take_append_drop]

/-- The batches in which the choices among some values are looked up. -/
def lookedUp (limits : Limits) (values : List Json) : List (List Json) :=
  batches limits.batchSize (distinct values)

/-- Each value but a null is looked up. -/
theorem exists_batch (discrete : ∀ value ∈ values, isDiscrete value = true) (limits : Limits)
    (member : value ∈ values) (present : value.isNull = false) :
    ∃ batch ∈ lookedUp limits values, value.plainText ∈ batch.map Json.plainText := by
  have covered := (isDistinct_distinct discrete).covers value member present
  rw [← flatten_batches limits.batchSize (distinct values)] at covered
  obtain ⟨choice, isChoice, same⟩ := List.mem_map.mp covered
  obtain ⟨batch, isBatch, inBatch⟩ := List.mem_flatten.mp isChoice
  exact ⟨batch, isBatch, List.mem_map.mpr ⟨choice, inBatch, same⟩⟩

/-- No text is looked up twice. -/
theorem batch_unique (discrete : ∀ value ∈ values, isDiscrete value = true) (limits : Limits)
    {left right : List Json} {text : String} (isLeft : left ∈ lookedUp limits values)
    (isRight : right ∈ lookedUp limits values) (inLeft : text ∈ left.map Json.plainText)
    (inRight : text ∈ right.map Json.plainText) : left = right := by
  have texts := (isDistinct_distinct discrete).texts
  rw [← flatten_batches limits.batchSize (distinct values), List.map_flatten] at texts
  have apart := (List.nodup_flatten.mp texts).2
  rw [List.pairwise_map] at apart
  have symmetric : Std.Symm fun left right : List Json =>
      (left.map Json.plainText).Disjoint (right.map Json.plainText) :=
    ⟨fun _ _ disjoint text inRight inLeft => disjoint inLeft inRight⟩
  by_contra different
  exact apart.forall isLeft isRight different inLeft inRight

end PathQuery.Choice
