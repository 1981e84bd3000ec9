import Mathlib.Data.List.Perm.Subperm
import PathQuery.Proofs.Json.Fields

namespace PathQuery.Json

/-! # Equal values

Two objects are equal if every field of the one is a field of the other and they have as
many.  With distinct keys this is so just if under every key both have equal values, or
neither has any.
-/

namespace Fields

variable {α : Type} {pairs : List (String × α)} {key : String}

theorem mem_keys_iff : key ∈ pairs.map Prod.fst ↔ (pairs.lookup key).isSome = true := by
  simp [List.lookup_isSome_iff]

theorem lookup_eq_some_iff (distinct : (pairs.map Prod.fst).Nodup) {value : α} :
    pairs.lookup key = some value ↔ (key, value) ∈ pairs := by
  constructor
  · intro found
    obtain ⟨before, after, rfl, -⟩ := List.lookup_eq_some_iff.mp found
    exact List.mem_append_right before List.mem_cons_self
  · intro member
    obtain ⟨before, after, rfl⟩ := List.append_of_mem member
    rw [List.map_append, List.nodup_append] at distinct
    refine List.lookup_eq_some_iff.mpr ⟨before, after, rfl, fun earlier inBefore => ?_⟩
    have apart := distinct.2.2 _ (List.mem_map_of_mem inBefore) key List.mem_cons_self
    exact bne_iff_ne.mpr apart.symm

end Fields

theorem sameValue_iff_eq {value other : Json} (atomic : IsText value ∨ IsBoolean value) :
    sameValue value other = true ↔ value = other := by
  obtain ⟨text, rfl⟩ | ⟨truth, rfl⟩ := atomic <;> cases other <;> simp [sameValue]

theorem sameItems_iff {left right : List Json} : sameItems left right = true ↔
    List.Forall₂ (fun item item' => sameValue item item' = true) left right := by
  induction left generalizing right with
  | nil => cases right <;> simp [sameItems]
  | cons item left ih => cases right <;> simp [sameItems, ih]

theorem fieldsWithin_iff {left right : Fields} :
    fieldsWithin left right = true ↔ ∀ field ∈ left,
      ∃ value, right.lookup field.1 = some value ∧ sameValue field.2 value = true := by
  induction left with
  | nil => simp [fieldsWithin]
  | cons field left ih =>
      obtain ⟨key, value⟩ := field
      rw [fieldsWithin, Bool.and_eq_true, ih, List.forall_mem_cons]
      cases right.lookup key <;> simp

variable {left right : Fields}

/-- As many fields, with the same keys among them, leave no other keys. -/
theorem keys_perm_of_within (distinct : (left.map Prod.fst).Nodup)
    (lengths : left.length = right.length) (within : fieldsWithin left right = true) :
    (left.map Prod.fst).Perm (right.map Prod.fst) := by
  have among : left.map Prod.fst ⊆ right.map Prod.fst := by
    intro key member
    obtain ⟨field, inLeft, rfl⟩ := List.mem_map.mp member
    obtain ⟨value, found, -⟩ := fieldsWithin_iff.mp within field inLeft
    exact Fields.mem_keys_iff.mpr (by rw [found]; rfl)
  exact (List.subperm_of_subset distinct among).perm_of_length_le (by simp [lengths])

theorem sameValue_object_iff (distinct : (left.map Prod.fst).Nodup)
    (distinct' : (right.map Prod.fst).Nodup) :
    sameValue (.object left) (.object right) = true ↔ ∀ key,
      Option.Rel (fun value value' => sameValue value value' = true)
        (left.lookup key) (right.lookup key) := by
  rw [sameValue, Bool.and_eq_true, beq_iff_eq]
  constructor
  · rintro ⟨lengths, within⟩ key
    cases found : left.lookup key with
    | some value =>
        obtain ⟨value', found', same⟩ :=
          fieldsWithin_iff.mp within _ ((Fields.lookup_eq_some_iff distinct).mp found)
        rw [found']
        exact .some same
    | none =>
        have absent : right.lookup key = none := by
          rw [← Option.not_isSome_iff_eq_none, ← Fields.mem_keys_iff,
            ← (keys_perm_of_within distinct lengths within).mem_iff, Fields.mem_keys_iff, found]
          exact Bool.false_ne_true
        rw [absent]
        exact .none
  · intro related
    have keys : (left.map Prod.fst).Perm (right.map Prod.fst) := by
      refine (List.perm_ext_iff_of_nodup distinct distinct').mpr fun key => ?_
      have pair := related key
      rw [Fields.mem_keys_iff, Fields.mem_keys_iff]
      cases found : left.lookup key <;> cases found' : right.lookup key <;>
        simp [found, found'] at pair ⊢
    refine ⟨by simpa using keys.length_eq, fieldsWithin_iff.mpr fun field member => ?_⟩
    have pair := related field.1
    rw [(Fields.lookup_eq_some_iff distinct).mpr member] at pair
    cases found : right.lookup field.1 with
    | none => simp [found] at pair
    | some value => exact ⟨value, rfl, by simpa [found] using pair⟩

/-- An object is equal to itself if the values in it are. -/
theorem sameValue_object_self (distinct : (left.map Prod.fst).Nodup)
    (each : ∀ field ∈ left, sameValue field.2 field.2 = true) :
    sameValue (.object left) (.object left) = true := by
  refine (sameValue_object_iff distinct distinct).mpr fun key => ?_
  cases found : left.lookup key with
  | none => exact .none
  | some value => exact .some (each _ ((Fields.lookup_eq_some_iff distinct).mp found))

theorem lookup_eq_of_sameValue (distinct : (left.map Prod.fst).Nodup)
    (distinct' : (right.map Prod.fst).Nodup)
    (atomic : ∀ field ∈ left, IsText field.2 ∨ IsBoolean field.2)
    (same : sameValue (.object left) (.object right) = true) (key : String) :
    left.lookup key = right.lookup key := by
  have pair := (sameValue_object_iff distinct distinct').mp same key
  cases found : left.lookup key with
  | none => cases found' : right.lookup key <;> simp [found, found'] at pair ⊢
  | some value =>
      have isAtomic := atomic _ ((Fields.lookup_eq_some_iff distinct).mp found)
      cases found' : right.lookup key with
      | none => simp [found, found'] at pair
      | some value' => simpa [found, found', sameValue_iff_eq isAtomic] using pair

end PathQuery.Json
