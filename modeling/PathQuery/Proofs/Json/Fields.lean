import Mathlib.Data.List.Induction
import Mathlib.Data.List.Nodup
import PathQuery.Json.Basic

namespace PathQuery.Json

/-! # Fields of an object

What is found under a key after another one was set, and in another order.  Fields that are
set one after the other keep each key where it first came up, with the last value.
-/

def IsText (value : Json) : Prop := ∃ text, value = .string text

def IsBoolean (value : Json) : Prop := ∃ truth, value = .bool truth

def IsScalar : Json → Prop
  | array _ => False
  | object _ => False
  | _ => True

namespace Fields

variable {α β : Type}

section

variable {fields : Fields} {key : String} {suits : Json → Prop}

def Has (fields : Fields) (key : String) (suits : Json → Prop) : Prop :=
  ∃ value, fields.lookup key = some value ∧ suits value

/-- What is found under the key suits, or nothing is. -/
def MayHave (fields : Fields) (key : String) (suits : Json → Prop) : Prop :=
  ∀ value, fields.lookup key = some value → suits value

theorem mayHave_of_none (absent : fields.lookup key = none) : fields.MayHave key suits := by
  intro value found
  rw [absent] at found
  contradiction

theorem mayHave_iff {value : Json} (found : fields.lookup key = some value) :
    fields.MayHave key suits ↔ suits value := by
  constructor
  · intro suited
    exact suited value found
  · intro isSuited other foundOther
    rwa [← Option.some.inj (found.symm.trans foundOther)]

/-- The fields with other keys. -/
def without (fields : Fields) (keys : List String) : Fields :=
  fields.filter fun field => field.1 ∉ keys

theorem lookup_without_of_not_mem {keys : List String} (kept : key ∉ keys) :
    (fields.without keys).lookup key = fields.lookup key := by
  induction fields with
  | nil => rfl
  | cons field fields ih =>
      obtain ⟨first, value⟩ := field
      by_cases dropped : first ∈ keys
      · have apart : key ≠ first := by
          rintro rfl
          exact kept dropped
        rw [without, List.filter_cons_of_neg (by simpa using dropped), ← without, ih,
          List.lookup_cons, beq_false_of_ne apart]
      · rw [without, List.filter_cons_of_pos (by simpa using dropped), ← without,
          List.lookup_cons, List.lookup_cons, ih]

theorem contains_without_of_mem {keys : List String} (dropped : key ∈ keys) :
    (fields.without keys).contains key = false := by
  rw [contains, Option.isSome_eq_false_iff, Option.isNone_iff_eq_none, List.lookup_eq_none_iff]
  intro field member
  have kept := (List.mem_filter.mp member).2
  refine bne_iff_ne.mpr ?_
  rintro rfl
  exact of_decide_eq_true kept dropped

end

theorem lookup_insert (key : String) (value : Json) (fields : Fields) :
    (insert key value fields).lookup key = some value := by
  induction fields with
  | nil => simp [insert]
  | cons field fields ih =>
      rw [insert]
      split
      · exact List.lookup_cons_self
      · rename_i other
        rw [List.lookup_cons, beq_false_of_ne (Ne.symm other)]
        exact ih

theorem lookup_insert_of_ne {key other : String} (apart : other ≠ key) (value : Json)
    (fields : Fields) : (insert key value fields).lookup other =
      fields.lookup other := by
  induction fields with
  | nil => rw [insert, List.lookup_cons, beq_false_of_ne apart]
  | cons field fields ih =>
      rw [insert]
      split
      · rename_i same
        rw [List.lookup_cons, List.lookup_cons, beq_false_of_ne apart, same,
          beq_false_of_ne apart]
      · rw [List.lookup_cons, List.lookup_cons, ih]

theorem lookup_reverse_isSome (fields : Fields) (key : String) :
    (fields.reverse.lookup key).isSome = (fields.lookup key).isSome := by
  rw [Bool.eq_iff_iff, List.lookup_isSome_iff, List.lookup_isSome_iff]
  simp only [List.mem_reverse]

/-- Among different keys the order does not count. -/
theorem lookup_reverse {fields : List (String × α)} (distinct : (fields.map Prod.fst).Nodup)
    (key : String) : fields.reverse.lookup key = fields.lookup key := by
  induction fields with
  | nil => rfl
  | cons field fields ih =>
      obtain ⟨first, value⟩ := field
      rw [List.map_cons, List.nodup_cons] at distinct
      rw [List.reverse_cons, List.lookup_append, ih distinct.2, List.lookup_cons, List.lookup_cons]
      by_cases same : key = first
      · subst same
        have absent : fields.lookup key = none := by
          refine List.lookup_eq_none_iff.mpr fun other member => ?_
          refine bne_iff_ne.mpr fun same => distinct.1 ?_
          exact List.mem_map.mpr ⟨other, member, same.symm⟩
        simp [absent]
      · simp [beq_false_of_ne same]

theorem eraseDups_concat (keys : List String) (key : String) :
    (keys ++ [key]).eraseDups = if key ∈ keys then keys.eraseDups else keys.eraseDups ++ [key] := by
  rw [List.eraseDups_append]
  split
  · rename_i member
    simp [List.removeAll, member]
  · rename_i absent
    simp [List.removeAll, absent, List.eraseDups_cons]

theorem nodup_eraseDups (keys : List String) : keys.eraseDups.Nodup := by
  induction keys using List.reverseRecOn with
  | nil => exact List.nodup_nil
  | append_singleton keys key ih =>
      rw [eraseDups_concat]
      split
      · exact ih
      · rename_i absent
        exact List.nodup_append.mpr ⟨ih, List.nodup_singleton key, by
          rintro other member _ isKey rfl
          rw [List.mem_singleton] at isKey
          exact absent (isKey ▸ List.mem_eraseDups.mp member)⟩

theorem eraseDups_eq_self {keys : List String} (distinct : keys.Nodup) : keys.eraseDups = keys := by
  induction keys using List.reverseRecOn with
  | nil => rfl
  | append_singleton keys key ih =>
      obtain ⟨first, -, apart⟩ := List.nodup_append.mp distinct
      have absent : key ∉ keys := fun member => apart key member key (List.mem_singleton_self key) rfl
      rw [eraseDups_concat, if_neg absent, ih first]

/-- Each key of a list of pairs, where it first comes up, with its last value. -/
def latest (pairs : List (String × α)) : List (String × α) :=
  (pairs.map Prod.fst).eraseDups.filterMap fun key => (key, ·) <$> pairs.reverse.lookup key

/-- Pairs with different keys are what is found under their keys. -/
theorem filterMap_lookup {pairs : List (String × α)} (distinct : (pairs.map Prod.fst).Nodup) :
    (pairs.map Prod.fst).filterMap (fun key => (key, ·) <$> pairs.lookup key) = pairs := by
  induction pairs with
  | nil => rfl
  | cons pair pairs ih =>
      obtain ⟨key, value⟩ := pair
      rw [List.map_cons, List.nodup_cons] at distinct
      have others : (pairs.map Prod.fst).filterMap
          (fun other => (other, ·) <$> ((key, value) :: pairs).lookup other) = pairs := by
        refine (List.filterMap_congr fun other member => ?_).trans (ih distinct.2)
        have apart : other ≠ key := fun same => distinct.1 (same ▸ member)
        rw [List.lookup_cons, beq_false_of_ne apart]
      rw [List.map_cons, List.filterMap_cons, List.lookup_cons_self, others]
      rfl

theorem keys_latest (pairs : List (String × α)) :
    (latest pairs).map Prod.fst = (pairs.map Prod.fst).eraseDups := by
  have each : ∀ keys : List String, (∀ key ∈ keys, key ∈ pairs.map Prod.fst) →
      (keys.filterMap fun key => (key, ·) <$> pairs.reverse.lookup key).map Prod.fst = keys := by
    intro keys within
    induction keys with
    | nil => rfl
    | cons key keys ih =>
        obtain ⟨isKey, others⟩ := List.forall_mem_cons.mp within
        obtain ⟨pair, member, rfl⟩ := List.mem_map.mp isKey
        have isSome : (pairs.reverse.lookup pair.1).isSome = true :=
          List.lookup_isSome_iff.mpr ⟨pair, List.mem_reverse.mpr member, beq_self_eq_true pair.1⟩
        obtain ⟨value, found⟩ := Option.isSome_iff_exists.mp isSome
        rw [List.filterMap_cons_some (by rw [found]; rfl), List.map_cons, ih others]
  exact each _ fun key member => List.mem_eraseDups.mp member

theorem latest_eq_self_iff {pairs : List (String × α)} :
    latest pairs = pairs ↔ (pairs.map Prod.fst).Nodup := by
  constructor
  · intro same
    rw [← same, keys_latest]
    exact nodup_eraseDups _
  · intro distinct
    simp only [latest, eraseDups_eq_self distinct, lookup_reverse distinct]
    exact filterMap_lookup distinct

theorem latest_map (f : α → β) (pairs : List (String × α)) :
    latest (pairs.map fun pair => (pair.1, f pair.2)) =
      (latest pairs).map fun pair => (pair.1, f pair.2) := by
  have found : ∀ (pairs : List (String × α)) (key : String),
      (pairs.map fun pair => (pair.1, f pair.2)).lookup key = f <$> pairs.lookup key := by
    intro pairs key
    induction pairs with
    | nil => rfl
    | cons pair pairs ih =>
        obtain ⟨first, value⟩ := pair
        rw [List.map_cons, List.lookup_cons, List.lookup_cons, ih]
        cases key == first <;> rfl
  simp only [latest, List.map_map, List.map_filterMap, ← List.map_reverse, found, Function.comp_def,
    Option.map_eq_map, Option.map_map]

theorem keys_insert (key : String) (value : Json) (fields : Fields) :
    (insert key value fields).map Prod.fst =
      if key ∈ fields.map Prod.fst then fields.map Prod.fst else fields.map Prod.fst ++ [key] := by
  induction fields with
  | nil => rfl
  | cons field fields ih =>
      rw [insert]
      split
      · rename_i same
        simp [same]
      · rename_i apart
        rw [List.map_cons, ih]
        have iff : key ∈ (field :: fields).map Prod.fst ↔ key ∈ fields.map Prod.fst := by
          rw [List.map_cons, List.mem_cons, or_iff_right (Ne.symm apart)]
        simp only [iff]
        split <;> rfl

/-- Setting keys one after the other leaves each with its last value. -/
theorem ofList_eq_latest (pairs : List (String × Json)) : ofList pairs = latest pairs := by
  have concat : ∀ (pairs : List (String × Json)) (pair : String × Json),
      ofList (pairs ++ [pair]) = insert pair.1 pair.2 (ofList pairs) := by
    intro pairs pair
    rw [ofList, List.foldl_append]
    rfl
  have keys : (ofList pairs).map Prod.fst = (pairs.map Prod.fst).eraseDups := by
    induction pairs using List.reverseRecOn with
    | nil => rfl
    | append_singleton pairs pair ih =>
        rw [concat, keys_insert, ih, List.map_append, List.map_singleton, eraseDups_concat]
        simp only [List.mem_eraseDups]
  have values : ∀ key, (ofList pairs).lookup key = pairs.reverse.lookup key := by
    clear keys
    intro key
    induction pairs using List.reverseRecOn with
    | nil => rfl
    | append_singleton pairs pair ih =>
        rw [concat, List.reverse_append, List.reverse_singleton, List.singleton_append]
        by_cases same : key = pair.1
        · rw [same, lookup_insert, List.lookup_cons_self]
        · rw [lookup_insert_of_ne same, ih, List.lookup_cons, beq_false_of_ne same]
  have distinct : ((ofList pairs).map Prod.fst).Nodup := keys ▸ nodup_eraseDups _
  rw [latest, ← keys]
  simp only [← values]
  exact (filterMap_lookup distinct).symm

end Fields
end PathQuery.Json
