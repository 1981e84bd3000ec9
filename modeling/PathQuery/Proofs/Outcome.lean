import Mathlib.Data.List.Forall2
import PathQuery.Source.Resolution

namespace PathQuery

/-! # Outcomes

What two steps give, one after the other, is taken apart by one fact: the first step
succeeded, and the second one succeeded on its value.  Or they fail, the first one or the
second on its value.
-/

theorem bind_eq_ok {first : Except ε α} {next : α → Except ε β} {result : β} :
    (first >>= next) = .ok result ↔ ∃ value, first = .ok value ∧ next value = .ok result := by
  cases first with
  | error error => simp [bind, Except.bind]
  | ok value => simp [bind, Except.bind]

theorem bind_eq_error {first : Except ε α} {next : α → Except ε β} {error : ε}
    (fails : first >>= next = .error error) :
    first = .error error ∨ ∃ value, first = .ok value ∧ next value = .error error := by
  cases first with
  | error cause =>
      cases fails
      exact .inl rfl
  | ok value => exact .inr ⟨value, rfl, fails⟩

@[simp] theorem ok_bind (value : α) (next : α → Except ε β) :
    (Except.ok value >>= next) = next value := rfl

@[simp] theorem error_bind (error : ε) (next : α → Except ε β) :
    (Except.error error >>= next) = Except.error error := rfl

@[simp] theorem except_throw (error : ε) : (throw error : Except ε α) = .error error := rfl

@[simp] theorem except_map_ok (f : α → β) (value : α) :
    (f <$> (Except.ok value : Except ε α)) = .ok (f value) := rfl

@[simp] theorem except_map_error (f : α → β) (error : ε) :
    (f <$> (Except.error error : Except ε α)) = .error error := rfl

theorem toOption_eq_some {outcome : Except ε α} {value : α} :
    outcome.toOption = some value ↔ outcome = .ok value := by
  cases outcome with
  | error error => simp [Except.toOption]
  | ok found => simp [Except.toOption]

/-- A list is converted if each of its items is. -/
theorem mapM_eq_ok {convert : α → Except ε β} {items : List α} {results : List β} :
    items.mapM convert = .ok results ↔ (∀ item ∈ items, ∃ result, convert item = .ok result) ∧
      items.filterMap (fun item => (convert item).toOption) = results := by
  induction items generalizing results with
  | nil =>
      constructor
      · rintro ⟨⟩
        exact ⟨nofun, rfl⟩
      · rintro ⟨-, rfl⟩
        rfl
  | cons item items ih =>
      rw [List.mapM_cons, List.forall_mem_cons]
      cases first : convert item with
      | error error => simp
      | ok result =>
          have taken : (item :: items).filterMap (fun item => (convert item).toOption) =
              result :: items.filterMap fun item => (convert item).toOption :=
            List.filterMap_cons_some (toOption_eq_some.mpr first)
          rw [taken, ok_bind, bind_eq_ok]
          constructor
          · rintro ⟨later, converted, done⟩
            cases done
            obtain ⟨each, same⟩ := ih.mp converted
            exact ⟨⟨⟨result, rfl⟩, each⟩, by rw [same]⟩
          · rintro ⟨⟨-, each⟩, same⟩
            exact ⟨_, ih.mpr ⟨each, rfl⟩, congrArg Except.ok same⟩

/-- Its results are those of its items, one by one. -/
theorem mapM_eq_ok_iff_forall₂ {convert : α → Except ε β} {items : List α} {results : List β} :
    items.mapM convert = .ok results ↔
      List.Forall₂ (fun item result => convert item = .ok result) items results := by
  induction items generalizing results with
  | nil =>
      constructor
      · rintro ⟨⟩
        exact .nil
      · rintro ⟨⟩
        rfl
  | cons item items ih =>
      rw [List.mapM_cons, bind_eq_ok]
      constructor
      · rintro ⟨first, isFirst, converted⟩
        obtain ⟨later, areLater, same⟩ := bind_eq_ok.mp converted
        cases same
        exact .cons isFirst (ih.mp areLater)
      · rintro (_ | ⟨isFirst, areLater⟩)
        exact ⟨_, isFirst, by rw [ih.mpr areLater]; rfl⟩

theorem mapM_eq_some {convert : α → Option β} {items : List α} {results : List β}
    (converted : items.mapM convert = some results) :
    List.Forall₂ (fun item result => convert item = some result) items results := by
  induction items generalizing results with
  | nil =>
      cases converted
      exact .nil
  | cons item items ih =>
      simp only [List.mapM_cons, Option.bind_eq_bind, Option.bind_eq_some_iff] at converted
      obtain ⟨first, isFirst, later, areLater, same⟩ := converted
      cases same
      exact .cons isFirst (ih areLater)

end PathQuery
