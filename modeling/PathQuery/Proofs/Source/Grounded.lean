import PathQuery.Source.Definitions
import PathQuery.Proofs.Source.Walk

namespace PathQuery.Source

/-! # Grounded sources

A resolved source is grounded in some contexts when it is what resolving its steps in
one of them gives, and so is every named source that it continues.  The named sources
of a table are grounded in the contexts of their table, because each is resolved
against those declared before it and a sourcekey never changes its source.
-/

/-- The source is the outcome of walks in admitted contexts, and its sourcekeys name
what it continues. -/
inductive Grounded (admits : Context → Prop) : Resolved → Prop
  | fromRoot {context : Context} {spec : Spec} {walk : Walk} {route : Route}
      (admitted : admits context) (plain : spec.sourcekey? = none)
      (walked : (Walk.start context.root).steps context spec.steps = .ok walk)
      (ended : walk.route context spec = .ok route) :
      Grounded admits (.fromRoot route)
  | continuing {context : Context} {key column : String} {start : Resolved}
      {later : List Step} {walk : Walk} {route : Route}
      (admitted : admits context) (named : context.named key = some start)
      (path : start.hasPath = true) (grounded : Grounded admits start)
      (walked : (Walk.after start).steps context later = .ok walk)
      (ended : walk.route context ⟨.sourcekey key :: later, column⟩ = .ok route) :
      Grounded admits (.continuing key start route)

theorem Context.start_eq_ok {context : Context} {key : String} {start : Resolved} :
    context.start key = .ok start ↔ context.named key = some start ∧ start.hasPath = true := by
  unfold Context.start
  cases context.named key with
  | none => simp
  | some source =>
      dsimp only
      split
      · rename_i path
        constructor
        · intro same
          cases same
          exact ⟨rfl, path⟩
        · rintro ⟨same, -⟩
          cases same
          rfl
      · rename_i pathless
        constructor
        · intro same
          contradiction
        · rintro ⟨same, path⟩
          cases same
          exact absurd path pathless

theorem Context.start_error {context : Context} {key : String} {error : ResolveError}
    (failed : context.start key = .error error) :
    error = .undefinedSourcekey key ∨ error = .notAPath key := by
  unfold Context.start at failed
  split at failed
  · exact .inl (Except.error.inj failed).symm
  · split at failed
    · contradiction
    · exact .inr (Except.error.inj failed).symm

theorem Spec.sourcekey?_eq_some {spec : Spec} {key : String} :
    spec.sourcekey? = some key ↔ ∃ later, spec.steps = .sourcekey key :: later := by
  obtain ⟨steps, column⟩ := spec
  cases steps with
  | nil => simp [sourcekey?]
  | cons first later => cases first <;> simp [sourcekey?]

theorem Spec.resolve_sourcekey (context : Context) (key column : String) (later : List Step) :
    (Spec.mk (.sourcekey key :: later) column).resolve context = (do
      let start ← context.start key
      let walk ← (Walk.after start).steps context later
      let route ← walk.route context ⟨.sourcekey key :: later, column⟩
      return .continuing key start route) := rfl

theorem Spec.resolve_plain (context : Context) {spec : Spec}
    (plain : spec.sourcekey? = none) :
    spec.resolve context = (do
      let walk ← (Walk.start context.root).steps context spec.steps
      let route ← walk.route context spec
      return .fromRoot route) := by
  obtain ⟨steps, column⟩ := spec
  cases steps with
  | nil => rfl
  | cons step later =>
      cases step with
      | sourcekey key => simp [Spec.sourcekey?] at plain
      | filter tree => rfl
      | hop step => rfl

theorem Spec.resolve_cases {context : Context} {spec : Spec} {source : Resolved}
    (resolved : spec.resolve context = .ok source) :
    (∃ walk route, spec.sourcekey? = none ∧
      (Walk.start context.root).steps context spec.steps = .ok walk ∧
      walk.route context spec = .ok route ∧ source = .fromRoot route) ∨
    (∃ key later start walk route, spec = ⟨.sourcekey key :: later, spec.column⟩ ∧
      context.named key = some start ∧ start.hasPath = true ∧
      (Walk.after start).steps context later = .ok walk ∧
      walk.route context spec = .ok route ∧ source = .continuing key start route) := by
  cases leads : spec.sourcekey? with
  | none =>
      rw [Spec.resolve_plain context leads] at resolved
      obtain ⟨walk, walked, resolved⟩ := bind_eq_ok.mp resolved
      obtain ⟨route, ended, resolved⟩ := bind_eq_ok.mp resolved
      cases resolved
      exact .inl ⟨walk, route, rfl, walked, ended, rfl⟩
  | some key =>
      obtain ⟨steps, column⟩ := spec
      obtain ⟨later, rfl⟩ := Spec.sourcekey?_eq_some.mp leads
      rw [Spec.resolve_sourcekey] at resolved
      obtain ⟨start, found, resolved⟩ := bind_eq_ok.mp resolved
      obtain ⟨walk, walked, resolved⟩ := bind_eq_ok.mp resolved
      obtain ⟨route, ended, resolved⟩ := bind_eq_ok.mp resolved
      cases resolved
      obtain ⟨named, path⟩ := Context.start_eq_ok.mp found
      exact .inr ⟨key, later, start, walk, route, rfl, named, path, walked, ended, rfl⟩

/-- A source fails at one of its steps, or for what it starts or ends with. -/
theorem Spec.resolve_error {context : Context} {spec : Spec} {error : ResolveError}
    (failed : spec.resolve context = .error error) :
    (∃ reached : Walk, ∃ step ∈ spec.steps, reached.step context step = .error error) ∨
    (∃ key, error = .undefinedSourcekey key ∨ error = .notAPath key) ∨
    (∃ table, error = .invalidColumn spec.column table) := by
  cases leads : spec.sourcekey? with
  | none =>
      rw [Spec.resolve_plain context leads] at failed
      obtain failed | ⟨walk, -, failed⟩ := bind_eq_error failed
      · exact .inl (Walk.steps_error failed)
      obtain failed | ⟨route, -, failed⟩ := bind_eq_error failed
      · exact .inr (.inr ⟨_, Walk.route_error failed⟩)
      · contradiction
  | some key =>
      obtain ⟨steps, column⟩ := spec
      obtain ⟨later, rfl⟩ := Spec.sourcekey?_eq_some.mp leads
      rw [Spec.resolve_sourcekey] at failed
      obtain failed | ⟨start, -, failed⟩ := bind_eq_error failed
      · exact .inr (.inl ⟨key, Context.start_error failed⟩)
      obtain failed | ⟨walk, -, failed⟩ := bind_eq_error failed
      · obtain ⟨reached, step, member, failed⟩ := Walk.steps_error failed
        exact .inl ⟨reached, step, List.mem_cons_of_mem _ member, failed⟩
      obtain failed | ⟨route, -, failed⟩ := bind_eq_error failed
      · exact .inr (.inr ⟨_, Walk.route_error failed⟩)
      · contradiction

theorem Grounded.of_resolve {admits : Context → Prop} {context : Context} {spec : Spec}
    {source : Resolved} (admitted : admits context)
    (grounded : ∀ key start, context.named key = some start → Grounded admits start)
    (resolved : spec.resolve context = .ok source) : Grounded admits source := by
  obtain ⟨walk, route, plain, walked, ended, rfl⟩ |
    ⟨key, later, start, walk, route, same, named, path, walked, ended, rfl⟩ :=
    Spec.resolve_cases resolved
  · exact .fromRoot admitted plain walked ended
  · rw [same] at ended
    exact .continuing admitted named path (grounded key start named) walked ended

/-- Contexts may learn further sourcekeys, as long as they keep those they know. -/
theorem Grounded.mono {admits wider : Context → Prop} {source : Resolved}
    (widen : ∀ context, admits context → ∃ named, wider { context with named } ∧
      ∀ key start, context.named key = some start → named key = some start)
    (grounded : Grounded admits source) : Grounded wider source := by
  induction grounded with
  | @fromRoot context spec walk route admitted plain walked ended =>
      obtain ⟨named, admitted', -⟩ := widen context admitted
      refine .fromRoot admitted' plain ?_ ended
      rwa [Walk.steps_named]
  | @continuing context key column start later walk route admitted named path _ walked ended
      ih =>
      obtain ⟨named', admitted', keeps⟩ := widen context admitted
      refine .continuing admitted' (keeps key start named) path ih ?_ ended
      rwa [Walk.steps_named]

theorem Grounded.anywhere {admits : Context → Prop} {source : Resolved}
    (grounded : Grounded admits source) : Grounded (fun _ => True) source :=
  grounded.mono fun context _ => ⟨context.named, trivial, fun _ _ same => same⟩

namespace Definitions

theorem get?_eq_some {definitions : Definitions} {key : String} {source : Resolved} :
    definitions.get? key = some source ↔
      ∃ definition, definitions.definition? key = some definition ∧
        definition.source = source := by
  simp [get?]

theorem definition?_sourcekey {definitions : Definitions} {key : String}
    {definition : Definition} (found : definitions.definition? key = some definition) :
    definition ∈ definitions.entries ∧ definition.sourcekey = key :=
  ⟨List.mem_of_find?_eq_some found,
    beq_iff_eq.mp (List.find?_some (p := fun entry : Definition => entry.sourcekey == key) found)⟩

end Definitions

end PathQuery.Source
