import PathQuery.Proofs.Source.Grounded

namespace PathQuery.Source

/-! # The named sources of a table

The definitions of a table are built by appending one definition after the other.  What
holds of no definitions, and goes on to hold when one more is declared, holds of those
that are built.  So a sourcekey keeps the source it was given, its source is grounded,
and its dependencies are the sourcekeys on the chain of what its source continues, on
which no sourcekey comes back to itself.
-/

/-- The sourcekeys that a source continues, one after the other. -/
def Resolved.chain : Resolved → List String
  | .fromRoot _ => []
  | .continuing key start _ => key :: start.chain

/-- No sourcekey is on the chain of its own source. -/
def Acyclic (named : String → Option Resolved) : Prop :=
  ∀ key source, named key = some source → key ∉ source.chain

theorem Spec.resolve_spec {context : Context} {spec : Spec} {source : Resolved}
    (resolved : spec.resolve context = .ok source) : source.spec = spec := by
  obtain ⟨walk, route, -, -, ended, rfl⟩ | ⟨key, later, start, walk, route, -, -, -, -, ended, rfl⟩ :=
    Spec.resolve_cases resolved
  · obtain ⟨column, -, rfl⟩ := Walk.route_eq_ok ended
    rfl
  · obtain ⟨column, -, rfl⟩ := Walk.route_eq_ok ended
    rfl

/-- The contexts that know some named sources. -/
def Naming (named : String → Option Resolved) (context : Context) : Prop := context.named = named

/-- Contexts of a table in the directory. -/
def Within (directory : Directory) (root : Table) (sources : String → Option Resolved)
    (context : Context) : Prop :=
  context.directory = directory ∧ context.root = root ∧ context.named = sources

namespace Definitions

/-- What the sources of a table are resolved in. -/
def context (definitions : Definitions) (directory : Directory) (engine : Template.Engine)
    (row : Row) : Context where
  directory := directory
  root := definitions.table
  named := definitions.get?
  engine := engine
  row := row

theorem resolve_eq (definitions : Definitions) (directory : Directory)
    (engine : Template.Engine) (row : Row) (spec : Spec) :
    definitions.resolve directory engine row spec =
      spec.resolve (definitions.context directory engine row) := rfl

theorem dependencies_of_definition? {definitions : Definitions} {key : String}
    {definition : Definition} (found : definitions.definition? key = some definition) :
    definitions.dependencies key = definition.dependencies := by
  simp [dependencies, found]

/-- What a spec depends on through the sourcekey it starts with. -/
def inherited (definitions : Definitions) (spec : Spec) : List String :=
  (spec.sourcekey?.map definitions.dependencies).getD []

theorem define?_eq_some {definitions : Definitions} {directory : Directory}
    {engine : Template.Engine} {row : Row} {key : String} {value : Json}
    {definition : Definition}
    (defined : definitions.define? directory engine row key value = some definition) :
    ∃ declaration item, value = .object declaration ∧
      declaration.lookup sourceKey = some item ∧
      Spec.ofJson item = .ok definition.source.spec ∧
      definitions.resolve directory engine row definition.source.spec =
        .ok definition.source ∧
      definition.sourcekey = key ∧ definition.declaration = declaration ∧
      definition.token = definition.source.spec.token ∧
      definition.dependencies = key :: definitions.inherited definition.source.spec := by
  unfold define? at defined
  split at defined
  · contradiction
  · simp only [Option.bind_eq_bind, Option.pure_def, Option.bind_eq_some_iff,
      Option.some.injEq, toOption_eq_some] at defined
    obtain ⟨declaration, isObject, item, found, spec, read, source, resolved, rfl⟩ := defined
    have same : source.spec = spec := Spec.resolve_spec resolved
    cases value with
    | object fields =>
        obtain rfl : fields = declaration := by simpa [Json.object?] using isObject
        refine ⟨fields, item, rfl, found, ?_, ?_, rfl, rfl, ?_, ?_⟩
        · rw [same, read]
        · rw [same, resolved]
        · rw [same]
        · simp only [inherited, same]
          cases spec.sourcekey? <;> rfl
    | _ => contradiction

def extend (definitions : Definitions) (definition : Definition) : Definitions :=
  { definitions with entries := definitions.entries ++ [definition] }

theorem definition?_extend (definitions : Definitions) (definition : Definition)
    (key : String) :
    (definitions.extend definition).definition? key =
      (definitions.definition? key).or
        (if definition.sourcekey = key then some definition else none) := by
  by_cases same : definition.sourcekey = key
  · simp [definition?, extend, List.find?_append, same]
  · simp [definition?, extend, List.find?_append, same]

/-- Declaring a source leaves the sourcekeys that are defined already as they are. -/
theorem definition?_extend_of_some {definitions : Definitions} {added found : Definition}
    {key : String} (defined : definitions.definition? key = some found) :
    (definitions.extend added).definition? key = some found := by
  simp [definition?_extend, defined]

theorem get?_extend_of_some {definitions : Definitions} {added : Definition} {key : String}
    {source : Resolved} (defined : definitions.get? key = some source) :
    (definitions.extend added).get? key = some source := by
  obtain ⟨definition, found, rfl⟩ := get?_eq_some.mp defined
  exact get?_eq_some.mpr ⟨definition, definition?_extend_of_some found, rfl⟩

/-- A definition that is found after one more was declared is an old one or the new one,
which then has a sourcekey of its own. -/
theorem definition?_extend_cases {definitions : Definitions} {added found : Definition}
    {key : String} (defined : (definitions.extend added).definition? key = some found) :
    definitions.definition? key = some found ∨
      (definitions.definition? key = none ∧ found = added ∧ added.sourcekey = key) := by
  rw [definition?_extend] at defined
  cases old : definitions.definition? key with
  | some definition =>
      rw [old] at defined
      exact .inl defined
  | none =>
      rw [old, Option.none_or] at defined
      split at defined
      · rename_i same
        cases defined
        exact .inr ⟨rfl, rfl, same⟩
      · contradiction

theorem build_induction {directory : Directory} {table : Table} {engine : Template.Engine}
    {row : Row} {motive : Definitions → Prop}
    (empty : motive { table, entries := [], searchColumns := [] })
    (declared : ∀ definitions key value definition, definitions.table = table →
      motive definitions → (key, value) ∈ table.sourceDefinitions →
      definitions.define? directory engine row key value = some definition →
      motive (definitions.extend definition)) :
    motive { build directory table engine row with searchColumns := [] } := by
  have step : ∀ (fields : Json.Fields) (definitions : Definitions),
      (∀ field ∈ fields, field ∈ table.sourceDefinitions) → definitions.table = table →
      definitions.searchColumns = [] → motive definitions →
      motive { fields.foldl (declare directory engine row) definitions with
        searchColumns := [] } := by
    intro fields
    induction fields with
    | nil =>
        intro definitions _ _ none holds
        obtain ⟨table, entries, columns⟩ := definitions
        cases none
        exact holds
    | cons field fields ih =>
        intro definitions within same none holds
        have rest := fun next member => within next (List.mem_cons_of_mem field member)
        rw [List.foldl_cons]
        cases defined : definitions.define? directory engine row field.1 field.2 with
        | none => simpa [declare, defined] using ih definitions rest same none holds
        | some definition =>
            have member := within field (List.mem_cons_self ..)
            have holds := declared definitions field.1 field.2 definition same holds member defined
            have declares : declare directory engine row definitions field =
                definitions.extend definition := by simp only [declare, defined, extend]
            rw [declares]
            exact ih (definitions.extend definition) rest same none holds
  exact step _ _ (fun _ member => member) rfl rfl empty

@[simp] theorem build_table (directory : Directory) (table : Table) (engine : Template.Engine)
    (row : Row) : (build directory table engine row).table = table :=
  build_induction (motive := fun definitions => definitions.table = table) rfl
    (fun _ _ _ _ same _ _ _ => same)

theorem build_grounded {directory : Directory} {table : Table} {engine : Template.Engine}
    {row : Row} {key : String} {source : Resolved}
    (found : (build directory table engine row).get? key = some source) :
    Grounded (· = (build directory table engine row).context directory engine row) source := by
  have all := @build_induction directory table engine row
    (fun definitions => ∀ key source, definitions.get? key = some source →
      Grounded (· = definitions.context directory engine row) source)
    (by intro key source found; simp [get?, definition?] at found) ?_
  · exact all key source found
  · intro definitions key value definition _ grounded _ defined name source found
    obtain ⟨_, _, -, -, -, resolved, -⟩ := define?_eq_some defined
    have widen : ∀ context, context = definitions.context directory engine row →
        ∃ named, { context with named } =
          (definitions.extend definition).context directory engine row ∧
        ∀ key start, context.named key = some start → named key = some start := by
      rintro _ rfl
      exact ⟨(definitions.extend definition).get?, rfl, fun _ _ => get?_extend_of_some⟩
    refine Grounded.mono widen ?_
    obtain ⟨entry, foundEntry, rfl⟩ := get?_eq_some.mp found
    rcases definition?_extend_cases foundEntry with old | ⟨-, rfl, -⟩
    · exact grounded name entry.source (get?_eq_some.mpr ⟨entry, old, rfl⟩)
    · exact Grounded.of_resolve rfl grounded resolved

theorem resolve_grounded {directory : Directory} {table : Table} {engine : Template.Engine}
    {row : Row} {spec : Spec} {source : Resolved}
    (resolved : (build directory table engine row).resolve directory engine row spec =
      .ok source) :
    Grounded (· = (build directory table engine row).context directory engine row) source :=
  Grounded.of_resolve rfl (fun _ _ => build_grounded) resolved

theorem build_naming {directory : Directory} {table : Table} {engine : Template.Engine}
    {row : Row} {key : String} {source : Resolved}
    (found : (build directory table engine row).get? key = some source) :
    Grounded (Naming (build directory table engine row).get?) source := by
  refine Grounded.mono ?_ (build_grounded found)
  rintro _ rfl
  exact ⟨_, rfl, fun _ _ same => same⟩

theorem context_within (directory : Directory) (table : Table) (engine : Template.Engine)
    (row : Row) (engine' : Template.Engine) (row' : Row) :
    Within directory table (build directory table engine row).get?
      ((build directory table engine row).context directory engine' row') :=
  ⟨rfl, build_table .., rfl⟩

theorem build_within {directory : Directory} {table : Table} {engine : Template.Engine}
    {row : Row} {key : String} {source : Resolved}
    (found : (build directory table engine row).get? key = some source) :
    Grounded (Within directory table (build directory table engine row).get?) source := by
  refine Grounded.mono ?_ (build_grounded found)
  rintro _ rfl
  exact ⟨_, context_within directory table engine row engine row, fun _ _ same => same⟩

/-- A source may be resolved with another row than the sources that it continues. -/
theorem resolve_within {directory : Directory} {table : Table} {engine engine' : Template.Engine}
    {row row' : Row} {spec : Spec} {source : Resolved}
    (resolved : (build directory table engine row).resolve directory engine' row' spec =
      .ok source) :
    Grounded (Within directory table (build directory table engine row).get?) source :=
  Grounded.of_resolve (context_within directory table engine row engine' row')
    (fun _ _ => build_within) resolved

theorem resolve_naming {definitions : Definitions}
    (grounded : ∀ key source, definitions.get? key = some source →
      Grounded (Naming definitions.get?) source)
    {directory : Directory} {engine : Template.Engine} {row : Row} {spec : Spec}
    {source : Resolved} (resolved : definitions.resolve directory engine row spec = .ok source) :
    Grounded (Naming definitions.get?) source := by
  have admitted : Naming definitions.get? (definitions.context directory engine row) := rfl
  exact Grounded.of_resolve admitted grounded resolved

/-- What is defined depends on what its source continues, none of which is missing, and
not on itself. -/
def Chained (definitions : Definitions) : Prop :=
  ∀ key definition, definitions.definition? key = some definition →
    key ∉ definition.source.chain ∧
    definition.dependencies = key :: definition.source.chain ∧
    ∀ link ∈ definition.source.chain, (definitions.definition? link).isSome = true

theorem Chained.acyclic {definitions : Definitions} (chained : definitions.Chained) :
    Acyclic definitions.get? := by
  intro key source found
  obtain ⟨definition, isDefined, rfl⟩ := get?_eq_some.mp found
  exact (chained key definition isDefined).1

theorem Chained.resolve {definitions : Definitions} (chained : definitions.Chained)
    {directory : Directory} {engine : Template.Engine} {row : Row} {spec : Spec}
    {source : Resolved} (resolved : definitions.resolve directory engine row spec = .ok source) :
    definitions.inherited spec = source.chain ∧
      ∀ link ∈ source.chain, (definitions.definition? link).isSome = true := by
  obtain ⟨walk, route, plain, -, -, rfl⟩ |
    ⟨key, later, start, walk, route, same, named, -, -, -, rfl⟩ := Spec.resolve_cases resolved
  · exact ⟨by rw [inherited, plain]; rfl, nofun⟩
  · obtain ⟨definition, found, rfl⟩ := get?_eq_some.mp named
    obtain ⟨-, depends, defined⟩ := chained key definition found
    constructor
    · rw [same, inherited]
      simp only [Spec.sourcekey?, Option.map_some, Option.getD_some,
        dependencies_of_definition? found, depends, Resolved.chain]
    · intro link member
      obtain rfl | member := List.mem_cons.mp member
      · rw [found]
        rfl
      · exact defined link member

theorem build_chained (directory : Directory) (table : Table) (engine : Template.Engine)
    (row : Row) : (build directory table engine row).Chained := by
  refine @build_induction directory table engine row Chained ?_ ?_
  · intro key definition found
    contradiction
  · intro definitions key value added _ chained _ defined name entry found
    have kept : ∀ links : List String,
        (∀ link ∈ links, (definitions.definition? link).isSome = true) →
        ∀ link ∈ links, ((definitions.extend added).definition? link).isSome = true := by
      intro links defined link member
      obtain ⟨old, found⟩ := Option.isSome_iff_exists.mp (defined link member)
      rw [definition?_extend_of_some found]
      rfl
    rcases definition?_extend_cases found with old | ⟨fresh, rfl, named⟩
    · obtain ⟨apart, depends, links⟩ := chained name entry old
      exact ⟨apart, depends, kept _ links⟩
    · obtain ⟨declaration, item, -, -, -, resolved, same, -, -, depends⟩ := define?_eq_some defined
      obtain ⟨inherits, links⟩ := chained.resolve resolved
      rw [← named, same]
      refine ⟨?_, by rw [depends, inherits], kept _ links⟩
      intro member
      have present := links key member
      rw [← same, named, fresh] at present
      contradiction

theorem mem_searchColumns {directory : Directory} {table : Table} {engine : Template.Engine}
    {row : Row} {column : Resolved}
    (member : column ∈ (build directory table engine row).searchColumns) :
    ∃ spec, (build directory table engine row).resolve directory engine row spec = .ok column := by
  obtain ⟨value, -, found⟩ := List.mem_filterMap.mp member
  simp only [searchColumn?, Option.bind_eq_bind, Option.bind_eq_some_iff, toOption_eq_some] at found
  obtain ⟨item, -, spec, -, resolved⟩ := found
  exact ⟨spec, resolved⟩

theorem searchColumns_grounded {directory : Directory} {table : Table} {engine : Template.Engine}
    {row : Row} {column : Resolved}
    (member : column ∈ (build directory table engine row).searchColumns) :
    Grounded (fun _ => True) column := by
  obtain ⟨spec, resolved⟩ := mem_searchColumns member
  exact (resolve_grounded resolved).anywhere

end Definitions

end PathQuery.Source
