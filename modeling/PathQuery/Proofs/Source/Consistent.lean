import PathQuery.Proofs.Path.Flattening
import PathQuery.Proofs.Source.Bare
import PathQuery.Proofs.Source.Dependencies

namespace PathQuery.Source

/-! # The table of named sources

Declarations are taken one after the other, and each is kept if it gives a source where
only those kept before it can be continued.  What is kept is told by the table alone: later
declarations neither change nor remove anything, and no source continues itself.
-/

variable {directory : Directory} {table : Table} {engine : Template.Engine} {row : Row}
  {definitions : Definitions} {named : String → Option Resolved} {source : Resolved}
  {key name token : String} {value : Json}

/-- The named sources that a source continues, one after the other, with their sourcekeys. -/
def Resolved.starts : Resolved → List (String × Resolved)
  | .fromRoot _ => []
  | .continuing key start _ => (key, start) :: start.starts

theorem Resolved.chain_eq (source : Resolved) : source.chain = source.starts.map Prod.fst := by
  induction source with
  | fromRoot route => rfl
  | continuing key start route ih => rw [chain, starts, List.map_cons, ih]

/-- A source continues what its sourcekeys name. -/
theorem Grounded.starts_named (grounded : Grounded (Naming named) source) :
    ∀ start ∈ source.starts, named start.1 = some start.2 := by
  induction grounded with
  | fromRoot => exact nofun
  | continuing admitted found path grounded walked ended ih =>
      exact List.forall_mem_cons.mpr ⟨admitted ▸ found, ih⟩

/-- The declaration gives the source. -/
def Declares (context : Context) (value : Json) (source : Resolved) : Prop :=
  ∃ declaration item spec, value = .object declaration ∧
    declaration.lookup sourceKey = some item ∧ Spec.ofJson item = .ok spec ∧
    spec.resolve context = .ok source

/-- The table declares the one sourcekey before the other. -/
def DeclaredBefore (table : Table) (earlier later : String) : Prop :=
  ∃ before value after, table.sourceDefinitions = before ++ (later, value) :: after ∧
    earlier ∈ before.map Prod.fst

namespace Definitions

/-- A declaration is kept if it gives a source and does not take the search box's name. -/
theorem define?_source :
    (definitions.define? directory engine row key value).map Definition.source = some source ↔
      key ≠ searchBoxKey ∧ Declares (definitions.context directory engine row) value source := by
  constructor
  · intro defined
    obtain ⟨definition, isDefined, rfl⟩ := Option.map_eq_some_iff.mp defined
    refine ⟨?_, ?_⟩
    · rintro rfl
      simp [define?] at isDefined
    · obtain ⟨declaration, item, isObject, found, read, resolved, -⟩ := define?_eq_some isDefined
      exact ⟨declaration, item, _, isObject, found, read, resolved⟩
  · rintro ⟨column, declaration, item, spec, rfl, found, read, resolved⟩
    rw [← resolve_eq] at resolved
    simp [define?, column, Json.object?, found, read, resolved, Except.toOption]

variable (directory engine row) in
theorem declare_cases (definitions : Definitions) (key : String) (value : Json) :
    (definitions.define? directory engine row key value = none ∧
      declare directory engine row definitions (key, value) = definitions) ∨
    ∃ definition, definitions.define? directory engine row key value = some definition ∧
      definition.sourcekey = key ∧
      declare directory engine row definitions (key, value) = definitions.extend definition := by
  cases defined : definitions.define? directory engine row key value with
  | none => exact .inl ⟨rfl, by simp only [declare, defined]⟩
  | some definition =>
      obtain ⟨_, _, -, -, -, -, same, -⟩ := define?_eq_some defined
      exact .inr ⟨definition, rfl, same, by simp only [declare, defined, extend]⟩

theorem definition?_declare_of_ne (apart : name ≠ key) :
    (declare directory engine row definitions (key, value)).definition? name =
      definitions.definition? name := by
  obtain ⟨-, kept⟩ | ⟨definition, -, same, kept⟩ :=
    declare_cases directory engine row definitions key value
  · rw [kept]
  · rw [kept, definition?_extend, same, if_neg (Ne.symm apart), Option.or_none]

/-- A sourcekey is defined, or not, by its own declaration. -/
theorem definition?_foldl_of_notMem {fields : Json.Fields} (apart : name ∉ fields.map Prod.fst) :
    (fields.foldl (declare directory engine row) definitions).definition? name =
      definitions.definition? name := by
  induction fields generalizing definitions with
  | nil => rfl
  | cons field fields ih =>
      rw [List.map_cons, List.mem_cons, not_or] at apart
      rw [List.foldl_cons, ih apart.2, definition?_declare_of_ne apart.1]

/-- The definitions that some declarations of a table make. -/
def declared (directory : Directory) (table : Table) (engine : Template.Engine) (row : Row)
    (fields : Json.Fields) : Definitions :=
  fields.foldl (declare directory engine row) { table, entries := [], searchColumns := [] }

@[simp] theorem declared_table (fields : Json.Fields) :
    (declared directory table engine row fields).table = table := by
  have kept : ∀ definitions : Definitions,
      (fields.foldl (declare directory engine row) definitions).table = definitions.table := by
    induction fields with
    | nil => exact fun definitions => rfl
    | cons field fields ih =>
        intro definitions
        rw [List.foldl_cons, ih]
        obtain ⟨-, kept⟩ | ⟨definition, -, -, kept⟩ :=
          declare_cases directory engine row definitions field.1 field.2
        · rw [kept]
        · rw [kept]
          rfl
  exact kept _

/-- What is kept of some declarations. -/
def keptAmong (definitions : Definitions) (fields : Json.Fields) (key : String) :
    Option Resolved :=
  if key ∈ fields.map Prod.fst then definitions.get? key else none

variable {before after : Json.Fields}

theorem get?_declared_before (distinct : ((before ++ after).map Prod.fst).Nodup) :
    (declared directory table engine row before).get? =
      (declared directory table engine row (before ++ after)).keptAmong before := by
  funext name
  rw [keptAmong]
  split
  · rename_i member
    rw [List.map_append] at distinct
    have apart : name ∉ after.map Prod.fst := List.disjoint_of_nodup_append distinct member
    rw [get?, get?, declared, declared, List.foldl_append, definition?_foldl_of_notMem apart]
  · rename_i absent
    rw [get?, declared, definition?_foldl_of_notMem absent]
    rfl

theorem get?_declared_field
    (distinct : ((before ++ (key, value) :: after).map Prod.fst).Nodup) :
    (declared directory table engine row (before ++ (key, value) :: after)).get? key = some source ↔
      key ≠ searchBoxKey ∧ Declares ⟨directory, table,
        (declared directory table engine row (before ++ (key, value) :: after)).keptAmong before,
        engine, row⟩ value source := by
  rw [← get?_declared_before distinct]
  have context : ⟨directory, table, (declared directory table engine row before).get?, engine, row⟩ =
      (declared directory table engine row before).context directory engine row := by
    simp [Definitions.context]
  rw [context, ← define?_source]
  rw [List.map_append, List.map_cons, List.nodup_middle, List.nodup_cons, List.mem_append,
    not_or] at distinct
  obtain ⟨⟨absent, apart⟩, -⟩ := distinct
  have fresh : (declared directory table engine row before).definition? key = none := by
    rw [declared, definition?_foldl_of_notMem absent]
    rfl
  rw [get?, declared, List.foldl_append, List.foldl_cons, definition?_foldl_of_notMem apart,
    ← declared]
  obtain ⟨undefined, kept⟩ | ⟨definition, defined, same, kept⟩ :=
    declare_cases directory engine row
      (declared directory table engine row before) key value
  · rw [kept, undefined, fresh]
  · rw [kept, defined, definition?_extend, fresh, same, if_pos rfl, Option.none_or]

theorem mem_sourcekeys : key ∈ definitions.sourcekeys ↔ (definitions.get? key).isSome = true := by
  simp [sourcekeys, get?, definition?]

/-- Each sourcekey on a chain is declared before the one whose source continues it. -/
theorem chain_declared (kept : ∀ key source, definitions.get? key = some source →
      ∀ start ∈ source.starts.head?, DeclaredBefore table start.1 key)
    (continued : ∀ key source, definitions.get? key = some source →
      ∀ start ∈ source.starts, definitions.get? start.1 = some start.2)
    (found : definitions.get? key = some source) :
    (key :: source.chain).IsChain fun later earlier => DeclaredBefore table earlier later := by
  induction source generalizing key with
  | fromRoot route => exact .singleton key
  | continuing first start route ih =>
      have before := kept key _ found (first, start) rfl
      have isNamed := continued key _ found (first, start) List.mem_cons_self
      exact .cons_cons before (ih isNamed)

/-- What the named sources of a table are, told by its declarations. -/
structure Consistent (directory : Directory) (table : Table) (engine : Template.Engine)
    (row : Row) (definitions : Definitions) : Prop where
  /-- The sourcekeys stand in the order of their declarations. -/
  ordered : definitions.sourcekeys.Sublist (table.sourceDefinitions.map Prod.fst)
  listed : ∀ key, key ∈ definitions.sourcekeys ↔ (definitions.get? key).isSome = true
  /-- A declaration is kept if it gives a source where what is kept of the declarations
      before it can be continued.  The search box is no named source. -/
  kept : ∀ before key value after, table.sourceDefinitions = before ++ (key, value) :: after →
    ∀ source, definitions.get? key = some source ↔ key ≠ searchBoxKey ∧
      Declares ⟨directory, table, definitions.keptAmong before, engine, row⟩ value source
  /-- A sourcekey depends on itself and on what the sourcekey does that its source starts
      with, which are the sourcekeys that its source continues. -/
  depends : ∀ key source, definitions.get? key = some source →
    definitions.dependencies key =
        key :: (source.spec.sourcekey?.map definitions.dependencies).getD [] ∧
      definitions.dependencies key = key :: source.starts.map Prod.fst
  /-- No source comes back to its sourcekey. -/
  acyclic : ∀ key source, definitions.get? key = some source →
    (definitions.dependencies key).Nodup ∧
      (definitions.dependencies key).IsChain fun later earlier =>
        DeclaredBefore table earlier later
  /-- Named sources, search columns and whatever is resolved continue what the sourcekeys
      name. -/
  continued : ∀ source,
    (∃ key, definitions.get? key = some source) ∨ source ∈ definitions.searchColumns ∨
      (∃ directory engine row spec,
        definitions.resolve directory engine row spec = .ok source) →
    ∀ start ∈ source.starts, definitions.get? start.1 = some start.2
  /-- A token leads to the sourcekeys whose source has it, in order. -/
  tokens : ∀ token, definitions.sourcekeysFor token = definitions.sourcekeys.filter fun key =>
    (definitions.get? key).any fun source => source.spec.token == token

theorem build_kept (distinct : (table.sourceDefinitions.map Prod.fst).Nodup)
    {before after : Json.Fields}
    (split : table.sourceDefinitions = before ++ (key, value) :: after) :
    (build directory table engine row).get? key = some source ↔ key ≠ searchBoxKey ∧
      Declares ⟨directory, table, (build directory table engine row).keptAmong before, engine, row⟩
        value source := by
  have entries : (build directory table engine row).get? =
      (declared directory table engine row table.sourceDefinitions).get? := rfl
  have among : (build directory table engine row).keptAmong before =
      (declared directory table engine row table.sourceDefinitions).keptAmong before := rfl
  rw [entries, among, split]
  exact get?_declared_field (split ▸ distinct)

theorem build_ordered (directory : Directory) (table : Table) (engine : Template.Engine)
    (row : Row) : (build directory table engine row).sourcekeys.Sublist
      (table.sourceDefinitions.map Prod.fst) := by
  obtain ⟨added, sourcekeys, within⟩ := foldl_declare_sourcekeys directory engine row
    table.sourceDefinitions { table, entries := [], searchColumns := [] }
  have same : (build directory table engine row).sourcekeys = added := sourcekeys
  exact same ▸ within

/-- A source continues only what is declared before it. -/
theorem build_declaredBefore (distinct : (table.sourceDefinitions.map Prod.fst).Nodup)
    (found : (build directory table engine row).get? key = some source) :
    ∀ start ∈ source.starts.head?, DeclaredBefore table start.1 key := by
  have isKept : key ∈ (build directory table engine row).sourcekeys :=
    mem_sourcekeys.mpr (by simp [found])
  obtain ⟨⟨_, value⟩, member, rfl⟩ := List.mem_map.mp ((build_ordered ..).mem isKept)
  obtain ⟨before, after, split⟩ := List.append_of_mem member
  obtain ⟨-, declaration, item, spec, -, -, -, resolved⟩ := (build_kept distinct split).mp found
  obtain ⟨walk, route, -, -, -, rfl⟩ | ⟨first, later, start, walk, route, -, isNamed, -, -, -, rfl⟩ :=
    Spec.resolve_cases resolved
  · exact nofun
  · rintro _ ⟨⟩
    refine ⟨before, value, after, split, ?_⟩
    dsimp only [keptAmong] at isNamed
    split at isNamed
    · assumption
    · contradiction

theorem build_consistent (directory : Directory) (engine : Template.Engine) (row : Row)
    (distinct : (table.sourceDefinitions.map Prod.fst).Nodup) :
    (build directory table engine row).Consistent directory table engine row where
  ordered := build_ordered directory table engine row
  listed key := mem_sourcekeys
  kept before key value after split source := build_kept distinct split
  depends key source found := by
    have grounded := build_naming found
    have chained := build_chained directory table engine row
    have depends := chained.dependencies_eq found
    refine ⟨?_, ?_⟩
    · rw [depends, ← grounded.inherited_eq chained, inherited]
    · rw [depends, source.chain_eq]
  acyclic key source found := by
    have chained := build_chained directory table engine row
    rw [chained.dependencies_eq found]
    refine ⟨List.nodup_cons.mpr ⟨chained.acyclic key source found,
      (build_naming found).chain_nodup chained.acyclic⟩, ?_⟩
    exact chain_declared (fun _ _ => build_declaredBefore distinct)
      (fun _ _ found => (build_naming found).starts_named) found
  continued source comes := by
    obtain ⟨key, found⟩ | member | ⟨_, _, _, spec, resolved⟩ := comes
    · exact (build_naming found).starts_named
    · obtain ⟨spec, resolved⟩ := mem_searchColumns member
      exact (resolve_naming (fun _ _ => build_naming) resolved).starts_named
    · exact (resolve_naming (fun _ _ => build_naming) resolved).starts_named
  tokens token := by
    rw [sourcekeysFor, sourcekeys, List.filter_map]
    refine congrArg (List.map Definition.sourcekey) (List.filter_congr fun entry member => ?_)
    have found := build_definition? distinct member
    simp [get?, found, build_token member]

/-- Where more is declared after the declarations of a table, what was defined stays as it is,
    up to what the tables in it declare. -/
structure Extends (table : Table) (definitions wider : Definitions) : Prop where
  sourcekeys : definitions.sourcekeys <+: wider.sourcekeys
  members : ∀ key ∈ table.sourceDefinitions.map Prod.fst,
    key ∈ wider.sourcekeys ↔ key ∈ definitions.sourcekeys
  sources : ∀ key ∈ table.sourceDefinitions.map Prod.fst,
    (wider.get? key).map Resolved.bare = (definitions.get? key).map Resolved.bare
  dependencies : ∀ key ∈ table.sourceDefinitions.map Prod.fst,
    wider.dependencies key = definitions.dependencies key
  tokens : ∀ token, definitions.sourcekeysFor token <+: wider.sourcekeysFor token

/-- The declarations of tables that are alike but for these come to the same definitions. -/
theorem declared_alike {directory' : Directory} (directories : directory'.bare = directory.bare)
    {table' : Table} (tables : table'.bare = table.bare) (fields : Json.Fields) :
    (declared directory' table' engine row fields).bare =
      (declared directory table engine row fields).bare := by
  rw [declared, declared, ← foldl_declare_bare, ← foldl_declare_bare, directories, bare, bare,
    tables]

theorem Extends.of_bare {wider : Definitions} {directory' : Directory} {table' : Table}
    (consistent : definitions.Consistent directory table engine row)
    (consistent' : wider.Consistent directory' table' engine row)
    (sourcekeys : definitions.sourcekeys <+: wider.sourcekeys)
    (same : ∀ key ∈ table.sourceDefinitions.map Prod.fst,
      wider.bare.definition? key = definitions.bare.definition? key) :
    Extends table definitions wider := by
  have sources : ∀ key ∈ table.sourceDefinitions.map Prod.fst,
      (wider.get? key).map Resolved.bare = (definitions.get? key).map Resolved.bare := by
    intro key member
    rw [← get?_bare, ← get?_bare, get?, get?, same key member]
  refine ⟨sourcekeys, ?_, sources, ?_, ?_⟩
  · intro key member
    rw [consistent.listed, consistent'.listed, ← Option.isSome_map (f := Resolved.bare),
      sources key member, Option.isSome_map]
  · intro key member
    rw [← dependencies_bare wider, ← dependencies_bare definitions, Definitions.dependencies,
      Definitions.dependencies, same key member]
  · intro token
    obtain ⟨added, all⟩ := sourcekeys
    rw [consistent.tokens, consistent'.tokens, ← all, List.filter_append]
    refine ⟨_, congrArg (· ++ _) (List.filter_congr fun key listed => ?_)⟩
    have specs := congrArg (Option.any fun source => source.spec.token == token)
      (sources key (consistent.ordered.mem listed))
    simpa only [Option.any_map, Function.comp_def, Resolved.spec_bare] using specs.symm

theorem build_extends (directory : Directory) (engine : Template.Engine) (row : Row)
    {directory' : Directory} (alike : directory'.bare = directory.bare) {further : Json.Fields}
    (distinct : ((table.sourceDefinitions ++ further).map Prod.fst).Nodup) :
    Extends table (build directory table engine row) (build directory'
      { table with sourceDefinitions := table.sourceDefinitions ++ further } engine row) := by
  have apart := distinct
  rw [List.map_append] at apart
  let wider : Table := { table with sourceDefinitions := table.sourceDefinitions ++ further }
  have tables : wider.bare = table.bare := rfl
  let first := declared directory' wider engine row table.sourceDefinitions
  have same : first.bare = (declared directory table engine row table.sourceDefinitions).bare :=
    declared_alike alike tables _
  have later : declared directory' wider engine row wider.sourceDefinitions =
      further.foldl (declare directory' engine row) first := List.foldl_append
  refine .of_bare (build_consistent directory engine row apart.of_append_left)
    (build_consistent directory' engine row distinct) ?_ fun key member => ?_
  · obtain ⟨added, sourcekeys, -⟩ := foldl_declare_sourcekeys directory' engine row further first
    refine ⟨added, ?_⟩
    change _ = (declared directory' wider engine row wider.sourceDefinitions).sourcekeys
    rw [later, sourcekeys, ← sourcekeys_bare first, same, sourcekeys_bare]
    rfl
  · have absent := List.disjoint_of_nodup_append apart member
    rw [definition?_bare, definition?_bare]
    change ((declared directory' wider engine row wider.sourceDefinitions).definition? key).map _ =
      ((declared directory table engine row table.sourceDefinitions).definition? key).map _
    rw [later, definition?_foldl_of_notMem absent, ← definition?_bare, same, definition?_bare]

/-- The named sources of a table are told by its declarations, and stay as they are where more
    is declared after them. -/
theorem built_definitions_consistent (directory : Directory) (table : Table)
    (engine : Template.Engine) (row : Row)
    (distinct : (table.sourceDefinitions.map Prod.fst).Nodup) :
    (build directory table engine row).Consistent directory table engine row ∧
    ∀ (directory' : Directory) (further : Json.Fields), directory'.bare = directory.bare →
      ((table.sourceDefinitions ++ further).map Prod.fst).Nodup →
      Extends table (build directory table engine row) (build directory'
        { table with sourceDefinitions := table.sourceDefinitions ++ further } engine row) :=
  ⟨build_consistent directory engine row distinct, fun _ _ alike distinct =>
    build_extends directory engine row alike distinct⟩

/-! One more source is declared, which continues the last one. -/

namespace Sample

open PathQuery.Sample

def further : Json.Fields :=
  [("again", declares [.object [("sourcekey", .string "named")]] "id")]

def widerItem : Table := { item with sourceDefinitions := item.sourceDefinitions ++ further }

def widerCatalog : Catalog := ⟨⟨false, false⟩, [⟨"s", [widerItem, person]⟩]⟩

def wider : Definitions :=
  .build widerCatalog.directory widerItem PathQuery.Sample.engine []

end Sample

theorem built_definitions_consistent_again :
    (PathQuery.Sample.item.sourceDefinitions.map Prod.fst).Nodup ∧
    (Sample.widerItem.sourceDefinitions.map Prod.fst).Nodup ∧
    PathQuery.Sample.definitions.sourcekeys = ["owner", "named"] ∧
    Sample.wider.sourcekeys = ["owner", "named", "again"] ∧
    Sample.wider.dependencies "again" = ["again", "named", "owner"] ∧
    PathQuery.Sample.definitions.Consistent PathQuery.Sample.catalog.directory
      PathQuery.Sample.item PathQuery.Sample.engine [] ∧
    Sample.wider.Consistent Sample.widerCatalog.directory Sample.widerItem
      PathQuery.Sample.engine [] ∧
    Extends PathQuery.Sample.item PathQuery.Sample.definitions Sample.wider := by
  have distinct : (PathQuery.Sample.item.sourceDefinitions.map Prod.fst).Nodup := by decide
  have distinct' : (Sample.widerItem.sourceDefinitions.map Prod.fst).Nodup := by decide
  have catalogs : Sample.widerCatalog.bare = PathQuery.Sample.catalog.bare := rfl
  have alike : Sample.widerCatalog.directory.bare = PathQuery.Sample.catalog.directory.bare := by
    rw [← Catalog.directory_bare, catalogs, Catalog.directory_bare]
  obtain ⟨consistent, stays⟩ := built_definitions_consistent PathQuery.Sample.catalog.directory
    PathQuery.Sample.item PathQuery.Sample.engine [] distinct
  exact ⟨distinct, distinct', by decide +kernel, by decide +kernel, by decide +kernel, consistent,
    (built_definitions_consistent _ Sample.widerItem _ _ distinct').1,
    stays _ Sample.further alike distinct'⟩

end Definitions

end PathQuery.Source
