import PathQuery.Proofs.Facet.Settled
import PathQuery.Proofs.Path.Flattening

namespace PathQuery.Facet

/-! # Shared sourcekeys are joined once

Each term makes a part of the path, with a block for each source that it renders.  However
the terms follow each other, a sourcekey that some block goes through is joined by just one
of them.  The others go back to its alias, or to that of a sourcekey which continues it.
-/

open Source

variable {aliases next : Aliases} {compiler : Compiler} {terms : List Json}
  {before after : List String}

/-- What a term makes. -/
inductive Part where
  | column (block : Block) (clause : String)
  | search (blocks : List Block) (clause : String)
  | right (path : Path)

namespace Part

def blocks : Part → List Block
  | column block _ => [block]
  | search blocks _ => blocks
  | right _ => []

/-- What comes before the parts of all other terms. -/
def rightPath : Part → Path
  | right path => path
  | _ => []

/-- What comes in the order of the terms. -/
def innerPath (named : String → Option Resolved) (rootAlias : String) : Part → Path
  | column block clause => block.path named ++ [.filter clause, .goTo rootAlias]
  | search blocks clause =>
    searchJoins named rootAlias blocks ++ [.filter clause, .goTo rootAlias]
  | right _ => []

end Part

/-- The part that a term makes. -/
inductive Compiler.Makes (compiler : Compiler) : Json → Part → Prop
  | searchBox {value : Json} {term : Term} {blocks : List Block} {clause : String}
      (read : Term.ofJson compiler.definitions value = .ok term)
      (origin : term.origin = .searchBox)
      (columns : List.Forall₂ (IsColumnBlock compiler.definitions)
        (compiler.definitions.searchColumns.filter Resolved.hasPath) blocks) :
      Makes compiler value (.search blocks clause)
  | column {value : Json} {term : Term} {spec : Spec} {constraints : List Constraint}
      {block : Block} {clause : String} (read : Term.ofJson compiler.definitions value = .ok term)
      (origin : term.origin ≠ .searchBox) (isSpec : term.spec = .ok spec)
      (found : compiler.source term spec = .ok (block.source, block.key))
      (constrained : term.constraints = .ok constraints)
      (inner : (block.source.hasPath && constraints.any Constraint.hasNullChoice) = false)
      (kind : block.kind = .inner)
      (declared : block.source.hasPath = true →
        block.keys = term.declaredKeys compiler.definitions spec) :
      Makes compiler value (.column block clause)
  | right {value : Json} {term : Term} {spec : Spec} {constraints : List Constraint}
      {source : Resolved} {key : Option String} {clause : String}
      (read : Term.ofJson compiler.definitions value = .ok term)
      (origin : term.origin ≠ .searchBox) (isSpec : term.spec = .ok spec)
      (found : compiler.source term spec = .ok (source, key))
      (constrained : term.constraints = .ok constraints)
      (outer : (source.hasPath && constraints.any Constraint.hasNullChoice) = true) :
      Makes compiler value (.right ([.table source.table.tableName, .filter clause] ++
        source.reversedPath compiler.options.rootAlias))

/-- The fragment of a term, as the part that it makes. -/
structure Compiler.MakesFragment (compiler : Compiler) (rendered : List Block) (value : Json)
    (aliases next : Aliases) (fragment : Fragment) (part : Part) : Prop where
  makes : compiler.Makes value part
  adds : Adds compiler.definitions.get? rendered part.blocks (usedKeys compiler.definitions value)
    aliases next
  same : fragment = .right part.rightPath ∧ part.innerPath compiler.definitions.get?
      aliases.root = [] ∨
    fragment = .inner (part.innerPath compiler.definitions.get? aliases.root) ∧
      part.rightPath = []

variable {rendered : List Block}

theorem Compiler.Sharing.columnFragment_makes (sharing : compiler.Sharing terms) {value : Json}
    (member : value ∈ terms) (settled : Settled compiler.definitions.get? aliases rendered)
    (reused : aliases.reused = reusedKeys compiler.definitions terms)
    (root : aliases.root = compiler.options.rootAlias)
    (total : terms.flatMap (usedKeys compiler.definitions) =
      before ++ usedKeys compiler.definitions value ++ after)
    (within : ∀ key ∈ rendered.flatMap Block.keys, key ∈ before) {term : Term}
    (read : Term.ofJson compiler.definitions value = .ok term)
    (origin : term.origin ≠ .searchBox) {fragment : Fragment}
    (compiled : compiler.columnFragment term aliases = .ok (fragment, next)) :
    ∃ part, compiler.MakesFragment rendered value aliases next fragment part := by
  obtain ⟨spec, source, key, constraints, clause, isSpec, found, constrained, -, cases⟩ :=
    Compiler.columnFragment_cases compiled
  obtain ⟨grounded, isNamed, declared⟩ :=
    sharing.source_cases member read origin isSpec found
  obtain ⟨outer, rfl, rfl⟩ | ⟨inner, rfl, rfl⟩ := cases
  · rw [root]
    exact ⟨_, .right read origin isSpec found constrained outer, .nothing settled, .inl ⟨rfl, rfl⟩⟩
  · have closed : ReuseClosed compiler.definitions.get? aliases := sharing.sound.reuseClosed reused
    obtain ⟨block, trail⟩ :=
      grounded.sourceTrail sharing.sound.chained.acyclic closed .inner none isNamed
    obtain ⟨rfl, rfl⟩ : source = block.source ∧ key = block.key :=
      ⟨trail.isSource.symm, trail.isKey.symm⟩
    have counted : ∀ key ∈ block.keys, key ∈ usedKeys compiler.definitions value := by
      rw [usedKeys_column read origin isSpec, declared]
      intro key member
      refine List.mem_append.mpr ((List.mem_append.mp member).imp_left fun isShared => ?_)
      rw [Option.mem_toList] at isShared ⊢
      exact (Option.filter_eq_some_iff.mp isShared).1
    have declaredKeys : block.source.hasPath = true →
        block.keys = term.declaredKeys compiler.definitions spec := by
      intro path
      rw [declared, Block.keys, Block.shared_eq_key path]
    refine ⟨.column block clause, .column read origin isSpec found constrained inner trail.isKind
      declaredKeys, ?_, .inr ⟨?_, rfl⟩⟩
    · rw [usedKeys_column read origin isSpec] at counted total ⊢
      exact settled.add_source sharing.sound reused total within grounded isNamed counted
        trail.follows
    · have renderedPath : (block.source.path block.key aliases).1.path =
          block.path compiler.definitions.get? := trail.path
      have nextRoot : (block.source.path block.key aliases).2.root = aliases.root :=
        trail.follows.grows.root
      rw [renderedPath, nextRoot]
      rfl

theorem Compiler.Sharing.searchFragment_makes (sharing : compiler.Sharing terms) {value : Json}
    (settled : Settled compiler.definitions.get? aliases rendered)
    (reused : aliases.reused = reusedKeys compiler.definitions terms)
    (total : terms.flatMap (usedKeys compiler.definitions) =
      before ++ usedKeys compiler.definitions value ++ after)
    (within : ∀ key ∈ rendered.flatMap Block.keys, key ∈ before) {term : Term}
    (read : Term.ofJson compiler.definitions value = .ok term)
    (origin : term.origin = .searchBox) {fragment : Fragment}
    (compiled : compiler.searchFragment term aliases = .ok (fragment, next)) :
    ∃ part, compiler.MakesFragment rendered value aliases next fragment part := by
  obtain ⟨words, path, searched, rfl⟩ := Compiler.searchFragment_cases compiled
  rw [usedKeys_searchBox read origin] at total
  obtain ⟨added, clause, columns, rfl, adds⟩ :=
    searchPath_blocks sharing.sound settled reused total within searched
  rw [← usedKeys_searchBox read origin] at adds
  exact ⟨.search added clause, .searchBox read origin columns, adds, .inr ⟨rfl, rfl⟩⟩

/-- What the terms so far have made. -/
structure Compiler.Joins (compiler : Compiler) (start : Aliases) (values : List Json)
    (progress : Compiler.Progress) (parts : List Part) : Prop where
  makes : List.Forall₂ compiler.Makes values parts
  right : progress.right.getD [] = parts.flatMap Part.rightPath
  inner : progress.inner =
    parts.flatMap (Part.innerPath compiler.definitions.get? start.root)
  adds : Adds compiler.definitions.get? [] (parts.flatMap Part.blocks)
    (values.flatMap (usedKeys compiler.definitions)) start progress.aliases

theorem Compiler.Sharing.addTerm_joins (sharing : compiler.Sharing terms) {start : Aliases}
    (reused : start.reused = reusedKeys compiler.definitions terms)
    (root : start.root = compiler.options.rootAlias) {values later : List Json} {value : Json}
    (split : terms = values ++ value :: later) {progress reached : Compiler.Progress}
    {parts : List Part} (joins : compiler.Joins start values progress parts)
    (added : compiler.addTerm progress value = .ok reached) :
    ∃ part, compiler.Joins start (values ++ [value]) reached (parts ++ [part]) := by
  obtain ⟨⟨fragment, next⟩, compiled, added⟩ := bind_eq_ok.mp added
  have member : value ∈ terms := by
    rw [split]
    exact List.mem_append_right values List.mem_cons_self
  have total : terms.flatMap (usedKeys compiler.definitions) =
      values.flatMap (usedKeys compiler.definitions) ++ usedKeys compiler.definitions value ++
        later.flatMap (usedKeys compiler.definitions) := by
    simp only [split, List.flatMap_append, List.flatMap_cons, List.append_assoc]
  have nowReused := joins.adds.grows.reused.trans reused
  have nowRoot := joins.adds.grows.root.trans root
  obtain ⟨part, makes, adds, same⟩ : ∃ part, compiler.MakesFragment (parts.flatMap Part.blocks)
      value progress.aliases next fragment part := by
    obtain ⟨term, read, ⟨origin, compiled⟩ | ⟨origin, compiled⟩⟩ := Compiler.fragment_cases compiled
    · exact sharing.searchFragment_makes joins.adds.settled nowReused total joins.adds.within read
        origin compiled
    · exact sharing.columnFragment_makes member joins.adds.settled nowReused nowRoot total
        joins.adds.within read origin compiled
  have made : List.Forall₂ compiler.Makes (values ++ [value]) (parts ++ [part]) :=
    List.rel_append joins.makes (.cons makes .nil)
  have all : Adds compiler.definitions.get? [] ((parts ++ [part]).flatMap Part.blocks)
      ((values ++ [value]).flatMap (usedKeys compiler.definitions)) start next := by
    simp only [List.flatMap_append, List.flatMap_singleton]
    exact joins.adds.trans adds
  rw [joins.adds.grows.root] at same
  refine ⟨part, ?_⟩
  obtain ⟨path, rfl, rfl⟩ | ⟨path, rfl, first, rfl⟩ := Compiler.Progress.add_cases added
  · obtain ⟨other, -⟩ | ⟨isInner, noRight⟩ := same
    · contradiction
    · obtain rfl := Fragment.inner.inj isInner
      refine ⟨made, ?_, ?_, all⟩
      · simpa only [List.flatMap_append, List.flatMap_singleton, noRight, List.append_nil] using
          joins.right
      · simp only [List.flatMap_append, List.flatMap_singleton, joins.inner]
  · obtain ⟨isRight, noInner⟩ | ⟨other, -⟩ := same
    · obtain rfl := Fragment.right.inj isRight
      -- There is one right join at most, so no part so far comes before it.
      have noRight : parts.flatMap Part.rightPath = [] := by
        rw [← joins.right, first]
        rfl
      refine ⟨made, ?_, ?_, all⟩
      · simp only [List.flatMap_append, List.flatMap_singleton, noRight]
        rfl
      · simp only [List.flatMap_append, List.flatMap_singleton, noInner, List.append_nil,
          joins.inner]
    · contradiction

theorem Compiler.Sharing.addTerms_joins (sharing : compiler.Sharing terms) {start : Aliases}
    (reused : start.reused = reusedKeys compiler.definitions terms)
    (root : start.root = compiler.options.rootAlias) {values later : List Json}
    (split : terms = values ++ later) {progress reached : Compiler.Progress} {parts : List Part}
    (joins : compiler.Joins start values progress parts) {index : Nat}
    (added : compiler.addTerms progress index later = .ok reached) :
    ∃ parts, compiler.Joins start terms reached parts := by
  induction later generalizing values progress parts index with
  | nil =>
      cases added
      rw [List.append_nil] at split
      exact ⟨parts, split ▸ joins⟩
  | cons value later ih =>
      obtain ⟨between, first, added⟩ := bind_eq_ok.mp added
      obtain ⟨part, joins⟩ :=
        sharing.addTerm_joins reused root split joins (raise_eq_ok.mp first)
      refine ih ?_ joins added
      rw [split, List.append_assoc]
      rfl

/-- Each sourcekey that the blocks go through is joined by one of them.  What a block does not
    join starts with the sourcekey whose alias it goes back to. -/
structure SharedOnce (final : Aliases) (blocks : List Block) : Prop where
  once : ∀ key ∈ blocks.flatMap Block.keys, (blocks.flatMap Block.joined).count key = 1
  covers : ∀ block ∈ blocks, block.trail.Covers block.keys
  back : ∀ block ∈ blocks, ∀ key name, block.trail.back = some (key, name) →
    final.get? key = some name

theorem Settled.sharedOnce {named : String → Option Resolved} {blocks : List Block}
    (settled : Settled named aliases blocks) : SharedOnce aliases blocks where
  once key member := List.count_eq_one_of_mem settled.nodup (settled.all key member)
  covers := settled.covers
  back := settled.back

/-- Shared prefixes are joined exactly once, whatever the definitions, the terms, their order
    and the forced aliases are. -/
theorem shared_prefixes_joined_once {directory : Directory} {table : Table}
    {engine : Template.Engine} {row : Row}
    (distinct : (table.sourceDefinitions.map Prod.fst).Nodup)
    (built : compiler.definitions = .build directory table engine row)
    (noFast : compiler.options.fastSources = []) {facets : Json}
    (conjoined : conjuncts facets = .ok terms)
    (identify : TokensIdentify compiler.definitions terms) {compiled : Compiled}
    (compiles : compiler.compile facets = .ok compiled) :
    ∃ parts, List.Forall₂ compiler.Makes terms parts ∧
      compiled.path = parts.flatMap Part.rightPath ++
        parts.flatMap (Part.innerPath compiler.definitions.get? compiler.options.rootAlias) ∧
      SharedOnce compiled.aliases (parts.flatMap Part.blocks) := by
  have sharing := Compiler.sharing_of_build distinct built noFast identify
  obtain ⟨values, conjoined', compiles⟩ := bind_eq_ok.mp compiles
  obtain rfl := Except.ok.inj (conjoined'.symm.trans conjoined)
  obtain ⟨progress, added, compiles⟩ := bind_eq_ok.mp compiles
  cases compiles
  have settled : Settled compiler.definitions.get? (compiler.initialAliases values) [] :=
    .start _ _ _ _
  have initial : compiler.Joins (compiler.initialAliases values) []
      ⟨compiler.initialAliases values, none, []⟩ [] :=
    ⟨.nil, rfl, rfl, .nothing settled⟩
  obtain ⟨parts, joins⟩ := sharing.addTerms_joins rfl rfl rfl initial added
  refine ⟨parts, joins.makes, ?_, joins.adds.settled.sharedOnce⟩
  rw [joins.right, joins.inner]
  rfl

/-! Two terms under a sourcekey that ends where the one it continues does, and between them a
source of its own that continues the latter.  All go through one join. -/

namespace Sample

open PathQuery.Sample

def sharing : Compiler where
  directory := catalog.directory
  capabilities := catalog.features.capabilities
  definitions := definitions
  engine := engine
  row := []
  options := .default

def rawSource : Json := .array [.object [("sourcekey", .string "owner")], .string "name"]

def shared : List Json := [
  .object [("sourcekey", .string "named"), ("choices", .array [.string "a"])],
  .object [("source", rawSource), ("choices", .array [.string "b"])],
  .object [("sourcekey", .string "named"), ("choices", .array [.string "c"])]]

end Sample

theorem shared_prefixes_joined_once_named : ∃ compiled,
    Sample.sharing.compile (.object [("and", .array Sample.shared)]) = .ok compiled ∧
    compiled.path.text =
      "M_P1:=(owner_id)=(s:person:id)/name=x/name=a/$M/$M_P1/name=b/$M/$M_P1/name=c/$M" ∧
    ∃ parts, List.Forall₂ Sample.sharing.Makes Sample.shared parts ∧
      compiled.path = parts.flatMap Part.rightPath ++
        parts.flatMap (Part.innerPath Sample.sharing.definitions.get? "M") ∧
      SharedOnce compiled.aliases (parts.flatMap Part.blocks) := by
  have evaluated : (Sample.sharing.compile (.object [("and", .array Sample.shared)])).toOption.map
      (fun compiled => compiled.path.text) =
      some "M_P1:=(owner_id)=(s:person:id)/name=x/name=a/$M/$M_P1/name=b/$M/$M_P1/name=c/$M" := by
    decide +kernel
  have apart : ∀ definition ∈ Sample.sharing.definitions.entries,
      definition.source.spec.token ≠ (Spec.mk [.sourcekey "owner"] "name").token := by
    decide +kernel
  have identify : TokensIdentify Sample.sharing.definitions Sample.shared := by
    intro attributes item spec member raw found read definition listed same
    simp only [Sample.shared, List.mem_cons, List.not_mem_nil, or_false, Json.object.injEq] at member
    rcases member with rfl | rfl | rfl
    · simp [sourcekeyKey] at raw
    · obtain rfl : Sample.rawSource = item := Option.some.inj found
      obtain rfl : Spec.mk [.sourcekey "owner"] "name" = spec := Except.ok.inj read
      exact absurd same (apart definition listed)
    · simp [sourcekeyKey] at raw
  obtain ⟨compiled, compiles, text⟩ := Option.map_eq_some_iff.mp evaluated
  rw [toOption_eq_some] at compiles
  have distinct : (PathQuery.Sample.item.sourceDefinitions.map Prod.fst).Nodup := by decide
  exact ⟨compiled, compiles, text,
    shared_prefixes_joined_once distinct rfl rfl rfl identify compiles⟩

end PathQuery.Facet
