import PathQuery.Proofs.Facet.Failures
import PathQuery.Proofs.Path.ForcedAliases

namespace PathQuery

/-! # Facets with forced aliases

Whatever the facets are, a sourcekey with a last hop of its own has the alias that is forced for
it, and one that ends where another one does has the alias of that one.  The terms so far have
kept to this, and so does each term that is added.
-/

namespace Source

variable {names : String → Resolved → Prop} {named : String → Option Resolved} {source : Resolved}

theorem Grounded.starts_hasPath (grounded : Grounded (Naming named) source) :
    ∀ start ∈ source.starts, start.2.hasPath = true := by
  induction grounded with
  | fromRoot => exact nofun
  | continuing admitted found path grounded walked ended ih =>
      exact List.forall_mem_cons.mpr ⟨path, ih⟩

theorem Grounded.follows (grounded : Grounded (Naming named) source) (acyclic : Acyclic named)
    (isNamed : ∀ start ∈ source.starts, names start.1 start.2) : source.Follows names :=
  fun start member => ⟨isNamed start member, grounded.starts_hasPath start member,
    acyclic start.1 start.2 (grounded.starts_named start member)⟩

/-- The source was resolved on its own or beside the named sources of some table. -/
def Resolved.IsResolved (source : Resolved) : Prop :=
  ∃ (context : Context) (spec : Spec), spec.resolve context = .ok source ∧
    ((∀ key, context.named key = none) ∨
      ∃ (directory : Directory) (table : Table) (engine : Template.Engine) (row : Row),
        context.named = (Definitions.build directory table engine row).get?)

theorem Resolved.IsResolved.follows (resolved : source.IsResolved)
    (isNamed : ∀ start ∈ source.starts, names start.1 start.2) : source.Follows names := by
  obtain ⟨context, spec, resolved, unnamed | ⟨directory, table, engine, row, same⟩⟩ := resolved
  · have grounded : Grounded (Naming context.named) source :=
      .of_resolve rfl (fun key start found => nomatch (unnamed key).symm.trans found) resolved
    refine grounded.follows (fun key start found => ?_) isNamed
    exact nomatch (unnamed key).symm.trans found
  · have grounded : Grounded (Naming context.named) source :=
      .of_resolve rfl (same ▸ fun _ _ => Definitions.build_naming) resolved
    refine grounded.follows ?_ isNamed
    rw [same]
    exact (Definitions.build_chained directory table engine row).acyclic

end Source

namespace Facet

open Source

variable {compiler : Compiler} {directory : Directory} {table : Table} {engine : Template.Engine}
  {row : Row} {aliases middle next : Aliases} {fragment : Fragment}
  {progress reached : Compiler.Progress}

/-- The sourcekey names the source among the definitions, or where a fast source continues it. -/
def Compiler.Names (compiler : Compiler) (key : String) (source : Resolved) : Prop :=
  compiler.definitions.get? key = some source ∨
    ∃ entry ∈ compiler.options.fastSources, (key, source) ∈ entry.2.starts

/-- What a compiler joins is named. -/
structure Compiler.Follows (compiler : Compiler) : Prop where
  defined : ∀ key source, compiler.definitions.get? key = some source →
    source.Follows compiler.Names
  resolved : ∀ spec source,
    compiler.definitions.resolve compiler.directory compiler.engine compiler.row spec = .ok source →
    source.Follows compiler.Names
  fast : ∀ entry ∈ compiler.options.fastSources, entry.2.Follows compiler.Names
  search : ∀ column ∈ compiler.definitions.searchColumns, column.Follows compiler.Names

theorem Compiler.follows_of_build
    (built : compiler.definitions = .build directory table engine row)
    (fast : ∀ entry ∈ compiler.options.fastSources, entry.2.IsResolved) : compiler.Follows := by
  have acyclic : Acyclic compiler.definitions.get? := by
    rw [built]
    exact (Definitions.build_chained directory table engine row).acyclic
  have follows : ∀ source, Grounded (Naming compiler.definitions.get?) source →
      source.Follows compiler.Names := fun source grounded =>
    grounded.follows acyclic fun start member => .inl (grounded.starts_named start member)
  have defined : ∀ key source, compiler.definitions.get? key = some source →
      Grounded (Naming compiler.definitions.get?) source := by
    rw [built]
    exact fun key source => Definitions.build_naming
  refine ⟨fun key source found => follows source (defined key source found),
    fun spec source resolved => follows source (Definitions.resolve_naming defined resolved),
    fun entry member => (fast entry member).follows fun start isStart =>
      .inr ⟨entry, member, isStart⟩, fun column member => follows column ?_⟩
  rw [built] at member
  obtain ⟨spec, resolved⟩ := Definitions.mem_searchColumns member
  rw [← built] at resolved
  exact Definitions.resolve_naming defined resolved

/-- What was bound stays, and forced aliases are honoured if they were before. -/
structure Compiler.Keeps (compiler : Compiler) (aliases next : Aliases) : Prop where
  grows : aliases.Grows next
  honours : Honours compiler.Names aliases → Honours compiler.Names next

namespace Compiler

theorem Keeps.refl (aliases : Aliases) : compiler.Keeps aliases aliases := ⟨.refl aliases, id⟩

theorem Keeps.trans (first : compiler.Keeps aliases middle) (second : compiler.Keeps middle next) :
    compiler.Keeps aliases next :=
  ⟨first.grows.trans second.grows, second.honours ∘ first.honours⟩

theorem keeps_render {source : Resolved} (follows : source.Follows compiler.Names)
    {key : Option String} (keyed : ∀ shared, key = some shared → compiler.Names shared source)
    (kind : JoinKind) (hint : Option String) (aliases : Aliases) :
    compiler.Keeps aliases (source.render kind key hint aliases).2 :=
  ⟨source.render_grows kind key hint aliases, fun honours =>
    honours.render source kind key hint keyed follows⟩

theorem Follows.source_named (follows : compiler.Follows) {term : Term} {spec : Spec}
    {source : Resolved} {key : Option String}
    (found : compiler.source term spec = .ok (source, key)) :
    source.Follows compiler.Names ∧ ∀ shared, key = some shared → compiler.Names shared source := by
  obtain ⟨⟨entry, listed, rfl⟩, rfl⟩ | ⟨shared, -, isNamed, rfl⟩ | ⟨-, rfl, isShared | resolved⟩ :=
    source_cases found
  · exact ⟨follows.fast entry listed, nofun⟩
  · refine ⟨follows.defined shared source isNamed, fun other same => .inl ?_⟩
    rwa [← Option.some.inj same]
  · obtain ⟨other, -, isNamed⟩ := Option.bind_eq_some_iff.mp isShared
    exact ⟨follows.defined other source isNamed, nofun⟩
  · exact ⟨follows.resolved spec source resolved, nofun⟩

theorem keeps_joinTargets {columns : List Resolved}
    (follows : ∀ column ∈ columns, column.Follows compiler.Names) {path : Path}
    {targets : List String} (joined : joinTargets columns aliases = .ok (path, targets, next)) :
    compiler.Keeps aliases next := by
  induction columns generalizing aliases path targets with
  | nil =>
      cases joined
      exact .refl _
  | cons column columns ih =>
      obtain ⟨first, others⟩ := List.forall_mem_cons.mp follows
      obtain ⟨-, names, joinedOthers, -⟩ |
        ⟨-, rendered, reached, otherPath, names, rendersTo, joinedOthers, -, -⟩ :=
        joinTargets_cons joined
      · exact ih others joinedOthers
      · have minted : compiler.Keeps aliases aliases.mint.2 :=
          ⟨aliases.mint_grows, Honours.mint⟩
        have unnamed : ∀ shared, (none : Option String) = some shared →
            compiler.Names shared column := nofun
        have renders := keeps_render first unnamed .left (some aliases.mint.1) aliases.mint.2
        rw [rendersTo] at renders
        exact (minted.trans renders).trans (ih others joinedOthers)

theorem Follows.keeps_fragment (follows : compiler.Follows) {value : Json}
    (compiled : compiler.fragment value aliases = .ok (fragment, next)) :
    compiler.Keeps aliases next := by
  obtain ⟨term, -, ⟨-, compiled⟩ | ⟨-, compiled⟩⟩ := fragment_cases compiled
  · obtain ⟨words, path, searched, -⟩ := searchFragment_cases compiled
    obtain ⟨-, rfl, -⟩ | ⟨_, _, -, -, rfl, -⟩ | ⟨joins, targets, clause, -, joined, -, -⟩ :=
      searchPath_cases searched
    · exact .refl next
    · exact .refl next
    · exact keeps_joinTargets follows.search joined
  · obtain ⟨_, source, key, _, clause, -, found, -, -, ⟨-, rfl, -⟩ | ⟨-, rfl, -⟩⟩ :=
      columnFragment_cases compiled
    · exact .refl next
    · obtain ⟨isFollowing, keyed⟩ := follows.source_named found
      exact keeps_render isFollowing keyed .inner none aliases

theorem Follows.keeps_addTerms (follows : compiler.Follows) {values : List Json} {index : Nat}
    (added : compiler.addTerms progress index values = .ok reached) :
    compiler.Keeps progress.aliases reached.aliases := by
  induction values generalizing progress index with
  | nil =>
      cases added
      exact .refl _
  | cons value values ih =>
      obtain ⟨between, addedTerm, added⟩ := bind_eq_ok.mp added
      obtain ⟨⟨fragment, next⟩, compiled, addedTerm⟩ := bind_eq_ok.mp (raise_eq_ok.mp addedTerm)
      have first := follows.keeps_fragment compiled
      obtain ⟨path, -, rfl⟩ | ⟨path, -, -, rfl⟩ := Progress.add_cases addedTerm
      · exact first.trans (ih added)
      · exact first.trans (ih added)

end Compiler

/-- A forced alias is that of its sourcekey if the source of the sourcekey has a last hop of its
    own.  If the source ends where another one does the two share one alias, which is the
    forced one if the source is joined first and the others are free. -/
theorem forced_aliases_honoured
    (built : compiler.definitions = .build directory table engine row)
    (fast : ∀ entry ∈ compiler.options.fastSources, entry.2.IsResolved) :
    (∀ facets compiled, compiler.compile facets = .ok compiled →
      compiled.aliases.forced = compiler.options.forcedAliases ∧
        Honours compiler.Names compiled.aliases) ∧
    ∀ key source aliases wanted name, compiler.definitions.get? key = some source →
      Aliases.forced? aliases key = some wanted → aliases.get? key = none →
      Resolved.Free aliases source.endings →
      (source.path (some key) aliases).2.get? key = some name → name = wanted := by
  constructor
  · intro facets compiled compiles
    obtain ⟨terms, -, compiles⟩ := bind_eq_ok.mp compiles
    obtain ⟨progress, added, compiles⟩ := bind_eq_ok.mp compiles
    cases compiles
    have keeps := (Compiler.follows_of_build built fast).keeps_addTerms added
    exact ⟨keeps.grows.forced, keeps.honours nofun⟩
  · intro key source aliases wanted name found forced unbound free isBound
    have acyclic := (Definitions.build_chained directory table engine row).acyclic
    exact Resolved.render_forced forced unbound (acyclic key source (built ▸ found)) free isBound

/-! Two sourcekeys, the second of which ends where the first one does. -/

namespace Sample

def wanting (forced : List (String × String)) : Compiler :=
  { failing with options := { Options.default with forcedAliases := forced } }

def bothTerms (first second : String) : Json :=
  .object [("and", .array [
    .object [("sourcekey", .string first), ("not_null", .bool true)],
    .object [("sourcekey", .string second), ("not_null", .bool true)]])]

def boundAliases (forced : List (String × String)) (facets : Json) :
    Option (List (String × String)) :=
  ((wanting forced).compile facets).toOption.map fun compiled => compiled.aliases.bound

end Sample

example : Sample.boundAliases [("named", "N")] (Sample.bothTerms "named" "owner") =
    some [("owner", "N"), ("named", "N")] := by decide +kernel

theorem forced_aliases_honoured_sharing :
    (∃ compiled, (Sample.wanting [("owner", "O")]).compile (Sample.bothTerms "named" "owner") =
        .ok compiled ∧ compiled.aliases.bound = [("owner", "O"), ("named", "O")] ∧
      ∃ source, (Sample.wanting [("owner", "O")]).Names "owner" source ∧
        source.Honoured compiled.aliases "owner" "O") ∧
    ∃ source, PathQuery.Sample.definitions.get? "named" = some source ∧
      source.endings = ["owner"] ∧
      (source.path (some "named") (.new "M" [("named", "N")] [])).2.get? "named" = some "N" := by
  have noFast : ∀ entry ∈ (Sample.wanting [("owner", "O")]).options.fastSources,
      entry.2.IsResolved := nofun
  obtain ⟨honours, joinedFirst⟩ := forced_aliases_honoured
    (rfl : (Sample.wanting [("owner", "O")]).definitions = .build PathQuery.Sample.catalog.directory
      PathQuery.Sample.item PathQuery.Sample.engine []) noFast
  constructor
  · obtain ⟨compiled, compiles, bound⟩ := Option.map_eq_some_iff.mp (by decide +kernel :
      Sample.boundAliases [("owner", "O")] (Sample.bothTerms "named" "owner") =
        some [("owner", "O"), ("named", "O")])
    rw [toOption_eq_some] at compiles
    refine ⟨compiled, compiles, bound, (honours _ compiled compiles).2 "owner" "O" ?_⟩
    rw [Aliases.get?, bound]
    rfl
  · obtain ⟨source, found, ends, isBound⟩ : ∃ source,
        PathQuery.Sample.definitions.get? "named" = some source ∧ source.endings = ["owner"] ∧
        ((source.path (some "named") (.new "M" [("named", "N")] [])).2.get? "named").isSome =
          true := by
      have evaluated : (PathQuery.Sample.definitions.get? "named").map (fun source =>
          (source.endings, ((source.path (some "named") (.new "M" [("named", "N")] [])).2.get?
            "named").isSome)) = some (["owner"], true) := by decide +kernel
      obtain ⟨source, found, same⟩ := Option.map_eq_some_iff.mp evaluated
      exact ⟨source, found, Prod.mk.inj same⟩
    obtain ⟨name, isName⟩ := Option.isSome_iff_exists.mp isBound
    refine ⟨source, found, ends, ?_⟩
    have free : Resolved.Free (.new "M" [("named", "N")] []) source.endings := by
      rw [ends]
      exact List.forall_mem_singleton.mpr ⟨rfl, rfl⟩
    rw [isName, joinedFirst "named" source _ "N" name found rfl rfl free isName]

/-- A source that ends where one joined before does loses the alias that is forced for it. -/
theorem forced_alias_yields_to_bound :
    ((Sample.wanting [("named", "N")]).options.forcedAliases.map Prod.snd).Nodup ∧
    (Sample.wanting [("named", "N")]).options.forcedAliases.lookup "named" = some "N" ∧
    ∃ compiled,
      (Sample.wanting [("named", "N")]).compile (Sample.bothTerms "owner" "named") = .ok compiled ∧
      compiled.aliases.get? "named" = some "M_P1" := by
  obtain ⟨compiled, compiles, bound⟩ := Option.map_eq_some_iff.mp (by decide +kernel :
    Sample.boundAliases [("named", "N")] (Sample.bothTerms "owner" "named") =
      some [("owner", "M_P1"), ("named", "M_P1")])
  refine ⟨by decide, rfl, compiled, toOption_eq_some.mp compiles, ?_⟩
  rw [Aliases.get?, bound]
  rfl

end Facet

end PathQuery
