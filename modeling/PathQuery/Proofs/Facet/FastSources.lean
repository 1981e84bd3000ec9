import PathQuery.Proofs.Facet.Failures
import PathQuery.Proofs.Facet.RawSources
import PathQuery.Proofs.Json.Fields
import PathQuery.Proofs.Path.Alike

namespace PathQuery

/-! # Fast sources

A term whose source has a fast one is compiled as if the spec of the fast source stood in
the term.  Only the sourcekeys that are reused are counted before, in the terms as they
were given.  So the facets fail as they do with the fast sources written out, and come to
the same path if the same sourcekeys are counted twice.
-/

namespace Facet

open Source

variable {compiler : Compiler} {table : Table} {aliases aliases' : Aliases}

/-- Both fail with the same error, or the results are related. -/
inductive Agree (related : α → β → Prop) : Except Error α → Except Error β → Prop
  | error (error : Error) : Agree related (.error error) (.error error)
  | ok {left : α} {right : β} (results : related left right) : Agree related (.ok left) (.ok right)

namespace Agree

variable {related : α → β → Prop} {left : Except Error α} {right : Except Error β}

theorem of_eq {related : α → α → Prop} (outcome : Except Error α)
    (each : ∀ value, outcome = .ok value → related value value) :
    Agree related outcome outcome := by
  cases outcome with
  | error error => exact .error error
  | ok value => exact .ok (each value rfl)

theorem bind {result : γ → δ → Prop} {next : α → Except Error γ} {next' : β → Except Error δ}
    (firsts : Agree related left right)
    (each : ∀ value value', related value value' → Agree result (next value) (next' value')) :
    Agree result (left >>= next) (right >>= next') := by
  cases firsts with
  | error error => exact .error error
  | ok results => exact each _ _ results

/-- What follows the same first step. -/
theorem after {result : γ → δ → Prop} (first : Except Error α) {next : α → Except Error γ}
    {next' : α → Except Error δ}
    (each : ∀ value, first = .ok value → Agree result (next value) (next' value)) :
    Agree result (first >>= next) (first >>= next') := by
  cases first with
  | error error => exact .error error
  | ok value => exact each value rfl

theorem raised (agree : Agree related left right) (convert : Error → Error) :
    Agree related (raise convert left) (raise convert right) := by
  cases agree with
  | error error => exact .error _
  | ok results => exact .ok results

theorem map_eq {seen : α → σ} {seen' : β → σ} (agree : Agree related left right)
    (same : ∀ value value', related value value' → seen value = seen' value') :
    seen <$> left = seen' <$> right := by
  cases agree with
  | error error => rfl
  | ok results => exact congrArg Except.ok (same _ _ results)

end Agree

inductive Fragment.Alike : Fragment → Fragment → Prop
  | inner {path path' : Path} (paths : path.Alike path') : Alike (.inner path) (.inner path')
  | right {path path' : Path} (paths : path.Alike path') : Alike (.right path) (.right path')

/-- Alike fragments that leave the same aliases. -/
structure MadeAlike (made made' : Fragment × Aliases) : Prop where
  fragments : made.1.Alike made'.1
  aliases : made.2.Alike made'.2

/-- The same path up to the order within filters, and the same aliases. -/
structure Compiled.Alike (left right : Compiled) : Prop where
  path : left.path.Alike right.path
  rightJoin : left.rightJoin = right.rightJoin
  aliases : left.aliases.Alike right.aliases

/-- Sources that are rendered alike under one sourcekey. -/
def FoundAlike (found found' : Resolved × Option String) : Prop :=
  found.1.Similar found'.1 ∧ found.2 = found'.2

/-- Terms with alike sources and the same constraints make alike fragments. -/
theorem Compiler.columnFragment_agree {compiler' : Compiler}
    (capabilities : compiler.capabilities = compiler'.capabilities) {term term' : Term}
    (sources : Agree (fun spec spec' =>
        Agree FoundAlike (compiler.source term spec) (compiler'.source term' spec'))
      term.spec term'.spec)
    (constraints : term.constraints = term'.constraints) (alike : aliases.Alike aliases') :
    Agree MadeAlike (compiler.columnFragment term aliases)
      (compiler'.columnFragment term' aliases') := by
  refine sources.bind fun spec spec' found => found.bind ?_
  rintro ⟨source, key⟩ ⟨source', _⟩ ⟨similar, rfl⟩
  have column : source.column = source'.column := similar.routes.column
  have table : source.table = source'.table := similar.routes.table
  dsimp only at similar ⊢
  rw [constraints, column, capabilities, similar.hasPath_eq, table, alike.root]
  refine .after _ fun constraints _ => .after _ fun clause _ => ?_
  split
  · exact .ok ⟨.right ((Path.Alike.refl _).append (similar.reversedPath _)), alike⟩
  · have same := similar.render .inner alike key none
    change Agree MadeAlike
      (.ok (.inner ((source.path key aliases).1.path ++
        [.filter clause, .goTo (source.path key aliases).2.root]), (source.path key aliases).2))
      (.ok (.inner ((source'.path key aliases').1.path ++
        [.filter clause, .goTo (source'.path key aliases').2.root]), (source'.path key aliases').2))
    have root : (source.path key aliases).2.root = (source'.path key aliases').2.root :=
      same.aliases.root
    rw [root]
    exact .ok ⟨.inner (same.path.append (.refl _)), same.aliases⟩

/-- The compiler with no fast sources. -/
def Compiler.withoutFast (compiler : Compiler) : Compiler :=
  { compiler with options := { compiler.options with fastSources := [] } }

def hasSourcekey : Json → Bool
  | .object attributes => Json.Fields.contains attributes sourcekeyKey
  | _ => false

/-- The second term is the first one with the spec of the source that is fast for it, or the
    same where there is none. -/
inductive Compiler.WritesFast (compiler : Compiler) : Json → Json → Prop
  | kept {term : Json}
      (slow : ∀ attributes item spec, term = .object attributes →
        attributes.lookup sourceKey = some item → Spec.ofJson item = .ok spec →
        compiler.options.fastSources.get? spec = none) : WritesFast compiler term term
  | replaced {attributes : Json.Fields} {item item' : Json} {spec : Spec} {fast : Resolved}
      (found : attributes.lookup sourceKey = some item) (read : Spec.ofJson item = .ok spec)
      (isFast : compiler.options.fastSources.get? spec = some fast)
      (written : Spec.ofJson item' = .ok fast.spec) :
      WritesFast compiler (.object attributes)
        (.object (Json.Fields.insert sourceKey item' attributes))

theorem Compiler.fragment_inline {attributes : Json.Fields}
    (inline : attributes.lookup sourcekeyKey = none) (aliases : Aliases) :
    compiler.fragment (.object attributes) aliases =
      compiler.columnFragment ⟨.inline, attributes⟩ aliases := by
  have read : Term.ofJson compiler.definitions (.object attributes) =
      .ok ⟨.inline, attributes⟩ := by
    simp only [Term.ofJson, Term.readOrigin, inline]
    rfl
  rw [fragment, read]
  rfl

/-- The constraints of a term do not depend on its source. -/
theorem Term.constraints_insert (attributes : Json.Fields) (item : Json) :
    (Term.mk .inline (Json.Fields.insert sourceKey item attributes)).constraints =
      (Term.mk .inline attributes).constraints := by
  have kept : ∀ key ≠ sourceKey, (Json.Fields.insert sourceKey item attributes).lookup key =
      attributes.lookup key := fun key apart =>
    Json.Fields.lookup_insert_of_ne apart item attributes
  simp only [Term.constraints, Term.search, Term.constraintUnder,
    kept choicesKey (by decide), kept rangesKey (by decide), kept searchKey (by decide),
    kept notNullKey (by decide)]

theorem Compiler.source_slow {term : Term} {spec : Spec}
    (slow : compiler.options.fastSources.get? spec = none) :
    compiler.withoutFast.source term spec = compiler.source term spec := by
  unfold Compiler.source
  rw [slow]
  rfl

/-- Where the spec of a fast source is written out it is resolved to the source, or a named
    source with its token takes its place, which is the same but for the order in filters. -/
theorem Compiler.source_written (distinct : (table.sourceDefinitions.map Prod.fst).Nodup)
    (built : compiler.definitions = .build compiler.directory table compiler.engine compiler.row)
    {fast : Resolved} (resolved : compiler.definitions.resolve compiler.directory compiler.engine
      compiler.row fast.spec = .ok fast) {item : Json} (read : Spec.ofJson item = .ok fast.spec)
    (identify : ∀ definition ∈ compiler.definitions.entries,
      definition.source.spec.token = fast.spec.token →
      definition.source.spec.canonicalText = fast.spec.canonicalText)
    (term : Term) (inline : term.origin = .inline) :
    ∃ source, compiler.withoutFast.source term fast.spec = .ok (source, none) ∧
      source.Similar fast := by
  have noKey : term.sourcekey? = none := by rw [Term.sourcekey?, inline]
  by_cases defined : compiler.definitions.sourcekeysFor fast.spec.token = []
  · refine ⟨fast, ?_, .refl fast⟩
    simp only [Compiler.source, withoutFast, FastSources.get?, List.lookup_nil, noKey, defined,
      List.head?_nil, Option.bind_none, resolved]
    rfl
  · obtain ⟨definition, member, token, named, found⟩ := @Compiler.source_of_definition
      compiler.withoutFast table term fast.spec distinct built rfl inline defined
    obtain ⟨item', read'⟩ := Definitions.build_read (built ▸ member)
    have reordered := Spec.reordered_of_canonicalText read' read (identify definition member token)
    have again : definition.source.spec.resolve (compiler.definitions.context
        compiler.directory compiler.engine compiler.row) = .ok definition.source := by
      have grounded := Definitions.build_grounded (built ▸ named)
      rw [built]
      exact grounded.resolve_spec
    obtain ⟨direct, resolved', alike⟩ := reordered.resolve (Spec.ofJson_paired read')
      (Spec.ofJson_paired read) again
    obtain rfl := Except.ok.inj (resolved'.symm.trans resolved)
    exact ⟨definition.source, found, alike.similar⟩

/-- The fast sources of a compiler are resolved as its terms are. -/
def Compiler.FastResolved (compiler : Compiler) : Prop :=
  ∀ entry ∈ compiler.options.fastSources, compiler.definitions.resolve compiler.directory
    compiler.engine compiler.row entry.2.spec = .ok entry.2

theorem Compiler.FastResolved.get? (resolved : compiler.FastResolved) {spec : Spec}
    {fast : Resolved} (isFast : compiler.options.fastSources.get? spec = some fast) :
    compiler.definitions.resolve compiler.directory compiler.engine compiler.row fast.spec =
      .ok fast := by
  obtain ⟨before, after, listed, -⟩ := List.lookup_eq_some_iff.mp isFast
  refine resolved (spec.token, fast) ?_
  rw [listed]
  exact List.mem_append_right before List.mem_cons_self

theorem Compiler.fragment_slow {attributes : Json.Fields}
    (inline : attributes.lookup sourcekeyKey = none)
    (slow : ∀ item spec, attributes.lookup sourceKey = some item → Spec.ofJson item = .ok spec →
      compiler.options.fastSources.get? spec = none) (alike : aliases.Alike aliases') :
    Agree MadeAlike (compiler.withoutFast.fragment (.object attributes) aliases)
      (compiler.fragment (.object attributes) aliases') := by
  have capabilities : compiler.withoutFast.capabilities = compiler.capabilities := rfl
  rw [fragment_inline inline, fragment_inline inline]
  refine columnFragment_agree capabilities (Agree.of_eq _ fun spec isSpec => ?_) rfl alike
  obtain ⟨item, found, read⟩ := Term.spec_eq_ok.mp isSpec
  rw [source_slow (slow item spec found read)]
  exact Agree.of_eq _ fun found _ => ⟨.refl found.1, rfl⟩

theorem Compiler.fragment_fast (distinct : (table.sourceDefinitions.map Prod.fst).Nodup)
    (built : compiler.definitions = .build compiler.directory table compiler.engine compiler.row)
    (resolved : compiler.FastResolved) {attributes : Json.Fields}
    (inline : attributes.lookup sourcekeyKey = none) {item item' : Json} {spec : Spec}
    {fast : Resolved} (found : attributes.lookup sourceKey = some item)
    (read : Spec.ofJson item = .ok spec)
    (isFast : compiler.options.fastSources.get? spec = some fast)
    (written : Spec.ofJson item' = .ok fast.spec)
    (identify : TokensIdentify compiler.definitions
      [.object (Json.Fields.insert sourceKey item' attributes)])
    (alike : aliases.Alike aliases') :
    Agree MadeAlike
      (compiler.withoutFast.fragment (.object (Json.Fields.insert sourceKey item' attributes))
        aliases)
      (compiler.fragment (.object attributes) aliases') := by
  have capabilities : compiler.withoutFast.capabilities = compiler.capabilities := rfl
  have inline' : (Json.Fields.insert sourceKey item' attributes).lookup sourcekeyKey = none := by
    rw [Json.Fields.lookup_insert_of_ne (by decide), inline]
  have found' := Json.Fields.lookup_insert sourceKey item' attributes
  have isSpec : (Term.mk .inline attributes).spec = .ok spec :=
    Term.spec_eq_ok.mpr ⟨item, found, read⟩
  have isSpec' : (Term.mk .inline (Json.Fields.insert sourceKey item' attributes)).spec =
      .ok fast.spec := Term.spec_eq_ok.mpr ⟨item', found', written⟩
  obtain ⟨source, isSource, similar⟩ := source_written distinct built (resolved.get? isFast)
    written (identify _ item' fast.spec (List.mem_singleton_self _) inline' found' written)
    (Term.mk .inline _) rfl
  have fastSource : compiler.source (Term.mk .inline attributes) spec = .ok (fast, none) := by
    rw [Compiler.source, isFast]
  rw [fragment_inline inline, fragment_inline inline']
  refine columnFragment_agree capabilities ?_ (Term.constraints_insert attributes item') alike
  rw [isSpec, isSpec']
  refine .ok ?_
  rw [isSource, fastSource]
  exact .ok ⟨similar, rfl⟩

/-- A term is compiled as it is with its fast source written out. -/
theorem Compiler.fragment_agree (distinct : (table.sourceDefinitions.map Prod.fst).Nodup)
    (built : compiler.definitions = .build compiler.directory table compiler.engine compiler.row)
    (resolved : compiler.FastResolved) {term written : Json} (inline : hasSourcekey term = false)
    (writes : compiler.WritesFast term written)
    (identify : TokensIdentify compiler.definitions [written]) (alike : aliases.Alike aliases') :
    Agree MadeAlike (compiler.withoutFast.fragment written aliases)
      (compiler.fragment term aliases') := by
  have absent : ∀ attributes, term = .object attributes →
      attributes.lookup sourcekeyKey = none := by
    rintro attributes rfl
    simpa [hasSourcekey, Json.Fields.contains] using inline
  cases writes with
  | kept slow =>
      cases term with
      | object attributes =>
          exact fragment_slow (absent attributes rfl)
            (fun item spec => slow attributes item spec rfl) alike
      | _ => exact .error _
  | replaced found read isFast isWritten =>
      exact fragment_fast distinct built resolved (absent _ rfl) found read isFast isWritten
        identify alike

structure Compiler.Progress.Alike (progress progress' : Compiler.Progress) : Prop where
  aliases : progress.aliases.Alike progress'.aliases
  right : Option.Rel Path.Alike progress.right progress'.right
  inner : progress.inner.Alike progress'.inner

theorem Compiler.Progress.Alike.add {progress progress' : Compiler.Progress}
    (alike : progress.Alike progress') {made made' : Fragment × Aliases}
    (same : MadeAlike made made') :
    Agree Compiler.Progress.Alike (progress.add made.2 made.1) (progress'.add made'.2 made'.1) := by
  obtain ⟨fragment, next⟩ := made
  obtain ⟨fragment', next'⟩ := made'
  obtain ⟨fragments, aliases⟩ := same
  obtain ⟨_, right, _⟩ := progress
  obtain ⟨_, right', _⟩ := progress'
  obtain ⟨-, taken, inner⟩ := alike
  cases fragments with
  | inner paths => exact .ok ⟨aliases, taken, inner.append paths⟩
  | right paths =>
      cases taken with
      | none => exact .ok ⟨aliases, .some paths, inner⟩
      | some _ => exact .error _

theorem Compiler.addTerms_agree (distinct : (table.sourceDefinitions.map Prod.fst).Nodup)
    (built : compiler.definitions = .build compiler.directory table compiler.engine compiler.row)
    (resolved : compiler.FastResolved) {terms written : List Json}
    (inline : ∀ term ∈ terms, hasSourcekey term = false)
    (writes : List.Forall₂ compiler.WritesFast terms written)
    (identify : TokensIdentify compiler.definitions written) {left right : Compiler.Progress}
    (alike : left.Alike right) (index : Nat) :
    Agree Compiler.Progress.Alike (compiler.withoutFast.addTerms left index written)
      (compiler.addTerms right index terms) := by
  induction writes generalizing left right index with
  | nil => exact .ok alike
  | @cons term value terms values first _ ih =>
      obtain ⟨inlineFirst, inlineLater⟩ := List.forall_mem_cons.mp inline
      have identifyFirst := identify.mono (by simp : [value] ⊆ value :: values)
      have identifyLater := identify.mono (List.subset_cons_self value values)
      have made := Compiler.fragment_agree distinct built resolved inlineFirst first identifyFirst
        alike.aliases
      have added : Agree Compiler.Progress.Alike (compiler.withoutFast.addTerm left value)
          (compiler.addTerm right term) := made.bind fun _ _ same => alike.add same
      exact (added.raised _).bind fun _ _ reached =>
        ih inlineLater identifyLater reached (index + 1)

theorem Compiler.compileFrom_agree (distinct : (table.sourceDefinitions.map Prod.fst).Nodup)
    (built : compiler.definitions = .build compiler.directory table compiler.engine compiler.row)
    (resolved : compiler.FastResolved) {terms written : List Json}
    (inline : ∀ term ∈ terms, hasSourcekey term = false)
    (writes : List.Forall₂ compiler.WritesFast terms written)
    (identify : TokensIdentify compiler.definitions written) (alike : aliases.Alike aliases') :
    Agree Compiled.Alike (compiler.withoutFast.compileFrom aliases written)
      (compiler.compileFrom aliases' terms) := by
  have start : Compiler.Progress.Alike ⟨aliases, none, []⟩ ⟨aliases', none, []⟩ :=
    ⟨alike, .none, .refl []⟩
  refine (Compiler.addTerms_agree distinct built resolved inline writes identify start 0).bind ?_
  rintro ⟨aliases, right, inner⟩ ⟨aliases', right', inner'⟩ ⟨sameAliases, taken, inners⟩
  refine .ok ⟨?_, ?_, sameAliases⟩
  · cases taken with
    | none => exact inners
    | some paths => exact paths.append inners
  · cases taken <;> rfl

/-- Facets whose terms have sources of their own fail with fast sources as they do with these
    written out, and come to the path that the terms with the fast sources written out come
    to if the sourcekeys are counted in the terms as they were given.  That is the path of the
    facets with the fast sources written out, if the same sourcekeys are reused in these. -/
theorem fast_sources_counted_as_given (distinct : (table.sourceDefinitions.map Prod.fst).Nodup)
    (built : compiler.definitions = .build compiler.directory table compiler.engine compiler.row)
    (resolved : compiler.FastResolved) {facets facets' : Json} {terms written : List Json}
    (conjoined : conjuncts facets = .ok terms) (conjoined' : conjuncts facets' = .ok written)
    (inline : ∀ term ∈ terms, hasSourcekey term = false)
    (writes : List.Forall₂ compiler.WritesFast terms written)
    (identify : TokensIdentify compiler.definitions written) :
    Compiled.rightJoin <$> compiler.withoutFast.compile facets' =
        Compiled.rightJoin <$> compiler.compile facets ∧
      Agree Compiled.Alike
        (compiler.withoutFast.compileFrom (compiler.initialAliases terms) written)
        (compiler.compile facets) ∧
      ((∀ key, key ∈ reusedKeys compiler.definitions written ↔
          key ∈ reusedKeys compiler.definitions terms) →
        Agree Compiled.Alike (compiler.withoutFast.compile facets') (compiler.compile facets)) := by
  rw [Compiler.compile_eq conjoined, Compiler.compile_eq conjoined']
  have agree : ∀ {aliases}, aliases.Alike (compiler.initialAliases terms) →
      Agree Compiled.Alike (compiler.withoutFast.compileFrom aliases written)
        (compiler.compileFrom (compiler.initialAliases terms) terms) := fun alike =>
    Compiler.compileFrom_agree distinct built resolved inline writes identify alike
  refine ⟨?_, agree (.refl _), fun same => agree ⟨rfl, rfl, rfl, rfl, same⟩⟩
  rw [Compiler.compileFrom_ends written _ (compiler.initialAliases terms)]
  exact (agree (.refl _)).map_eq fun _ _ alike => alike.rightJoin

/-! A source is to be replaced by one that goes the same way through the sourcekey `owner`.  One
term of that source comes to the same path.  Two terms are taken not to share the sourcekey, as
they do not mention it, so each joins the owner on its own. -/

namespace Sample

open PathQuery.Sample

def slowSpec : Spec := ⟨[.hop ⟨.outbound, .constraint "s" "owner", none⟩], "name"⟩

def slowItem : Json :=
  .array [.object [("outbound", .array [.string "s", .string "owner"])], .string "name"]

def fastSpec : Spec := ⟨[.sourcekey "owner"], "name"⟩

def fastItem : Json := .array [.object [("sourcekey", .string "owner")], .string "name"]

def fastSource? : Option Resolved :=
  (definitions.resolve catalog.directory engine [] fastSpec).toOption

def hastened : Compiler := { failing with
  options := { Options.default with
    fastSources := fastSource?.elim [] fun fast => FastSources.insert slowSpec fast [] } }

def chosen (item : Json) (name : String) : Json :=
  .object [("source", item), ("choices", .array [.string name])]

def conjoin (terms : List Json) : Json := .object [("and", .array terms)]

/-- One term through the owner, and one of a column of the root table. -/
def oneOwner (item : Json) : List Json := [chosen item "a", chosen (.string "id") "1"]

def twoOwners (item : Json) : List Json := [chosen item "a", chosen item "b"]

theorem fastSource?_resolves : ∃ fast, fastSource? = some fast ∧ fast.spec = fastSpec ∧
    definitions.resolve catalog.directory engine [] fastSpec = .ok fast := by
  have evaluated : fastSource?.map Resolved.spec = some fastSpec := by decide +kernel
  obtain ⟨fast, found, isSpec⟩ := Option.map_eq_some_iff.mp evaluated
  exact ⟨fast, found, isSpec, toOption_eq_some.mp found⟩

theorem hastened_resolved : hastened.FastResolved := by
  obtain ⟨fast, found, isSpec, resolved⟩ := fastSource?_resolves
  have listed : hastened.options.fastSources = [(slowSpec.token, fast)] := by
    simp only [hastened, found, Option.elim_some, FastSources.insert]
  rw [Compiler.FastResolved, listed, List.forall_mem_singleton, isSpec]
  exact resolved

theorem hastened_get? {spec : Spec} :
    hastened.options.fastSources.get? spec =
      if spec.token = slowSpec.token then fastSource? else none := by
  obtain ⟨fast, found, -⟩ := fastSource?_resolves
  simp only [hastened, found, Option.elim_some, FastSources.insert, FastSources.get?,
    List.lookup_cons, List.lookup_nil]
  split <;> split <;> simp_all

theorem hastened_writes (name : String) :
    hastened.WritesFast (chosen slowItem name) (chosen fastItem name) := by
  obtain ⟨fast, found, isSpec, -⟩ := fastSource?_resolves
  have isFast : hastened.options.fastSources.get? slowSpec = some fast := by
    rw [hastened_get?, if_pos rfl, found]
  have read : Spec.ofJson slowItem = .ok slowSpec := rfl
  have written : Spec.ofJson fastItem = .ok fast.spec := by
    rw [isSpec]
    rfl
  exact .replaced rfl read isFast written

end Sample

theorem fast_sources_counted_as_given_once :
    (Sample.hastened.compile (Sample.conjoin (Sample.oneOwner Sample.slowItem))).toOption.map
        (fun compiled => compiled.path.text) =
      some "(owner_id)=(s:person:id)/name=a/$M/id=1/$M" ∧
    Agree Compiled.Alike
      (Sample.hastened.withoutFast.compile (Sample.conjoin (Sample.oneOwner Sample.fastItem)))
      (Sample.hastened.compile (Sample.conjoin (Sample.oneOwner Sample.slowItem))) := by
  have distinct : (PathQuery.Sample.item.sourceDefinitions.map Prod.fst).Nodup := by decide
  have kept : Sample.hastened.WritesFast (Sample.chosen (.string "id") "1")
      (Sample.chosen (.string "id") "1") := by
    refine .kept fun attributes item spec isTerm found read => ?_
    obtain rfl := Json.object.inj isTerm
    obtain rfl := Option.some.inj found
    obtain rfl : Spec.mk [] "id" = spec := Except.ok.inj read
    rw [Sample.hastened_get?, if_neg (by decide +kernel)]
  have apart : ∀ definition ∈ Sample.hastened.definitions.entries,
      definition.source.spec.token ≠ Sample.fastSpec.token ∧
        definition.source.spec.token ≠ (Spec.mk [] "id").token := by
    decide +kernel
  have identify : TokensIdentify Sample.hastened.definitions
      (Sample.oneOwner Sample.fastItem) := by
    intro attributes item spec member raw found read definition listed same
    rcases List.mem_pair.mp member with isTerm | isTerm <;> obtain rfl := Json.object.inj isTerm <;>
      obtain rfl := Option.some.inj found
    · obtain rfl : Sample.fastSpec = spec := Except.ok.inj read
      exact absurd same (apart definition listed).1
    · obtain rfl : Spec.mk [] "id" = spec := Except.ok.inj read
      exact absurd same (apart definition listed).2
  have reused : reusedKeys Sample.hastened.definitions (Sample.oneOwner Sample.fastItem) =
      reusedKeys Sample.hastened.definitions (Sample.oneOwner Sample.slowItem) := by
    decide +kernel
  refine ⟨by decide +kernel, ?_⟩
  refine (fast_sources_counted_as_given distinct rfl Sample.hastened_resolved rfl rfl (by decide)
    (.cons (Sample.hastened_writes "a") (.cons kept .nil)) identify).2.2 fun key => ?_
  exact Iff.of_eq (congrArg (key ∈ ·) reused)

theorem fast_sources_joined_apart :
    (∀ term ∈ Sample.twoOwners Sample.slowItem, hasSourcekey term = false) ∧
    Sample.hastened.FastResolved ∧
    List.Forall₂ Sample.hastened.WritesFast
      (Sample.twoOwners Sample.slowItem) (Sample.twoOwners Sample.fastItem) ∧
    (Sample.hastened.compile (Sample.conjoin (Sample.twoOwners Sample.slowItem))).toOption.map
        (fun compiled => (compiled.path.text, compiled.aliases.bound)) =
      some ("(owner_id)=(s:person:id)/name=a/$M/(owner_id)=(s:person:id)/name=b/$M", []) ∧
    (Sample.hastened.withoutFast.compile
        (Sample.conjoin (Sample.twoOwners Sample.fastItem))).toOption.map
        (fun compiled => (compiled.path.text, compiled.aliases.bound)) =
      some ("M_P1:=(owner_id)=(s:person:id)/name=a/$M/$M_P1/name=b/$M", [("owner", "M_P1")]) ∧
    ¬ Agree Compiled.Alike
      (Sample.hastened.withoutFast.compile (Sample.conjoin (Sample.twoOwners Sample.fastItem)))
      (Sample.hastened.compile (Sample.conjoin (Sample.twoOwners Sample.slowItem))) := by
  have joinedTwice : (Sample.hastened.compile
        (Sample.conjoin (Sample.twoOwners Sample.slowItem))).toOption.map
        (fun compiled => (compiled.path.text, compiled.aliases.bound)) =
      some ("(owner_id)=(s:person:id)/name=a/$M/(owner_id)=(s:person:id)/name=b/$M", []) := by
    decide +kernel
  have joinedOnce : (Sample.hastened.withoutFast.compile
        (Sample.conjoin (Sample.twoOwners Sample.fastItem))).toOption.map
        (fun compiled => (compiled.path.text, compiled.aliases.bound)) =
      some ("M_P1:=(owner_id)=(s:person:id)/name=a/$M/$M_P1/name=b/$M", [("owner", "M_P1")]) := by
    decide +kernel
  refine ⟨by decide, Sample.hastened_resolved,
    .cons (Sample.hastened_writes "a") (.cons (Sample.hastened_writes "b") .nil),
    joinedTwice, joinedOnce, fun agree => ?_⟩
  obtain ⟨slow, compiles, isSlow⟩ := Option.map_eq_some_iff.mp joinedTwice
  obtain ⟨fast, compiles', isFast⟩ := Option.map_eq_some_iff.mp joinedOnce
  rw [toOption_eq_some.mp compiles, toOption_eq_some.mp compiles'] at agree
  cases agree with
  | ok alike =>
      have bound := alike.aliases.bound
      rw [(Prod.mk.inj isFast).2, (Prod.mk.inj isSlow).2] at bound
      exact nomatch bound

end Facet

end PathQuery
