import PathQuery.Proofs.Facet.Failures
import PathQuery.Proofs.Json.Fields

namespace PathQuery.Facet

/-! # Sourcekeys before sources

A term that goes by a sourcekey takes the source from the declaration, or from the search
box, whatever source it has itself.  A named source was resolved when it was declared, so
such a term can only fail by its constraints.
-/

open Source

variable {compiler : Compiler} {definitions : Definitions} {directory : Directory}
  {table : Table} {engine : Template.Engine} {row : Row} {aliases : Aliases}
  {attributes attributes' declaration : Json.Fields} {key name : String}

namespace Term

theorem lookup_inheritField_of_ne (column : name ≠ sourceKey) (attributes : Json.Fields)
    (field : String × Json) : (inheritField attributes field).lookup name =
      (attributes.lookup name).or (if name = field.1 then some field.2 else none) := by
  rw [inheritField]
  split
  · rename_i sets
    by_cases same : name = field.1
    · subst same
      have absent : attributes.lookup field.1 = none := by
        simpa [column, Json.Fields.contains] using sets
      rw [Json.Fields.lookup_insert, if_pos rfl, absent, Option.none_or]
    · rw [Json.Fields.lookup_insert_of_ne same, if_neg same, Option.or_none]
  · rename_i keeps
    by_cases same : name = field.1
    · subst same
      obtain ⟨value, present⟩ : ∃ value, attributes.lookup field.1 = some value := by
        simpa [column, Json.Fields.contains, ← Option.isSome_iff_exists,
          Option.isSome_iff_ne_none] using keeps
      rw [present, Option.some_or]
    · rw [if_neg same, Option.or_none]

/-- A term takes over what it has not, but for the source. -/
theorem lookup_inherit_of_ne (column : name ≠ sourceKey)
    (attributes declaration : Json.Fields) :
    (inherit attributes declaration).lookup name =
      (attributes.lookup name).or (declaration.lookup name) := by
  induction declaration generalizing attributes with
  | nil => simp [inherit]
  | cons field declaration ih =>
      rw [inherit, List.foldl_cons, ← inherit, ih, lookup_inheritField_of_ne column, Option.or_assoc,
        List.lookup_cons]
      by_cases same : name = field.1
      · simp [same]
      · simp [beq_false_of_ne same, same]

/-- A term takes over the source in any case, the last one if there were several. -/
theorem lookup_inherit_source (attributes declaration : Json.Fields) :
    (inherit attributes declaration).lookup sourceKey =
      (declaration.reverse.lookup sourceKey).or (attributes.lookup sourceKey) := by
  induction declaration generalizing attributes with
  | nil => simp [inherit]
  | cons field declaration ih =>
      rw [inherit, List.foldl_cons, ← inherit, ih, List.reverse_cons, List.lookup_append,
        Option.or_assoc]
      refine congrArg _ ?_
      by_cases same : sourceKey = field.1
      · have first : [field].lookup sourceKey = some field.2 := by
          rw [List.lookup_cons, ← same, beq_self_eq_true]
        rw [first, Option.some_or, inheritField, ← same, beq_self_eq_true, Bool.true_or, if_pos rfl,
          Json.Fields.lookup_insert]
      · rw [List.lookup_cons, beq_false_of_ne same, inheritField]
        split
        · exact Json.Fields.lookup_insert_of_ne same _ _
        · rfl

end Term

/-- The two are the same, or go by the same sourcekey and differ in their own source only. -/
inductive Resourced : Json → Json → Prop
  | kept (term : Json) : Resourced term term
  | changed {attributes attributes' : Json.Fields} {key : String}
      (keyed : attributes.lookup sourcekeyKey = some (.string key))
      (others : ∀ name ≠ sourceKey, attributes'.lookup name = attributes.lookup name) :
      Resourced (.object attributes) (.object attributes')

/-- Facets whose terms are the same but for the sources of those that go by a sourcekey. -/
inductive ResourcedFacets : Json → Json → Prop
  | conjunction {fields fields' : Json.Fields} {terms terms' : List Json}
      (listed : fields.lookup facetsKey = some (.array terms))
      (listed' : fields'.lookup facetsKey = some (.array terms'))
      (each : List.Forall₂ Resourced terms terms') :
      ResourcedFacets (.object fields) (.object fields')

/-- What is named has a declaration with a source. -/
def Sourced (definitions : Definitions) : Prop :=
  ∀ key definition, definitions.definition? key = some definition →
    (definition.declaration.lookup sourceKey).isSome = true

/-- A term with a sourcekey goes through what the sourcekey depends on. -/
theorem usedKeys_resourced {term term' : Json} (resourced : Resourced term term') :
    usedKeys definitions term' = usedKeys definitions term := by
  cases resourced with
  | kept => rfl
  | changed keyed others =>
      rw [usedKeys, usedKeys, others sourcekeyKey (by decide), keyed]

theorem reusedKeys_resourced {terms terms' : List Json}
    (each : List.Forall₂ Resourced terms terms') :
    reusedKeys definitions terms' = reusedKeys definitions terms := by
  have used : terms'.flatMap (usedKeys definitions) = terms.flatMap (usedKeys definitions) := by
    induction each with
    | nil => rfl
    | cons resourced _ ih =>
        rw [List.flatMap_cons, List.flatMap_cons, usedKeys_resourced resourced, ih]
  rw [reusedKeys, reusedKeys, used]

theorem Term.constraintUnder_congr {term term' : Term}
    (same : term'.attributes.lookup name = term.attributes.lookup name)
    (read : Json → Except Constraint.Error Constraint) :
    term'.constraintUnder name read = term.constraintUnder name read := by
  rw [constraintUnder, constraintUnder, same]

theorem Term.search_congr {term term' : Term}
    (same : term'.attributes.lookup searchKey = term.attributes.lookup searchKey) :
    term'.search = term.search :=
  constraintUnder_congr same _

/-- A term counts by the attributes that are read of it. -/
theorem Compiler.columnFragment_congr {term term' : Term} (origin : term'.origin = term.origin)
    (same : ∀ name, term'.attributes.lookup name = term.attributes.lookup name)
    (aliases : Aliases) :
    compiler.columnFragment term' aliases = compiler.columnFragment term aliases := by
  have spec : term'.spec = term.spec := by rw [Term.spec, Term.spec, same]
  have source : compiler.source term' = compiler.source term := by
    funext spec
    rw [Compiler.source, Compiler.source, Term.sourcekey?, Term.sourcekey?, origin]
  have constraints : term'.constraints = term.constraints := by
    rw [Term.constraints, Term.constraints, Term.search_congr (same searchKey), same notNullKey,
      Term.constraintUnder_congr (same choicesKey), Term.constraintUnder_congr (same rangesKey)]
  rw [columnFragment, columnFragment, spec, source, constraints]

theorem Term.ofJson_search (keyed : attributes.lookup sourcekeyKey = some (.string searchBoxKey)) :
    Term.ofJson definitions (.object attributes) = .ok ⟨.searchBox, attributes⟩ := by
  simp only [Term.ofJson, Term.readOrigin, keyed, if_true]
  rfl

theorem Term.ofJson_sourcekey (keyed : attributes.lookup sourcekeyKey = some (.string key))
    (column : key ≠ searchBoxKey) :
    Term.ofJson definitions (.object attributes) =
      match definitions.definition? key with
      | some definition => .ok ⟨.sourcekey key, inherit attributes definition.declaration⟩
      | none => .error (.ofKind .invalidSourcekey) := by
  simp only [Term.ofJson, Term.readOrigin, keyed, if_neg column, ok_bind]
  cases definitions.definition? key <;> rfl

/-- The search box looks in the search columns, whatever the source of the term. -/
theorem Compiler.fragment_search
    (keyed : attributes.lookup sourcekeyKey = some (.string searchBoxKey)) (aliases : Aliases) :
    compiler.fragment (.object attributes) aliases =
      compiler.searchFragment ⟨.searchBox, attributes⟩ aliases := by
  rw [fragment, Term.ofJson_search keyed]
  rfl

theorem Compiler.fragment_undefined (keyed : attributes.lookup sourcekeyKey = some (.string key))
    (column : key ≠ searchBoxKey) (undefined : compiler.definitions.definition? key = none)
    (aliases : Aliases) :
    compiler.fragment (.object attributes) aliases = .error (.ofKind .invalidSourcekey) := by
  rw [fragment, Term.ofJson_sourcekey keyed column, undefined]
  rfl

theorem Compiler.fragment_defined (keyed : attributes.lookup sourcekeyKey = some (.string key))
    (column : key ≠ searchBoxKey) {definition : Definition}
    (defined : compiler.definitions.definition? key = some definition) (aliases : Aliases) :
    compiler.fragment (.object attributes) aliases = compiler.columnFragment
      ⟨.sourcekey key, Term.inherit attributes definition.declaration⟩ aliases := by
  rw [fragment, Term.ofJson_sourcekey keyed column, defined]
  rfl

/-- A term with a sourcekey makes the same fragment whatever its own source is. -/
theorem Compiler.fragment_resourced (sourced : Sourced compiler.definitions) {term term' : Json}
    (resourced : Resourced term term') (aliases : Aliases) :
    compiler.fragment term' aliases = compiler.fragment term aliases := by
  cases resourced with
  | kept => rfl
  | @changed attributes attributes' key keyed others =>
      have keyed' : attributes'.lookup sourcekeyKey = some (.string key) :=
        (others sourcekeyKey (by decide)).trans keyed
      by_cases isSearch : key = searchBoxKey
      · subst isSearch
        have search : (Term.mk .searchBox attributes').search =
            (Term.mk .searchBox attributes).search :=
          Term.search_congr (others searchKey (by decide))
        rw [fragment_search keyed, fragment_search keyed', searchFragment, searchFragment, search]
      cases defined : compiler.definitions.definition? key with
      | none =>
          rw [fragment_undefined keyed isSearch defined, fragment_undefined keyed' isSearch defined]
      | some definition =>
          rw [fragment_defined keyed isSearch defined, fragment_defined keyed' isSearch defined]
          have same : ∀ name, (Term.inherit attributes' definition.declaration).lookup name =
              (Term.inherit attributes definition.declaration).lookup name := by
            intro name
            by_cases isSource : name = sourceKey
            · subst isSource
              obtain ⟨last, isLast⟩ := Option.isSome_iff_exists.mp
                ((Json.Fields.lookup_reverse_isSome ..).trans (sourced key definition defined))
              rw [Term.lookup_inherit_source, Term.lookup_inherit_source, isLast, Option.some_or,
                Option.some_or]
            · rw [Term.lookup_inherit_of_ne isSource, Term.lookup_inherit_of_ne isSource,
                others name isSource]
          have column := @columnFragment_congr compiler
            ⟨.sourcekey key, Term.inherit attributes definition.declaration⟩
            ⟨.sourcekey key, Term.inherit attributes' definition.declaration⟩
          exact column rfl same aliases

theorem Compiler.addTerms_resourced (sourced : Sourced compiler.definitions)
    {terms terms' : List Json} (each : List.Forall₂ Resourced terms terms')
    (progress : Compiler.Progress) (index : Nat) :
    compiler.addTerms progress index terms' = compiler.addTerms progress index terms := by
  induction each generalizing progress index with
  | nil => rfl
  | cons resourced _ ih =>
      rw [addTerms, addTerms, addTerm, addTerm, fragment_resourced sourced resourced]
      exact bind_congr fun reached => ih reached (index + 1)

theorem conjuncts_of_lookup {fields : Json.Fields} {term : Json} {terms : List Json}
    (listed : fields.lookup facetsKey = some (.array (term :: terms))) :
    conjuncts (.object fields) = .ok (term :: terms) := by
  rw [conjuncts, listed]

theorem Compiler.compile_resourced (sourced : Sourced compiler.definitions) {facets facets' : Json}
    (resourced : ResourcedFacets facets facets') :
    compiler.compile facets' = compiler.compile facets := by
  obtain ⟨listed, listed', each⟩ := resourced
  cases each with
  | nil => rw [compile, compile, conjuncts, conjuncts, listed, listed']
  | cons resourced rest =>
      have each := List.Forall₂.cons resourced rest
      have conjoined := conjuncts_of_lookup listed
      have conjoined' := conjuncts_of_lookup listed'
      rw [compile_eq conjoined, compile_eq conjoined', compileFrom, compileFrom, initialAliases,
        initialAliases, reusedKeys_resourced each, addTerms_resourced sourced each]

/-- What is named is declared with the source that it was resolved from. -/
theorem build_declaration {definition : Definition}
    (defined : (Definitions.build directory table engine row).definition? key = some definition) :
    key ≠ searchBoxKey ∧ (key, .object definition.declaration) ∈ table.sourceDefinitions ∧
      ∃ item, definition.declaration.lookup sourceKey = some item ∧
        Spec.ofJson item = .ok definition.source.spec := by
  have all := @Definitions.build_induction directory table engine row
    (fun definitions => ∀ key definition, definitions.definition? key = some definition →
      key ≠ searchBoxKey ∧ (key, .object definition.declaration) ∈ table.sourceDefinitions ∧
        ∃ item, definition.declaration.lookup sourceKey = some item ∧
          Spec.ofJson item = .ok definition.source.spec) nofun ?_
  · exact all key definition defined
  · intro definitions key value added _ holds member defined name found isDefined
    rcases Definitions.definition?_extend_cases isDefined with old | ⟨-, rfl, same⟩
    · exact holds name found old
    · obtain ⟨declaration, item, rfl, isSource, read, -, isKey, rfl, -⟩ :=
        Definitions.define?_eq_some defined
      obtain rfl : key = name := isKey.symm.trans same
      refine ⟨?_, member, item, isSource, read⟩
      rintro rfl
      simp [Definitions.define?] at defined

/-- The constraints of a term are missing, or one of them is not valid. -/
structure Error.OfConstraints (error : Error) : Prop where
  kind : error.kind ∈
    [ErrorKind.missingConstraints, .invalidChoice, .invalidRange, .invalidSearch]
  cause : ∀ cause, error.cause = some cause → ∃ fault, cause = .constraint fault

theorem Error.OfConstraints.raised {outcome : Except Constraint.Error α} {error : Error}
    (fails : raise .ofConstraint outcome = .error error) : error.OfConstraints := by
  cases outcome with
  | ok value => contradiction
  | error fault =>
      cases fails
      refine ⟨?_, fun cause isCause => ⟨fault, (Option.some.inj isCause).symm⟩⟩
      cases fault <;> simp [ofConstraint, kindOfConstraint]

theorem Term.constraintUnder_error {term : Term} {error : Error}
    {read : Json → Except Constraint.Error Constraint}
    (fails : term.constraintUnder name read = .error error) : error.OfConstraints := by
  unfold constraintUnder at fails
  split at fails
  · contradiction
  · rename_i value _
    cases isRead : raise Error.ofConstraint (read value) with
    | ok constraint => simp [isRead] at fails
    | error cause =>
        rw [isRead, except_map_error] at fails
        exact Except.error.inj fails ▸ .raised isRead

theorem Term.constraints_error {term : Term} {error : Error}
    (fails : term.constraints = .error error) : error.OfConstraints := by
  obtain fails | ⟨choices, -, fails⟩ := bind_eq_error fails
  · exact constraintUnder_error fails
  obtain fails | ⟨ranges, -, fails⟩ := bind_eq_error fails
  · exact constraintUnder_error fails
  obtain fails | ⟨search, -, fails⟩ := bind_eq_error fails
  · exact constraintUnder_error fails
  have checked : ∀ constraints : List Constraint,
      (if constraints.isEmpty then throw (.ofKind .missingConstraints) else return constraints :
        Except Error (List Constraint)) = .error error → error.OfConstraints := by
    intro constraints fails
    split at fails
    · cases fails
      exact ⟨by decide, nofun⟩
    · contradiction
  exact checked _ fails

/-- A term whose source is found fails by its constraints. -/
theorem Compiler.columnFragment_error {term : Term} {spec : Spec} {found : Resolved × Option String}
    {error : Error} (isSpec : term.spec = .ok spec) (isFound : compiler.source term spec = .ok found)
    (fails : compiler.columnFragment term aliases = .error error) : error.OfConstraints := by
  rw [columnFragment, isSpec, ok_bind, isFound, ok_bind] at fails
  obtain fails | ⟨constraints, -, fails⟩ := bind_eq_error fails
  · exact Term.constraints_error fails
  obtain fails | ⟨clause, -, fails⟩ := bind_eq_error fails
  · exact .raised fails
  dsimp only at fails
  split at fails <;> contradiction

/-- No declaration of the table has an attribute twice. -/
def DeclaresOnce (table : Table) : Prop :=
  ∀ key declaration, (key, .object declaration) ∈ table.sourceDefinitions →
    (declaration.map Prod.fst).Nodup

/-- A term takes over the source that the named one was resolved from. -/
theorem Term.spec_defined (once : DeclaresOnce table) {definition : Definition}
    (defined : (Definitions.build directory table engine row).definition? key = some definition)
    (attributes : Json.Fields) :
    (Term.mk (.sourcekey key) (inherit attributes definition.declaration)).spec =
      .ok definition.source.spec := by
  obtain ⟨-, member, item, isSource, read⟩ := build_declaration defined
  refine spec_eq_ok.mpr ⟨item, ?_, read⟩
  dsimp only
  rw [lookup_inherit_source, Json.Fields.lookup_reverse (once key _ member), isSource,
    Option.some_or]

theorem Compiler.fragment_error (built : compiler.definitions = .build directory table engine row)
    (slow : compiler.options.fastSources = []) (once : DeclaresOnce table)
    (keyed : attributes.lookup sourcekeyKey = some (.string key))
    (listed : key ∈ compiler.definitions.sourcekeys) {error : Error}
    (fails : compiler.fragment (.object attributes) aliases = .error error) :
    error.OfConstraints := by
  obtain ⟨definition, defined⟩ : ∃ definition,
      compiler.definitions.definition? key = some definition := by
    rw [← Option.isSome_iff_exists, Definitions.definition?, List.find?_isSome]
    simpa [Definitions.sourcekeys] using listed
  have defined' := built ▸ defined
  have column := (build_declaration defined').1
  rw [fragment_defined keyed column defined] at fails
  have named : compiler.definitions.get? key = some definition.source := by
    rw [Definitions.get?, defined, Option.map_some]
  have found : compiler.source
      ⟨.sourcekey key, Term.inherit attributes definition.declaration⟩ definition.source.spec =
        .ok (definition.source, some key) := by
    simp only [source, slow, FastSources.get?, List.lookup_nil, Term.sourcekey?, named]
  exact columnFragment_error (Term.spec_defined once defined' attributes) found fails

/-- A term by itself fails as it fails to make a fragment. -/
theorem Compiler.compileFrom_singleton_error {term : Json} {error : Error}
    (fails : compiler.compileFrom aliases [term] = .error error) :
    ∃ cause, compiler.fragment term aliases = .error cause ∧ error = cause.atTerm 0 := by
  obtain failed | ⟨progress, -, done⟩ := bind_eq_error fails
  · obtain failed | ⟨progress, -, done⟩ := bind_eq_error failed
    · cases made : compiler.fragment term aliases with
      | error cause =>
          rw [addTerm, made] at failed
          cases failed
          exact ⟨cause, rfl, rfl⟩
      | ok reached =>
          obtain ⟨fragment, next⟩ := reached
          rw [addTerm, made] at failed
          cases fragment <;> contradiction
    · contradiction
  · contradiction

/-- What facets come to does not depend on the own source of a term that goes by a sourcekey,
    and such a term alone fails by its constraints only. -/
theorem sourcekey_precedes_source
    (built : compiler.definitions = .build directory table engine row) :
    (∀ facets facets', ResourcedFacets facets facets' →
      compiler.compile facets' = compiler.compile facets) ∧
    (compiler.options.fastSources = [] → DeclaresOnce table →
      ∀ fields attributes key error, fields.lookup facetsKey = some (.array [.object attributes]) →
        attributes.lookup sourcekeyKey = some (.string key) →
        key ∈ compiler.definitions.sourcekeys →
        compiler.compile (.object fields) = .error error →
        error.index = some 0 ∧ error.OfConstraints) := by
  constructor
  · intro facets facets' resourced
    refine Compiler.compile_resourced (fun key definition defined => ?_) resourced
    obtain ⟨-, -, item, isSource, -⟩ := build_declaration (built ▸ defined)
    rw [isSource, Option.isSome_some]
  · intro slow once fields attributes key error alone keyed listed fails
    rw [Compiler.compile_eq (conjuncts_of_lookup alone)] at fails
    obtain ⟨cause, failed, rfl⟩ := Compiler.compileFrom_singleton_error fails
    obtain ⟨kind, isConstraint⟩ := Compiler.fragment_error built slow once keyed listed failed
    exact ⟨rfl, kind, isConstraint⟩

/-! A term with a source that there is not, and one without constraints. -/

namespace Sample

def misplaced : Json := .object [("sourcekey", .string "owner"), ("not_null", .bool true),
  ("source", .array [.object [("outbound", .string "nowhere")], .string "id"])]

def unconstrained : Json := .object [("sourcekey", .string "owner")]

end Sample

theorem sourcekey_precedes_source_owner :
    Sample.failing.definitions = .build PathQuery.Sample.catalog.directory PathQuery.Sample.item
      PathQuery.Sample.engine [] ∧
    DeclaresOnce PathQuery.Sample.item ∧
    Sample.failing.compile (.object [("and", .array [Sample.owned])]) =
      Sample.failing.compile (.object [("and", .array [Sample.misplaced])]) ∧
    (Sample.failing.compile (.object [("and", .array [Sample.misplaced])])).toOption.isSome =
      true ∧
    ∃ error, Sample.failing.compile (.object [("and", .array [Sample.unconstrained])]) =
      .error error ∧ error.OfConstraints := by
  have built : Sample.failing.definitions = .build PathQuery.Sample.catalog.directory
      PathQuery.Sample.item PathQuery.Sample.engine [] := rfl
  have once : DeclaresOnce PathQuery.Sample.item := by
    intro key declaration member
    simp only [PathQuery.Sample.item, PathQuery.Sample.declares, List.mem_cons, Prod.mk.injEq,
      Json.object.injEq, List.not_mem_nil, or_false] at member
    obtain ⟨-, rfl⟩ | ⟨-, rfl⟩ := member
    · simp
    · simp
  obtain ⟨same, fails⟩ := sourcekey_precedes_source built
  refine ⟨built, once, same _ _ (.conjunction rfl rfl (.cons ?_ .nil)), by decide +kernel, ?_⟩
  · refine .changed rfl fun name apart => ?_
    have apart : (name == "source") = false := beq_false_of_ne apart
    simp only [List.lookup_cons, apart]
  · cases outcome : Sample.failing.compile
        (.object [("and", .array [Sample.unconstrained])]) with
    | error error =>
        exact ⟨error, rfl, (fails rfl once _ _ "owner" error rfl rfl (by decide +kernel) outcome).2⟩
    | ok compiled =>
        have failed : (Sample.failing.compile
            (.object [("and", .array [Sample.unconstrained])])).toOption.isSome = false := by
          decide +kernel
        simp [outcome, Except.toOption] at failed

end PathQuery.Facet
