import PathQuery.Proofs.Facet.Reuse
import PathQuery.Proofs.Path.Flattening
import PathQuery.Proofs.Source.Equivalence

namespace PathQuery.Facet

/-! # Raw sources that are defined

A term with a source of its own is given the source of a definition, if there is one with
its token.  The definition was resolved when it was declared, with fewer named sources and
perhaps from another order of filters and columns.  Still it is the source that resolving
the term's own one gives, up to the order of what its filters combine.
-/

open Source

variable {compiler : Compiler} {table : Table} {value : Json} {term : Term} {spec : Spec}

/-- The source of a definition that a term with a source of its own is given. -/
theorem Compiler.source_of_definition
    (distinct : (table.sourceDefinitions.map Prod.fst).Nodup)
    (built : compiler.definitions =
      .build compiler.directory table compiler.engine compiler.row)
    (noFast : compiler.options.fastSources = []) (inline : term.origin = .inline)
    (defined : compiler.definitions.sourcekeysFor spec.token ≠ []) :
    ∃ definition ∈ compiler.definitions.entries, definition.source.spec.token = spec.token ∧
      compiler.definitions.get? definition.sourcekey = some definition.source ∧
      compiler.source term spec = .ok (definition.source, none) := by
  obtain ⟨key, keys, listed⟩ := List.exists_cons_of_ne_nil defined
  have isFirst : key ∈ compiler.definitions.sourcekeysFor spec.token :=
    listed ▸ List.mem_cons_self
  obtain ⟨definition, selected, rfl⟩ := List.mem_map.mp isFirst
  obtain ⟨member, token⟩ := List.mem_filter.mp selected
  have token := (Definitions.build_token (built ▸ member)).symm.trans (beq_iff_eq.mp token)
  have named : compiler.definitions.get? definition.sourcekey = some definition.source := by
    rw [built]
    exact Definitions.get?_eq_some.mpr
      ⟨definition, Definitions.build_definition? distinct (built ▸ member), rfl⟩
  refine ⟨definition, member, token, named, ?_⟩
  have noKey : term.sourcekey? = none := by rw [Term.sourcekey?, inline]
  have shared : (compiler.definitions.sourcekeysFor spec.token).head?.bind
      compiler.definitions.get? = some definition.source := by
    rw [listed, List.head?_cons, Option.bind_some, named]
  simp only [Compiler.source, FastSources.get?, noFast, List.lookup_nil, noKey, shared]

/-- A raw source that hashes to a definition is resolved directly too, and the source of the
    definition is the same but for the order of what filters combine: the same kinds of legs,
    foreign keys and tables, the same named source before them, the same column and facts,
    and filters that accept the same rows. -/
theorem reused_source_alike (distinct : (table.sourceDefinitions.map Prod.fst).Nodup)
    (built : compiler.definitions =
      .build compiler.directory table compiler.engine compiler.row)
    (noFast : compiler.options.fastSources = [])
    (identify : TokensIdentify compiler.definitions [value])
    (readTerm : Term.ofJson compiler.definitions value = .ok term)
    (inline : term.origin = .inline) (isSpec : term.spec = .ok spec)
    (defined : compiler.definitions.sourcekeysFor spec.token ≠ []) :
    ∃ key reused direct, compiler.definitions.get? key = some reused ∧
      compiler.source term spec = .ok (reused, none) ∧
      compiler.definitions.resolve compiler.directory compiler.engine compiler.row spec =
        .ok direct ∧
      reused.Alike direct := by
  obtain ⟨definition, member, token, named, found⟩ :=
    Compiler.source_of_definition distinct built noFast inline defined
  obtain ⟨item, isItem, read⟩ := Term.spec_eq_ok.mp isSpec
  have same : definition.source.spec.canonicalText = spec.canonicalText := by
    obtain ⟨attributes, rfl, ⟨absent, rfl⟩ | ⟨-, isSearch⟩ | ⟨key, -, -, isKey⟩⟩ :=
      Term.ofJson_cases readTerm
    · exact identify attributes item spec (List.mem_singleton.mpr rfl) absent isItem read
        definition member token
    · rw [inline] at isSearch
      contradiction
    · rw [inline] at isKey
      contradiction
  obtain ⟨item', read'⟩ := Definitions.build_read (built ▸ member)
  have reordered := Spec.reordered_of_canonicalText read' read same
  have resolved : definition.source.spec.resolve (compiler.definitions.context
      compiler.directory compiler.engine compiler.row) = .ok definition.source := by
    have grounded := Definitions.build_grounded (built ▸ named)
    rw [built]
    exact grounded.resolve_spec
  obtain ⟨direct, direct', alike⟩ := reordered.resolve (Spec.ofJson_paired read')
    (Spec.ofJson_paired read) resolved
  exact ⟨definition.sourcekey, definition.source, direct, named, found, direct', alike⟩

namespace Sample

def isOne : Filter.Tree := .leaf ⟨"id", .equal, some (.template "1"), false⟩

def isNamed : Filter.Tree := .leaf ⟨"name", .equal, some (.template "x"), false⟩

/-- Two comparisons at the end of a named source. -/
def narrowed (first second : Filter.Tree) : Spec :=
  ⟨[.sourcekey "owner", .filter (.node .all [first, second] false)], "name"⟩

/-- The comparisons are declared in one order. -/
def narrowing : Table := { PathQuery.Sample.item with
  sourceDefinitions := [
    ("owner", PathQuery.Sample.declares
      [.object [("outbound", .array [.string "s", .string "owner"])]] "id"),
    ("narrowed", .object [("source", (narrowed isNamed isOne).toJson)])] }

def reusing : Compiler where
  directory := PathQuery.Sample.catalog.directory
  capabilities := PathQuery.Sample.catalog.features.capabilities
  definitions := .build PathQuery.Sample.catalog.directory narrowing PathQuery.Sample.engine []
  engine := PathQuery.Sample.engine
  row := []
  options := .default

/-- The term has them in the other order. -/
def rawTerm : Term where
  origin := .inline
  attributes := [("source", (narrowed isOne isNamed).toJson), ("choices", .array [.string "a"])]

theorem reusing_specs : reusing.definitions.entries.map (fun entry => entry.source.spec) =
    [⟨[.hop ⟨.outbound, .constraint "s" "owner", none⟩], "id"⟩, narrowed isNamed isOne] := by
  decide +kernel

theorem narrowed_text : (narrowed isOne isNamed).canonicalText =
    "[\x7b\"sourcekey\":\"owner\"\x7d,\x7b\"filter\":\"(id=1&name=x)\"\x7d,\"name\"]" := by
  have ordered : [isOne, isNamed].mergeSort Filter.Tree.precedes = [isOne, isNamed] :=
    List.mergeSort_of_pairwise (by decide +kernel)
  have canonical : (Filter.Tree.node .all [isOne, isNamed] false).canonical =
      .node .all [isOne, isNamed] false := by
    rw [Filter.Tree.canonical, Filter.Tree.canonicals_eq]
    exact congrArg (Filter.Tree.node .all · false) ordered
  simp only [narrowed, Spec.canonicalText, List.map_cons, List.map_nil, Step.canonicalText,
    canonical]
  decide +kernel

theorem narrowed_swapped :
    (narrowed isNamed isOne).canonicalText = (narrowed isOne isNamed).canonicalText := by
  have reordered : (narrowed isNamed isOne).Reordered false (narrowed isOne isNamed) := by
    refine ⟨.cons (.sourcekey "owner") (.cons (.filter ?_) .nil), rfl⟩
    exact .node false (.inl rfl) (.swap _ _ _) (.cons (.leaf _) (.cons (.leaf _) .nil))
  exact reordered.canonicalText_eq

end Sample

theorem reused_source_alike_swapped :
    ∃ key reused direct, Sample.reusing.definitions.get? key = some reused ∧
      Sample.reusing.source Sample.rawTerm (Sample.narrowed Sample.isOne Sample.isNamed) =
        .ok (reused, none) ∧
      Sample.reusing.definitions.resolve Sample.reusing.directory Sample.reusing.engine
        Sample.reusing.row (Sample.narrowed Sample.isOne Sample.isNamed) = .ok direct ∧
      reused.Alike direct := by
  have distinct : (Sample.narrowing.sourceDefinitions.map Prod.fst).Nodup := by decide
  have token := congrArg Digest.token Sample.narrowed_swapped
  have listed : ∀ spec, spec ∈ Sample.reusing.definitions.entries.map
      (fun entry => entry.source.spec) →
      spec.token = (Sample.narrowed Sample.isOne Sample.isNamed).token →
      spec.canonicalText = (Sample.narrowed Sample.isOne Sample.isNamed).canonicalText := by
    rw [Sample.reusing_specs]
    simp only [List.forall_mem_cons]
    refine ⟨?_, fun _ => Sample.narrowed_swapped, nofun⟩
    rw [Spec.token, Spec.token, Sample.narrowed_text]
    intro same
    exact absurd same (by decide +kernel)
  have identify : TokensIdentify Sample.reusing.definitions
      [.object Sample.rawTerm.attributes] := by
    intro attributes item spec member raw found read definition inEntries same
    obtain rfl := Json.object.inj (List.mem_singleton.mp member)
    obtain rfl := Option.some.inj found
    obtain rfl : Sample.narrowed Sample.isOne Sample.isNamed = spec := Except.ok.inj read
    exact listed _ (List.mem_map_of_mem inEntries) same
  have defined : Sample.reusing.definitions.sourcekeysFor
      (Sample.narrowed Sample.isOne Sample.isNamed).token ≠ [] := by
    have narrowed : Sample.narrowed Sample.isNamed Sample.isOne ∈
        Sample.reusing.definitions.entries.map (fun entry => entry.source.spec) := by
      rw [Sample.reusing_specs]
      exact List.mem_cons_of_mem _ List.mem_cons_self
    obtain ⟨definition, inEntries, isSpec⟩ := List.mem_map.mp narrowed
    refine List.ne_nil_of_mem (List.mem_map_of_mem (List.mem_filter.mpr ⟨inEntries, ?_⟩))
    rw [Definitions.build_token inEntries, isSpec]
    exact beq_iff_eq.mpr token
  exact reused_source_alike distinct rfl rfl identify rfl rfl rfl defined

end PathQuery.Facet
