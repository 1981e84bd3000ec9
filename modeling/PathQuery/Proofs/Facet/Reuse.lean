import PathQuery.Proofs.Facet.Cases
import PathQuery.Proofs.Path.Trail
import PathQuery.Proofs.Source.Dependencies

namespace PathQuery.Facet

/-! # Sourcekeys that are gone through again

Before any term is rendered the sourcekeys of all terms are counted.  A term counts what
its source goes through, even if that is found by its token among the named sources, so
what is rendered twice is counted twice.  With a sourcekey that is counted twice the one
that its source continues is counted twice as well.
-/

open Source

variable {definitions : Definitions} {aliases : Aliases} {compiler : Compiler}
  {terms : List Json}

/-- The sourcekeys that a term goes through by what it declares. -/
def Term.declaredKeys (definitions : Definitions) (term : Term) (spec : Spec) : List String :=
  match term.sourcekey? with
  | some key => definitions.dependencies key
  | none => definitions.inherited spec

theorem usedKeys_searchBox {value : Json} {term : Term}
    (read : Term.ofJson definitions value = .ok term) (origin : term.origin = .searchBox) :
    usedKeys definitions value =
      definitions.searchColumns.flatMap fun column => definitions.inherited column.spec := by
  obtain ⟨attributes, rfl, ⟨-, rfl⟩ | ⟨present, -⟩ | ⟨key, -, -, other⟩⟩ := Term.ofJson_cases read
  · contradiction
  · simp [usedKeys, present, Definitions.inherited]
  · rw [origin] at other
    contradiction

theorem usedKeys_column {value : Json} {term : Term} {spec : Spec}
    (read : Term.ofJson definitions value = .ok term) (origin : term.origin ≠ .searchBox)
    (isSpec : term.spec = .ok spec) :
    usedKeys definitions value = term.declaredKeys definitions spec := by
  obtain ⟨attributes, rfl, ⟨absent, rfl⟩ | ⟨-, isSearch⟩ | ⟨key, isColumn, present, isKey⟩⟩ :=
    Term.ofJson_cases read
  · obtain ⟨item, found, readSpec⟩ := Term.spec_eq_ok.mp isSpec
    simp only [usedKeys, absent, found, Option.map_some, readSpec]
    rfl
  · exact absurd isSearch origin
  · simp [usedKeys, present, isColumn, Term.declaredKeys, Term.sourcekey?, isKey]

theorem mem_reusedKeys {key : String} :
    key ∈ reusedKeys definitions terms ↔
      1 < (terms.flatMap (usedKeys definitions)).count key := by
  simp only [reusedKeys, List.mem_eraseDups, List.mem_filter, decide_eq_true_eq, gt_iff_lt,
    and_iff_right_iff_imp]
  intro twice
  exact List.count_pos_iff.mp (Nat.zero_lt_of_lt twice)

/-- The sources that the definitions of a table hold. -/
structure Sound (definitions : Definitions) : Prop where
  chained : definitions.Chained
  named : ∀ key source, definitions.get? key = some source →
    Grounded (Naming definitions.get?) source
  search : ∀ column ∈ definitions.searchColumns, Grounded (Naming definitions.get?) column

theorem Sound.countsStarts_dependencies (sound : Sound definitions) (key : String) :
    CountsStarts definitions.get? (definitions.dependencies key) := by
  cases found : definitions.get? key with
  | none =>
      rw [Definitions.dependencies_eq_nil found]
      exact countsStarts_nil
  | some source =>
      rw [sound.chained.dependencies_eq found]
      have chain := (sound.named key source found).countsStarts sound.chained.acyclic
      exact chain.cons sound.chained.acyclic found

theorem Sound.countsStarts_inherited (sound : Sound definitions) (spec : Spec) :
    CountsStarts definitions.get? (definitions.inherited spec) := by
  unfold Definitions.inherited
  cases spec.sourcekey? with
  | none => exact countsStarts_nil
  | some key => exact sound.countsStarts_dependencies key

theorem Sound.countsStarts_usedKeys (sound : Sound definitions) (value : Json) :
    CountsStarts definitions.get? (usedKeys definitions value) := by
  unfold usedKeys
  split
  · split
    · split
      · exact countsStarts_flatMap fun column _ => sound.countsStarts_inherited column.spec
      · exact sound.countsStarts_dependencies _
    · split
      · exact sound.countsStarts_inherited _
      · exact countsStarts_nil
  · exact countsStarts_nil

theorem Sound.reuseClosed (sound : Sound definitions)
    (reused : aliases.reused = reusedKeys definitions terms) :
    ReuseClosed definitions.get? aliases := by
  intro key sourcekey start route found isReused
  have counts := countsStarts_flatMap fun value (_ : value ∈ terms) =>
    sound.countsStarts_usedKeys value
  rw [Aliases.isReused, reused, List.contains_iff_mem, mem_reusedKeys] at isReused ⊢
  exact isReused.trans_le (counts key sourcekey start route found)

/-- A raw source of the terms and the source of a definition with one token are the same
    source: their canonical texts do not collide. -/
def TokensIdentify (definitions : Definitions) (terms : List Json) : Prop :=
  ∀ attributes item spec, Json.object attributes ∈ terms →
    attributes.lookup sourcekeyKey = none → attributes.lookup sourceKey = some item →
    Spec.ofJson item = .ok spec → ∀ definition ∈ definitions.entries,
      definition.source.spec.token = spec.token →
      definition.source.spec.canonicalText = spec.canonicalText

theorem TokensIdentify.mono {definitions : Definitions} {terms others : List Json}
    (identify : TokensIdentify definitions terms) (within : others ⊆ terms) :
    TokensIdentify definitions others :=
  fun attributes item spec member => identify attributes item spec (within member)

/-- The sources that a compiler renders for some terms. -/
structure Compiler.Sharing (compiler : Compiler) (terms : List Json) : Prop where
  sound : Sound compiler.definitions
  noFast : compiler.options.fastSources = []
  /-- A source that is found by its token continues what the raw source does. -/
  tokens : ∀ value ∈ terms, ∀ term, Term.ofJson compiler.definitions value = .ok term →
    term.origin = .inline → ∀ spec, term.spec = .ok spec → ∀ source,
    (compiler.definitions.sourcekeysFor spec.token).head?.bind compiler.definitions.get? =
        some source → source.spec.sourcekey? = spec.sourcekey?

theorem Sound.of_build (directory : Directory) (table : Table) (engine : Template.Engine)
    (row : Row) : Sound (.build directory table engine row) where
  chained := Definitions.build_chained directory table engine row
  named _ _ := Definitions.build_naming
  search column listed := by
    obtain ⟨spec, resolved⟩ := Definitions.mem_searchColumns listed
    exact Definitions.resolve_naming (fun _ _ => Definitions.build_naming) resolved

theorem Compiler.sharing_of_build {directory : Directory} {table : Table}
    {engine : Template.Engine} {row : Row}
    (distinct : (table.sourceDefinitions.map Prod.fst).Nodup)
    (built : compiler.definitions = .build directory table engine row)
    (noFast : compiler.options.fastSources = [])
    (identify : TokensIdentify compiler.definitions terms) : compiler.Sharing terms where
  sound := built ▸ Sound.of_build directory table engine row
  noFast := noFast
  tokens value member term read origin spec isSpec source found := by
    obtain ⟨attributes, rfl, ⟨absent, rfl⟩ | ⟨-, isSearch⟩ | ⟨key, -, -, isKey⟩⟩ :=
      Term.ofJson_cases read
    · rw [built] at found
      obtain ⟨definition, listed, rfl, same⟩ := Definitions.build_sourcekeysFor distinct found
      obtain ⟨item, isItem, readSpec⟩ := Term.spec_eq_ok.mp isSpec
      exact Spec.sourcekey?_of_canonicalText (identify attributes item spec member absent isItem
        readSpec definition (built ▸ listed) same)
    · rw [origin] at isSearch
      contradiction
    · rw [origin] at isKey
      contradiction

/-- The source of a term goes through what the term declares. -/
theorem Compiler.Sharing.source_cases (sharing : compiler.Sharing terms) {value : Json}
    (member : value ∈ terms) {term : Term}
    (read : Term.ofJson compiler.definitions value = .ok term)
    (column : term.origin ≠ .searchBox) {spec : Spec} (isSpec : term.spec = .ok spec)
    {source : Resolved} {key : Option String}
    (found : compiler.source term spec = .ok (source, key)) :
    Grounded (Naming compiler.definitions.get?) source ∧
      (∀ shared, key = some shared → compiler.definitions.get? shared = some source) ∧
      term.declaredKeys compiler.definitions spec = key.toList ++ source.chain := by
  unfold Term.declaredKeys
  obtain ⟨⟨entry, listed, -⟩, -⟩ | ⟨shared, isKey, isNamed, rfl⟩ | ⟨isKey, rfl, resolves⟩ :=
    Compiler.source_cases found
  · rw [sharing.noFast] at listed
    contradiction
  · rw [isKey]
    refine ⟨sharing.sound.named shared source isNamed, ?_, ?_⟩
    · intro other same
      rwa [← Option.some.inj same]
    · exact sharing.sound.chained.dependencies_eq isNamed
  · have origin : term.origin = .inline := by
      cases isOrigin : term.origin with
      | searchBox => exact absurd isOrigin column
      | sourcekey key => simp [Term.sourcekey?, isOrigin] at isKey
      | inline => rfl
    have grounded : Grounded (Naming compiler.definitions.get?) source := by
      rcases resolves with isShared | resolved
      · obtain ⟨other, -, isNamed⟩ := Option.bind_eq_some_iff.mp isShared
        exact sharing.sound.named other source isNamed
      · exact Definitions.resolve_naming sharing.sound.named resolved
    have same : source.spec.sourcekey? = spec.sourcekey? := by
      rcases resolves with isShared | resolved
      · exact sharing.tokens value member term read origin spec isSpec source isShared
      · rw [Spec.resolve_spec resolved]
    rw [isKey]
    refine ⟨grounded, nofun, ?_⟩
    rw [Option.toList_none, List.nil_append, ← grounded.inherited_eq sharing.sound.chained]
    simp only [Definitions.inherited, same]

end PathQuery.Facet
