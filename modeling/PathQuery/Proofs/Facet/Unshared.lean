import PathQuery.Proofs.Facet.Failures
import PathQuery.Proofs.Facet.Reuse

namespace PathQuery

/-! # Facets that share no source

Terms without a sourcekey in common leave the aliases as they find them, which is as they
are for each term alone.  So the path of all the terms is made of the paths of each.
-/

namespace Source

/-- Where no alias is bound or wanted, a source that is given none binds none either. -/
theorem Resolved.render_unaliased (source : Resolved) (kind : JoinKind) {aliases : Aliases}
    (untouched : aliases.Untouched) (key : Option String) :
    source.render kind key none aliases =
      (⟨legSegments kind none source.fullLegs, none⟩, aliases) := by
  obtain ⟨unbound, unforced, unused⟩ := untouched
  have absent : ∀ key : Option String, key.bind aliases.get? = none := by
    intro key
    cases key <;> simp [Aliases.get?, unbound]
  have chosen : ∀ (source : Resolved) (key : Option String),
      source.chooseAlias key none aliases = (none, aliases) := by
    intro source key
    cases key <;> simp [chooseAlias, Aliases.needsAlias, Aliases.isForced, Aliases.isReused,
      Aliases.forced?, unforced, unused]
  have kept : ∀ (key : Option String) (path : Path),
      bindEnd key ⟨path, none⟩ aliases = (⟨path, none⟩, aliases) := by
    intro key path
    cases key <;> rfl
  induction source generalizing key with
  | fromRoot route =>
      rw [render_joined (absent _)]
      simp only [chosen, renderLead, renderLegs, ite_self, List.nil_append]
      exact kept _ _
  | continuing sourcekey start route ih =>
      rw [render_joined (absent _)]
      simp only [chosen, renderLead, ite_self, ih, renderLegs]
      rw [kept, fullLegs, legSegments_append, ite_self]
      rfl

end Source

namespace Facet

open Source

variable {compiler : Compiler} {aliases next : Aliases} {term : Json} {terms : List Json}

/-- The term goes by the sourcekey of the search box. -/
def isSearch : Json → Bool
  | .object attributes =>
    match attributes.lookup sourcekeyKey with
    | some (.string key) => key == searchBoxKey
    | _ => false
  | _ => false

theorem isSearch_object {attributes : Json.Fields}
    (present : attributes.lookup sourcekeyKey = some (.string searchBoxKey)) :
    isSearch (.object attributes) = true := by
  simp [isSearch, present]

def Fragment.path : Fragment → Path
  | .inner path => path
  | .right path => path

/-- A term that is no search leaves untouched aliases as they are. -/
theorem Compiler.fragment_untouched (untouched : aliases.Untouched) (column : isSearch term = false)
    {fragment : Fragment} (compiled : compiler.fragment term aliases = .ok (fragment, next)) :
    next = aliases ∧ fragment.path ≠ [] := by
  obtain ⟨parsed, read, ⟨isSearch, -⟩ | ⟨-, compiled⟩⟩ := fragment_cases compiled
  · obtain ⟨attributes, rfl, ⟨-, rfl⟩ | ⟨present, -⟩ | ⟨key, -, -, isKey⟩⟩ := Term.ofJson_cases read
    · contradiction
    · rw [isSearch_object present] at column
      contradiction
    · rw [isSearch] at isKey
      contradiction
  · obtain ⟨_, source, key, _, clause, -, -, -, -, ⟨-, rfl, rfl⟩ | ⟨-, rfl, rfl⟩⟩ :=
      columnFragment_cases compiled
    · exact ⟨rfl, by simp [Fragment.path]⟩
    · rw [Resolved.path, source.render_unaliased .inner untouched key]
      exact ⟨rfl, by simp [Fragment.path]⟩

theorem usedKeys_nodup (sound : Sound compiler.definitions) (column : isSearch term = false) :
    (usedKeys compiler.definitions term).Nodup := by
  have dependencies : ∀ key, (compiler.definitions.dependencies key).Nodup := by
    intro key
    cases found : compiler.definitions.get? key with
    | none =>
        rw [Definitions.dependencies_eq_nil found]
        exact List.nodup_nil
    | some source =>
        have acyclic := sound.chained.acyclic
        rw [sound.chained.dependencies_eq found]
        exact List.nodup_cons.mpr
          ⟨acyclic key source found, (sound.named key source found).chain_nodup acyclic⟩
  unfold usedKeys
  split
  · rename_i attributes
    split
    · rename_i key present
      split
      · rename_i same
        rw [isSearch_object (same ▸ present)] at column
        contradiction
      · exact dependencies key
    · split
      · rename_i spec _
        cases spec.sourcekey? with
        | none => exact List.nodup_nil
        | some key => exact dependencies key
      · exact List.nodup_nil
  · exact List.nodup_nil

/-- No sourcekey is gone through by two of the terms. -/
def Apart (definitions : Definitions) (terms : List Json) : Prop :=
  terms.Pairwise fun left right => (usedKeys definitions left).Disjoint (usedKeys definitions right)

theorem reusedKeys_eq_nil (sound : Sound compiler.definitions)
    (columns : ∀ term ∈ terms, isSearch term = false) (apart : Apart compiler.definitions terms) :
    reusedKeys compiler.definitions terms = [] := by
  have once : (terms.flatMap (usedKeys compiler.definitions)).Nodup :=
    List.nodup_flatMap.mpr ⟨fun term member => usedKeys_nodup sound (columns term member), apart⟩
  refine List.eq_nil_iff_forall_not_mem.mpr fun key reused => ?_
  exact absurd (mem_reusedKeys.mp reused) (Nat.not_lt.mpr (List.nodup_iff_count_le_one.mp once key))

/-- The aliases of a compiler that forces none, for terms that share none. -/
def Compiler.fresh (compiler : Compiler) : Aliases := .new compiler.options.rootAlias [] []

theorem Compiler.fresh_untouched (compiler : Compiler) : compiler.fresh.Untouched :=
  ⟨rfl, rfl, rfl⟩

theorem Compiler.initialAliases_fresh (unforced : compiler.options.forcedAliases = [])
    (unshared : reusedKeys compiler.definitions terms = []) :
    compiler.initialAliases terms = compiler.fresh := by
  rw [initialAliases, unforced, unshared, fresh]

/-- What is compiled from one fragment. -/
def Compiler.madeOf (compiler : Compiler) (fragment : Fragment) : Compiled :=
  ⟨fragment.path, fragment.isRight, compiler.fresh⟩

theorem Compiler.alone_of_fragment {fragment : Fragment}
    (fresh : compiler.initialAliases [term] = compiler.fresh)
    (compiled : compiler.fragment term compiler.fresh = .ok (fragment, compiler.fresh)) :
    compiler.alone term = .ok (compiler.madeOf fragment) := by
  rw [alone, compile_eq rfl, compileFrom, fresh, addTerms, addTerm, compiled]
  cases fragment with
  | inner path => rfl
  | right path => simp [Progress.add, raise, addTerms, madeOf, Fragment.path, Fragment.isRight]

/-- The parts of the path that the terms add, of which one may come first. -/
theorem Compiler.addTerms_unshared (columns : ∀ term ∈ terms, isSearch term = false)
    (alike : ∀ term ∈ terms, compiler.initialAliases [term] = compiler.fresh)
    {progress reached : Compiler.Progress} {index : Nat}
    (fresh : progress.aliases = compiler.fresh)
    (added : compiler.addTerms progress index terms = .ok reached) :
    ∃ singles, List.Forall₂ (fun term single => compiler.alone term = .ok single) terms singles ∧
      (∀ single ∈ singles, single.path ≠ []) ∧
      reached.aliases = compiler.fresh ∧
      reached.right.toList = progress.right.toList ++
        (singles.filter Compiled.rightJoin).map Compiled.path ∧
      reached.inner = progress.inner ++
        (singles.filter fun single => !single.rightJoin).flatMap Compiled.path := by
  induction terms generalizing progress index with
  | nil =>
      cases added
      exact ⟨[], .nil, nofun, fresh, by simp, by simp⟩
  | cons term terms ih =>
      obtain ⟨column, columns⟩ := List.forall_mem_cons.mp columns
      obtain ⟨first, alike⟩ := List.forall_mem_cons.mp alike
      obtain ⟨between, addedTerm, added⟩ := bind_eq_ok.mp added
      obtain ⟨⟨fragment, next⟩, compiled, addedTerm⟩ := bind_eq_ok.mp (raise_eq_ok.mp addedTerm)
      rw [fresh] at compiled
      obtain ⟨rfl, nonempty⟩ := fragment_untouched compiler.fresh_untouched column compiled
      have alone := alone_of_fragment first compiled
      obtain ⟨path, rfl, rfl⟩ | ⟨path, rfl, free, rfl⟩ := Progress.add_cases addedTerm
      · obtain ⟨singles, aloneAll, nonemptyAll, fresh, right, inner⟩ := ih columns alike rfl added
        refine ⟨compiler.madeOf (.inner path) :: singles, .cons alone aloneAll,
          List.forall_mem_cons.mpr ⟨nonempty, nonemptyAll⟩, fresh, ?_, ?_⟩
        · rw [right, List.filter_cons_of_neg (by simp [madeOf, Fragment.isRight])]
        · rw [inner, List.filter_cons_of_pos rfl, List.flatMap_cons, List.append_assoc]
          rfl
      · obtain ⟨singles, aloneAll, nonemptyAll, fresh, right, inner⟩ := ih columns alike rfl added
        refine ⟨compiler.madeOf (.right path) :: singles, .cons alone aloneAll,
          List.forall_mem_cons.mpr ⟨nonempty, nonemptyAll⟩, fresh, ?_, ?_⟩
        · rw [right, free, List.filter_cons_of_pos rfl]
          rfl
        · rw [inner, List.filter_cons_of_neg (by simp [madeOf, Fragment.isRight])]

theorem text_flatten {paths : List Path} (nonempty : ∀ path ∈ paths, path ≠ []) :
    Path.text paths.flatten = "/".intercalate (paths.map Path.text) := by
  induction paths with
  | nil => rfl
  | cons path paths ih =>
      obtain ⟨first, others⟩ := List.forall_mem_cons.mp nonempty
      cases paths with
      | nil => simp
      | cons second later =>
          have given : path.map Segment.text ≠ [] := by simpa using first
          have given' : (second :: later).flatten.map Segment.text ≠ [] := by
            simp [others second List.mem_cons_self]
          rw [List.flatten_cons, Path.text, List.map_append,
            String.intercalate_append_of_ne_nil given given']
          change path.text ++ "/" ++ Path.text (second :: later).flatten = _
          rw [ih others, List.map_cons, List.map_cons, List.map_cons,
            String.intercalate_cons_cons]

/-- The term that comes first, if there is one, and the others in turn. -/
def arranged (singles : List Compiled) : List Compiled :=
  singles.filter Compiled.rightJoin ++ singles.filter fun single => !single.rightJoin

/-- Facets that share no sourcekey come to the paths of their terms, each as it is compiled
    alone, and bind no alias. -/
theorem compile_unshared {directory : Directory} {table : Table} {engine : Template.Engine}
    {row : Row} (built : compiler.definitions = .build directory table engine row)
    (unforced : compiler.options.forcedAliases = []) {facets : Json}
    (conjoined : conjuncts facets = .ok terms) (columns : ∀ term ∈ terms, isSearch term = false)
    (apart : Apart compiler.definitions terms) {compiled : Compiled}
    (compiles : compiler.compile facets = .ok compiled) :
    ∃ singles, List.Forall₂ (fun term single => compiler.alone term = .ok single) terms singles ∧
      (singles.filter Compiled.rightJoin).length ≤ 1 ∧
      compiled.path = (arranged singles).flatMap Compiled.path ∧
      compiled.path.text = "/".intercalate ((arranged singles).map fun single => single.path.text) ∧
      compiled.aliases.bound = [] := by
  have sound : Sound compiler.definitions := built ▸ Sound.of_build directory table engine row
  have fresh := Compiler.initialAliases_fresh unforced (reusedKeys_eq_nil sound columns apart)
  have alike : ∀ term ∈ terms, compiler.initialAliases [term] = compiler.fresh := by
    intro term member
    have column : ∀ other ∈ [term], isSearch other = false :=
      List.forall_mem_singleton.mpr (columns term member)
    exact Compiler.initialAliases_fresh unforced
      (reusedKeys_eq_nil sound column (List.pairwise_singleton _ term))
  rw [Compiler.compile_eq conjoined] at compiles
  obtain ⟨progress, added, compiles⟩ := bind_eq_ok.mp compiles
  cases compiles
  obtain ⟨singles, each, nonempty, unbound, right, inner⟩ :=
    Compiler.addTerms_unshared columns alike fresh added
  have taken : progress.right.toList = (singles.filter Compiled.rightJoin).map Compiled.path :=
    right
  have paths : progress.right.getD [] ++ progress.inner =
      (arranged singles).flatMap Compiled.path := by
    have lead : progress.right.getD [] = progress.right.toList.flatten := by
      cases progress.right <;> simp
    rw [arranged, List.flatMap_append, lead, taken, inner]
    rfl
  refine ⟨singles, each, ?_, paths, ?_, by rw [unbound]; rfl⟩
  · rw [← List.length_map (f := Compiled.path), ← taken]
    cases progress.right <;> simp
  · dsimp only
    rw [paths, List.flatMap_def, text_flatten]
    · rw [List.map_map]
      rfl
    · intro path listed
      obtain ⟨single, among, rfl⟩ := List.mem_map.mp listed
      rcases List.mem_append.mp among with comesFirst | comesLater
      · exact nonempty single (List.mem_of_mem_filter comesFirst)
      · exact nonempty single (List.mem_of_mem_filter comesLater)

/-! A term under a sourcekey that continues another one, one with a source of its own that is
defined as the latter and keeps rows without it, and one on the table itself. -/

namespace Sample

def unshared : List Json := [
  .object [("sourcekey", .string "named"), ("choices", .array [.string "a"])],
  .object [("source", .array [.object [("outbound", .array [.string "s", .string "owner"])],
    .string "id"]), ("choices", .array [.null])],
  .object [("source", .string "id"), ("choices", .array [.string "1"])]]

end Sample

theorem compile_unshared_named : ∃ compiled singles,
    Sample.failing.compile (.object [("and", .array Sample.unshared)]) = .ok compiled ∧
    compiled.path.text = "s:person/id::null::/M:=right(id)=(s:item:owner_id)/" ++
      "(owner_id)=(s:person:id)/name=x/name=a/$M/id=1/$M" ∧
    List.Forall₂ (fun term single => Sample.failing.alone term = .ok single)
      Sample.unshared singles ∧
    compiled.path.text = "/".intercalate ((arranged singles).map fun single => single.path.text) ∧
    compiled.aliases.bound = [] := by
  have evaluated : (Sample.failing.compile (.object [("and", .array Sample.unshared)])).toOption.map
      (fun compiled => compiled.path.text) =
      some ("s:person/id::null::/M:=right(id)=(s:item:owner_id)/" ++
        "(owner_id)=(s:person:id)/name=x/name=a/$M/id=1/$M") := by
    decide +kernel
  have used : Sample.unshared.map (usedKeys Sample.failing.definitions) =
      [["named", "owner"], [], []] := by
    decide +kernel
  have apart : Apart Sample.failing.definitions Sample.unshared := by
    rw [Apart, ← List.pairwise_map, used]
    simp
  have columns : ∀ term ∈ Sample.unshared, isSearch term = false := by decide
  obtain ⟨compiled, compiles, text⟩ := Option.map_eq_some_iff.mp evaluated
  rw [toOption_eq_some] at compiles
  obtain ⟨singles, each, -, -, joined, unbound⟩ :=
    compile_unshared rfl rfl rfl columns apart compiles
  exact ⟨compiled, singles, compiles, text, each, joined, unbound⟩

end Facet

end PathQuery
