import PathQuery.Proofs.Facet.Cases
import PathQuery.Proofs.Path.Flattening

namespace PathQuery.Facet

/-! # Where facets fail

Whether a term can be compiled, and whether its part of the path has to come first, does
not depend on the aliases in use.  So each term comes out among others as it does alone,
and facets fail at the first term that fails alone or has to come first after another.
-/

open Source

variable {compiler : Compiler} {aliases : Aliases}

/-- Two steps come out the same if the first ones do and the second ones do after that. -/
theorem map_bind_congr {first first' : Except ε α} {next next' : α → Except ε β}
    {seen : α → σ} {result : β → γ} (firsts : seen <$> first = seen <$> first')
    (each : ∀ value value', seen value = seen value' →
      result <$> next value = result <$> next' value') :
    result <$> (first >>= next) = result <$> (first' >>= next') := by
  cases first with
  | error error =>
      cases first' with
      | error error' =>
          obtain rfl := Except.error.inj firsts
          rfl
      | ok value' => exact absurd firsts nofun
  | ok value =>
      cases first' with
      | error error' => exact absurd firsts nofun
      | ok value' => exact each value value' (Except.ok.inj firsts)

theorem map_bind_right {first : Except ε α} {next next' : α → Except ε β} {result : β → γ}
    (each : ∀ value, result <$> next value = result <$> next' value) :
    result <$> (first >>= next) = result <$> (first >>= next') := by
  refine map_bind_congr (rfl : id <$> first = id <$> first) fun value value' same => ?_
  obtain rfl : value = value' := same
  exact each value

theorem raise_map {convert : ε → Error} {outcome : Except ε α} (seen : α → σ) :
    seen <$> raise convert outcome = raise convert (seen <$> outcome) := by
  cases outcome <;> rfl

def Fragment.isRight : Fragment → Bool
  | .inner _ => false
  | .right _ => true

/-- The first search column with a path that cannot be joined keeps all from being joined. -/
theorem joinTargets_ends (columns : List Resolved) (aliases : Aliases) :
    (fun _ => ()) <$> joinTargets columns aliases =
      match columns.find? fun column => column.hasPath && !column.isAllOutbound with
      | some column => .error (.ofPath ⟨column.column.name⟩)
      | none => .ok () := by
  induction columns generalizing aliases with
  | nil => rfl
  | cons column columns ih =>
      have drop : ∀ {β : Type} (outcome : Except Error (Path × List String × Aliases))
          (next : Path × List String × Aliases → β),
          (fun _ => ()) <$> (outcome >>= fun joined => Except.ok (next joined)) =
            (fun _ => ()) <$> outcome := by
        intro β outcome next
        cases outcome <;> rfl
      cases hasPath : column.hasPath with
      | false =>
          rw [List.find?_cons_of_neg (by simp [hasPath]), ← ih aliases, joinTargets, hasPath]
          exact drop _ _
      | true =>
          cases outbound : column.isAllOutbound with
          | false =>
              rw [List.find?_cons_of_pos (by simp [hasPath, outbound]), joinTargets]
              simp [hasPath, Resolved.leftPath, outbound, raise]
          | true =>
              rw [List.find?_cons_of_neg (by simp [hasPath, outbound]), joinTargets]
              simp only [hasPath, if_true, Resolved.leftPath, outbound, raise, ok_bind]
              rw [← ih]
              exact drop _ _

/-- Whether a term has a clause does not depend on the targets. -/
theorem anyTargetClause_isSome (targets : List String) (term : String) :
    (anyTargetClause targets term).isSome = !(Search.encodedPatterns term).isEmpty := by
  unfold anyTargetClause
  cases Search.encodedPatterns term <;> rfl

theorem joinTermClauses_isSome (clauses : List String) :
    (joinTermClauses clauses).isSome = !clauses.isEmpty := by
  match clauses with
  | [] | [_] | _ :: _ :: _ => rfl

theorem searchClause_isSome (targets : List String) (terms : List Json) :
    (joinTermClauses (terms.filterMap fun term =>
      anyTargetClause targets term.plainText)).isSome =
      terms.any fun term => !(Search.encodedPatterns term.plainText).isEmpty := by
  rw [joinTermClauses_isSome]
  induction terms with
  | nil => rfl
  | cons term terms ih =>
      have has := anyTargetClause_isSome targets term.plainText
      rw [List.any_cons, ← has, ← ih, List.filterMap_cons]
      cases anyTargetClause targets term.plainText <;> rfl

theorem searchPath_ends (columns : List Resolved) (capabilities : Capabilities)
    (terms : List Json) (aliases other : Aliases) :
    (fun _ => ()) <$> searchPath columns capabilities terms aliases =
      (fun _ => ()) <$> searchPath columns capabilities terms other := by
  have joins : (fun _ => ()) <$> joinTargets columns aliases =
      (fun _ => ()) <$> joinTargets columns other := by
    rw [joinTargets_ends, joinTargets_ends]
  unfold searchPath
  dsimp only
  split
  · rfl
  split
  · split <;> rfl
  split
  · exact map_bind_right fun _ => rfl
  · refine map_bind_congr joins fun made made' _ => ?_
    have same := (searchClause_isSome made.2.1 terms).trans
      (searchClause_isSome made'.2.1 terms).symm
    cases written : joinTermClauses (terms.filterMap fun term =>
        anyTargetClause made.2.1 term.plainText) <;>
      cases written' : joinTermClauses (terms.filterMap fun term =>
        anyTargetClause made'.2.1 term.plainText) <;>
      simp [written, written'] at same ⊢

theorem Compiler.columnFragment_ends (term : Term) (aliases other : Aliases) :
    (fun made => made.1.isRight) <$> compiler.columnFragment term aliases =
      (fun made => made.1.isRight) <$> compiler.columnFragment term other := by
  refine map_bind_right fun spec => map_bind_right fun found => map_bind_right fun constraints =>
    map_bind_right fun clause => ?_
  dsimp only
  split <;> rfl

theorem Compiler.searchFragment_ends (term : Term) (aliases other : Aliases) :
    (fun made => made.1.isRight) <$> compiler.searchFragment term aliases =
      (fun made => made.1.isRight) <$> compiler.searchFragment term other := by
  refine map_bind_right fun constraints => ?_
  split
  · exact map_bind_congr (searchPath_ends _ _ _ aliases other) fun _ _ _ => rfl
  · rfl

/-- A term comes out in the same way whatever aliases are in use. -/
theorem Compiler.fragment_ends (value : Json) (aliases other : Aliases) :
    (fun made => made.1.isRight) <$> compiler.fragment value aliases =
      (fun made => made.1.isRight) <$> compiler.fragment value other := by
  refine map_bind_right fun term => ?_
  cases term.origin with
  | searchBox => exact Compiler.searchFragment_ends term aliases other
  | sourcekey key => exact Compiler.columnFragment_ends term aliases other
  | inline => exact Compiler.columnFragment_ends term aliases other

/-- How a term comes out on its own: whether its part of the path has to come first. -/
def Compiler.outcome (compiler : Compiler) (term : Json) : Except Error Bool :=
  (fun made => made.1.isRight) <$> compiler.fragment term (compiler.initialAliases [])

/-- Only one part of a path can come first, which may be taken already. -/
def outcomeAfter (taken : Bool) : Except Error Bool → Except Error Bool
  | .error error => .error error
  | .ok first =>
    if taken && first then .error (.ofKind .duplicateRightJoin) else .ok (taken || first)

@[simp] theorem outcomeAfter_false (outcome : Except Error Bool) :
    outcomeAfter false outcome = outcome := by
  cases outcome <;> rfl

theorem Compiler.addTerm_ends (progress : Compiler.Progress) (term : Json) :
    (fun reached => reached.right.isSome) <$> compiler.addTerm progress term =
      outcomeAfter progress.right.isSome (compiler.outcome term) := by
  rw [outcome, fragment_ends term _ progress.aliases, addTerm]
  cases compiler.fragment term progress.aliases with
  | error error => rfl
  | ok made =>
      obtain ⟨fragment, next⟩ := made
      cases fragment <;> cases taken : progress.right <;>
        simp [Progress.add, Fragment.isRight, outcomeAfter, taken]

theorem Compiler.addTerms_append (progress : Compiler.Progress) (index : Nat)
    (before after : List Json) :
    compiler.addTerms progress index (before ++ after) =
      compiler.addTerms progress index before >>= fun reached =>
        compiler.addTerms reached (index + before.length) after := by
  induction before generalizing progress index with
  | nil => rfl
  | cons term before ih =>
      rw [List.cons_append, addTerms, addTerms, List.length_cons]
      cases raise (Error.atTerm index) (compiler.addTerm progress term) with
      | error error => rfl
      | ok reached =>
          rw [ok_bind, ok_bind, ih, Nat.add_assoc, Nat.add_comm 1]

/-- Compile terms with some aliases to start with. -/
def Compiler.compileFrom (compiler : Compiler) (aliases : Aliases) (terms : List Json) :
    Except Error Compiled := do
  let progress ← compiler.addTerms ⟨aliases, none, []⟩ 0 terms
  return ⟨progress.right.getD [] ++ progress.inner, progress.right.isSome, progress.aliases⟩

theorem Compiler.compile_eq {facets : Json} {terms : List Json}
    (conjoined : conjuncts facets = .ok terms) :
    compiler.compile facets = compiler.compileFrom (compiler.initialAliases terms) terms := by
  rw [compile, conjoined]
  rfl

/-- How some terms come out does not depend on the aliases to start with. -/
theorem Compiler.compileFrom_ends (terms : List Json) (aliases other : Aliases) :
    Compiled.rightJoin <$> compiler.compileFrom aliases terms =
      Compiled.rightJoin <$> compiler.compileFrom other terms := by
  have ends : ∀ (terms : List Json) (index : Nat) (progress other : Compiler.Progress),
      progress.right.isSome = other.right.isSome →
      (fun reached => reached.right.isSome) <$> compiler.addTerms progress index terms =
        (fun reached => reached.right.isSome) <$> compiler.addTerms other index terms := by
    intro terms
    induction terms with
    | nil => exact fun index progress other same => congrArg Except.ok same
    | cons term terms ih =>
        intro index progress other same
        refine map_bind_congr ?_ fun reached reached' => ih (index + 1) reached reached'
        rw [raise_map, raise_map, addTerm_ends, addTerm_ends, same]
  exact map_bind_congr (ends terms 0 ⟨aliases, none, []⟩ ⟨other, none, []⟩ rfl)
    fun _ _ same => congrArg Except.ok same

/-- A term compiled alone. -/
def Compiler.alone (compiler : Compiler) (term : Json) : Except Error Compiled :=
  compiler.compile (.object [(facetsKey, .array [term])])

theorem Compiler.alone_ends (term : Json) :
    Compiled.rightJoin <$> compiler.alone term =
      raise (Error.atTerm 0) (compiler.outcome term) := by
  have added := compiler.addTerm_ends ⟨compiler.initialAliases [term], none, []⟩ term
  rw [Option.isSome_none, outcomeAfter_false] at added
  rw [← added, alone, compile_eq rfl, compileFrom, addTerms]
  cases compiler.addTerm ⟨compiler.initialAliases [term], none, []⟩ term <;> rfl

def Compiler.ComesFirst (compiler : Compiler) (term : Json) : Prop :=
  ∃ compiled, compiler.alone term = .ok compiled ∧ compiled.rightJoin = true

/-- The term with the index fails alone, or it has to come first like one before it. -/
def Compiler.Stops (compiler : Compiler) (terms : List Json) (index : Nat) : Prop :=
  ∃ term, terms[index]? = some term ∧
    ((∃ error, compiler.alone term = .error error) ∨
      compiler.ComesFirst term ∧ ∃ earlier ∈ terms.take index, compiler.ComesFirst earlier)

theorem Compiler.alone_error {term : Json} {error : Error}
    (fails : compiler.alone term = .error error) :
    ∃ cause, compiler.outcome term = .error cause ∧ error = cause.atTerm 0 := by
  have ends := compiler.alone_ends term
  rw [fails] at ends
  cases outcome : compiler.outcome term with
  | error cause =>
      rw [outcome] at ends
      exact ⟨cause, rfl, Except.error.inj ends⟩
  | ok first => simp [outcome, raise] at ends

theorem Compiler.alone_ok {term : Json} {compiled : Compiled}
    (compiles : compiler.alone term = .ok compiled) :
    compiler.outcome term = .ok compiled.rightJoin := by
  have ends := compiler.alone_ends term
  rw [compiles] at ends
  exact raise_eq_ok.mp ends.symm

theorem Compiler.comesFirst_iff {term : Json} :
    compiler.ComesFirst term ↔ compiler.outcome term = .ok true := by
  constructor
  · rintro ⟨compiled, compiles, first⟩
    rw [alone_ok compiles, first]
  · intro outcome
    cases compiles : compiler.alone term with
    | error error =>
        obtain ⟨cause, fails, -⟩ := alone_error compiles
        rw [outcome] at fails
        contradiction
    | ok compiled =>
        rw [alone_ok compiles] at outcome
        exact ⟨compiled, compiles, Except.ok.inj outcome⟩

/-- Terms that nothing stops are added, and one of them comes first if it would alone. -/
theorem Compiler.addTerms_take {start : Compiler.Progress} (free : start.right = none)
    {terms : List Json} {index : Nat} (within : index ≤ terms.length)
    (passes : ∀ earlier < index, ¬ compiler.Stops terms earlier) :
    ∃ reached, compiler.addTerms start 0 (terms.take index) = .ok reached ∧
      (reached.right.isSome = true ↔
        ∃ earlier ∈ terms.take index, compiler.ComesFirst earlier) := by
  induction index with
  | zero => exact ⟨start, rfl, by simp [free]⟩
  | succ index ih =>
      obtain ⟨between, added, taken⟩ :=
        ih (Nat.le_of_succ_le within) fun earlier before => passes earlier (by omega)
      have inside : index < terms.length := within
      have ends := compiler.addTerm_ends between terms[index]
      have passed := passes index (Nat.lt_succ_self index)
      rw [← List.take_append_getElem inside, addTerms_append, added, ok_bind, addTerms]
      cases outcome : compiler.outcome terms[index] with
      | error cause =>
          refine absurd ⟨terms[index], List.getElem?_eq_getElem inside, .inl ?_⟩ passed
          cases compiles : compiler.alone terms[index] with
          | error error => exact ⟨error, rfl⟩
          | ok compiled =>
              rw [alone_ok compiles] at outcome
              contradiction
      | ok first =>
          have single : ¬ (between.right.isSome = true ∧ first = true) := by
            rintro ⟨isTaken, rfl⟩
            exact passed ⟨terms[index], List.getElem?_eq_getElem inside,
              .inr ⟨comesFirst_iff.mpr outcome, taken.mp isTaken⟩⟩
          rw [outcome, outcomeAfter, if_neg (by simpa using single)] at ends
          cases addedTerm : compiler.addTerm between terms[index] with
          | error error => simp [addedTerm] at ends
          | ok reached =>
              rw [addedTerm, except_map_ok] at ends
              refine ⟨reached, rfl, ?_⟩
              rw [Except.ok.inj ends, Bool.or_eq_true, taken]
              simp only [List.mem_append, List.mem_singleton, or_and_right, exists_or,
                exists_eq_left, comesFirst_iff, outcome, Except.ok.injEq]

/-- What ends the compiling of facets at a term. -/
theorem Compiler.addTerm_stops {progress : Compiler.Progress} {before : List Json} {term : Json}
    (taken : progress.right.isSome = true ↔ ∃ earlier ∈ before, compiler.ComesFirst earlier)
    (stops : (∃ error, compiler.alone term = .error error) ∨
      compiler.ComesFirst term ∧ ∃ earlier ∈ before, compiler.ComesFirst earlier) :
    (∀ error, compiler.alone term = .error error → ∃ cause, error = cause.atTerm 0 ∧
      compiler.addTerm progress term = .error cause) ∧
    ∀ compiled, compiler.alone term = .ok compiled →
      compiler.addTerm progress term = .error (.ofKind .duplicateRightJoin) := by
  have ends := compiler.addTerm_ends progress term
  have failed : ∀ cause, outcomeAfter progress.right.isSome (compiler.outcome term) = .error cause →
      compiler.addTerm progress term = .error cause := by
    intro cause fails
    rw [fails] at ends
    cases added : compiler.addTerm progress term with
    | error error =>
        rw [added] at ends
        exact congrArg Except.error (Except.error.inj ends)
    | ok reached => simp [added] at ends
  constructor
  · intro error fails
    obtain ⟨cause, outcome, same⟩ := alone_error fails
    exact ⟨cause, same, failed cause (by rw [outcome]; rfl)⟩
  · intro compiled compiles
    obtain ⟨error, fails⟩ | ⟨first, earlier⟩ := stops
    · rw [compiles] at fails
      contradiction
    · refine failed _ ?_
      rw [comesFirst_iff.mp first, taken.mpr earlier]
      rfl

/-- Facets fail where the terms before are added and the next one is not. -/
theorem Compiler.compileFrom_error {terms : List Json} {index : Nat}
    (inside : index < terms.length) {reached : Compiler.Progress}
    (added : compiler.addTerms ⟨aliases, none, []⟩ 0 (terms.take index) = .ok reached)
    {cause : Error} (fails : compiler.addTerm reached terms[index] = .error cause) :
    compiler.compileFrom aliases terms = .error (cause.atTerm index) := by
  have steps : compiler.addTerms ⟨aliases, none, []⟩ 0 terms =
      compiler.addTerms ⟨aliases, none, []⟩ 0 (terms.take index) >>= fun reached =>
        compiler.addTerms reached (0 + (terms.take index).length)
          (terms[index] :: terms.drop (index + 1)) := by
    rw [← addTerms_append, List.getElem_cons_drop, List.take_append_drop]
  rw [added, ok_bind, addTerms, fails, List.length_take_of_le (Nat.le_of_lt inside),
    Nat.zero_add] at steps
  rw [compileFrom, steps]
  rfl

/-- Facets compile unless one of their terms stops them, and then the first one that does says
    where and why they fail. -/
theorem compile_fails_as_terms {facets : Json} {terms : List Json}
    (conjoined : conjuncts facets = .ok terms) :
    ((∀ index, ¬ compiler.Stops terms index) →
      ∃ compiled, compiler.compile facets = .ok compiled ∧
        (compiled.rightJoin = true ↔ ∃ term ∈ terms, compiler.ComesFirst term)) ∧
    (∀ index, compiler.Stops terms index → (∀ earlier < index, ¬ compiler.Stops terms earlier) →
      ∀ term, terms[index]? = some term →
        (∀ error, compiler.alone term = .error error →
          compiler.compile facets = .error ⟨error.kind, some index, error.cause⟩) ∧
        ∀ compiled, compiler.alone term = .ok compiled →
          compiler.compile facets = .error ⟨.duplicateRightJoin, some index, none⟩) ∧
    ∀ term aliases other, (fun made => made.1.isRight) <$> compiler.fragment term aliases =
      (fun made => made.1.isRight) <$> compiler.fragment term other := by
  have free : (⟨compiler.initialAliases terms, none, []⟩ : Compiler.Progress).right = none := rfl
  rw [Compiler.compile_eq conjoined]
  refine ⟨fun none => ?_, fun index stops least term isTerm => ?_, Compiler.fragment_ends⟩
  · obtain ⟨reached, added, taken⟩ :=
      Compiler.addTerms_take free (Nat.le_refl _) fun earlier _ => none earlier
    rw [List.take_length] at added taken
    rw [Compiler.compileFrom, added]
    exact ⟨_, rfl, taken⟩
  · obtain ⟨inside, rfl⟩ := List.getElem?_eq_some_iff.mp isTerm
    obtain ⟨reached, added, taken⟩ :=
      Compiler.addTerms_take free (Nat.le_of_lt inside) least
    obtain ⟨_, same, stops⟩ := stops
    obtain rfl := Option.some.inj (isTerm.symm.trans same)
    obtain ⟨whenError, whenDuplicate⟩ := Compiler.addTerm_stops taken stops
    constructor
    · intro error fails
      obtain ⟨cause, rfl, addFails⟩ := whenError error fails
      have failed := Compiler.compileFrom_error inside added addFails
      exact failed
    · intro compiled compiledAlone
      exact Compiler.compileFrom_error inside added (whenDuplicate compiled compiledAlone)

/-! Two terms that keep rows without an owner, and one between them that does not. -/

namespace Sample

open PathQuery.Sample

def failing : Compiler where
  directory := catalog.directory
  capabilities := catalog.features.capabilities
  definitions := definitions
  engine := engine
  row := []
  options := .default

def ownerless : Json := .object [("sourcekey", .string "owner"), ("choices", .array [.null])]

def owned : Json := .object [("sourcekey", .string "owner"), ("not_null", .bool true)]

end Sample

theorem compile_fails_as_terms_ownerless :
    Sample.failing.compile (.object [("and", .array
        [Sample.ownerless, Sample.owned, Sample.ownerless])]) =
      .error ⟨.duplicateRightJoin, some 2, none⟩ := by
  obtain ⟨first, firstAlone, comesFirst⟩ := Option.map_eq_some_iff.mp (by decide +kernel :
    (Sample.failing.alone Sample.ownerless).toOption.map Compiled.rightJoin = some true)
  obtain ⟨second, secondAlone, staysInside⟩ := Option.map_eq_some_iff.mp (by decide +kernel :
    (Sample.failing.alone Sample.owned).toOption.map Compiled.rightJoin = some false)
  rw [toOption_eq_some] at firstAlone secondAlone
  have stops : Sample.failing.Stops [Sample.ownerless, Sample.owned, Sample.ownerless] 2 :=
    ⟨_, rfl, .inr ⟨⟨first, firstAlone, comesFirst⟩, _, List.mem_cons_self,
      ⟨first, firstAlone, comesFirst⟩⟩⟩
  have passes : ∀ earlier < 2,
      ¬ Sample.failing.Stops [Sample.ownerless, Sample.owned, Sample.ownerless] earlier := by
    intro earlier before stops
    obtain rfl | rfl : earlier = 0 ∨ earlier = 1 := by omega
    · obtain ⟨_, ⟨⟩, ⟨error, fails⟩ | ⟨-, _, among, -⟩⟩ := stops
      · exact nomatch firstAlone.symm.trans fails
      · exact nomatch among
    · obtain ⟨_, ⟨⟩, ⟨error, fails⟩ | ⟨⟨compiled, compiles, comes⟩, -⟩⟩ := stops
      · exact nomatch secondAlone.symm.trans fails
      · obtain rfl := Except.ok.inj (secondAlone.symm.trans compiles)
        exact nomatch staysInside.symm.trans comes
  exact ((compile_fails_as_terms rfl).2.1 2 stops passes _ rfl).2 first firstAlone

end PathQuery.Facet
