import PathQuery.Proofs.Path.History

namespace PathQuery

/-! # Names in use

The aliases in use come from three sides: some are forced, some were minted, and some were
handed in by the caller, for a sourcekey or for the end of a path.
-/

open Source Resolved

variable {admits : Aliases → String → Prop} {start aliases middle last next : Aliases}
  {source : Resolved} {kind : JoinKind} {key hint shared binding : Option String}
  {link name root : String} {lead : RenderedPath} {forced : List (String × String)}
  {reused : List String}

namespace Aliases

/-- All aliases in use are admitted. -/
def Bound (admits : Aliases → String → Prop) (aliases : Aliases) : Prop :=
  ∀ key name, aliases.get? key = some name → admits aliases name

/-- What is admitted once stays so, and forced and minted aliases are admitted. -/
structure Admissible (admits : Aliases → String → Prop) (start : Aliases) : Prop where
  grow : ∀ {aliases next name}, start.Grows aliases → aliases.Grows next → admits aliases name →
    admits next name
  forced : ∀ {aliases key name}, start.Grows aliases → aliases.forced? key = some name →
    admits aliases name
  minted : ∀ {aliases}, start.Grows aliases → admits aliases.mint.2 aliases.mint.1

namespace Admissible

variable (admissible : Admissible admits start)
include admissible

theorem bind (grows : start.Grows aliases) (bound : Bound admits aliases)
    (admitted : admits aliases name) (key : String) : Bound admits (aliases.bind key name).2 := by
  intro other found isBound
  have later := aliases.bind_grows key name
  rw [get?_bind, Option.or_eq_some_iff] at isBound
  obtain before | ⟨-, now⟩ := isBound
  · exact admissible.grow grows later (bound other found before)
  · obtain ⟨-, same⟩ := Option.ite_none_right_eq_some.mp now
    exact Option.some.inj same ▸ admissible.grow grows later admitted

theorem allocate (grows : start.Grows aliases) (bound : Bound admits aliases)
    (unbound : aliases.get? link = none) :
    Bound admits (aliases.allocate link).2 ∧
      admits (aliases.allocate link).2 (aliases.allocate link).1 := by
  obtain ⟨name, isForced, allocated⟩ | ⟨-, allocated⟩ := allocate_cases unbound
  · have admitted := admissible.forced grows isForced
    rw [allocated, bind_fst unbound]
    exact ⟨admissible.bind grows bound admitted link,
      admissible.grow grows (aliases.bind_grows link name) admitted⟩
  · have fresh : aliases.mint.2.get? link = none := unbound
    have minted := grows.trans aliases.mint_grows
    have boundMinted : Bound admits aliases.mint.2 := by
      intro other found isBound
      exact admissible.grow grows aliases.mint_grows (bound other found isBound)
    rw [allocated, bind_fst fresh]
    exact ⟨admissible.bind minted boundMinted (admissible.minted grows) link,
      admissible.grow minted (aliases.mint.2.bind_grows link _) (admissible.minted grows)⟩

end Admissible

end Aliases

namespace Source.Resolved

open Aliases

theorem Joins.chosen_bound (admissible : Admissible admits start)
    (joins : source.Joins kind key hint aliases shared binding middle lead last)
    (grows : start.Grows aliases) (bound : Bound admits aliases)
    (hinted : ∀ name, hint = some name → admits aliases name) :
    Bound admits middle ∧ ∀ name, binding = some name → admits middle name := by
  have chosen := joins.chosen
  obtain ⟨-, same⟩ | ⟨link, isShared, ⟨-, same⟩ | ⟨-, -, -, same⟩ | ⟨-, -, -, same⟩⟩ :=
    source.chooseAlias_cases shared hint aliases
  all_goals
    obtain ⟨rfl, rfl⟩ := Prod.mk.inj (same.symm.trans chosen)
  · exact ⟨bound, hinted⟩
  · refine ⟨bound, fun name isName => ?_⟩
    cases isForced : aliases.forced? link with
    | none =>
        rw [isForced] at isName
        exact hinted name isName
    | some own =>
        rw [isForced] at isName
        exact admissible.forced grows (isForced.trans isName)
  · obtain ⟨boundNext, admitted⟩ := admissible.allocate grows bound (joins.unbound link isShared)
    exact ⟨boundNext, fun name isName => Option.some.inj isName ▸ admitted⟩
  · exact ⟨bound, hinted⟩

/-- Rendering binds admitted names only, and the end of the path gets one. -/
theorem render_admits (admissible : Admissible admits start) (source : Resolved) (kind : JoinKind)
    (key : Option String) (grows : start.Grows aliases) (bound : Bound admits aliases)
    (hinted : ∀ name, hint = some name → admits aliases name) :
    Bound admits (source.render kind key hint aliases).2 ∧
      ∀ name, (source.render kind key hint aliases).1.aliasName = some name →
        admits (source.render kind key hint aliases).2 name := by
  have step : ∀ (source : Resolved) (key hint : Option String) (aliases : Aliases),
      start.Grows aliases → Bound admits aliases →
      (∀ name, hint = some name → admits aliases name) →
      (∀ hint aliases, start.Grows aliases → Bound admits aliases →
        (∀ name, hint = some name → admits aliases name) →
        Bound admits (source.renderLead kind hint aliases).2 ∧
        ∀ name, (source.renderLead kind hint aliases).1.aliasName = some name →
          admits (source.renderLead kind hint aliases).2 name) →
      Bound admits (source.render kind key hint aliases).2 ∧
        ∀ name, (source.render kind key hint aliases).1.aliasName = some name →
          admits (source.render kind key hint aliases).2 name := by
    intro source key hint aliases grows bound hinted leads
    obtain ⟨other, _, -, -, isBound, same⟩ | ⟨shared, binding, middle, lead, last, joins⟩ :=
      source.render_cases kind key hint aliases
    · rw [same]
      exact ⟨bound, fun name isName => bound other name (isBound.trans isName)⟩
    · obtain ⟨boundMiddle, chosen⟩ := joins.chosen_bound admissible grows bound hinted
      have growsMiddle := grows.trans joins.chosen_grows
      have leadBound := leads (if source.endsAtStart then binding else none) middle growsMiddle
        boundMiddle fun name passed => chosen name (Option.ite_none_right_eq_some.mp passed).2
      rw [joins.leads] at leadBound
      obtain ⟨boundLast, named⟩ := leadBound
      have growsLast := growsMiddle.trans joins.leads_grows
      have ended : ∀ name, (renderLegs kind binding source lead).aliasName = some name →
          admits last name := by
        intro name isName
        obtain ⟨-, isLead⟩ | ⟨-, isBinding⟩ := joins.aliasName_cases isName
        · exact named name isLead
        · exact admissible.grow growsMiddle joins.leads_grows (chosen name isBinding)
      have later := bindEnd_grows shared (renderLegs kind binding source lead) last
      rw [joins.joined, bindEnd_fst]
      constructor
      · intro other name isBound
        rw [bindEnd_get?, Option.or_eq_some_iff] at isBound
        obtain isLast | ⟨-, isEnd⟩ := isBound
        · exact admissible.grow growsLast later (boundLast other name isLast)
        · exact admissible.grow growsLast later
            (ended name (Option.ite_none_right_eq_some.mp isEnd).2)
      · exact fun name isName => admissible.grow growsLast later (ended name isName)
  induction source generalizing key hint aliases with
  | fromRoot route =>
      exact step _ key hint aliases grows bound hinted fun _ _ _ bound _ => ⟨bound, nofun⟩
  | continuing first start route ih =>
      exact step _ key hint aliases grows bound hinted
        fun _ _ grows bound hinted => ih (some first) grows bound hinted

end Source.Resolved

namespace Aliases

namespace Operation

/-- The aliases that the caller hands in. -/
def given : Operation → List String
  | .bind _ name => [name]
  | .leftPath _ _ outAlias => [outAlias]
  | _ => []

def Forces (operation : Operation) : Prop := ∃ forced, operation = .force forced

end Operation

/-- The alias is forced, it was minted, or it is one of those handed in. -/
def Accounted (given : List String) (aliases : Aliases) (name : String) : Prop :=
  name ∈ given ∨ aliases.isTaken name = true ∨ ∃ n ≤ aliases.lastIndex, name = aliases.numbered n

theorem Accounted.grow {given : List String} (accounted : aliases.Accounted given name)
    (grows : aliases.Grows next) : next.Accounted given name := by
  obtain handed | taken | ⟨n, minted, isNumbered⟩ := accounted
  · exact .inl handed
  · rw [isTaken, ← grows.forced] at taken
    exact .inr (.inl taken)
  · rw [numbered, ← grows.root] at isNumbered
    exact .inr (.inr ⟨n, minted.trans grows.lastIndex, isNumbered⟩)

theorem accounted_admissible (given : List String) (start : Aliases) :
    Admissible (Accounted given) start where
  grow _ grows accounted := accounted.grow grows
  forced _ isForced := .inr (.inl (isTaken_iff.mpr (mem_forcedNames isForced)))
  minted _ := .inr (.inr ⟨_, Nat.le_refl _, rfl⟩)

theorem Operation.apply_accounted {given : List String} {operation : Operation}
    (accounted : Bound (Accounted given) aliases) (handed : operation.given ⊆ given)
    (settled : ¬ operation.Forces) : Bound (Accounted given) (operation.apply aliases) := by
  have admissible := accounted_admissible given aliases
  have refl := Grows.refl aliases
  cases operation with
  | force forced => exact absurd ⟨forced, rfl⟩ settled
  | reuse keys => exact accounted
  | allocate key =>
      cases unbound : aliases.get? key with
      | none => exact (admissible.allocate refl accounted unbound).1
      | some found =>
          rw [apply, Aliases.allocate, unbound]
          exact accounted
  | mint => exact fun key name bound => (accounted key name bound).grow aliases.mint_grows
  | bind key name =>
      have isGiven : name ∈ given := handed (by simp [Operation.given])
      exact admissible.bind refl accounted (.inl isGiven) key
  | path source key =>
      have unhinted : ∀ name, none = some name → aliases.Accounted given name := by
        intro name isHint
        contradiction
      exact (source.render_admits admissible .inner key refl accounted unhinted).1
  | leftPath source key outAlias =>
      obtain rendered | failed := apply_leftPath aliases source key outAlias
      · have hinted : ∀ name, some outAlias = some name → aliases.Accounted given name := by
          intro name isOut
          exact .inl (handed (by simp [Operation.given, Option.some.inj isOut]))
        rw [rendered]
        exact (source.render_admits admissible .left key refl accounted hinted).1
      · rwa [failed]

theorem Operation.run_accounted {given : List String} {operations : List Operation}
    (accounted : Bound (Accounted given) aliases)
    (handed : ∀ operation ∈ operations, operation.given ⊆ given)
    (settled : ∀ operation ∈ operations, ¬ operation.Forces) :
    Bound (Accounted given) (run aliases operations) := by
  induction operations generalizing aliases with
  | nil => exact accounted
  | cons operation later ih =>
      obtain ⟨first, rest⟩ := List.forall_mem_cons.mp handed
      obtain ⟨settledFirst, settledRest⟩ := List.forall_mem_cons.mp settled
      exact ih (apply_accounted accounted first settledFirst) rest settledRest

theorem Operation.apply_forced {operation : Operation} (settled : ¬ operation.Forces) :
    (operation.apply aliases).forced = aliases.forced := by
  obtain forces | ⟨keys, rfl⟩ | grows := operation.apply_cases aliases
  · exact absurd forces settled
  · rfl
  · exact grows.forced

theorem Operation.run_forced {operations : List Operation}
    (settled : ∀ operation ∈ operations, ¬ operation.Forces) :
    (run aliases operations).forced = aliases.forced := by
  induction operations generalizing aliases with
  | nil => rfl
  | cons operation later ih =>
      obtain ⟨first, rest⟩ := List.forall_mem_cons.mp settled
      exact (ih rest).trans (apply_forced first)

/-- The alias is one that may still be minted. -/
def ToCome (aliases : Aliases) (name : String) : Prop :=
  aliases.isTaken name = false ∧ ∃ n, aliases.lastIndex < n ∧ name = aliases.numbered n

theorem mint_toCome (aliases : Aliases) : aliases.ToCome aliases.mint.1 :=
  ⟨aliases.mint_search.free, _, aliases.mint_search.le, rfl⟩

/-- Whoever asks for an alias for nothing in particular gets it, and so does whoever asks for one
    for a sourcekey that has none and is to have none. -/
def IsFresh (aliases : Aliases) (name : String) : Prop :=
  name = aliases.mint.1 ∨
  ∃ key, aliases.get? key = none ∧ aliases.forced? key = none ∧ name = (aliases.allocate key).1

theorem IsFresh.toCome (fresh : aliases.IsFresh name) : aliases.ToCome name := by
  obtain rfl | ⟨key, unbound, unforced, rfl⟩ := fresh
  · exact aliases.mint_toCome
  · obtain ⟨_, forced, -⟩ | ⟨-, allocated⟩ := allocate_cases unbound
    · rw [unforced] at forced
      contradiction
    · have stillUnbound : aliases.mint.2.get? key = none := unbound
      rw [allocated, bind_fst stillUnbound]
      exact aliases.mint_toCome

theorem ToCome.not_accounted {given : List String} (toCome : aliases.ToCome name)
    (accounted : aliases.Accounted given name) : name ∈ given := by
  obtain ⟨free, n, later, isNumbered⟩ := toCome
  obtain handed | taken | ⟨m, minted, same⟩ := accounted
  · exact handed
  · rw [free] at taken
    contradiction
  · have numbers := numbered_injective (isNumbered.symm.trans same)
    omega

/-- A fresh alias is in use only if the caller handed it in before, for a sourcekey or for the end
    of a path, when it was still to be minted. -/
theorem fresh_alias_in_use {operations : List Operation}
    (settled : ∀ operation ∈ operations, ¬ operation.Forces)
    (fresh : (Operation.run (new root forced reused) operations).IsFresh name) :
    ∀ key, (Operation.run (new root forced reused) operations).get? key = some name →
      ∃ before operation after, operations = before ++ operation :: after ∧
        name ∈ operation.given ∧
        (Operation.run (new root forced reused) before).ToCome name := by
  intro key inUse
  have accounted : Bound (Accounted (operations.flatMap Operation.given))
      (Operation.run (new root forced reused) operations) := by
    refine Operation.run_accounted nofun ?_ settled
    intro operation member name handed
    exact List.mem_flatMap.mpr ⟨operation, member, handed⟩
  have handed := fresh.toCome.not_accounted (accounted key name inUse)
  obtain ⟨operation, member, isGiven⟩ := List.mem_flatMap.mp handed
  obtain ⟨before, after, rfl⟩ := List.append_of_mem member
  refine ⟨before, operation, after, rfl, isGiven, ?_⟩
  -- What is still to come in the end was to come all the time.
  have earlier : ∀ operation ∈ before, ¬ operation.Forces :=
    fun operation member => settled operation (List.mem_append_left _ member)
  have later : (Operation.run (new root forced reused) before).Keeps
      (Operation.run (new root forced reused) (before ++ operation :: after)) := by
    rw [Operation.run, Operation.run, List.foldl_append]
    exact Operation.run_keeps (operation :: after)
  obtain ⟨free, n, above, isNumbered⟩ := fresh.toCome
  refine ⟨?_, n, later.lastIndex.trans_lt above, ?_⟩
  · rw [isTaken, Operation.run_forced settled] at free
    rwa [isTaken, Operation.run_forced earlier]
  · rw [isNumbered, numbered, numbered, later.root]

/-- The caller goes back to a minted alias, and hands in one that has no number. -/
theorem fresh_alias_in_use_minted :
    let operations : List Operation := [.mint, .bind "k" "M_P1", .allocate "x", .bind "z" "Z"]
    (∀ operation ∈ operations, ¬ operation.Forces) ∧
    (Operation.run (new "M" [] []) operations).IsFresh "M_P3" ∧
    ∀ key, (Operation.run (new "M" [] []) operations).get? key ≠ some "M_P3" := by
  intro operations
  have settled : ∀ operation ∈ operations, ¬ operation.Forces := by
    simp [operations, Operation.Forces]
  have fresh : (Operation.run (new "M" [] []) operations).IsFresh "M_P3" := .inl (by decide)
  refine ⟨settled, fresh, fun key inUse => ?_⟩
  obtain ⟨before, operation, after, split, given, -⟩ := fresh_alias_in_use settled fresh key inUse
  have member : operation ∈ operations := by simp [split]
  have apart : ∀ operation ∈ operations, "M_P3" ∉ operation.given := by
    simp [operations, Operation.given]
  exact apart operation member given

/-- An alias with a number that is still to come is taken from the caller, and minted all the
    same. -/
theorem numbered_alias_minted_again :
    let aliases := Operation.run (new "M" [] []) [.bind "k" "M_P1"]
    aliases.get? "k" = some "M_P1" ∧ aliases.mint.1 = "M_P1" := by
  decide

end Aliases

end PathQuery
