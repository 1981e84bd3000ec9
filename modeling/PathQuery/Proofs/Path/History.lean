import PathQuery.Proofs.Path.ForcedAliases

namespace PathQuery

/-! # What happens to aliases

A caller may set up aliases, ask for some and render sources in any order.  Whatever it does,
a sourcekey that has an alias keeps it, and a source that is rendered under it is not joined
again.
-/

open Source

namespace Aliases

variable {aliases : Aliases} {key name : String}

inductive Operation where
  /-- Want other aliases than those wanted so far. -/
  | force (forced : List (String × String))
  /-- Expect more sourcekeys to be used again. -/
  | reuse (keys : List String)
  | allocate (key : String)
  | mint
  | bind (key name : String)
  | path (source : Resolved) (key : Option String)
  | leftPath (source : Resolved) (key : Option String) (outAlias : String)

namespace Operation

def apply (aliases : Aliases) : Operation → Aliases
  | .force forced => { aliases with forced }
  | .reuse keys => { aliases with reused := aliases.reused ++ keys }
  | .allocate key => (aliases.allocate key).2
  | .mint => aliases.mint.2
  | .bind key name => (aliases.bind key name).2
  | .path source key => (source.path key aliases).2
  | .leftPath source key outAlias =>
    match source.leftPath key outAlias aliases with
    | .ok rendered => rendered.2
    | .error _ => aliases

def run (aliases : Aliases) (operations : List Operation) : Aliases :=
  operations.foldl apply aliases

end Operation

/-- The root alias and all aliases in use stay, and no number is minted again. -/
structure Keeps (aliases next : Aliases) : Prop where
  root : next.root = aliases.root
  lastIndex : aliases.lastIndex ≤ next.lastIndex
  bound : ∀ key name, aliases.get? key = some name → next.get? key = some name

theorem Keeps.refl (aliases : Aliases) : aliases.Keeps aliases :=
  ⟨rfl, Nat.le_refl _, fun _ _ => id⟩

theorem Keeps.trans {next last : Aliases} (first : aliases.Keeps next) (second : next.Keeps last) :
    aliases.Keeps last where
  root := second.root.trans first.root
  lastIndex := first.lastIndex.trans second.lastIndex
  bound key name bound := second.bound key name (first.bound key name bound)

theorem Grows.keeps {next : Aliases} (grows : aliases.Grows next) : aliases.Keeps next :=
  ⟨grows.root, grows.lastIndex, grows.bound⟩

theorem grows_allocate (aliases : Aliases) (key : String) :
    aliases.Grows (aliases.allocate key).2 := by
  cases unbound : aliases.get? key with
  | none => exact (allocate_grows unbound).1
  | some found =>
      rw [allocate, unbound]
      exact .refl aliases

theorem Operation.apply_leftPath (aliases : Aliases) (source : Resolved) (key : Option String)
    (outAlias : String) :
    apply aliases (.leftPath source key outAlias) =
        (source.render .left key (some outAlias) aliases).2 ∨
      apply aliases (.leftPath source key outAlias) = aliases := by
  cases outbound : source.isAllOutbound with
  | true => exact .inl (by simp [apply, Resolved.leftPath, outbound])
  | false => exact .inr (by simp [apply, Resolved.leftPath, outbound])

/-- What is not set up anew only grows. -/
theorem Operation.apply_cases (operation : Operation) (aliases : Aliases) :
    (∃ forced, operation = .force forced) ∨ (∃ keys, operation = .reuse keys) ∨
      aliases.Grows (operation.apply aliases) := by
  cases operation with
  | force forced => exact .inl ⟨forced, rfl⟩
  | reuse keys => exact .inr (.inl ⟨keys, rfl⟩)
  | allocate other => exact .inr (.inr (aliases.grows_allocate other))
  | mint => exact .inr (.inr aliases.mint_grows)
  | bind other wanted => exact .inr (.inr (aliases.bind_grows other wanted))
  | path source other => exact .inr (.inr (source.render_grows .inner other none aliases))
  | leftPath source other outAlias =>
      refine .inr (.inr ?_)
      obtain rendered | failed := apply_leftPath aliases source other outAlias
      · rw [rendered]
        exact source.render_grows .left other (some outAlias) aliases
      · rw [failed]
        exact .refl aliases

theorem Operation.apply_keeps (operation : Operation) : aliases.Keeps (operation.apply aliases) := by
  obtain ⟨forced, rfl⟩ | ⟨keys, rfl⟩ | grows := operation.apply_cases aliases
  · exact ⟨rfl, Nat.le_refl _, fun _ _ => id⟩
  · exact ⟨rfl, Nat.le_refl _, fun _ _ => id⟩
  · exact grows.keeps

/-- Once a sourcekey has an alias it keeps it. -/
theorem Operation.run_keeps (operations : List Operation) :
    aliases.Keeps (run aliases operations) := by
  induction operations generalizing aliases with
  | nil => exact .refl aliases
  | cons operation later ih => exact operation.apply_keeps.trans ih

end Aliases

namespace Source.Resolved

variable {source : Resolved} {aliases : Aliases} {key name : String} {hint : Option String}

/-- A source whose sourcekey has an alias is not joined again, ever. -/
theorem path_again (path : source.hasPath = true) (bound : aliases.get? key = some name)
    (operations : List Aliases.Operation) :
    source.path (some key) (Aliases.Operation.run aliases operations) =
      (⟨[.goTo name], some name⟩, Aliases.Operation.run aliases operations) := by
  refine render_bound ?_
  rw [Option.filter_some, if_pos path]
  exact (Aliases.Operation.run_keeps operations).bound key name bound

/-- The sourcekey that the last join of a source belongs to: the one the source is rendered
    under, unless the source ends where the one it continues does. -/
def joinKey (key : String) : Resolved → String
  | fromRoot _ => key
  | continuing first start route =>
    if (continuing first start route).endsAtStart then start.joinKey first else key

/-- The end of a source has an alias, or is to have one: there is a hint, a sourcekey that
    shares the last join has an alias or is forced, or the one that the join belongs to is
    expected to be used again. -/
def Aliased (source : Resolved) (key : String) (hint : Option String) (aliases : Aliases) : Prop :=
  hint.isSome = true ∨
  (∃ shared ∈ key :: source.endings,
    (aliases.get? shared).isSome = true ∨ aliases.isForced shared = true) ∨
  aliases.isReused (source.joinKey key) = true

theorem endings_of_moves (moves : source.endsAtStart = false) : source.endings = [] := by
  cases source with
  | fromRoot route => rfl
  | continuing first start route => rw [endings, moves, if_neg Bool.false_ne_true]

theorem joinKey_of_moves (moves : source.endsAtStart = false) (key : String) :
    source.joinKey key = key := by
  cases source with
  | fromRoot route => rfl
  | continuing first start route => rw [joinKey, moves, if_neg Bool.false_ne_true]

/-- A source with a last hop of its own chooses an alias for its end, if one is wanted. -/
theorem chooseAlias_aliased (moves : source.endsAtStart = false)
    (unbound : aliases.get? key = none) :
    (source.chooseAlias (some key) hint aliases).1.isSome = true ↔
      source.Aliased key hint aliases := by
  have wanted : source.Aliased key hint aliases ↔
      hint.isSome = true ∨ aliases.isForced key = true ∨ aliases.isReused key = true := by
    simp [Aliased, endings_of_moves moves, joinKey_of_moves moves, unbound]
  rw [wanted]
  obtain ⟨⟨⟩, -⟩ | ⟨_, ⟨rfl⟩, ⟨ends, -⟩ | ⟨-, needed, -, chosen⟩ | ⟨-, unforced, reused, chosen⟩⟩ :=
    source.chooseAlias_cases (some key) hint aliases
  · rw [moves] at ends
    contradiction
  · rw [chosen]
    have needed : aliases.isForced key = true ∨ aliases.isReused key = true := by
      simpa [Aliases.needsAlias] using needed
    simp [needed]
  · rw [chosen, Aliases.isForced, unforced]
    constructor
    · exact .inl
    · rintro (hinted | ⟨⟨⟩⟩ | isReused)
      · exact hinted
      · exact reused isReused

/-- What a source that ends where another one does makes of the hint that it passes on. -/
theorem aliased_of_ends {first : String} {start : Resolved} {route : Route}
    (ends : (continuing first start route).endsAtStart = true)
    (unbound : aliases.get? key = none) :
    (continuing first start route).Aliased key hint aliases ↔
      start.Aliased first (aliases.forced? key <|> hint) aliases := by
  have passed : (aliases.forced? key <|> hint).isSome = true ↔
      aliases.isForced key = true ∨ hint.isSome = true := by
    rw [Aliases.isForced]
    cases aliases.forced? key <;> simp
  simp only [Aliased, passed, endings, joinKey, ends, if_true, List.mem_cons, exists_eq_or_imp,
    unbound]
  simp only [Option.isSome_none, Bool.false_eq_true, false_or, or_assoc]
  exact or_left_comm

/-- The end of a path has an alias just if the source chose one for it, or the source that it
    ends with has one. -/
theorem render_aliased_step (path : source.hasPath = true)
    (hops : source.endsAtStart = false → source.legs.any Leg.isHop = true) (kind : JoinKind)
    (ended : ∀ first start route, source = continuing first start route →
      source.endsAtStart = true → ∀ hint aliases,
        (start.render kind (some first) hint aliases).1.aliasName.isSome = true ↔
          start.Aliased first hint aliases) :
    (source.render kind (some key) hint aliases).1.aliasName.isSome = true ↔
      source.Aliased key hint aliases := by
  obtain ⟨_, name, isKey, -, isBound, same⟩ | ⟨shared, binding, middle, lead, last, joins⟩ :=
    source.render_cases kind (some key) hint aliases
  · cases isKey
    have aliased : source.Aliased key hint aliases :=
      .inr (.inl ⟨key, List.mem_cons_self, .inl (Option.isSome_iff_exists.mpr ⟨name, isBound⟩)⟩)
    rw [same]
    exact iff_of_true rfl aliased
  · obtain rfl := joins.shared_eq path
    have unbound := joins.unbound key rfl
    have chosen := joins.chosen
    have leads := joins.leads
    rw [joins.joined, bindEnd_fst, renderLegs]
    cases ends : source.endsAtStart with
    | false =>
        rw [if_pos (hops ends), ← chooseAlias_aliased ends unbound, chosen]
    | true =>
        cases source with
        | fromRoot route => contradiction
        | continuing first start route =>
            have noHops : (continuing first start route).legs.any Leg.isHop = false := by
              simpa [endsAtStart, isContinuing, start?] using ends
            simp only [chooseAlias, ends, if_true] at chosen
            obtain ⟨rfl, rfl⟩ := Prod.mk.inj chosen
            rw [if_pos ends] at leads
            change start.render kind (some first) _ aliases = (lead, last) at leads
            rw [noHops, if_neg Bool.false_ne_true, aliased_of_ends ends unbound,
              ← ended first start route rfl ends, leads]

/-- A sourcekey under which a path without an alias was rendered has none either. -/
theorem render_unnamed (path : source.hasPath = true) (outside : key ∉ source.chain)
    (hops : source.endsAtStart = false → source.legs.any Leg.isHop = true) {kind : JoinKind}
    (unnamed : (source.render kind (some key) hint aliases).1.aliasName = none) :
    (source.render kind (some key) hint aliases).2.get? key = none := by
  obtain ⟨_, name, -, -, -, same⟩ | ⟨shared, binding, middle, lead, last, joins⟩ :=
    source.render_cases kind (some key) hint aliases
  · rw [same] at unnamed
    contradiction
  · obtain rfl := joins.shared_eq path
    rw [joins.joined, bindEnd_fst] at unnamed
    rw [joins.joined, bindEnd_get?, unnamed, ite_self, Option.or_none, joins.leads_leaves outside]
    obtain ⟨rfl, -⟩ | ⟨moves, name, isBinding, -⟩ := joins.chosen_cases rfl
    · exact joins.unbound key rfl
    · rw [renderLegs, if_pos (hops moves), isBinding] at unnamed
      contradiction

end Source.Resolved

namespace Source

open Resolved

variable {admits : Context → Prop} {source : Resolved}

theorem Grounded.hops_of_moves (grounded : Grounded admits source) (path : source.hasPath = true)
    (moves : source.endsAtStart = false) : source.legs.any Leg.isHop = true := by
  cases source with
  | fromRoot route => exact grounded.hasPath_eq.symm.trans path
  | continuing first start route => simpa [endsAtStart, isContinuing, start?] using moves

/-- A source that leads to another table has an alias at its end just if there is one, or is
    to be one. -/
theorem Grounded.render_aliased (grounded : Grounded admits source) (path : source.hasPath = true)
    (kind : JoinKind) (key : String) (hint : Option String) (aliases : Aliases) :
    (source.render kind (some key) hint aliases).1.aliasName.isSome = true ↔
      source.Aliased key hint aliases := by
  -- Only a source that ends where another one does asks that one, which comes earlier.
  induction grounded generalizing key hint aliases with
  | fromRoot admitted plain walked ended =>
      have whole := Grounded.fromRoot admitted plain walked ended
      refine render_aliased_step path (whole.hops_of_moves path) kind ?_
      rintro _ _ _ ⟨⟩
  | continuing admitted named startPath grounded walked ended ih =>
      have whole := Grounded.continuing admitted named startPath grounded walked ended
      refine render_aliased_step path (whole.hops_of_moves path) kind ?_
      rintro _ _ _ ⟨⟩ - hint aliases
      exact ih startPath _ hint aliases

/-- A named source that is rendered under its sourcekey gets an alias just if one is there to
    share, is forced for it or for what shares its last join, or the sourcekey that the join
    belongs to is used again.  Then this is the alias of the sourcekey, and whatever happens
    later, the source is not joined again. -/
theorem rendered_key_keeps_alias {directory : Directory} {table : Table}
    {engine : Template.Engine} {row : Row} {key : String}
    (found : (Definitions.build directory table engine row).get? key = some source)
    (path : source.hasPath = true) (aliases : Aliases) :
    ((source.path (some key) aliases).1.aliasName.isSome = true ↔
      (∃ shared ∈ key :: source.endings,
        (aliases.get? shared).isSome = true ∨ aliases.isForced shared = true) ∨
      aliases.isReused (source.joinKey key) = true) ∧
    (aliases.needsAlias key = true →
      (aliases.isReused key = true → aliases.isReused (source.joinKey key) = true) →
      (source.path (some key) aliases).1.aliasName.isSome = true) ∧
    (∀ name, (source.path (some key) aliases).1.aliasName = some name →
      (source.path (some key) aliases).2.get? key = some name ∧
      ∀ operations : List Aliases.Operation,
        let later := Aliases.Operation.run (source.path (some key) aliases).2 operations
        source.path (some key) later = (⟨[.goTo name], some name⟩, later)) ∧
    ((source.path (some key) aliases).1.aliasName = none →
      (source.path (some key) aliases).2.get? key = none) := by
  have grounded := Definitions.build_grounded found
  have outside : key ∉ source.chain :=
    (Definitions.build_chained directory table engine row).acyclic key source found
  have aliased : (source.path (some key) aliases).1.aliasName.isSome = true ↔
      (∃ shared ∈ key :: source.endings,
        (aliases.get? shared).isSome = true ∨ aliases.isForced shared = true) ∨
      aliases.isReused (source.joinKey key) = true := by
    rw [Resolved.path, grounded.render_aliased path, Aliased]
    simp
  refine ⟨aliased, ?_, ?_, render_unnamed path outside (grounded.hops_of_moves path)⟩
  · intro needed shared
    rw [aliased]
    rw [Aliases.needsAlias, Bool.or_eq_true] at needed
    obtain forced | reused := needed
    · exact .inl ⟨key, List.mem_cons_self, .inr forced⟩
    · exact .inr (shared reused)
  · intro name named
    have bound := render_end path outside named
    exact ⟨bound, path_again path bound⟩

end Source

/-! The source of `named` ends where that of `owner` does.  If only `named` is used again, nothing
gives their join an alias. -/

namespace Sample

def namedAgain : Aliases := .new "M" [] ["named"]

end Sample

namespace Source

theorem rendered_key_keeps_alias_named : ∃ source,
    Sample.definitions.get? "named" = some source ∧ source.hasPath = true ∧
    ∀ aliases : Aliases,
      ((source.path (some "named") aliases).1.aliasName.isSome = true ↔
        (∃ shared ∈ "named" :: source.endings,
          (aliases.get? shared).isSome = true ∨ aliases.isForced shared = true) ∨
        aliases.isReused (source.joinKey "named") = true) ∧
      (aliases.needsAlias "named" = true →
        (aliases.isReused "named" = true → aliases.isReused (source.joinKey "named") = true) →
        (source.path (some "named") aliases).1.aliasName.isSome = true) ∧
      (∀ name, (source.path (some "named") aliases).1.aliasName = some name →
        (source.path (some "named") aliases).2.get? "named" = some name ∧
        ∀ operations : List Aliases.Operation,
          let later := Aliases.Operation.run (source.path (some "named") aliases).2 operations
          source.path (some "named") later = (⟨[.goTo name], some name⟩, later)) ∧
      ((source.path (some "named") aliases).1.aliasName = none →
        (source.path (some "named") aliases).2.get? "named" = none) := by
  have reaches : (Sample.definitions.get? "named").map Resolved.hasPath = some true := by
    decide +kernel
  obtain ⟨source, found, path⟩ := Option.map_eq_some_iff.mp reaches
  exact ⟨source, found, path, rendered_key_keeps_alias found path⟩

theorem reused_key_without_alias : ∃ source,
    Sample.definitions.get? "named" = some source ∧ source.hasPath = true ∧
    Sample.namedAgain.needsAlias "named" = true ∧
    (source.path (some "named") Sample.namedAgain).1.aliasName = none ∧
    (source.path (some "named") Sample.namedAgain).2.get? "named" = none := by
  have evaluated : (Sample.definitions.get? "named").map (fun source =>
      (source.hasPath, (source.path (some "named") Sample.namedAgain).1.aliasName,
        (source.path (some "named") Sample.namedAgain).2.get? "named")) =
      some (true, none, none) := by
    decide +kernel
  obtain ⟨source, found, same⟩ := Option.map_eq_some_iff.mp evaluated
  obtain ⟨path, unnamed, unbound⟩ : _ ∧ _ ∧ _ := by simpa only [Prod.mk.injEq] using same
  exact ⟨source, found, path, by decide, unnamed, unbound⟩

end Source

end PathQuery
