import PathQuery.Proofs.Path.Scoping
import PathQuery.Proofs.Source.Consistent

namespace PathQuery.Source

/-! # Forced aliases

A join has one alias.  A sourcekey whose source has a last hop of its own is joined under the
alias that is forced for it.  One whose source ends where the sourcekey it continues does has
no join of its own: it shares the join of that one, and so its alias.
-/

variable {names : String → Resolved → Prop} {aliases middle last next : Aliases}
  {source : Resolved} {kind : JoinKind} {key hint shared binding : Option String}
  {name other : String} {lead rendered : RenderedPath}

namespace Resolved

/-- The steps of rendering a source that is not joined yet. -/
structure Joins (source : Resolved) (kind : JoinKind) (key hint : Option String)
    (aliases : Aliases) (shared binding : Option String) (middle : Aliases) (lead : RenderedPath)
    (last : Aliases) : Prop where
  isShared : (key.filter fun _ => source.hasPath) = shared
  unbound : ∀ other, shared = some other → aliases.get? other = none
  chosen : source.chooseAlias shared hint aliases = (binding, middle)
  leads : source.renderLead kind (if source.endsAtStart then binding else none) middle =
    (lead, last)
  joined : source.render kind key hint aliases =
    bindEnd shared (renderLegs kind binding source lead) last

theorem render_cases (source : Resolved) (kind : JoinKind) (key hint : Option String)
    (aliases : Aliases) :
    (∃ shared name, key = some shared ∧ source.hasPath = true ∧ aliases.get? shared = some name ∧
      source.render kind key hint aliases = (⟨[.goTo name], some name⟩, aliases)) ∨
    ∃ shared binding middle lead last,
      source.Joins kind key hint aliases shared binding middle lead last := by
  cases bound : (key.filter fun _ => source.hasPath).bind aliases.get? with
  | some name =>
      obtain ⟨shared, isShared, isBound⟩ := Option.bind_eq_some_iff.mp bound
      obtain ⟨isKey, path⟩ := Option.filter_eq_some_iff.mp isShared
      exact .inl ⟨shared, name, isKey, path, isBound, render_bound bound⟩
  | none =>
      refine .inr ⟨_, _, _, _, _, rfl, fun other isShared => ?_, rfl, rfl, render_joined bound⟩
      rwa [isShared] at bound

namespace Joins

variable (joins : source.Joins kind key hint aliases shared binding middle lead last)
include joins

theorem chosen_grows : aliases.Grows middle := by
  have grows := (source.chooseAlias_grows shared hint joins.unbound).1
  rwa [joins.chosen] at grows

theorem chosen_leaves (apart : shared ≠ some other) : middle.get? other = aliases.get? other := by
  have leaves := (source.chooseAlias_grows shared hint joins.unbound).2 other apart
  rwa [joins.chosen] at leaves

theorem hasPath (isKey : shared = some other) : source.hasPath = true :=
  (Option.filter_eq_some_iff.mp (joins.isShared.trans isKey)).2

theorem isKey (isKey : shared = some other) : key = some other :=
  (Option.filter_eq_some_iff.mp (joins.isShared.trans isKey)).1

/-- A source that leads to another table is shared under the sourcekey it is rendered under. -/
theorem shared_eq (path : source.hasPath = true) : shared = key := by
  rw [← joins.isShared]
  cases key with
  | none => rfl
  | some other => rw [Option.filter_some, if_pos path]

end Joins

theorem render_grows (source : Resolved) (kind : JoinKind) (key hint : Option String)
    (aliases : Aliases) : aliases.Grows (source.render kind key hint aliases).2 := by
  have step : ∀ (source : Resolved) (key hint : Option String) (aliases : Aliases),
      (∀ hint aliases, Aliases.Grows aliases (source.renderLead kind hint aliases).2) →
      aliases.Grows (source.render kind key hint aliases).2 := by
    intro source key hint aliases grows
    obtain ⟨_, _, -, -, -, same⟩ | ⟨shared, binding, middle, lead, last, joins⟩ :=
      source.render_cases kind key hint aliases
    · rw [same]
      exact .refl aliases
    · have leadGrows := grows (if source.endsAtStart then binding else none) middle
      rw [joins.leads] at leadGrows
      rw [joins.joined]
      exact (joins.chosen_grows.trans leadGrows).trans (bindEnd_grows _ _ _)
  induction source generalizing key hint aliases with
  | fromRoot route => exact step _ key hint aliases fun _ _ => .refl _
  | continuing start source route ih =>
      exact step _ key hint aliases fun hint aliases => ih (some start) hint aliases

/-- Rendering binds sourcekeys that are gone through, and no others. -/
theorem render_leaves (apart : key ≠ some other) (outside : other ∉ source.chain)
    (kind : JoinKind) (hint : Option String) (aliases : Aliases) :
    (source.render kind key hint aliases).2.get? other = aliases.get? other := by
  have step : ∀ (source : Resolved) (key hint : Option String) (aliases : Aliases),
      key ≠ some other →
      (∀ hint aliases, (source.renderLead kind hint aliases).2.get? other = aliases.get? other) →
      (source.render kind key hint aliases).2.get? other = aliases.get? other := by
    intro source key hint aliases apart leaves
    obtain ⟨_, _, -, -, -, same⟩ | ⟨shared, binding, middle, lead, last, joins⟩ :=
      source.render_cases kind key hint aliases
    · rw [same]
    · have apart : shared ≠ some other := fun same => apart (joins.isKey same)
      have leadLeaves := leaves (if source.endsAtStart then binding else none) middle
      rw [joins.leads] at leadLeaves
      rw [joins.joined, bindEnd_get?, if_neg apart, Option.or_none, leadLeaves,
        joins.chosen_leaves apart]
  induction source generalizing key hint aliases with
  | fromRoot route => exact step _ key hint aliases apart fun _ _ => rfl
  | continuing start source route ih =>
      rw [chain, List.mem_cons, not_or] at outside
      refine step _ key hint aliases apart fun hint aliases => ?_
      exact ih (fun same => outside.1 (Option.some.inj same).symm) outside.2 hint aliases

namespace Joins

variable (joins : source.Joins kind key hint aliases shared binding middle lead last)
include joins

theorem leads_grows : middle.Grows last := by
  have leads := joins.leads
  cases source with
  | fromRoot route =>
      cases leads
      exact .refl _
  | continuing first start route =>
      have grows := start.render_grows kind (some first)
        (if (continuing first start route).endsAtStart then binding else none) middle
      change start.render kind (some first) _ middle = (lead, last) at leads
      rwa [leads] at grows

theorem leads_leaves (outside : other ∉ source.chain) : last.get? other = middle.get? other := by
  have leads := joins.leads
  cases source with
  | fromRoot route =>
      cases leads
      rfl
  | continuing first start route =>
      rw [chain, List.mem_cons, not_or] at outside
      change start.render kind (some first) _ middle = (lead, last) at leads
      have apart : some first ≠ some other := fun same => outside.1 (Option.some.inj same).symm
      have leaves := render_leaves apart outside.2 kind
        (if (continuing first start route).endsAtStart then binding else none) middle
      rwa [leads] at leaves

/-- The end of the path has the alias that was chosen, or that of what the source ends at. -/
theorem aliasName_cases (named : (renderLegs kind binding source lead).aliasName = some name) :
    (source.endsAtStart = true ∧ lead.aliasName = some name) ∨
      (source.endsAtStart = false ∧ binding = some name) := by
  cases hops : source.legs.any Leg.isHop with
  | true =>
      refine .inr ⟨by rw [endsAtStart, hops, Bool.not_true, Bool.and_false], ?_⟩
      simpa only [renderLegs, hops, if_true] using named
  | false =>
      have isLead : lead.aliasName = some name := by
        simpa [renderLegs, hops] using named
      have leads := joins.leads
      cases source with
      | fromRoot route =>
          cases leads
          contradiction
      | continuing first start route =>
          refine .inl ⟨?_, isLead⟩
          rw [endsAtStart, hops]
          rfl

/-- An alias that was chosen for a sourcekey is bound to it at once. -/
theorem chosen_cases (isShared : shared = some other) :
    (middle = aliases ∧ (source.endsAtStart = true ∨ aliases.forced? other = none)) ∨
    (source.endsAtStart = false ∧ ∃ name, binding = some name ∧ middle.get? other = some name ∧
      ∀ wanted, aliases.forced? other = some wanted → name = wanted) := by
  have unbound := joins.unbound other isShared
  obtain ⟨absent, -⟩ | ⟨_, same, ⟨ends, chosen⟩ | ⟨moves, -, -, chosen⟩ |
      ⟨-, unforced, -, chosen⟩⟩ := source.chooseAlias_cases shared hint aliases
  · rw [isShared] at absent
    contradiction
  all_goals
    obtain rfl := Option.some.inj (isShared.symm.trans same)
    obtain ⟨rfl, rfl⟩ := Prod.mk.inj (joins.chosen.symm.trans chosen)
  · exact .inl ⟨rfl, .inl ends⟩
  · refine .inr ⟨moves, _, rfl, ?_⟩
    obtain ⟨name, forced, allocated⟩ | ⟨unforced, allocated⟩ := Aliases.allocate_cases unbound
    · rw [allocated, Aliases.bind_fst unbound, Aliases.get?_bind, unbound, forced, if_pos rfl]
      exact ⟨rfl, fun wanted same => Option.some.inj same⟩
    · have fresh : aliases.mint.2.get? other = none := unbound
      rw [allocated, Aliases.bind_fst fresh, Aliases.get?_bind, fresh, unforced, if_pos rfl]
      exact ⟨rfl, nofun⟩
  · exact .inl ⟨rfl, .inr unforced⟩

end Joins

/-- The alias at the end of a path is that of the sourcekey that it was rendered under. -/
theorem render_end (path : source.hasPath = true) (outside : other ∉ source.chain)
    (named : (source.render kind (some other) hint aliases).1.aliasName = some name) :
    (source.render kind (some other) hint aliases).2.get? other = some name := by
  obtain ⟨_, _, isKey, -, isBound, same⟩ | ⟨shared, binding, middle, lead, last, joins⟩ :=
    source.render_cases kind (some other) hint aliases
  · cases isKey
    rw [same] at named ⊢
    exact isBound.trans named
  · have isShared := joins.shared_eq path
    rw [joins.joined, bindEnd_fst] at named
    rw [joins.joined, bindEnd_get?, joins.leads_leaves outside, if_pos isShared, named]
    obtain ⟨rfl, -⟩ | ⟨moves, chosen, isChosen, isBound, -⟩ := joins.chosen_cases isShared
    · rw [joins.unbound other isShared, Option.none_or]
    · obtain ⟨ends, -⟩ | ⟨-, isName⟩ := joins.aliasName_cases named
      · rw [moves] at ends
        contradiction
      · rw [isBound, ← isChosen, isName, Option.some_or]

/-- The sourcekeys at whose ends the source ends. -/
def endings : Resolved → List String
  | fromRoot _ => []
  | continuing key start route =>
    if (continuing key start route).endsAtStart then key :: start.endings else []

/-- What the source continues is named, leads to another table, and does not come back. -/
def Follows (names : String → Resolved → Prop) (source : Resolved) : Prop :=
  ∀ start ∈ source.starts, names start.1 start.2 ∧ start.2.hasPath = true ∧
    start.1 ∉ start.2.chain

theorem Follows.start {first : String} {start : Resolved} {route : Route}
    (follows : (continuing first start route).Follows names) :
    names first start ∧ start.hasPath = true ∧ first ∉ start.chain ∧ start.Follows names := by
  obtain ⟨⟨isNamed, path, outside⟩, rest⟩ := List.forall_mem_cons.mp follows
  exact ⟨isNamed, path, outside, rest⟩

/-- The alias of a sourcekey with the source: the one that is forced, if the source has a last
    hop of its own, else that of the sourcekey at whose end it ends. -/
structure Honoured (source : Resolved) (aliases : Aliases) (key name : String) : Prop where
  own : source.endsAtStart = false → ∀ wanted, aliases.forced? key = some wanted → name = wanted
  shared : source.endsAtStart = true → ∀ start ∈ source.start?, aliases.get? start.1 = some name

theorem Honoured.grow (honoured : source.Honoured aliases other name) (grows : aliases.Grows next) :
    source.Honoured next other name where
  own moves wanted forced := honoured.own moves wanted (grows.forced? other ▸ forced)
  shared ends start isStart := grows.bound _ _ (honoured.shared ends start isStart)

end Resolved

open Resolved

/-- All sourcekeys with an alias have the one they are to have. -/
def Honours (names : String → Resolved → Prop) (aliases : Aliases) : Prop :=
  ∀ key name, aliases.get? key = some name →
    ∃ source, names key source ∧ source.Honoured aliases key name

theorem Honours.mint (honours : Honours names aliases) : Honours names aliases.mint.2 := by
  intro key name isBound
  obtain ⟨source, isNamed, honoured⟩ := honours key name isBound
  exact ⟨source, isNamed, honoured.grow aliases.mint_grows⟩

/-- An alias that was bound before was honoured before. -/
theorem Honours.grow_of_bound (honours : Honours names aliases) (grows : aliases.Grows next)
    (isBound : aliases.get? other = some name) :
    ∃ source, names other source ∧ source.Honoured next other name := by
  obtain ⟨source, isNamed, honoured⟩ := honours other name isBound
  exact ⟨source, isNamed, honoured.grow grows⟩

theorem Honours.chosen (honours : Honours names aliases)
    (joins : source.Joins kind key hint aliases shared binding middle lead last)
    (keyed : ∀ other, key = some other → names other source) : Honours names middle := by
  intro other name isBound
  by_cases isShared : shared = some other
  · obtain ⟨rfl, -⟩ | ⟨moves, bound, -, isBound', forced⟩ := joins.chosen_cases isShared
    · exact honours other name isBound
    · obtain rfl := Option.some.inj (isBound.symm.trans isBound')
      refine ⟨source, keyed other (joins.isKey isShared), fun _ wanted isForced => ?_, ?_⟩
      · exact forced wanted (joins.chosen_grows.forced? other ▸ isForced)
      · intro ends
        rw [moves] at ends
        contradiction
  · rw [joins.chosen_leaves isShared] at isBound
    exact honours.grow_of_bound joins.chosen_grows isBound

/-- The sourcekey of a source that was joined has the alias that it is to have. -/
theorem Honours.joined (honours : Honours names last)
    (joins : source.Joins kind key hint aliases shared binding middle lead last)
    (keyed : ∀ other, key = some other → names other source) (follows : source.Follows names) :
    Honours names (source.render kind key hint aliases).2 := by
  rw [joins.joined]
  have grows := bindEnd_grows shared (renderLegs kind binding source lead) last
  intro other name isBound
  cases before : last.get? other with
  | some earlier =>
      obtain rfl := Option.some.inj ((grows.bound other earlier before).symm.trans isBound)
      exact honours.grow_of_bound grows before
  | none =>
      rw [bindEnd_get?, before, Option.none_or, Option.ite_none_right_eq_some] at isBound
      obtain ⟨isShared, isName⟩ := isBound
      refine ⟨source, keyed other (joins.isKey isShared), fun moves wanted isForced => ?_, ?_⟩
      · obtain ⟨-, ends | unforced⟩ | ⟨-, bound, -, isBound, -⟩ := joins.chosen_cases isShared
        · rw [moves] at ends
          contradiction
        · rw [(joins.chosen_grows.trans (joins.leads_grows.trans grows)).forced?, unforced]
            at isForced
          contradiction
        · rw [joins.leads_grows.bound other bound isBound] at before
          contradiction
      · intro ends start isStart
        obtain ⟨-, isLead⟩ | ⟨moves, -⟩ := joins.aliasName_cases isName
        · cases source with
          | fromRoot route => contradiction
          | continuing first source route =>
              cases isStart
              obtain ⟨-, path, outside, -⟩ := follows.start
              have leads := joins.leads
              change source.render kind (some first) _ middle = (lead, last) at leads
              have named := congrArg (fun made => made.1.aliasName) leads
              have isEnd := render_end path outside (named.trans isLead)
              rw [leads] at isEnd
              exact grows.bound first name isEnd
        · rw [moves] at ends
          contradiction

/-- Whatever is rendered, the sourcekeys it goes through have the aliases they are to have. -/
theorem Honours.render (honours : Honours names aliases) (source : Resolved) (kind : JoinKind)
    (key hint : Option String) (keyed : ∀ other, key = some other → names other source)
    (follows : source.Follows names) : Honours names (source.render kind key hint aliases).2 := by
  have step : ∀ (source : Resolved) (key hint : Option String) (aliases : Aliases),
      Honours names aliases → (∀ other, key = some other → names other source) →
      source.Follows names →
      (∀ hint aliases, Honours names aliases →
        Honours names (source.renderLead kind hint aliases).2) →
      Honours names (source.render kind key hint aliases).2 := by
    intro source key hint aliases honours keyed follows leads
    obtain ⟨_, _, -, -, -, same⟩ | ⟨shared, binding, middle, lead, last, joins⟩ :=
      source.render_cases kind key hint aliases
    · rwa [same]
    · have honoursLast := leads (if source.endsAtStart then binding else none) middle
        (honours.chosen joins keyed)
      rw [joins.leads] at honoursLast
      exact honoursLast.joined joins keyed follows
  induction source generalizing key hint aliases with
  | fromRoot route => exact step _ key hint aliases honours keyed follows fun _ _ => id
  | continuing first source route ih =>
      refine step _ key hint aliases honours keyed follows fun hint aliases honours => ?_
      obtain ⟨isNamed, -, -, rest⟩ := follows.start
      refine ih honours (some first) hint (fun other same => ?_) rest
      exact Option.some.inj same ▸ isNamed

namespace Resolved

/-- No sourcekey among some has an alias or is to have one. -/
def Free (aliases : Aliases) (keys : List String) : Prop :=
  ∀ key ∈ keys, aliases.get? key = none ∧ aliases.forced? key = none

theorem Joins.chosen_hinted
    (joins : source.Joins kind key (some name) aliases shared binding middle lead last)
    (unforced : ∀ other, shared = some other → aliases.forced? other = none) :
    binding = some name ∧ middle = aliases := by
  obtain ⟨-, chosen⟩ | ⟨other, isShared, ⟨-, chosen⟩ | ⟨-, -, own, -⟩ | ⟨-, -, -, chosen⟩⟩ :=
    source.chooseAlias_cases shared (some name) aliases
  · exact Prod.mk.inj (joins.chosen.symm.trans chosen)
  · rw [unforced other isShared] at chosen
    exact Prod.mk.inj (joins.chosen.symm.trans chosen)
  · rw [Aliases.isForced, unforced other isShared] at own
    simp at own
  · exact Prod.mk.inj (joins.chosen.symm.trans chosen)

/-- Where a source is rendered under a free sourcekey and ends at free ones only, its end gets
    no other alias than the one that is hinted at. -/
theorem render_hinted (free : Free aliases (key.toList ++ source.endings))
    (named : (source.render kind key (some name) aliases).1.aliasName = some other) :
    other = name := by
  induction source generalizing key with
  | fromRoot route =>
      obtain ⟨shared, _, isKey, -, isBound, -⟩ | ⟨shared, binding, middle, lead, last, joins⟩ :=
        (fromRoot route).render_cases kind key (some name) aliases
      · rw [(free shared (by simp [isKey])).1] at isBound
        contradiction
      · obtain ⟨rfl, -⟩ := joins.chosen_hinted fun other isShared =>
          (free other (by simp [joins.isKey isShared])).2
        rw [joins.joined, bindEnd_fst] at named
        obtain ⟨⟨⟩, -⟩ | ⟨-, isName⟩ := joins.aliasName_cases named
        exact (Option.some.inj isName).symm
  | continuing first start route ih =>
      obtain ⟨shared, _, isKey, -, isBound, -⟩ | ⟨shared, binding, middle, lead, last, joins⟩ :=
        (continuing first start route).render_cases kind key (some name) aliases
      · rw [(free shared (by simp [isKey])).1] at isBound
        contradiction
      · obtain ⟨rfl, rfl⟩ := joins.chosen_hinted fun other isShared =>
          (free other (by simp [joins.isKey isShared])).2
        rw [joins.joined, bindEnd_fst] at named
        obtain ⟨ends, isLead⟩ | ⟨-, isName⟩ := joins.aliasName_cases named
        · have leads := joins.leads
          rw [if_pos ends] at leads
          change start.render kind (some first) (some name) middle = (lead, last) at leads
          refine ih ?_ ((congrArg (fun made => made.1.aliasName) leads).trans isLead)
          intro link member
          refine free link ?_
          rw [endings, if_pos ends]
          exact List.mem_append_right _ member
        · exact (Option.some.inj isName).symm

/-- A sourcekey that is joined before all at whose ends its source ends, none of which is
    forced, gets the alias that is forced for it. -/
theorem render_forced {wanted : String} (forced : aliases.forced? other = some wanted)
    (unbound : aliases.get? other = none) (outside : other ∉ source.chain)
    (free : Free aliases source.endings)
    (isBound : (source.render kind (some other) hint aliases).2.get? other = some name) :
    name = wanted := by
  obtain ⟨_, _, isKey, -, bound, -⟩ | ⟨shared, binding, middle, lead, last, joins⟩ :=
    source.render_cases kind (some other) hint aliases
  · cases isKey
    rw [unbound] at bound
    contradiction
  · rw [joins.joined, bindEnd_get?, joins.leads_leaves outside] at isBound
    by_cases isShared : shared = some other
    · rw [if_pos isShared] at isBound
      obtain ⟨rfl, ends | unforced⟩ | ⟨-, chosen, -, isChosen, isForced⟩ :=
        joins.chosen_cases isShared
      · rw [unbound, Option.none_or] at isBound
        obtain ⟨-, isLead⟩ | ⟨moves, -⟩ := joins.aliasName_cases isBound
        · have chosen := joins.chosen
          simp only [chooseAlias, isShared, ends, if_true, forced] at chosen
          obtain ⟨rfl, -⟩ := Prod.mk.inj chosen
          cases source with
          | fromRoot route => contradiction
          | continuing first start route =>
              have leads := joins.leads
              rw [if_pos ends] at leads
              change start.render kind (some first) (some wanted) middle = (lead, last) at leads
              rw [endings, if_pos ends] at free
              have isHinted := (congrArg (fun made => made.1.aliasName) leads).trans isLead
              refine render_hinted ?_ isHinted
              exact free
        · rw [ends] at moves
          contradiction
      · rw [forced] at unforced
        contradiction
      · rw [isChosen, Option.some_or] at isBound
        exact Option.some.inj isBound ▸ isForced wanted forced
    · rw [if_neg isShared, Option.or_none, joins.chosen_leaves isShared, unbound] at isBound
      contradiction

end Resolved

end PathQuery.Source
