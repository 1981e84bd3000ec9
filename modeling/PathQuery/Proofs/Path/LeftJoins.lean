import PathQuery.Proofs.Path.BoundNames
import PathQuery.Proofs.Source.Facts

namespace PathQuery

/-! # Paths of left joins

The path of a source with outbound hops only can be joined without losing a row.  Its end is
asked to have some alias, but it has another one where it is shared under a sourcekey.  In any
case the end has an alias that the path binds or goes back to.
-/

open Source Resolved

variable {aliases middle last next : Aliases} {source : Resolved} {kind other : JoinKind}
  {key hint shared binding : Option String} {name link wanted : String} {legs : List Leg}
  {lead : RenderedPath} {foreignKey : ForeignKey} {direction : Direction}

namespace Segment

def joinKind? : Segment → Option JoinKind
  | join _ kind .. => some kind
  | _ => none

/-- The alias that the segment gives to the table it reaches. -/
def binding? : Segment → Option String
  | join binding .. => binding
  | _ => none

end Segment

/-- The last join of the path binds the alias, and no join before it does. -/
def Path.EndsBound (path : Path) (name : String) : Prop :=
  ∃ before join after, path = before ++ join :: after ∧ join.binding? = some name ∧
    (∀ segment ∈ before, segment.binding? ≠ some name) ∧
    ∀ segment ∈ after, segment.joinKind? = none

namespace Source

theorem legSegments_filters (noHop : legs.any Leg.isHop = false) :
    ∀ segment ∈ legSegments kind binding legs, segment.joinKind? = none := by
  induction legs with
  | nil => exact nofun
  | cons leg later ih =>
      obtain ⟨move, table, hopCount, notNull⟩ := leg
      cases move with
      | filter tree clause => exact List.forall_mem_cons.mpr ⟨rfl, ih noHop⟩
      | hop hop => contradiction

theorem legSegments_last (hops : legs.any Leg.isHop = true) (kind : JoinKind)
    (binding : Option String) :
    ∃ before, ∃ hop : Hop, ∃ after, legSegments kind binding legs =
        before ++ .join binding kind hop.key hop.direction :: after ∧
      (∀ segment ∈ before, segment.binding? = none) ∧
      ∀ segment ∈ after, segment.joinKind? = none := by
  induction legs with
  | nil => contradiction
  | cons leg later ih =>
      obtain ⟨move, table, hopCount, notNull⟩ := leg
      cases move with
      | filter tree clause =>
          obtain ⟨before, hop, after, split, unbound, isLast⟩ := ih hops
          refine ⟨.filter clause :: before, hop, after, ?_, ?_, isLast⟩
          · rw [legSegments, split]
            rfl
          · exact List.forall_mem_cons.mpr ⟨rfl, unbound⟩
      | hop hop =>
          cases more : later.any Leg.isHop with
          | true =>
              obtain ⟨before, last, after, split, unbound, isLast⟩ := ih more
              refine ⟨.join none kind hop.key hop.direction :: before, last, after, ?_, ?_, isLast⟩
              · rw [legSegments, split, more]
                rfl
              · exact List.forall_mem_cons.mpr ⟨rfl, unbound⟩
          | false =>
              refine ⟨[], hop, legSegments kind binding later, ?_, List.forall_mem_nil _,
                legSegments_filters more⟩
              rw [legSegments, more]
              rfl

end Source

namespace Aliases

/-- The alias is forced for some sourcekey, or it has a number that is still to be minted. -/
def MayChoose (aliases : Aliases) (name : String) : Prop :=
  aliases.isTaken name = true ∨ ∃ n, aliases.lastIndex < n ∧ name = aliases.numbered n

theorem Grows.mayChoose (grows : aliases.Grows next) (chosen : next.MayChoose name) :
    aliases.MayChoose name := by
  obtain taken | ⟨n, later, isNumbered⟩ := chosen
  · rw [isTaken, grows.forced] at taken
    exact .inl taken
  · rw [numbered, grows.root] at isNumbered
    exact .inr ⟨n, grows.lastIndex.trans_lt later, isNumbered⟩

theorem forced_mayChoose (forced : aliases.forced? link = some name) : aliases.MayChoose name :=
  .inl (isTaken_iff.mpr (mem_forcedNames forced))

theorem mint_mayChoose (aliases : Aliases) : aliases.MayChoose aliases.mint.1 :=
  .inr ⟨_, aliases.mint_search.le, rfl⟩

theorem allocate_mayChoose (unbound : aliases.get? link = none) :
    aliases.MayChoose (aliases.allocate link).1 := by
  obtain ⟨name, forced, allocated⟩ | ⟨-, allocated⟩ := allocate_cases unbound
  · rw [allocated, bind_fst unbound]
    exact forced_mayChoose forced
  · have fresh : aliases.mint.2.get? link = none := unbound
    rw [allocated, bind_fst fresh]
    exact aliases.mint_mayChoose

/-- The alias was minted at some time, and anything may have happened since then. -/
def Issued (aliases : Aliases) (name : String) : Prop :=
  ∃ earlier operations, (mint earlier).1 = name ∧
    Operation.run (mint earlier).2 operations = aliases

/-- A number that was minted is not minted again. -/
theorem Issued.not_mayChoose (issued : aliases.Issued name) (free : aliases.isTaken name = false) :
    ¬ aliases.MayChoose name := by
  obtain ⟨earlier, operations, rfl, rfl⟩ := issued
  have keeps : earlier.mint.2.Keeps (Operation.run earlier.mint.2 operations) :=
    Operation.run_keeps operations
  rintro (taken | ⟨n, later, same⟩)
  · rw [free] at taken
    contradiction
  · rw [numbered, keeps.root] at same
    have numbers : earlier.numbered _ = earlier.numbered n := same
    obtain rfl := numbered_injective numbers
    exact absurd later (Nat.not_lt.mpr keeps.lastIndex)

/-- The aliases in use and those that may be chosen from now on are admitted. -/
structure AllNames (admits : String → Prop) (aliases : Aliases) : Prop where
  chosen : ∀ name, aliases.MayChoose name → admits name
  bound : ∀ key name, aliases.get? key = some name → admits name

theorem AllNames.admissible {admits : String → Prop} (all : aliases.AllNames admits) :
    Admissible (fun _ => admits) aliases where
  grow _ _ admitted := admitted
  forced grows isForced := all.chosen _ (grows.mayChoose (forced_mayChoose isForced))
  minted grows := all.chosen _ (grows.mayChoose (mint_mayChoose _))

theorem AllNames.mint {admits : String → Prop} (all : aliases.AllNames admits) :
    aliases.mint.2.AllNames admits ∧ admits aliases.mint.1 where
  left := ⟨fun name chosen => all.chosen name (aliases.mint_grows.mayChoose chosen), all.bound⟩
  right := all.chosen _ aliases.mint_mayChoose

end Aliases

namespace Source.Resolved

theorem chooseAlias_mayChoose
    (unbound : ∀ other, shared = some other → aliases.get? other = none)
    (chosen : (source.chooseAlias shared hint aliases).1 = some name) :
    hint = some name ∨ aliases.MayChoose name := by
  obtain ⟨-, same⟩ | ⟨link, isShared, ⟨-, same⟩ | ⟨-, -, -, same⟩ | ⟨-, -, -, same⟩⟩ :=
    source.chooseAlias_cases shared hint aliases
  · rw [same] at chosen
    exact .inl chosen
  · rw [same] at chosen
    cases forced : aliases.forced? link with
    | none =>
        rw [forced] at chosen
        exact .inl chosen
    | some own =>
        rw [forced] at chosen
        exact .inr (Aliases.forced_mayChoose (forced.trans chosen))
  · rw [same] at chosen
    exact .inr (Option.some.inj chosen ▸ Aliases.allocate_mayChoose (unbound link isShared))
  · rw [same] at chosen
    exact .inl chosen

end Source.Resolved

/-- The segment is no join, or one of the wanted kind that binds at most what is hinted at or
    chosen from now on. -/
structure Segment.Suits (kind : JoinKind) (hint : Option String) (aliases : Aliases)
    (segment : Segment) : Prop where
  kind : ∀ other, segment.joinKind? = some other → other = kind
  binding : ∀ name, segment.binding? = some name → hint = some name ∨ aliases.MayChoose name

theorem Segment.Suits.of_no_join {segment : Segment} (noJoin : segment.joinKind? = none)
    (unbound : segment.binding? = none) : segment.Suits kind hint aliases where
  kind other isKind := by
    rw [noJoin] at isKind
    contradiction
  binding name isBound := by
    rw [unbound] at isBound
    contradiction

namespace Source

theorem legSegments_suits
    (choice : ∀ name, binding = some name → hint = some name ∨ aliases.MayChoose name) :
    ∀ segment ∈ legSegments kind binding legs, segment.Suits kind hint aliases := by
  induction legs with
  | nil => exact nofun
  | cons leg later ih =>
      obtain ⟨move, table, hopCount, notNull⟩ := leg
      cases move with
      | filter tree clause => exact List.forall_mem_cons.mpr ⟨.of_no_join rfl rfl, ih⟩
      | hop hop =>
          refine List.forall_mem_cons.mpr ⟨⟨?_, ?_⟩, ih⟩
          · rintro _ ⟨⟩
            rfl
          · intro name bound
            refine choice name ?_
            simp only [Segment.binding?] at bound
            split at bound
            · contradiction
            · exact bound

namespace Resolved

theorem render_suits (source : Resolved) (kind : JoinKind) (key hint : Option String)
    (aliases : Aliases) :
    ∀ segment ∈ (source.render kind key hint aliases).1.path,
      segment.Suits kind hint aliases := by
  have step : ∀ (source : Resolved) (key hint : Option String) (aliases : Aliases),
      (∀ hint aliases, ∀ segment ∈ (source.renderLead kind hint aliases).1.path,
        segment.Suits kind hint aliases) →
      ∀ segment ∈ (source.render kind key hint aliases).1.path,
        segment.Suits kind hint aliases := by
    intro source key hint aliases leads
    obtain ⟨_, name, -, -, -, same⟩ | ⟨shared, binding, middle, lead, last, joins⟩ :=
      source.render_cases kind key hint aliases
    · rw [same]
      exact List.forall_mem_singleton.mpr (.of_no_join rfl rfl)
    · have choice : ∀ name, binding = some name → hint = some name ∨ aliases.MayChoose name := by
        intro name isBinding
        have chosen : (source.chooseAlias shared hint aliases).1 = some name := by
          rw [joins.chosen, isBinding]
        exact chooseAlias_mayChoose joins.unbound chosen
      rw [joins.joined, bindEnd_fst, renderLegs]
      refine List.forall_mem_append.mpr ⟨fun segment member => ?_, legSegments_suits choice⟩
      have leadSuits := leads (if source.endsAtStart then binding else none) middle
      rw [joins.leads] at leadSuits
      obtain ⟨sameKind, bound⟩ := leadSuits segment member
      refine ⟨sameKind, fun name isBound => ?_⟩
      obtain passed | chosen := bound name isBound
      · exact choice name (Option.ite_none_right_eq_some.mp passed).2
      · exact .inr (joins.chosen_grows.mayChoose chosen)
  induction source generalizing key hint aliases with
  | fromRoot route => exact step _ key hint aliases fun _ _ => List.forall_mem_nil _
  | continuing first start route ih =>
      exact step _ key hint aliases fun hint aliases => ih (some first) hint aliases

theorem renderLead_suits (source : Resolved) (kind : JoinKind) (hint : Option String)
    (aliases : Aliases) :
    ∀ segment ∈ (source.renderLead kind hint aliases).1.path, segment.Suits kind hint aliases := by
  cases source with
  | fromRoot route => exact nofun
  | continuing first start route => exact start.render_suits kind (some first) hint aliases

theorem Joins.chosen_allNames {admits : String → Prop}
    (joins : source.Joins kind key hint aliases shared binding middle lead last)
    (all : aliases.AllNames admits) (hinted : ∀ name, hint = some name → admits name) :
    middle.AllNames admits ∧ ∀ name, binding = some name → admits name := by
  obtain ⟨bound, choice⟩ := joins.chosen_bound all.admissible (.refl aliases) all.bound hinted
  exact ⟨⟨fun name chosen => all.chosen name (joins.chosen_grows.mayChoose chosen), bound⟩, choice⟩

/-- All names in a rendered path are admitted. -/
theorem render_allNames {admits : String → Prop} (source : Resolved) (kind : JoinKind)
    (key : Option String) (all : aliases.AllNames admits)
    (hinted : ∀ name, hint = some name → admits name) :
    (source.render kind key hint aliases).2.AllNames admits ∧
      ∀ name, (source.render kind key hint aliases).1.aliasName = some name → admits name := by
  obtain ⟨bound, named⟩ :=
    source.render_admits all.admissible kind key (.refl aliases) all.bound hinted
  have grows := source.render_grows kind key hint aliases
  exact ⟨⟨fun name chosen => all.chosen name (grows.mayChoose chosen), bound⟩, named⟩

/-- The end of the path has an alias: the wanted one, which the path binds there, or one that
    a sourcekey of the source has already or is forced to have. -/
def Ends (source : Resolved) (key : Option String) (aliases : Aliases) (wanted : String)
    (rendered : RenderedPath) : Prop :=
  ∃ name, rendered.aliasName = some name ∧
    ((name = wanted ∧ (¬ aliases.MayChoose wanted → rendered.path.EndsBound wanted)) ∨
      ∃ link ∈ key.toList ++ source.chain,
        aliases.get? link = some name ∨ aliases.forced? link = some name)

namespace Joins

/-- With a hint, either this is chosen or the alias that is forced for the sourcekey. -/
theorem chosen_of_hint
    (joins : source.Joins kind key (some wanted) aliases shared binding middle lead last) :
    (binding = some wanted ∧ middle = aliases) ∨
      ∃ link name, shared = some link ∧ aliases.forced? link = some name ∧ binding = some name ∧
        (source.endsAtStart = true → middle = aliases) := by
  cases forced : shared.bind aliases.forced? with
  | none =>
      refine .inl (joins.chosen_hinted fun link isShared => ?_)
      rwa [isShared] at forced
  | some name =>
      obtain ⟨link, isShared, isForced⟩ := Option.bind_eq_some_iff.mp forced
      refine .inr ⟨link, name, isShared, isForced, ?_⟩
      obtain ⟨rfl, ends | unforced⟩ | ⟨moves, chosen, isChosen, -, own⟩ :=
        joins.chosen_cases isShared
      · have chosen := joins.chosen
        simp only [chooseAlias, isShared, ends, if_true, isForced] at chosen
        exact ⟨(Prod.mk.inj chosen).1.symm, fun _ => rfl⟩
      · rw [unforced] at isForced
        contradiction
      · refine ⟨own name isForced ▸ isChosen, fun ends => ?_⟩
        rw [moves] at ends
        contradiction

/-- A source with a last hop of its own binds the alias that it chooses there. -/
theorem endsBound
    (joins : source.Joins kind key (some wanted) aliases shared (some wanted) middle lead last)
    (moves : source.endsAtStart = false) (hops : source.legs.any Leg.isHop = true)
    (free : ¬ aliases.MayChoose wanted) :
    (lead.path ++ legSegments kind (some wanted) source.legs).EndsBound wanted := by
  obtain ⟨before, hop, after, split, unbound, isLast⟩ :=
    legSegments_last hops kind (some wanted)
  have leadUnbound : ∀ segment ∈ lead.path, segment.binding? ≠ some wanted := by
    intro segment member bound
    have suits := source.renderLead_suits kind none middle
    have leads := joins.leads
    rw [moves, if_neg Bool.false_ne_true] at leads
    rw [leads] at suits
    obtain ⟨⟨⟩⟩ | chosen := (suits segment member).binding wanted bound
    exact free (joins.chosen_grows.mayChoose chosen)
  refine ⟨lead.path ++ before, .join (some wanted) kind hop.key hop.direction, after, ?_, rfl, ?_,
    isLast⟩
  · rw [split, List.append_assoc]
  · refine List.forall_mem_append.mpr ⟨leadUnbound, fun segment member => ?_⟩
    rw [unbound segment member]
    nofun

end Joins

/-- A source that ends where another one does has only filters of its own. -/
theorem Ends.continued {first : String} {start : Resolved} {route : Route}
    (ends : start.Ends (some first) aliases wanted lead)
    (noHop : (continuing first start route).legs.any Leg.isHop = false) :
    (continuing first start route).Ends key aliases wanted
      (renderLegs kind binding (continuing first start route) lead) := by
  obtain ⟨name, named, bound⟩ := ends
  refine ⟨name, ?_, ?_⟩
  · rwa [renderLegs, noHop, if_neg Bool.false_ne_true]
  · obtain ⟨rfl, isEnd⟩ | ⟨link, member, known⟩ := bound
    · refine .inl ⟨rfl, fun free => ?_⟩
      obtain ⟨before, join, after, split, binds, unbound, isLast⟩ := isEnd free
      refine ⟨before, join, after ++ legSegments kind binding route.legs, ?_, binds, unbound, ?_⟩
      · rw [renderLegs, split, List.append_assoc]
        rfl
      · exact List.forall_mem_append.mpr ⟨isLast, legSegments_filters noHop⟩
    · exact .inr ⟨link, List.mem_append_right _ member, known⟩

theorem Ends.of_forced {rendered : RenderedPath} (ends : source.Ends key aliases name rendered)
    (member : link ∈ key.toList ++ source.chain) (forced : aliases.forced? link = some name) :
    source.Ends key aliases wanted rendered := by
  obtain ⟨_, named, ⟨rfl, -⟩ | known⟩ := ends
  · exact ⟨_, named, .inr ⟨link, member, .inr forced⟩⟩
  · exact ⟨_, named, .inr known⟩

/-- A source with a last hop of its own ends as wanted; another one ends as the one that it
    continues does. -/
theorem render_ends_step (path : source.hasPath = true)
    (hops : source.endsAtStart = false → source.legs.any Leg.isHop = true)
    (ended : ∀ first start route, source = continuing first start route →
      source.endsAtStart = true → ∀ wanted,
        start.Ends (some first) aliases wanted
          (start.render kind (some first) (some wanted) aliases).1) :
    source.Ends key aliases wanted (source.render kind key (some wanted) aliases).1 := by
  obtain ⟨link, name, rfl, -, isBound, same⟩ | ⟨shared, binding, middle, lead, last, joins⟩ :=
    source.render_cases kind key (some wanted) aliases
  · rw [same]
    exact ⟨name, rfl, .inr ⟨link, List.mem_cons_self, .inl isBound⟩⟩
  · obtain rfl := joins.shared_eq path
    rw [joins.joined, bindEnd_fst]
    cases ends : source.endsAtStart with
    | false =>
        have named : (renderLegs kind binding source lead).aliasName = binding := by
          rw [renderLegs, if_pos (hops ends)]
        obtain ⟨rfl, -⟩ | ⟨link, name, rfl, isForced, rfl, -⟩ := joins.chosen_of_hint
        · exact ⟨wanted, named, .inl ⟨rfl, joins.endsBound ends (hops ends)⟩⟩
        · exact ⟨name, named, .inr ⟨link, List.mem_cons_self, .inr isForced⟩⟩
    | true =>
        cases source with
        | fromRoot route => contradiction
        | continuing first start route =>
            have noHop : (continuing first start route).legs.any Leg.isHop = false := by
              simpa [endsAtStart, isContinuing, start?] using ends
            have leads := joins.leads
            rw [if_pos ends] at leads
            change start.render kind (some first) binding middle = (lead, last) at leads
            obtain ⟨rfl, rfl⟩ | ⟨link, name, rfl, isForced, rfl, stays⟩ := joins.chosen_of_hint
            · have startEnds := ended first start route rfl ends wanted
              rw [leads] at startEnds
              exact startEnds.continued noHop
            · obtain rfl := stays ends
              have startEnds := ended first start route rfl ends name
              rw [leads] at startEnds
              exact (startEnds.continued noHop).of_forced List.mem_cons_self isForced

end Resolved

variable {admits : Context → Prop}

/-- Whatever is to be called by an alias has one in the end. -/
theorem Grounded.render_ends (grounded : Grounded admits source) (path : source.hasPath = true)
    (kind : JoinKind) (key : Option String) (wanted : String) (aliases : Aliases) :
    source.Ends key aliases wanted (source.render kind key (some wanted) aliases).1 := by
  -- Only a source that ends where another one does asks that one, which comes earlier.
  induction grounded generalizing key wanted aliases with
  | fromRoot admitted plain walked ended =>
      have whole := Grounded.fromRoot admitted plain walked ended
      refine render_ends_step path (whole.hops_of_moves path) ?_
      rintro _ _ _ ⟨⟩
  | continuing admitted named startPath grounded walked ended ih =>
      have whole := Grounded.continuing admitted named startPath grounded walked ended
      refine render_ends_step path (whole.hops_of_moves path) ?_
      rintro _ _ _ ⟨⟩ - wanted
      exact ih startPath _ wanted aliases

theorem Grounded.isAllOutbound_iff (grounded : Grounded admits source) :
    source.isAllOutbound = true ↔
      ¬ (hops source.fullLegs = [] ∨ ∃ hop ∈ hops source.fullLegs, hop.direction = .inbound) := by
  have described := grounded.tells.described
  rw [Resolved.isAllOutbound, Bool.and_eq_true, described.hasPath, Bool.not_eq_true', not_or,
    ← Bool.not_eq_true, described.hasInbound]

/-- The path of left joins of a source fails just if the source has no hop or an inbound one, and
    then leaves the aliases alone.  Else its end has an alias: the wanted one, which the last join
    binds and no other, or one that a sourcekey of the source has already or is forced to have.
    The wanted alias must not be one that may be chosen for a sourcekey: it is not forced, and it
    has no number or one that was minted. -/
theorem left_path_ends {context : Context} {spec : Spec}
    (named : ∀ key start, context.named key = some start → Grounded (fun _ => True) start)
    (resolved : spec.resolve context = .ok source) (key : Option String)
    (unforced : aliases.isTaken wanted = false)
    (apart : aliases.Issued wanted ∨ ∀ n, wanted ≠ aliases.numbered n) :
    ((∃ error, source.leftPath key wanted aliases = .error error) ↔
      hops source.fullLegs = [] ∨ ∃ hop ∈ hops source.fullLegs, hop.direction = .inbound) ∧
    (∀ error, source.leftPath key wanted aliases = .error error →
      Aliases.Operation.apply aliases (.leftPath source key wanted) = aliases) ∧
    ∀ rendered next, source.leftPath key wanted aliases = .ok (rendered, next) →
      (∀ segment ∈ rendered.path, ∀ kind, segment.joinKind? = some kind → kind = .left) ∧
      ∃ name, rendered.aliasName = some name ∧
        ((name = wanted ∧ rendered.path.EndsBound wanted) ∨
          ∃ link ∈ key.toList ++ source.chain,
            aliases.get? link = some name ∨ aliases.forced? link = some name) := by
  have grounded := Grounded.of_resolve trivial named resolved
  have free : ¬ aliases.MayChoose wanted := by
    obtain issued | unnumbered := apart
    · exact issued.not_mayChoose unforced
    · rintro (taken | ⟨n, -, isNumbered⟩)
      · rw [unforced] at taken
        contradiction
      · exact unnumbered n isNumbered
  refine ⟨?_, ?_, ?_⟩
  · rw [← not_iff_not, ← grounded.isAllOutbound_iff, Resolved.leftPath]
    split <;> simp [*]
  · intro error failed
    simp only [Aliases.Operation.apply, failed]
  · intro rendered next made
    rw [Resolved.leftPath] at made
    split at made
    · rename_i outbound
      obtain ⟨path, -⟩ := Bool.and_eq_true_iff.mp outbound
      have suits := source.render_suits .left key (some wanted) aliases
      obtain ⟨name, isName, bound⟩ := grounded.render_ends path .left key wanted aliases
      rw [Except.ok.inj made] at suits isName bound
      refine ⟨fun segment member => (suits segment member).kind, name, isName, ?_⟩
      exact bound.imp_left (And.imp_right fun isEnd => isEnd free)
    · contradiction

/-- The source of `named` ends where that of `owner` does, and passes the wanted alias on. -/
theorem left_path_ends_named : ∃ source,
    (Spec.mk [.sourcekey "named"] "name").resolve
      (Sample.definitions.context Sample.catalog.directory Sample.engine []) = .ok source ∧
    let aliases := Sample.namedAgain.mint.2
    aliases.isTaken "M_P1" = false ∧ aliases.Issued "M_P1" ∧
    ((∃ error, source.leftPath none "M_P1" aliases = .error error) ↔
      hops source.fullLegs = [] ∨ ∃ hop ∈ hops source.fullLegs, hop.direction = .inbound) ∧
    (∀ error, source.leftPath none "M_P1" aliases = .error error →
      Aliases.Operation.apply aliases (.leftPath source none "M_P1") = aliases) ∧
    (∃ rendered next, source.leftPath none "M_P1" aliases = .ok (rendered, next)) ∧
    ∀ rendered next, source.leftPath none "M_P1" aliases = .ok (rendered, next) →
      (∀ segment ∈ rendered.path, ∀ kind, segment.joinKind? = some kind → kind = .left) ∧
      ∃ name, rendered.aliasName = some name ∧
        ((name = "M_P1" ∧ rendered.path.EndsBound "M_P1") ∨
          ∃ link ∈ source.chain, aliases.get? link = some name ∨ aliases.forced? link = some name) := by
  have reaches : ((Spec.mk [.sourcekey "named"] "name").resolve
      (Sample.definitions.context Sample.catalog.directory Sample.engine [])).toOption.map
        Resolved.isAllOutbound = some true := by
    decide +kernel
  obtain ⟨source, found, outbound⟩ := Option.map_eq_some_iff.mp reaches
  have resolved := toOption_eq_some.mp found
  have named : ∀ key start, Sample.definitions.get? key = some start →
      Grounded (fun _ => True) start :=
    fun _ _ found => (Definitions.build_grounded found).anywhere
  have issued : Sample.namedAgain.mint.2.Issued "M_P1" := ⟨Sample.namedAgain, [], by decide, rfl⟩
  obtain ⟨fails, leaves, ends⟩ :=
    left_path_ends named resolved none (by decide) (.inl issued)
  refine ⟨source, resolved, by decide, issued, fails, leaves, ?_, ends⟩
  exact ⟨_, _, if_pos outbound⟩

end Source

end PathQuery
