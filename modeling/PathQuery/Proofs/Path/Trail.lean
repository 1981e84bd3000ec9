import PathQuery.Proofs.Path.Scoping

namespace PathQuery

/-! # Trails

A rendered source follows its sourcekeys down to the first that has an alias, and goes
back to the end of that one.  From there on it joins the others, the last one first.  So
a sourcekey is joined where it has no alias yet.  One that is gone through again gets an
alias then, be it that of the source it ends where it starts at.
-/

namespace Source

variable {named : String → Option Resolved} {aliases middle last next : Aliases}
  {source : Resolved} {kind : JoinKind} {key hint binding : Option String}
  {chain : List String}

/-- How the path of a source follows its sourcekeys. -/
structure Trail where
  /-- The sourcekey that it goes back to, and the alias of that one. -/
  back : Option (String × String)
  /-- The sourcekeys that it joins from there on, the last one first, and the aliases that
      their last hops bind. -/
  joins : List (String × Option String)

namespace Trail

def joined (trail : Trail) : List String := trail.joins.map Prod.fst

/-- The hops and filters of a sourcekey, without those of the source that it continues. -/
def ownLegs (named : String → Option Resolved) (key : String) : List Leg :=
  ((named key).map Resolved.legs).getD []

def path (named : String → Option Resolved) (kind : JoinKind) (trail : Trail) : Path :=
  (trail.back.map fun entry => Segment.goTo entry.2).toList ++
    trail.joins.reverse.flatMap fun entry => legSegments kind entry.2 (ownLegs named entry.1)

/-- The sourcekeys that are not joined are those from the one on that it goes back to. -/
def Covers (trail : Trail) (keys : List String) : Prop :=
  ∃ skipped, keys = trail.joined ++ skipped ∧ skipped.head? = trail.back.map Prod.fst

/-- The sourcekeys are followed with some aliases, which leaves others. -/
structure Follows (trail : Trail) (keys : List String) (aliases next : Aliases) : Prop where
  covers : trail.Covers keys
  back : ∀ key name, trail.back = some (key, name) → aliases.get? key = some name
  unbound : ∀ key ∈ trail.joined, aliases.get? key = none
  grows : aliases.Grows next
  leaves : ∀ key, key ∉ trail.joined → next.get? key = aliases.get? key
  reused : ∀ key ∈ trail.joined, aliases.isReused key = true → (next.get? key).isSome = true

theorem Covers.mem {trail : Trail} {keys : List String} (covers : trail.Covers keys)
    {key : String} (member : key ∈ trail.joined) : key ∈ keys := by
  obtain ⟨skipped, split, -⟩ := covers
  rw [split]
  exact List.mem_append_left skipped member

theorem follows_nothing (aliases : Aliases) : Follows ⟨none, []⟩ [] aliases aliases where
  covers := ⟨[], rfl, rfl⟩
  back := nofun
  unbound := nofun
  grows := .refl aliases
  leaves _ _ := rfl
  reused := nofun

theorem follows_goTo {key name : String} (bound : aliases.get? key = some name) :
    Follows ⟨some (key, name), []⟩ (key :: chain) aliases aliases where
  covers := ⟨key :: chain, rfl, rfl⟩
  back other otherName same := by
    cases same
    exact bound
  unbound := nofun
  grows := .refl aliases
  leaves _ _ := rfl
  reused := nofun

theorem Follows.join {trail : Trail} (follows : trail.Follows chain middle last) {key : String}
    {binding : Option String} (unbound : aliases.get? key = none) (outside : key ∉ chain)
    (chosen : aliases.Grows middle)
    (chosenLeaves : ∀ other, other ≠ key → middle.get? other = aliases.get? other)
    (bound : last.Grows next)
    (boundLeaves : ∀ other, other ≠ key → next.get? other = last.get? other)
    (reused : aliases.isReused key = true → (next.get? key).isSome = true) :
    Follows ⟨trail.back, (key, binding) :: trail.joins⟩ (key :: chain) aliases next := by
  have different : ∀ other ∈ chain, other ≠ key := by
    rintro other member rfl
    exact outside member
  obtain ⟨skipped, split, head⟩ := follows.covers
  refine ⟨⟨skipped, ?_, head⟩, ?_, ?_, (chosen.trans follows.grows).trans bound, ?_, ?_⟩
  · rw [split]
    rfl
  · intro other name isBack
    have isBound := follows.back other name isBack
    have member : other ∈ chain := by
      rw [split]
      refine List.mem_append_right _ (List.mem_of_mem_head? ?_)
      rw [head, isBack]
      rfl
    rwa [chosenLeaves other (different other member)] at isBound
  · intro other member
    obtain rfl | member := List.mem_cons.mp member
    · exact unbound
    · rw [← chosenLeaves other (different other (follows.covers.mem member))]
      exact follows.unbound other member
  · intro other absent
    have apart : other ≠ key := List.ne_of_not_mem_cons absent
    have outer : other ∉ trail.joined := List.not_mem_of_not_mem_cons absent
    rw [boundLeaves other apart, follows.leaves other outer, chosenLeaves other apart]
  · intro other member isReused
    obtain rfl | member := List.mem_cons.mp member
    · exact reused isReused
    · rw [boundLeaves other (different other (follows.covers.mem member))]
      refine follows.reused other member ?_
      rwa [Aliases.isReused, chosen.reused]

end Trail

structure Block where
  kind : JoinKind
  source : Resolved
  key : Option String
  trail : Trail
  /-- The alias that the last hop binds, if it belongs to no sourcekey. -/
  binding : Option String

namespace Block

def shared (block : Block) : Option String := block.key.filter fun _ => block.source.hasPath

theorem shared_eq_key {block : Block} (path : block.source.hasPath = true) :
    block.shared = block.key := by
  cases isKey : block.key <;> simp [shared, isKey, path]

/-- The sourcekeys that the source goes through, its own one first. -/
def keys (block : Block) : List String := block.shared.toList ++ block.source.chain

def joined (block : Block) : List String := block.trail.joined

/-- The hops and filters that belong to no sourcekey. -/
def ownLegs (block : Block) : List Leg :=
  match block.shared with
  | some _ => []
  | none => block.source.legs

def path (named : String → Option Resolved) (block : Block) : Path :=
  block.trail.path named block.kind ++ legSegments block.kind block.binding block.ownLegs

end Block

/-- What is gone through again has a source that continues only what is gone through again. -/
def ReuseClosed (named : String → Option Resolved) (aliases : Aliases) : Prop :=
  ∀ key sourcekey start route, named key = some (.continuing sourcekey start route) →
    aliases.isReused key = true → aliases.isReused sourcekey = true

/-- A trail along the sourcekeys that a source continues. -/
structure LeadTrail (named : String → Option Resolved) (kind : JoinKind) (source : Resolved)
    (hint : Option String) (aliases : Aliases) (trail : Trail) : Prop where
  path : (source.renderLead kind hint aliases).1.path = trail.path named kind
  follows : trail.Follows source.chain aliases (source.renderLead kind hint aliases).2
  /-- The end of what it continues has an alias if that is to be the end of the source. -/
  isSome : source.endsAtStart = true →
    (hint.isSome = true ∨ ∃ key ∈ source.chain.head?, aliases.isReused key = true) →
    (source.renderLead kind hint aliases).1.aliasName.isSome = true

/-- A trail along all sourcekeys of a source. -/
structure SourceTrail (named : String → Option Resolved) (kind : JoinKind) (source : Resolved)
    (key hint : Option String) (aliases : Aliases) (block : Block) : Prop where
  isKind : block.kind = kind
  isSource : block.source = source
  isKey : block.key = key
  path : (source.render kind key hint aliases).1.path = block.path named
  follows : block.trail.Follows block.keys aliases (source.render kind key hint aliases).2
  isSome : source.hasPath = true →
    (hint.isSome = true ∨ ∃ shared, key = some shared ∧ aliases.isReused shared = true) →
    (source.render kind key hint aliases).1.aliasName.isSome = true

theorem ReuseClosed.grow (closed : ReuseClosed named aliases) (grows : aliases.Grows next) :
    ReuseClosed named next := by
  intro key sourcekey start route isNamed isReused
  rw [Aliases.isReused, grows.reused] at isReused ⊢
  exact closed key sourcekey start route isNamed isReused

theorem LeadTrail.renderLegs_isSome {trail : Trail}
    (lead : LeadTrail named kind source (if source.endsAtStart then binding else none) middle trail)
    (moves : source.endsAtStart = false → source.legs.any Leg.isHop = true)
    (known : binding.isSome = true ∨
      (source.endsAtStart = true ∧ ∃ key ∈ source.chain.head?, middle.isReused key = true)) :
    (Resolved.renderLegs kind binding source (source.renderLead kind
      (if source.endsAtStart then binding else none) middle).1).aliasName.isSome = true := by
  cases ends : source.endsAtStart with
  | false =>
      have bound : binding.isSome = true := known.resolve_right (by simp [ends])
      simpa only [Resolved.renderLegs, moves ends, if_true] using bound
  | true =>
      have noHop : source.legs.any Leg.isHop = false := by
        simp only [Resolved.endsAtStart, Bool.and_eq_true, Bool.not_eq_true'] at ends
        exact ends.2
      simp only [ends, if_true] at lead
      simp only [Resolved.renderLegs, noHop, if_true]
      refine lead.isSome ends ?_
      rcases known with bound | ⟨-, reused⟩
      · exact .inl bound
      · exact .inr reused

theorem sourceTrail_unshared (unshared : (key.filter fun _ => source.hasPath) = none)
    (moves : source.hasPath = true → source.endsAtStart = false →
      source.legs.any Leg.isHop = true)
    {trail : Trail}
    (lead : LeadTrail named kind source (if source.endsAtStart then hint else none) aliases trail) :
    SourceTrail named kind source key hint aliases ⟨kind, source, key, trail, hint⟩ := by
  have rendered := @Resolved.render_joined kind source key hint aliases (by rw [unshared]; rfl)
  simp only [unshared, Resolved.chooseAlias] at rendered
  refine ⟨rfl, rfl, rfl, ?_, ?_, ?_⟩
  · rw [rendered]
    simp only [Resolved.bindEnd_fst, Resolved.renderLegs, lead.path, Block.path, Block.ownLegs,
      Block.shared, unshared]
  · rw [rendered]
    simp only [Block.keys, Block.shared, unshared]
    exact lead.follows
  · intro path known
    rw [rendered, Resolved.bindEnd_fst]
    refine lead.renderLegs_isSome (moves path) (.inl (known.resolve_right ?_))
    rintro ⟨shared, rfl, -⟩
    simp [path] at unshared

theorem sourceTrail_joined {shared : String} (acyclic : Acyclic named)
    (closed : ReuseClosed named aliases) (isNamed : named shared = some source)
    (path : source.hasPath = true) (unbound : aliases.get? shared = none)
    (moves : source.endsAtStart = false → source.legs.any Leg.isHop = true)
    {trail : Trail}
    (lead : LeadTrail named kind source
      (if source.endsAtStart then (source.chooseAlias (some shared) hint aliases).1 else none)
      (source.chooseAlias (some shared) hint aliases).2 trail) :
    SourceTrail named kind source (some shared) hint aliases
      ⟨kind, source, some shared,
        ⟨trail.back, (shared, (source.chooseAlias (some shared) hint aliases).1) :: trail.joins⟩,
        none⟩ := by
  have isShared : (some shared).filter (fun _ => source.hasPath) = some shared := by
    simp [path]
  have rendered := @Resolved.render_joined kind source (some shared) hint aliases
    (by rw [isShared]; exact unbound)
  obtain ⟨chosenGrows, chosenLeaves⟩ := source.chooseAlias_grows (some shared) hint
    (fun _ same => Option.some.inj same ▸ unbound)
  obtain ⟨isHinted, isChosen⟩ := source.chooseAlias_isSome (some shared) hint aliases
  simp only [isShared] at rendered
  generalize (source.chooseAlias (some shared) hint aliases).1 = binding at *
  generalize (source.chooseAlias (some shared) hint aliases).2 = middle at *
  have reusedBound : aliases.isReused shared = true → binding.isSome = true ∨
      (source.endsAtStart = true ∧ ∃ key ∈ source.chain.head?, middle.isReused key = true) := by
    intro reused
    cases ends : source.endsAtStart with
    | false => exact .inl (isChosen shared rfl reused ends)
    | true =>
        cases source with
        | fromRoot route => contradiction
        | continuing sourcekey start route =>
            refine .inr ⟨rfl, sourcekey, rfl, ?_⟩
            rw [Aliases.isReused, chosenGrows.reused]
            exact closed shared sourcekey start route isNamed reused
  have bound := Resolved.bindEnd_get? (some shared)
    (Resolved.renderLegs kind binding source
      (source.renderLead kind (if source.endsAtStart then binding else none) middle).1)
    (source.renderLead kind (if source.endsAtStart then binding else none) middle).2
  refine ⟨rfl, rfl, rfl, ?_, ?_, ?_⟩
  · rw [rendered]
    simp only [Resolved.bindEnd_fst, Resolved.renderLegs, lead.path, Block.path, Block.ownLegs,
      Block.shared, isShared]
    simp [Trail.path, Trail.ownLegs, isNamed, legSegments]
  · rw [rendered]
    simp only [Block.keys, Block.shared, isShared]
    refine lead.follows.join unbound (acyclic shared source isNamed) chosenGrows
      (fun other different => chosenLeaves other fun same => different (Option.some.inj same).symm)
      (Resolved.bindEnd_grows ..) (fun other different => ?_) fun reused => ?_
    · rw [bound, if_neg fun same => different (Option.some.inj same).symm, Option.or_none]
    · rw [bound, if_pos rfl, Option.isSome_or, lead.renderLegs_isSome moves (reusedBound reused),
        Bool.or_true]
  · intro _ known
    rw [rendered, Resolved.bindEnd_fst]
    refine lead.renderLegs_isSome moves ?_
    rcases known with isHint | ⟨other, same, reused⟩
    · exact .inl (isHinted isHint)
    · exact reusedBound (Option.some.inj same ▸ reused)

/-- A source follows its sourcekeys if what it continues does. -/
theorem sourceTrail_of_lead (acyclic : Acyclic named) (closed : ReuseClosed named aliases)
    (isNamed : ∀ shared, key = some shared → named shared = some source)
    (moves : source.hasPath = true → source.endsAtStart = false →
      source.legs.any Leg.isHop = true)
    (lead : ∀ (middle : Aliases) (startHint : Option String), ReuseClosed named middle →
      ∃ trail, LeadTrail named kind source startHint middle trail) :
    ∃ block, SourceTrail named kind source key hint aliases block := by
  cases isShared : key.filter fun _ => source.hasPath with
  | none =>
      obtain ⟨trail, lead⟩ := lead aliases (if source.endsAtStart then hint else none) closed
      exact ⟨_, sourceTrail_unshared isShared moves lead⟩
  | some shared =>
      obtain ⟨rfl, path⟩ := Option.filter_eq_some_iff.mp isShared
      cases isBound : aliases.get? shared with
      | some name =>
          have rendered := @Resolved.render_bound kind source (some shared) hint aliases name
            (by rw [isShared]; exact isBound)
          refine ⟨⟨kind, source, some shared, ⟨some (shared, name), []⟩, none⟩, rfl, rfl, rfl, ?_,
            ?_, ?_⟩
          · rw [rendered]
            simp only [Block.path, Block.ownLegs, Block.shared, isShared]
            rfl
          · rw [rendered]
            simp only [Block.keys, Block.shared, isShared]
            exact Trail.follows_goTo isBound
          · intro _ _
            rw [rendered]
            rfl
      | none =>
          obtain ⟨grows, -⟩ := source.chooseAlias_grows (some shared) hint
            (fun _ same => Option.some.inj same ▸ isBound)
          obtain ⟨trail, lead⟩ := lead (source.chooseAlias (some shared) hint aliases).2
            (if source.endsAtStart then (source.chooseAlias (some shared) hint aliases).1 else none)
            (closed.grow grows)
          exact ⟨_, sourceTrail_joined acyclic closed (isNamed shared rfl) path isBound (moves path)
            lead⟩

theorem Grounded.sourceTrail (grounded : Grounded (Naming named) source)
    (acyclic : Acyclic named) (closed : ReuseClosed named aliases) (kind : JoinKind)
    (hint : Option String) (isNamed : ∀ shared, key = some shared → named shared = some source) :
    ∃ block, SourceTrail named kind source key hint aliases block := by
  induction grounded generalizing key hint aliases with
  | @fromRoot context spec walk route admitted plain walked ended =>
      have counted := (Grounded.fromRoot admitted plain walked ended).hasPath_eq
      refine sourceTrail_of_lead acyclic closed isNamed (fun path _ => ?_) ?_
      · rwa [counted] at path
      · exact fun middle startHint _ => ⟨⟨none, []⟩, rfl, Trail.follows_nothing middle, nofun⟩
  | @continuing context sourcekey column start later walk route admitted found path grounded walked
      ended ih =>
      -- The start is rendered under its own sourcekey, so its block is where this one begins.
      refine sourceTrail_of_lead acyclic closed isNamed ?_ ?_
      · intro _ elsewhere
        simpa [Resolved.endsAtStart, Resolved.isContinuing, Resolved.start?] using elsewhere
      · intro middle startHint closed
        have isStart : ∀ shared, some sourcekey = some shared → named shared = some start := by
          intro shared same
          rw [← Option.some.inj same, ← admitted, found]
        obtain ⟨block, trail⟩ := ih closed startHint isStart
        have isShared : block.shared = some sourcekey := by
          rw [Block.shared, trail.isKey, trail.isSource]
          simp [path]
        refine ⟨block.trail, ?_, ?_, fun _ known => trail.isSome path ?_⟩
        · have same := trail.path
          rw [Block.path, Block.ownLegs, isShared, trail.isKind] at same
          exact same.trans (List.append_nil _)
        · have follows := trail.follows
          rw [Block.keys, isShared, trail.isSource] at follows
          exact follows
        · rcases known with isHint | ⟨key, isHead, reused⟩
          · exact .inl isHint
          · exact .inr ⟨key, isHead, reused⟩

end Source

end PathQuery
