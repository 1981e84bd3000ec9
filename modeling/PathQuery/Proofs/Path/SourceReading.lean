import PathQuery.Proofs.Path.LegReading
import PathQuery.Proofs.Path.Scoping

namespace PathQuery.Source

/-! # Reading a rendered source

The path of a source can be read from its root table to its end.  The proof follows the
named sources down to the one that starts at the root: while the source of a sourcekey is
being joined, its alias is promised, and what it continues binds neither that alias nor
looks the sourcekey up, since no source continues itself.
-/

open Reading

variable {catalog : Catalog} {root : Table} {named : String → Option Resolved}
  {under : List String} {aliases next : Aliases} {known after : List (String × Table)}

/-- A rendered source that ends at `stop`, as its reader sees it.  `path` says whether it
    leaves the root table. -/
structure Renders (catalog : Catalog) (root : Table) (named : String → Option Resolved)
    (under : List String) (hint : Option String) (stop : Table) (path : Bool)
    (aliases : Aliases) (known : List (String × Table)) (rendered : RenderedPath)
    (next : Aliases) (after : List (String × Table)) : Prop where
  reads : ReadsAll catalog ⟨root, known⟩ (rendered.path.map Segment.text) ⟨stop, after⟩
  aligned : Aligned named root under next after
  grows : aliases.Grows next
  /-- The sourcekeys that are being joined are left alone. -/
  leaves : ∀ key ∈ under, next.get? key = aliases.get? key
  keeps : ∀ name table, known.lookup name = some table → after.lookup name = some table
  /-- Promised aliases are not bound, but for the one that is hinted at. -/
  spares : ∀ name, known.lookup name = none → aliases.Promised under name →
    hint ≠ some name → after.lookup name = none
  ends : ∀ name, rendered.aliasName = some name →
    IsWord name ∧ after.lookup name = some stop
  hinted : hint.isSome = true → path = true → rendered.aliasName.isSome = true

theorem renders_nothing (aligned : Aligned named root under aliases known)
    (hint : Option String) :
    Renders catalog root named under hint root false aliases known ⟨[], none⟩ aliases known where
  reads := .nil
  aligned := aligned
  grows := .refl aliases
  leaves _ _ := rfl
  keeps _ _ := id
  spares _ unknown _ _ := unknown
  ends := nofun
  hinted := nofun

theorem renders_goTo {source : Resolved} {key name : String} {hint : Option String}
    {path : Bool} (plain : aliases.Plain) (aligned : Aligned named root under aliases known)
    (found : named key = some source) (outside : key ∉ under)
    (bound : aliases.get? key = some name) :
    Renders catalog root named under hint source.table path aliases known
      ⟨[.goTo name], some name⟩ aliases known := by
  obtain ⟨source', found', isKnown⟩ := aligned.bound key name outside bound
  obtain rfl := Option.some.inj (found.symm.trans found')
  have word := aligned.isWord plain isKnown
  exact {
    reads := .single (.goTo word isKnown)
    aligned := aligned
    grows := .refl aliases
    leaves := fun _ _ => rfl
    keeps := fun _ _ => id
    spares := fun _ unknown _ _ => unknown
    ends := by
      intro other same
      obtain rfl := Option.some.inj same
      exact ⟨word, isKnown⟩
    hinted := fun _ _ => rfl }

variable {source : Resolved} {key : String} {shared hint binding : Option String} {kind : JoinKind}
  {lead : RenderedPath} {middle last : Aliases} {between : List (String × Table)}
  {startTable : Table} {startPath : Bool}

/-- Without a hop the legs of a source only filter the table that the source continues at, which
    is known by the alias that it had. -/
theorem renders_filters (leads : Leads catalog startTable source.legs source.table)
    (started : Renders catalog root named under (if source.endsAtStart then binding else none)
      startTable startPath aliases known lead next between)
    (noHop : source.legs.any Leg.isHop = false)
    (hinted : source.hasPath = true → source.endsAtStart = true ∧ startPath = true) :
    Renders catalog root named under binding source.table source.hasPath aliases known
      (Resolved.renderLegs kind binding source lead) next between := by
  have stays := leads.stays noHop
  have read := @Leads.reads catalog _ _ _ between none leads kind (by simp)
  rw [← legSegments_noHop kind binding noHop, knownAfter_none] at read
  exact {
    reads := by
      simp only [Resolved.renderLegs, List.map_append]
      exact started.reads.append read
    aligned := started.aligned
    grows := started.grows
    leaves := started.leaves
    keeps := started.keeps
    spares := by
      intro name unknown promised other
      refine started.spares name unknown promised ?_
      split
      · exact other
      · exact Option.some_ne_none name ∘ Eq.symm
    ends := by
      simp only [Resolved.renderLegs, noHop, stays]
      exact started.ends
    hinted := by
      intro bound path
      obtain ⟨ends, startPath⟩ := hinted path
      simp only [Resolved.renderLegs, noHop]
      refine started.hinted ?_ startPath
      rwa [if_pos ends] }

/-- The alias of the last hop of a source, which nothing before it binds. -/
structure Fresh (under : List String) (middle next : Aliases) (between : List (String × Table))
    (name : String) : Prop where
  isWord : IsWord name
  promised : next.Promised under name
  unbound : between.lookup name = none

theorem Fresh.of_chosen (chosen : Chosen source shared hint under aliases middle known binding)
    (plain : aliases.Plain)
    (started : Renders catalog root named (shared.toList ++ under) none startTable startPath middle
      known lead last between)
    {name : String} (isBinding : binding = some name) :
    Fresh (shared.toList ++ under) middle last between name := by
  obtain ⟨unknown, promised⟩ := chosen.promised name isBinding
  exact ⟨promised.isWord (chosen.grows.plain plain), started.grows.promised (fun _ => id) promised,
    started.spares name unknown promised nofun⟩

/-- With a hop the end of a source is known by the alias that was chosen. -/
theorem renders_hops (leads : Leads catalog startTable source.legs source.table)
    (started : Renders catalog root named under none startTable startPath aliases known lead next
      between)
    (hops : source.legs.any Leg.isHop = true)
    (fresh : ∀ name, binding = some name → Fresh under aliases next between name) :
    Renders catalog root named under binding source.table source.hasPath aliases known
      (Resolved.renderLegs kind binding source lead) next
      ((binding.map fun name => (name, source.table)).toList ++ between) := by
  have after : knownAfter source.legs binding source.table between =
      (binding.map fun name => (name, source.table)).toList ++ between := if_pos hops
  have read := @Leads.reads catalog _ _ _ between binding leads kind
    fun name isBinding => ⟨(fresh name isBinding).unbound, (fresh name isBinding).isWord⟩
  rw [after] at read
  exact {
    reads := by
      simp only [Resolved.renderLegs, List.map_append]
      exact started.reads.append read
    aligned := by
      cases isBinding : binding with
      | none => exact started.aligned
      | some name =>
          obtain ⟨-, promised, unbound⟩ := fresh name isBinding
          exact started.aligned.know promised unbound
    grows := started.grows
    leaves := started.leaves
    keeps := by
      intro name table isKnown
      have kept := started.keeps name table isKnown
      cases isBinding : binding with
      | none => exact kept
      | some bound => exact lookup_cons_of_known (fresh bound isBinding).unbound kept
    spares := by
      intro name unknown promised other
      have spared := started.spares name unknown promised nofun
      cases isBinding : binding with
      | none => exact spared
      | some bound =>
          have different : name ≠ bound := fun same => other (same ▸ isBinding)
          change List.lookup name ((bound, source.table) :: between) = none
          rw [List.lookup_cons, beq_false_of_ne different, spared]
    ends := by
      intro name isName
      simp only [Resolved.renderLegs, hops, if_true] at isName
      rw [isName]
      exact ⟨(fresh name isName).isWord, List.lookup_cons_self⟩
    hinted := by
      intro bound _
      simpa only [Resolved.renderLegs, hops, if_true] using bound }

/-- The legs of a source, after what they continue: its end is known by the alias that
    was chosen. -/
theorem renders_legs (plain : aliases.Plain)
    (chosen : Chosen source shared hint under aliases middle known binding)
    (leads : Leads catalog startTable source.legs source.table)
    (started : Renders catalog root named (shared.toList ++ under)
      (if source.endsAtStart then binding else none) startTable startPath middle known lead last
      between)
    (startMoves : source.endsAtStart = true → startPath = true)
    (moves : source.hasPath = true → source.endsAtStart = false →
      source.legs.any Leg.isHop = true) :
    Renders catalog root named (shared.toList ++ under) binding source.table source.hasPath middle
      known (Resolved.renderLegs kind binding source lead) last
      (knownAfter source.legs binding source.table between) := by
  unfold knownAfter
  cases hops : source.legs.any Leg.isHop with
  | false =>
      rw [if_neg Bool.false_ne_true]
      refine renders_filters leads started hops fun path => ?_
      cases ends : source.endsAtStart with
      | true => exact ⟨rfl, startMoves ends⟩
      | false => exact absurd (moves path ends) (by simp [hops])
  | true =>
      have elsewhere : source.endsAtStart = false := by simp [Resolved.endsAtStart, hops]
      rw [elsewhere, if_neg Bool.false_ne_true] at started
      rw [if_pos rfl]
      exact renders_hops leads started hops fun name => Fresh.of_chosen chosen plain started

/-- The end of a source has no alias only if none was chosen and none was forced. -/
theorem chosen_release (chosen : Chosen source (some key) hint under aliases middle known binding)
    {rendered : RenderedPath}
    (joined : Renders catalog root named (key :: under) binding source.table source.hasPath middle
      known rendered last after)
    (path : source.hasPath = true) (isName : rendered.aliasName = none) :
    last.get? key = none ∧ last.forced? key = none := by
  have unchosen : binding = none := by
    cases isBinding : binding with
    | none => rfl
    | some name =>
        have present := joined.hinted (by rw [isBinding]; rfl) path
        rw [isName] at present
        contradiction
  constructor
  · rw [joined.leaves key List.mem_cons_self]
    rcases chosen.unbound key rfl with free | ⟨-, bound⟩
    · exact free
    · rw [bound, unchosen]
  · cases isForced : aliases.forced? key with
    | none => rw [(chosen.grows.trans joined.grows).forced?, isForced]
    | some name =>
        have present := chosen.forced key rfl (by rw [isForced]; rfl)
        rw [unchosen] at present
        contradiction

/-- If the sourcekey has an alias already, it is that of the end. -/
theorem chosen_agrees (chosen : Chosen source (some key) hint under aliases middle known binding)
    {rendered : RenderedPath}
    (joined : Renders catalog root named (key :: under) binding source.table source.hasPath middle
      known rendered last after)
    (own : source.endsAtStart = false → rendered.aliasName = binding) {name bound : String}
    (isName : rendered.aliasName = some name) (isBound : last.get? key = some bound) :
    bound = name := by
  rw [joined.leaves key List.mem_cons_self] at isBound
  rcases chosen.unbound key rfl with free | ⟨moves, same⟩
  · rw [free] at isBound
    contradiction
  · rw [same, ← own moves, isName] at isBound
    exact (Option.some.inj isBound).symm

/-- With its end bound to its sourcekey a source is joined. -/
theorem renders_bindEnd
    (chosen : Chosen source shared hint under aliases middle known binding)
    (keyed : ∀ key, shared = some key →
      named key = some source ∧ key ∉ under ∧ source.hasPath = true)
    {rendered : RenderedPath}
    (joined : Renders catalog root named (shared.toList ++ under) binding source.table
      source.hasPath middle known rendered last after)
    (own : source.hasPath = true → source.endsAtStart = false → rendered.aliasName = binding) :
    Renders catalog root named under hint source.table source.hasPath aliases known
      (Resolved.bindEnd shared rendered last).1 (Resolved.bindEnd shared rendered last).2
      after := by
  have grows := chosen.grows.trans joined.grows
  have spares : ∀ name, known.lookup name = none → aliases.Promised under name →
      hint ≠ some name → after.lookup name = none := fun name unknown promised other =>
    joined.spares name unknown
      (chosen.grows.promised (fun _ member => List.mem_append_right _ member) promised)
      (chosen.spares name promised other)
  have hinted : hint.isSome = true → source.hasPath = true →
      rendered.aliasName.isSome = true := fun isHint => joined.hinted (chosen.hinted isHint)
  have leaves : ∀ key ∈ under, last.get? key = aliases.get? key := by
    intro key member
    rw [joined.leaves key (List.mem_append_right _ member), chosen.leaves key]
    rintro rfl
    exact (keyed key rfl).2.1 member
  cases shared with
  | none => exact ⟨joined.reads, joined.aligned, grows, leaves, joined.keeps, spares,
      joined.ends, hinted⟩
  | some key =>
      obtain ⟨isNamed, outside, path⟩ := keyed key rfl
      simp only [Resolved.bindEnd]
      cases isName : rendered.aliasName with
      | none =>
          obtain ⟨unbound, unforced⟩ := chosen_release chosen joined path isName
          exact ⟨joined.reads, joined.aligned.release unbound unforced, grows, leaves, joined.keeps,
            spares, joined.ends, hinted⟩
      | some name =>
          have aligned := joined.aligned.bindEnd isNamed (joined.ends name isName).2
            fun bound => chosen_agrees chosen joined (own path) isName
          have leavesBound : ∀ other ∈ under,
              (last.bind key name).2.get? other = aliases.get? other := by
            intro other member
            have different : other ≠ key := fun same => outside (same ▸ member)
            rw [Aliases.get?_bind, if_neg different, Option.or_none, leaves other member]
          exact ⟨joined.reads, aligned, grows.trans (last.bind_grows key name), leavesBound,
            joined.keeps, spares, joined.ends, hinted⟩

/-- What a source begins with: nothing at the root table, or the end of the source that it
    continues, whatever alias that is to have. -/
structure Begins (catalog : Catalog) (root : Table) (named : String → Option Resolved)
    (kind : JoinKind) (source : Resolved) (startTable : Table) (startPath : Bool)
    (known : List (String × Table)) : Prop where
  leads : Leads catalog startTable source.legs source.table
  startMoves : source.endsAtStart = true → startPath = true
  moves : source.hasPath = true → source.endsAtStart = false → source.legs.any Leg.isHop = true
  lead : ∀ (wider : List String) (middle : Aliases) (startHint : Option String),
    middle.Plain → Aligned named root wider middle known →
    (∀ link ∈ source.chain, link ∉ wider) →
    (∀ name, startHint = some name → known.lookup name = none ∧ middle.Promised wider name) →
    ∃ between, Renders catalog root named wider startHint startTable startPath middle known
      (source.renderLead kind startHint middle).1 (source.renderLead kind startHint middle).2
      between

/-- A source that is joined anew can be read, with the sourcekey that it is shared under among
    those that are being joined. -/
theorem Begins.renders_joined
    (begins : Begins catalog root named kind source startTable startPath known)
    (acyclic : Acyclic named) (plain : aliases.Plain)
    (aligned : Aligned named root under aliases known)
    (shares : ∀ key, shared = some key →
      named key = some source ∧ key ∉ under ∧ source.hasPath = true)
    (unbound : ∀ key, shared = some key → aliases.get? key = none)
    (apart : ∀ link ∈ source.chain, link ∉ under)
    (hinted : ∀ name, hint = some name →
      known.lookup name = none ∧ aliases.Promised under name)
    (isChosen : source.chooseAlias shared hint aliases = (binding, middle))
    (isLead : source.renderLead kind (if source.endsAtStart then binding else none) middle =
      (lead, last)) :
    ∃ after, Renders catalog root named under hint source.table source.hasPath aliases known
      (Resolved.bindEnd shared (Resolved.renderLegs kind binding source lead) last).1
      (Resolved.bindEnd shared (Resolved.renderLegs kind binding source lead) last).2 after := by
  have chosen := aligned.chosen plain source (fun key isShared =>
    ⟨unbound key isShared, (shares key isShared).2.1⟩) hinted
  rw [isChosen] at chosen
  have wider : Aligned named root (shared.toList ++ under) middle known := by
    refine aligned.grow chosen.grows (fun _ member => List.mem_append_right _ member) ?_
    intro other outside
    refine chosen.leaves other ?_
    rintro rfl
    exact outside List.mem_cons_self
  have outside : ∀ link ∈ source.chain, link ∉ shared.toList ++ under := by
    intro link member inWider
    rcases List.mem_append.mp inWider with isShared | isUnder
    · exact acyclic link source (shares link (Option.mem_toList.mp isShared)).1 member
    · exact apart link member isUnder
  have promised : ∀ name, (if source.endsAtStart then binding else none) = some name →
      known.lookup name = none ∧ middle.Promised (shared.toList ++ under) name := by
    intro name isHint
    split at isHint
    · exact chosen.promised name isHint
    · contradiction
  obtain ⟨between, started⟩ :=
    begins.lead _ middle _ (chosen.grows.plain plain) wider outside promised
  rw [isLead] at started
  have joined := @renders_legs catalog root named under aliases known source shared hint binding
    kind _ middle _ between startTable startPath plain chosen begins.leads started
    begins.startMoves begins.moves
  refine ⟨_, renders_bindEnd chosen shares joined fun path elsewhere => ?_⟩
  simp only [Resolved.renderLegs, begins.moves path elsewhere, if_true]

theorem Begins.renders (begins : Begins catalog root named kind source startTable startPath known)
    (acyclic : Acyclic named) {key : Option String} (plain : aliases.Plain)
    (aligned : Aligned named root under aliases known)
    (keyed : ∀ shared, key = some shared → named shared = some source ∧ shared ∉ under)
    (apart : ∀ link ∈ source.chain, link ∉ under)
    (hinted : ∀ name, hint = some name →
      known.lookup name = none ∧ aliases.Promised under name) :
    ∃ after, Renders catalog root named under hint source.table source.hasPath aliases known
      (source.render kind key hint aliases).1 (source.render kind key hint aliases).2 after := by
  have shares : ∀ shared, (key.filter fun _ => source.hasPath) = some shared →
      named shared = some source ∧ shared ∉ under ∧ source.hasPath = true := by
    intro shared isShared
    obtain ⟨isKey, path⟩ := Option.filter_eq_some_iff.mp isShared
    exact ⟨(keyed shared isKey).1, (keyed shared isKey).2, path⟩
  cases bound : (key.filter fun _ => source.hasPath).bind aliases.get? with
  | some name =>
      obtain ⟨shared, isShared, isBound⟩ := Option.bind_eq_some_iff.mp bound
      obtain ⟨isNamed, outside, -⟩ := shares shared isShared
      rw [Resolved.render_bound bound]
      exact ⟨known, renders_goTo plain aligned isNamed outside isBound⟩
  | none =>
      rw [Resolved.render_joined bound]
      refine begins.renders_joined acyclic plain aligned shares ?_ apart hinted rfl rfl
      intro shared isShared
      rwa [isShared] at bound

theorem Traced.renders (traced : Traced catalog root named source) (acyclic : Acyclic named)
    (kind : JoinKind) (key hint : Option String) (plain : aliases.Plain)
    (aligned : Aligned named root under aliases known)
    (keyed : ∀ shared, key = some shared → named shared = some source ∧ shared ∉ under)
    (apart : ∀ link ∈ source.chain, link ∉ under)
    (hinted : ∀ name, hint = some name →
      known.lookup name = none ∧ aliases.Promised under name) :
    ∃ after, Renders catalog root named under hint source.table source.hasPath aliases known
      (source.render kind key hint aliases).1 (source.render kind key hint aliases).2 after := by
  induction traced generalizing key hint under aliases known with
  | @fromRoot route leads column path =>
      have begins : Begins catalog root named kind (.fromRoot route) root false known :=
        { leads := leads
          startMoves := nofun
          moves := fun hasPath _ => path ▸ hasPath
          lead := fun _ _ startHint _ aligned _ _ => ⟨known, renders_nothing aligned startHint⟩ }
      exact begins.renders acyclic plain aligned keyed apart hinted
  | @continuing sourcekey start route found traced startPath leads column path ih =>
      have begins : Begins catalog root named kind (.continuing sourcekey start route) start.table
          start.hasPath known :=
        { leads := leads
          startMoves := fun _ => startPath
          moves := fun _ elsewhere => by
            simpa [Resolved.endsAtStart, Resolved.isContinuing, Resolved.start?] using elsewhere
          lead := by
            intro wider middle startHint plain aligned outside promised
            -- The key of the start is in the chain, so it is apart from those being rendered.
            refine ih _ _ plain aligned ?_ ?_ promised
            · rintro shared isKey
              obtain rfl := Option.some.inj isKey
              exact ⟨found, outside _ List.mem_cons_self⟩
            · exact fun link member => outside link (List.mem_cons_of_mem _ member) }
      exact begins.renders acyclic plain aligned keyed apart hinted

end PathQuery.Source
