import PathQuery.Proofs.Facet.Reuse

namespace PathQuery.Facet

/-! # What is joined so far

A sourcekey that was joined and is gone through again has an alias, and one without an
alias was not joined before.  So what is joined next is new, and every sourcekey that a
source goes through is joined by then, be it by that source or by one before.
-/

open Source

variable {definitions : Definitions} {named : String → Option Resolved}
  {aliases next : Aliases} {compiler : Compiler} {terms : List Json} {blocks : List Block}
  {block : Block}

/-- What is joined once the blocks so far are rendered. -/
structure Settled (named : String → Option Resolved) (aliases : Aliases) (blocks : List Block) :
    Prop where
  nodup : (blocks.flatMap Block.joined).Nodup
  all : ∀ key ∈ blocks.flatMap Block.keys, key ∈ blocks.flatMap Block.joined
  bound : ∀ key name, aliases.get? key = some name → key ∈ blocks.flatMap Block.joined
  reused : ∀ key ∈ blocks.flatMap Block.joined, aliases.isReused key = true →
    (aliases.get? key).isSome = true
  closed : ∀ key ∈ blocks.flatMap Block.joined, ∀ source, named key = some source →
    ∀ link ∈ source.chain, link ∈ blocks.flatMap Block.joined
  covers : ∀ block ∈ blocks, block.trail.Covers block.keys
  back : ∀ block ∈ blocks, ∀ key name, block.trail.back = some (key, name) →
    aliases.get? key = some name

namespace Settled

theorem start (named : String → Option Resolved) (rootAlias : String)
    (forced : List (String × String)) (reused : List String) :
    Settled named (Aliases.new rootAlias forced reused) [] :=
  ⟨List.nodup_nil, nofun, nofun, nofun, nofun, nofun, nofun⟩

theorem mint (settled : Settled named aliases blocks) : Settled named aliases.mint.2 blocks :=
  ⟨settled.nodup, settled.all, settled.bound, settled.reused, settled.closed, settled.covers,
    settled.back⟩

theorem keys_of_joined (settled : Settled named aliases blocks) {key : String}
    (joined : key ∈ blocks.flatMap Block.joined) : key ∈ blocks.flatMap Block.keys := by
  obtain ⟨block, member, joined⟩ := List.mem_flatMap.mp joined
  exact List.mem_flatMap.mpr ⟨block, member, (settled.covers block member).mem joined⟩

/-- A block joins what was not joined before. -/
theorem fresh (settled : Settled named aliases blocks)
    (follows : block.trail.Follows block.keys aliases next)
    (again : ∀ key ∈ block.keys, key ∈ blocks.flatMap Block.keys → aliases.isReused key = true)
    {key : String} (joined : key ∈ block.joined) : key ∉ blocks.flatMap Block.joined := by
  intro before
  have isReused := again key (follows.covers.mem joined) (settled.keys_of_joined before)
  have isBound := settled.reused key before isReused
  rw [follows.unbound key joined] at isBound
  contradiction

/-- What a block does not join was joined before. -/
theorem skipped (settled : Settled named aliases blocks)
    (follows : block.trail.Follows block.keys aliases next) (unbroken : Unbroken named block.keys)
    {key : String} (member : key ∈ block.keys) :
    key ∈ block.joined ∨ key ∈ blocks.flatMap Block.joined := by
  obtain ⟨skipped, split, head⟩ := follows.covers
  rw [split] at member
  refine (List.mem_append.mp member).imp id fun inSkipped => ?_
  cases skipped with
  | nil => contradiction
  | cons first rest =>
      obtain ⟨⟨shared, name⟩, isBack, same⟩ := Option.map_eq_some_iff.mp head.symm
      have isBound := follows.back shared name isBack
      have isJoined := settled.bound shared name isBound
      -- What follows the first sourcekey is the chain of its source, joined along with it.
      obtain ⟨source, isNamed, chain⟩ := unbroken block.trail.joined first rest split
      obtain rfl : shared = first := same
      obtain rfl | inRest := List.mem_cons.mp inSkipped
      · exact isJoined
      · exact settled.closed shared isJoined source isNamed key (chain ▸ inRest)

theorem add (settled : Settled named aliases blocks)
    (follows : block.trail.Follows block.keys aliases next) (unbroken : Unbroken named block.keys)
    (nodup : block.keys.Nodup)
    (again : ∀ key ∈ block.keys, key ∈ blocks.flatMap Block.keys → aliases.isReused key = true) :
    Settled named next (blocks ++ [block]) := by
  have joinedBy : ∀ key, key ∈ (blocks ++ [block]).flatMap Block.joined ↔
      key ∈ blocks.flatMap Block.joined ∨ key ∈ block.joined := by
    simp
  have reached : ∀ key ∈ block.keys, key ∈ (blocks ++ [block]).flatMap Block.joined := by
    intro key member
    exact (joinedBy key).mpr (settled.skipped follows unbroken member).symm
  refine ⟨?_, ?_, ?_, ?_, ?_, ?_, ?_⟩
  · obtain ⟨skipped, split, -⟩ := follows.covers
    have own : block.joined.Nodup := by
      rw [split] at nodup
      exact nodup.of_append_left
    rw [List.flatMap_append, List.flatMap_singleton]
    exact settled.nodup.append own fun key before joined =>
      settled.fresh follows again joined before
  · intro key member
    rw [List.flatMap_append, List.flatMap_singleton] at member
    rcases List.mem_append.mp member with before | own
    · exact (joinedBy key).mpr (.inl (settled.all key before))
    · exact reached key own
  · intro key name isBound
    by_cases joined : key ∈ block.joined
    · exact (joinedBy key).mpr (.inr joined)
    · rw [follows.leaves key joined] at isBound
      exact (joinedBy key).mpr (.inl (settled.bound key name isBound))
  · intro key member isReused
    rw [Aliases.isReused, follows.grows.reused] at isReused
    rcases (joinedBy key).mp member with before | joined
    · obtain ⟨name, isBound⟩ := Option.isSome_iff_exists.mp (settled.reused key before isReused)
      rw [follows.grows.bound key name isBound]
      rfl
    · exact follows.reused key joined isReused
  · intro key member source isNamed link inChain
    rcases (joinedBy key).mp member with before | joined
    · exact (joinedBy link).mpr (.inl (settled.closed key before source isNamed link inChain))
    · obtain ⟨left, right, split⟩ := List.append_of_mem (follows.covers.mem joined)
      obtain ⟨other, isOther, chain⟩ := unbroken left key right split
      obtain rfl := Option.some.inj (isNamed.symm.trans isOther)
      refine reached link ?_
      rw [split, ← chain]
      exact List.mem_append_right left (List.mem_cons_of_mem key inChain)
  · intro other member
    rcases List.mem_append.mp member with before | isBlock
    · exact settled.covers other before
    · rw [List.mem_singleton.mp isBlock]
      exact follows.covers
  · intro other member key name isBack
    rcases List.mem_append.mp member with before | isBlock
    · exact follows.grows.bound key name (settled.back other before key name isBack)
    · rw [List.mem_singleton.mp isBlock] at isBack
      exact follows.grows.bound key name (follows.back key name isBack)

end Settled

/-- Blocks that are rendered after others, for terms that count `current`. -/
structure Adds (named : String → Option Resolved) (blocks added : List Block)
    (current : List String) (aliases next : Aliases) : Prop where
  settled : Settled named next (blocks ++ added)
  grows : aliases.Grows next
  within : ∀ key ∈ added.flatMap Block.keys, key ∈ current

theorem Adds.nothing (settled : Settled named aliases blocks) {current : List String} :
    Adds named blocks [] current aliases aliases where
  settled := by rwa [List.append_nil]
  grows := .refl aliases
  within := nofun

theorem Adds.trans {first second : List Block} {left right : List String} {middle : Aliases}
    (adds : Adds named blocks first left aliases middle)
    (later : Adds named (blocks ++ first) second right middle next) :
    Adds named blocks (first ++ second) (left ++ right) aliases next where
  settled := by
    rw [← List.append_assoc]
    exact later.settled
  grows := adds.grows.trans later.grows
  within key member := by
    rw [List.flatMap_append] at member
    exact List.mem_append.mpr ((List.mem_append.mp member).imp (adds.within key) (later.within key))

theorem Adds.keys_within {added : List Block} {before current : List String}
    (adds : Adds named blocks added current aliases next)
    (within : ∀ key ∈ blocks.flatMap Block.keys, key ∈ before) :
    ∀ key ∈ (blocks ++ added).flatMap Block.keys, key ∈ before ++ current := by
  intro key member
  rw [List.flatMap_append] at member
  exact List.mem_append.mpr ((List.mem_append.mp member).imp (within key) (adds.within key))

theorem isReused_of_again (reused : aliases.reused = reusedKeys definitions terms)
    {before current after : List String}
    (total : terms.flatMap (usedKeys definitions) = before ++ current ++ after) {key : String}
    (first : key ∈ before) (again : key ∈ current) : aliases.isReused key = true := by
  have firstCount := List.count_pos_iff.mpr first
  have againCount := List.count_pos_iff.mpr again
  rw [Aliases.isReused, reused, List.contains_iff_mem, mem_reusedKeys, total, List.count_append,
    List.count_append]
  omega

variable {before current after : List String}

theorem Settled.add_source (sound : Sound definitions)
    (settled : Settled definitions.get? aliases blocks)
    (reused : aliases.reused = reusedKeys definitions terms)
    (total : terms.flatMap (usedKeys definitions) = before ++ current ++ after)
    (within : ∀ key ∈ blocks.flatMap Block.keys, key ∈ before)
    (grounded : Grounded (Naming definitions.get?) block.source)
    (isNamed : ∀ shared, block.key = some shared → definitions.get? shared = some block.source)
    (counted : ∀ key ∈ block.keys, key ∈ current)
    (follows : block.trail.Follows block.keys aliases next) :
    Adds definitions.get? blocks [block] current aliases next := by
  have acyclic := sound.chained.acyclic
  have shape : Unbroken definitions.get? block.keys ∧ block.keys.Nodup := by
    unfold Block.keys
    cases isShared : block.shared with
    | none => exact ⟨grounded.unbroken, grounded.chain_nodup acyclic⟩
    | some shared =>
        have found := isNamed shared (Option.filter_eq_some_iff.mp isShared).1
        exact ⟨grounded.unbroken.cons found,
          List.nodup_cons.mpr ⟨acyclic shared block.source found, grounded.chain_nodup acyclic⟩⟩
  refine ⟨settled.add follows shape.1 shape.2 ?_, follows.grows, ?_⟩
  · exact fun key member already =>
      isReused_of_again reused total (within key already) (counted key member)
  · intro key member
    rw [List.flatMap_singleton] at member
    exact counted key member

/-- The block of a search column. -/
structure IsColumnBlock (definitions : Definitions) (column : Resolved) (block : Block) : Prop where
  isKind : block.kind = .left
  isSource : block.source = column
  isKey : block.key = none
  declared : block.keys = definitions.inherited column.spec

/-- The joins of a search, each of which goes back to the root table. -/
def searchJoins (named : String → Option Resolved) (rootAlias : String) (blocks : List Block) :
    Path :=
  blocks.flatMap fun block => block.path named ++ [.goTo rootAlias]

theorem searchJoin_block (sound : Sound definitions) {column : Resolved}
    (grounded : Grounded (Naming definitions.get?) column)
    (settled : Settled definitions.get? aliases blocks)
    (reused : aliases.reused = reusedKeys definitions terms)
    (total : terms.flatMap (usedKeys definitions) =
      before ++ definitions.inherited column.spec ++ after)
    (within : ∀ key ∈ blocks.flatMap Block.keys, key ∈ before) {rendered : RenderedPath}
    (renders : column.render .left none (some aliases.mint.1) aliases.mint.2 = (rendered, next)) :
    ∃ block, IsColumnBlock definitions column block ∧
      rendered.path = block.path definitions.get? ∧
      Adds definitions.get? blocks [block] (definitions.inherited column.spec) aliases next := by
  have closed : ReuseClosed definitions.get? aliases.mint.2 := sound.reuseClosed reused
  have unnamed : ∀ shared, (none : Option String) = some shared →
      definitions.get? shared = some column := nofun
  obtain ⟨block, trail⟩ := grounded.sourceTrail sound.chained.acyclic closed .left
    (some aliases.mint.1) unnamed
  have follows := trail.follows
  rw [renders] at follows
  have declared : block.keys = definitions.inherited column.spec := by
    rw [grounded.inherited_eq sound.chained, Block.keys, Block.shared, trail.isKey, trail.isSource]
    rfl
  have adds : Adds definitions.get? blocks [block] (definitions.inherited column.spec)
      aliases.mint.2 next := by
    refine settled.mint.add_source sound reused total within ?_ ?_
      (fun key member => declared ▸ member) follows
    · rwa [trail.isSource]
    · rwa [trail.isSource, trail.isKey]
  refine ⟨block, ⟨trail.isKind, trail.isSource, trail.isKey, declared⟩, ?_, adds.settled,
    aliases.mint_grows.trans adds.grows, adds.within⟩
  rw [← trail.path, renders]

theorem joinTargets_blocks (sound : Sound definitions) {columns : List Resolved}
    (grounded : ∀ column ∈ columns, Grounded (Naming definitions.get?) column)
    (settled : Settled definitions.get? aliases blocks)
    (reused : aliases.reused = reusedKeys definitions terms)
    (total : terms.flatMap (usedKeys definitions) =
      before ++ (columns.flatMap fun column => definitions.inherited column.spec) ++ after)
    (within : ∀ key ∈ blocks.flatMap Block.keys, key ∈ before) {path : Path}
    {targets : List String} (joined : joinTargets columns aliases = .ok (path, targets, next)) :
    ∃ added, List.Forall₂ (IsColumnBlock definitions) (columns.filter Resolved.hasPath) added ∧
      path = searchJoins definitions.get? aliases.root added ∧
      Adds definitions.get? blocks added
        (columns.flatMap fun column => definitions.inherited column.spec) aliases next := by
  induction columns generalizing aliases blocks before path targets with
  | nil =>
      cases joined
      exact ⟨[], .nil, rfl, .nothing settled⟩
  | cons column columns ih =>
      have others := fun other member => grounded other (List.mem_cons_of_mem column member)
      have rest : terms.flatMap (usedKeys definitions) =
          (before ++ definitions.inherited column.spec) ++
            (columns.flatMap fun column => definitions.inherited column.spec) ++ after := by
        simp only [total, List.flatMap_cons, List.append_assoc]
      obtain ⟨pathless, names, joinedOthers, -⟩ |
        ⟨hasPath, rendered, reached, otherPath, names, renders, joinedOthers, rfl, -⟩ :=
        joinTargets_cons joined
      · obtain ⟨added, columnBlocks, same, adds⟩ := ih others settled reused rest
          (fun key member => List.mem_append_left _ (within key member)) joinedOthers
        refine ⟨added, ?_, same, adds.settled, adds.grows, ?_⟩
        · rwa [List.filter_cons_of_neg (by simp [pathless])]
        · exact fun key member => List.mem_append_right _ (adds.within key member)
      · obtain ⟨block, isBlock, blockPath, first⟩ :=
          searchJoin_block sound (grounded column List.mem_cons_self) settled reused
            (rest.trans (by rw [List.append_assoc])) within renders
        have reachedReused : reached.reused = reusedKeys definitions terms :=
          first.grows.reused.trans reused
        obtain ⟨added, columnBlocks, same, adds⟩ := ih others first.settled reachedReused rest
          (first.keys_within within) joinedOthers
        have all := first.trans adds
        have root : next.root = aliases.root := all.grows.root
        have reachedRoot : reached.root = aliases.root := first.grows.root
        refine ⟨block :: added, ?_, ?_, all⟩
        · rw [List.filter_cons_of_pos hasPath]
          exact .cons isBlock columnBlocks
        · simp only [searchJoins, List.flatMap_cons, blockPath, same, root, reachedRoot]

/-- The path of a search is made of the joins of the search columns and a clause. -/
theorem searchPath_blocks (sound : Sound definitions)
    (settled : Settled definitions.get? aliases blocks)
    (reused : aliases.reused = reusedKeys definitions terms)
    (total : terms.flatMap (usedKeys definitions) = before ++
      (definitions.searchColumns.flatMap fun column => definitions.inherited column.spec) ++ after)
    (within : ∀ key ∈ blocks.flatMap Block.keys, key ∈ before) {capabilities : Capabilities}
    {words : List Json} {path : Path}
    (searched : searchPath definitions.searchColumns capabilities words aliases = .ok (path, next)) :
    ∃ added clause,
      List.Forall₂ (IsColumnBlock definitions)
        (definitions.searchColumns.filter Resolved.hasPath) added ∧
      path = searchJoins definitions.get? aliases.root added ++
        [.filter clause, .goTo aliases.root] ∧
      Adds definitions.get? blocks added
        (definitions.searchColumns.flatMap fun column => definitions.inherited column.spec)
        aliases next := by
  obtain ⟨isEmpty, rfl, rfl, -⟩ | ⟨column, clause, alone, pathless, rfl, -, rfl⟩ |
    ⟨joins, targets, clause, -, joined, -, rfl⟩ := searchPath_cases searched
  · refine ⟨[], _, ?_, rfl, .nothing settled⟩
    rw [isEmpty]
    exact .nil
  · refine ⟨[], clause, ?_, rfl, .nothing settled⟩
    rw [alone, List.filter_cons_of_neg (by simp [pathless])]
    exact .nil
  · obtain ⟨added, columnBlocks, same, adds⟩ :=
      joinTargets_blocks sound sound.search settled reused total within joined
    exact ⟨added, clause, columnBlocks, by rw [same], adds⟩

end PathQuery.Facet
