import PathQuery.Proofs.Path.Clauses
import PathQuery.Proofs.Path.Naming
import PathQuery.Proofs.Path.Rendering
import PathQuery.Proofs.Source.Legs

namespace PathQuery

/-! # The scope of an alias

While sources are rendered, the aliases say of each sourcekey what the reader of the path
so far knows: that its alias leads to the end of its source.  For the sourcekeys that are
being joined this holds only once their join is complete.  Their aliases are promised: no
other join binds them in the meantime.
-/

open Reading

variable {catalog : Catalog} {root : Table} {named : String → Option Source.Resolved}
  {aliases next : Aliases} {under : List String} {known : List (String × Table)}

namespace Aliases

/-- The names that a caller chose are plain words and differ from each other. -/
structure Plain (aliases : Aliases) : Prop where
  words : ∀ name ∈ aliases.root :: aliases.forced.map Prod.snd, IsWord name
  distinct : (aliases.root :: aliases.forced.map Prod.snd).Nodup

theorem mem_forced {key name : String} (forced : aliases.forced? key = some name) :
    (key, name) ∈ aliases.forced := by
  obtain ⟨before, after, split, -⟩ := List.lookup_eq_some_iff.mp forced
  rw [split]
  exact List.mem_append_right before List.mem_cons_self

theorem mem_forcedNames {key name : String} (forced : aliases.forced? key = some name) :
    name ∈ aliases.forced.map Prod.snd :=
  List.mem_map.mpr ⟨(key, name), mem_forced forced, rfl⟩

theorem Plain.forced_injective (plain : aliases.Plain) {key key' name : String}
    (forced : aliases.forced? key = some name) (forced' : aliases.forced? key' = some name) :
    key = key' := by
  have same := List.inj_on_of_nodup_map (List.nodup_cons.mp plain.distinct).2
    (mem_forced forced) (mem_forced forced') rfl
  exact (Prod.mk.inj same).1

/-- An alias that may be bound next: a minted one, or that of a sourcekey which is being
    joined. -/
def Promised (aliases : Aliases) (under : List String) (name : String) : Prop :=
  aliases.IsMinted name ∨ ∃ key ∈ under, aliases.forced? key = some name

theorem Promised.isWord (plain : aliases.Plain) {name : String}
    (promised : aliases.Promised under name) : IsWord name := by
  rcases promised with ⟨n, -, rfl, -⟩ | ⟨key, -, forced⟩
  · exact isWord_numbered (plain.words _ List.mem_cons_self) n
  · exact plain.words name (List.mem_cons_of_mem _ (mem_forcedNames forced))

/-- What was chosen stays, and so does what was bound or minted. -/
structure Grows (aliases next : Aliases) : Prop where
  root : next.root = aliases.root
  forced : next.forced = aliases.forced
  reused : next.reused = aliases.reused
  lastIndex : aliases.lastIndex ≤ next.lastIndex
  bound : ∀ key name, aliases.get? key = some name → next.get? key = some name

theorem Grows.refl (aliases : Aliases) : aliases.Grows aliases :=
  ⟨rfl, rfl, rfl, Nat.le_refl _, fun _ _ => id⟩

theorem Grows.trans {last : Aliases} (first : aliases.Grows next) (second : next.Grows last) :
    aliases.Grows last where
  root := second.root.trans first.root
  forced := second.forced.trans first.forced
  reused := second.reused.trans first.reused
  lastIndex := first.lastIndex.trans second.lastIndex
  bound key name bound := second.bound key name (first.bound key name bound)

theorem Grows.plain (grows : aliases.Grows next) (plain : aliases.Plain) : next.Plain := by
  obtain ⟨words, distinct⟩ := plain
  constructor
  · rwa [grows.root, grows.forced]
  · rwa [grows.root, grows.forced]

theorem Grows.forced? (grows : aliases.Grows next) (key : String) :
    next.forced? key = aliases.forced? key := by
  rw [Aliases.forced?, Aliases.forced?, grows.forced]

theorem Grows.isMinted (grows : aliases.Grows next) {name : String}
    (minted : aliases.IsMinted name) : next.IsMinted name := by
  obtain ⟨n, old, rfl, free⟩ := minted
  refine ⟨n, old.trans grows.lastIndex, ?_, ?_⟩
  · rw [numbered, numbered, grows.root]
  · rwa [isTaken, grows.forced]

theorem Grows.promised (grows : aliases.Grows next) {wider : List String} {name : String}
    (within : ∀ key ∈ under, key ∈ wider) (promised : aliases.Promised under name) :
    next.Promised wider name := by
  rcases promised with minted | ⟨key, member, forced⟩
  · exact .inl (grows.isMinted minted)
  · exact .inr ⟨key, within key member, (grows.forced? key).trans forced⟩

theorem mint_grows (aliases : Aliases) : aliases.Grows aliases.mint.2 :=
  ⟨rfl, rfl, rfl, aliases.lastIndex_mint, fun _ _ => id⟩

theorem get?_bind (aliases : Aliases) (key name other : String) :
    (aliases.bind key name).2.get? other =
      (aliases.get? other).or (if other = key then some name else none) := by
  unfold bind
  split
  · rename_i bound found
    by_cases same : other = key
    · rw [same, found, Option.some_or]
    · rw [if_neg same, Option.or_none]
  · simp [get?, List.lookup_append]

theorem bind_grows (aliases : Aliases) (key name : String) :
    aliases.Grows (aliases.bind key name).2 := by
  have bound : ∀ other found, aliases.get? other = some found →
      (aliases.bind key name).2.get? other = some found := by
    intro other found isBound
    rw [get?_bind, isBound, Option.some_or]
  unfold bind at bound ⊢
  split
  · exact .refl aliases
  · rename_i unbound
    rw [unbound] at bound
    exact ⟨rfl, rfl, rfl, Nat.le_refl _, bound⟩

theorem allocate_grows {key : String} (unbound : aliases.get? key = none) :
    aliases.Grows (aliases.allocate key).2 ∧
      ∀ other, other ≠ key → (aliases.allocate key).2.get? other = aliases.get? other := by
  rcases allocate_cases unbound with ⟨name, -, allocated⟩ | ⟨-, allocated⟩
  · rw [allocated]
    refine ⟨aliases.bind_grows key name, fun other different => ?_⟩
    rw [get?_bind, if_neg different, Option.or_none]
  · rw [allocated]
    refine ⟨aliases.mint_grows.trans (aliases.mint.2.bind_grows key _), fun other different => ?_⟩
    rw [get?_bind, if_neg different, Option.or_none]
    rfl

end Aliases

theorem Source.Resolved.chooseAlias_grows (source : Source.Resolved) (key hint : Option String)
    (unbound : ∀ shared, key = some shared → aliases.get? shared = none) :
    aliases.Grows (source.chooseAlias key hint aliases).2 ∧
      ∀ other, key ≠ some other →
        (source.chooseAlias key hint aliases).2.get? other = aliases.get? other := by
  rcases source.chooseAlias_cases key hint aliases with ⟨-, same⟩ |
    ⟨shared, isKey, ⟨-, same⟩ | ⟨-, -, -, same⟩ | ⟨-, -, -, same⟩⟩
  · rw [same]
    exact ⟨.refl aliases, fun _ _ => rfl⟩
  · rw [same]
    exact ⟨.refl aliases, fun _ _ => rfl⟩
  · rw [same]
    obtain ⟨grows, leaves⟩ := Aliases.allocate_grows (unbound shared isKey)
    refine ⟨grows, fun other different => leaves other ?_⟩
    rintro rfl
    exact different isKey
  · rw [same]
    exact ⟨.refl aliases, fun _ _ => rfl⟩

/-- The end of a source has an alias if it is to have one, or if its sourcekey is gone
    through again. -/
theorem Source.Resolved.chooseAlias_isSome (source : Source.Resolved) (key hint : Option String)
    (aliases : Aliases) :
    (hint.isSome = true → (source.chooseAlias key hint aliases).1.isSome = true) ∧
      ∀ shared, key = some shared → aliases.isReused shared = true →
        source.endsAtStart = false → (source.chooseAlias key hint aliases).1.isSome = true := by
  rcases source.chooseAlias_cases key hint aliases with ⟨rfl, same⟩ |
    ⟨shared, rfl, ⟨ends, same⟩ | ⟨-, -, -, same⟩ | ⟨-, -, reused, same⟩⟩
  · rw [same]
    exact ⟨id, nofun⟩
  · rw [same]
    refine ⟨fun isHint => ?_, fun _ _ _ moves => ?_⟩
    · cases aliases.forced? shared with
      | none => simpa using isHint
      | some name => rfl
    · rw [ends] at moves
      contradiction
  · rw [same]
    exact ⟨fun _ => rfl, fun _ _ _ _ => rfl⟩
  · rw [same]
    refine ⟨id, fun other isKey isReused _ => reused ?_⟩
    rwa [Option.some.inj isKey]

namespace Source.Resolved

@[simp] theorem bindEnd_fst (key : Option String) (rendered : RenderedPath) (aliases : Aliases) :
    (bindEnd key rendered aliases).1 = rendered := by
  unfold bindEnd
  split <;> rfl

theorem bindEnd_grows (key : Option String) (rendered : RenderedPath) (aliases : Aliases) :
    aliases.Grows (bindEnd key rendered aliases).2 := by
  unfold bindEnd
  split
  · exact aliases.bind_grows _ _
  · exact .refl aliases

/-- The end of a path is bound to the sourcekey it was rendered under, if it has an alias and
    the sourcekey has none. -/
theorem bindEnd_get? (key : Option String) (rendered : RenderedPath) (aliases : Aliases)
    (other : String) : (bindEnd key rendered aliases).2.get? other =
      (aliases.get? other).or (if key = some other then rendered.aliasName else none) := by
  unfold bindEnd
  split
  · rename_i shared name named
    rw [Aliases.get?_bind, named]
    simp only [Option.some.injEq, eq_comm]
  · rename_i unnamed
    split
    · rename_i same
      cases named : rendered.aliasName with
      | none => rw [Option.or_none]
      | some name => exact absurd named (unnamed other name same)
    · rw [Option.or_none]

end Source.Resolved

theorem lookup_cons_of_known {name other : String} {table found : Table}
    (fresh : known.lookup name = none) (isKnown : known.lookup other = some found) :
    List.lookup other ((name, table) :: known) = some found := by
  have different : other ≠ name := by
    rintro rfl
    rw [fresh] at isKnown
    contradiction
  rw [List.lookup_cons, beq_false_of_ne different, isKnown]

/-- What the aliases say is what the reader of the path so far knows, but for the
    sourcekeys that are being joined. -/
structure Aligned (named : String → Option Source.Resolved) (root : Table)
    (under : List String) (aliases : Aliases) (known : List (String × Table)) : Prop where
  root : known.lookup aliases.root = some root
  bound : ∀ key name, key ∉ under → aliases.get? key = some name →
    ∃ source, named key = some source ∧ known.lookup name = some source.table
  spent : ∀ name table, known.lookup name = some table →
    name = aliases.root ∨ aliases.IsMinted name ∨
      ∃ key, aliases.forced? key = some name ∧ (key ∈ under ∨ (aliases.get? key).isSome = true)

namespace Aligned

theorem start (named : String → Option Source.Resolved) (root : Table) (rootAlias : String)
    (forced : List (String × String)) (reused : List String) :
    Aligned named root [] (Aliases.new rootAlias forced reused) [(rootAlias, root)] where
  root := List.lookup_cons_self
  bound := nofun
  spent name table found := by
    rw [List.lookup_cons] at found
    split at found
    · rename_i same
      exact .inl (beq_iff_eq.mp same)
    · contradiction

theorem know (aligned : Aligned named root under aliases known) {name : String} {table : Table}
    (promised : aliases.Promised under name) (fresh : known.lookup name = none) :
    Aligned named root under aliases ((name, table) :: known) := by
  have kept : ∀ other found, known.lookup other = some found →
      List.lookup other ((name, table) :: known) = some found := by
    intro other found isKnown
    rw [lookup_cons_of_known fresh isKnown]
  refine ⟨kept _ _ aligned.root, ?_, ?_⟩
  · intro key bound outside isBound
    obtain ⟨source, isNamed, isKnown⟩ := aligned.bound key bound outside isBound
    exact ⟨source, isNamed, kept _ _ isKnown⟩
  · intro other found isKnown
    by_cases same : other = name
    · subst same
      rcases promised with minted | ⟨key, member, forced⟩
      · exact .inr (.inl minted)
      · exact .inr (.inr ⟨key, forced, .inl member⟩)
    · rw [List.lookup_cons, beq_false_of_ne same] at isKnown
      exact aligned.spent other found isKnown

theorem isWord (aligned : Aligned named root under aliases known) (plain : aliases.Plain)
    {name : String} {table : Table} (isKnown : known.lookup name = some table) : IsWord name := by
  rcases aligned.spent name table isKnown with rfl | ⟨n, -, rfl, -⟩ | ⟨key, forced, -⟩
  · exact plain.words _ List.mem_cons_self
  · exact Aliases.isWord_numbered (plain.words _ List.mem_cons_self) n
  · exact plain.words name (List.mem_cons_of_mem _ (Aliases.mem_forcedNames forced))

/-- More sourcekeys may be joined, and for these an alias may be chosen. -/
theorem grow {wider : List String} (aligned : Aligned named root under aliases known)
    (grows : aliases.Grows next) (within : ∀ key ∈ under, key ∈ wider)
    (same : ∀ key, key ∉ wider → next.get? key = aliases.get? key) :
    Aligned named root wider next known where
  root := by rw [grows.root, aligned.root]
  bound key name outside bound :=
    aligned.bound key name (fun member => outside (within key member)) (same key outside ▸ bound)
  spent name table isKnown := by
    rcases aligned.spent name table isKnown with isRoot | minted | ⟨key, forced, used⟩
    · exact .inl (by rw [isRoot, grows.root])
    · exact .inr (.inl (grows.isMinted minted))
    · refine .inr (.inr ⟨key, (grows.forced? key).trans forced, ?_⟩)
      rcases used with member | bound
      · exact .inl (within key member)
      · obtain ⟨name, bound⟩ := Option.isSome_iff_exists.mp bound
        exact .inr (by rw [grows.bound key name bound]; rfl)

/-- A sourcekey that gets no alias is done with. -/
theorem release {key : String} (aligned : Aligned named root (key :: under) aliases known)
    (unbound : aliases.get? key = none) (unforced : aliases.forced? key = none) :
    Aligned named root under aliases known where
  root := aligned.root
  bound other name outside isBound := by
    refine aligned.bound other name ?_ isBound
    intro member
    obtain rfl | member := List.mem_cons.mp member
    · rw [unbound] at isBound
      contradiction
    · exact outside member
  spent name table isKnown := by
    rcases aligned.spent name table isKnown with
      isRoot | minted | ⟨other, forced, member | isBound⟩
    · exact .inl isRoot
    · exact .inr (.inl minted)
    · obtain rfl | member := List.mem_cons.mp member
      · rw [unforced] at forced
        contradiction
      · exact .inr (.inr ⟨other, forced, .inl member⟩)
    · exact .inr (.inr ⟨other, forced, .inr isBound⟩)

/-- A sourcekey is done with once its alias leads to the end of its source. -/
theorem bindEnd {key name : String} {source : Source.Resolved}
    (aligned : Aligned named root (key :: under) aliases known) (isNamed : named key = some source)
    (isKnown : known.lookup name = some source.table)
    (agrees : ∀ bound, aliases.get? key = some bound → bound = name) :
    Aligned named root under (aliases.bind key name).2 known := by
  have grows := aliases.bind_grows key name
  have bound : (aliases.bind key name).2.get? key = some name := by
    rw [Aliases.get?_bind, if_pos rfl]
    cases isBound : aliases.get? key with
    | none => rfl
    | some bound => rw [agrees bound isBound, Option.some_or]
  refine ⟨grows.root ▸ aligned.root, ?_, ?_⟩
  · intro other otherName outside isBound
    by_cases same : other = key
    · subst same
      obtain rfl := Option.some.inj (bound.symm.trans isBound)
      exact ⟨source, isNamed, isKnown⟩
    · rw [Aliases.get?_bind, if_neg same, Option.or_none] at isBound
      refine aligned.bound other otherName ?_ isBound
      exact fun member => (List.mem_cons.mp member).elim same outside
  · intro spent table isSpent
    rcases aligned.spent spent table isSpent with
      isRoot | minted | ⟨other, forced, member | isBound⟩
    · exact .inl (isRoot.trans grows.root.symm)
    · exact .inr (.inl (grows.isMinted minted))
    · refine .inr (.inr ⟨other, (grows.forced? other).trans forced, ?_⟩)
      obtain rfl | member := List.mem_cons.mp member
      · exact .inr (by rw [bound]; rfl)
      · exact .inl member
    · obtain ⟨otherName, isBound⟩ := Option.isSome_iff_exists.mp isBound
      refine .inr (.inr ⟨other, (grows.forced? other).trans forced, .inr ?_⟩)
      rw [grows.bound other otherName isBound]
      rfl

theorem mint_fresh (aligned : Aligned named root under aliases known) :
    known.lookup aliases.mint.1 = none := by
  obtain ⟨new, minted⟩ := aliases.mint_fresh
  cases isKnown : known.lookup aliases.mint.1 with
  | none => rfl
  | some table =>
      rcases aligned.spent _ table isKnown with isRoot | old | ⟨key, forced, -⟩
      · exact absurd isRoot (Aliases.numbered_ne_root _)
      · exact absurd old new
      · obtain ⟨n, -, -, free⟩ := minted
        have taken := Aliases.isTaken_iff.mpr (Aliases.mem_forcedNames forced)
        have same : aliases.mint.2.isTaken aliases.mint.1 = aliases.isTaken aliases.mint.1 := rfl
        rw [same, taken] at free
        contradiction

end Aligned

/-- The alias that is chosen for the end of a source under some sourcekey. -/
structure Chosen (source : Source.Resolved) (key hint : Option String)
    (under : List String) (aliases next : Aliases) (known : List (String × Table))
    (binding : Option String) : Prop where
  grows : aliases.Grows next
  /-- Only the sourcekey itself gets an alias. -/
  leaves : ∀ other, key ≠ some other → next.get? other = aliases.get? other
  promised : ∀ name, binding = some name →
    known.lookup name = none ∧ next.Promised (key.toList ++ under) name
  spares : ∀ name, aliases.Promised under name → hint ≠ some name → binding ≠ some name
  unbound : ∀ shared, key = some shared → next.get? shared = none ∨
    (source.endsAtStart = false ∧ next.get? shared = binding)
  forced : ∀ shared, key = some shared → (aliases.forced? shared).isSome = true →
    binding.isSome = true
  hinted : hint.isSome = true → binding.isSome = true

theorem not_promised_mint (aliases : Aliases) (under : List String) :
    ¬ aliases.Promised under aliases.mint.1 := by
  obtain ⟨new, n, -, -, free⟩ := aliases.mint_fresh
  rintro (minted | ⟨key, -, forced⟩)
  · exact new minted
  · have taken := Aliases.isTaken_iff.mpr (Aliases.mem_forcedNames forced)
    have same : aliases.mint.2.isTaken aliases.mint.1 = aliases.isTaken aliases.mint.1 := rfl
    rw [same, taken] at free
    contradiction

/-- A forced alias is neither known nor promised before its sourcekey is joined. -/
theorem Aligned.forced_fresh (aligned : Aligned named root under aliases known)
    (plain : aliases.Plain) {key name : String} (unbound : aliases.get? key = none)
    (outside : key ∉ under) (forced : aliases.forced? key = some name) :
    known.lookup name = none ∧ ¬ aliases.Promised under name := by
  have listed := Aliases.mem_forcedNames forced
  have notMinted : ¬ aliases.IsMinted name := by
    rintro ⟨n, -, -, free⟩
    rw [Aliases.isTaken_iff.mpr listed] at free
    contradiction
  constructor
  · cases isKnown : known.lookup name with
    | none => rfl
    | some table =>
        rcases aligned.spent name table isKnown with isRoot | minted | ⟨other, forced', used⟩
        · exact absurd (isRoot ▸ listed) (List.nodup_cons.mp plain.distinct).1
        · exact absurd minted notMinted
        · obtain rfl := plain.forced_injective forced forced'
          rw [unbound] at used
          exact absurd used (by simp [outside])
  · rintro (minted | ⟨other, member, forced'⟩)
    · exact notMinted minted
    · exact outside (plain.forced_injective forced forced' ▸ member)

/-- What is hinted at is chosen for a source that no alias is forced for. -/
theorem chosen_hint (source : Source.Resolved) {key hint : Option String}
    (unbound : ∀ shared, key = some shared → aliases.get? shared = none)
    (unforced : ∀ shared, key = some shared → aliases.forced? shared = none)
    (hinted : ∀ name, hint = some name →
      known.lookup name = none ∧ aliases.Promised under name) :
    Chosen source key hint under aliases aliases known hint where
  grows := .refl aliases
  leaves _ _ := rfl
  promised name isHint :=
    (hinted name isHint).imp_right ((Aliases.Grows.refl aliases).promised
      fun _ member => List.mem_append_right _ member)
  spares _ _ := id
  unbound shared isKey := .inl (unbound shared isKey)
  forced shared isKey isForced := by
    rw [unforced shared isKey] at isForced
    contradiction
  hinted := id

/-- An alias that was not promised before may be chosen in any case. -/
theorem chosen_new {source : Source.Resolved} {shared name : String} (hint : Option String)
    (grows : aliases.Grows next)
    (leaves : ∀ other, some shared ≠ some other → next.get? other = aliases.get? other)
    (fresh : known.lookup name = none) (promised : next.Promised (shared :: under) name)
    (unpromised : ¬ aliases.Promised under name)
    (unbound : next.get? shared = none ∨
      (source.endsAtStart = false ∧ next.get? shared = some name)) :
    Chosen source (some shared) hint under aliases next known (some name) where
  grows := grows
  leaves := leaves
  promised other isName := by
    obtain rfl := Option.some.inj isName
    exact ⟨fresh, promised⟩
  spares other promised _ isName := unpromised (Option.some.inj isName ▸ promised)
  unbound other isKey := by
    obtain rfl := Option.some.inj isKey
    exact unbound
  forced _ _ _ := rfl
  hinted _ := rfl

/-- The alias that is allocated to a sourcekey is its own, or a new one. -/
theorem Aligned.chosen_allocated (aligned : Aligned named root under aliases known)
    (plain : aliases.Plain) {source : Source.Resolved} {shared : String} (hint : Option String)
    (moves : source.endsAtStart = false) (free : aliases.get? shared = none)
    (outside : shared ∉ under) :
    Chosen source (some shared) hint under aliases (aliases.allocate shared).2 known
      (some (aliases.allocate shared).1) := by
  obtain ⟨grows, others⟩ := Aliases.allocate_grows free
  have leaves : ∀ other, some shared ≠ some other →
      (aliases.allocate shared).2.get? other = aliases.get? other :=
    fun other different => others other fun same => different (congrArg some same.symm)
  rcases Aliases.allocate_cases free with ⟨name, forced, allocated⟩ | ⟨-, allocated⟩
  · rw [allocated] at grows leaves ⊢
    rw [Aliases.bind_fst free]
    obtain ⟨fresh, unpromised⟩ := aligned.forced_fresh plain free outside forced
    refine chosen_new hint grows leaves fresh ?_ unpromised (.inr ⟨moves, ?_⟩)
    · exact grows.promised (fun _ => id) (.inr ⟨shared, List.mem_cons_self, forced⟩)
    · rw [Aliases.get?_bind, free, if_pos rfl, Option.none_or]
  · have freeNext : aliases.mint.2.get? shared = none := free
    have minted := (aliases.mint.2.bind_grows shared aliases.mint.1).isMinted aliases.mint_fresh.2
    rw [allocated] at grows leaves ⊢
    rw [Aliases.bind_fst freeNext]
    refine chosen_new hint grows leaves aligned.mint_fresh (.inl minted)
      (not_promised_mint aliases under) (.inr ⟨moves, ?_⟩)
    rw [Aliases.get?_bind, freeNext, if_pos rfl, Option.none_or]

theorem Aligned.chosen (aligned : Aligned named root under aliases known)
    (plain : aliases.Plain) (source : Source.Resolved) {key hint : Option String}
    (unbound : ∀ shared, key = some shared → aliases.get? shared = none ∧ shared ∉ under)
    (hinted : ∀ name, hint = some name →
      known.lookup name = none ∧ aliases.Promised under name) :
    Chosen source key hint under aliases (source.chooseAlias key hint aliases).2 known
      (source.chooseAlias key hint aliases).1 := by
  have free := fun shared isKey => (unbound shared isKey).1
  rcases source.chooseAlias_cases key hint aliases with ⟨rfl, same⟩ |
    ⟨shared, rfl, ⟨ends, same⟩ | ⟨moves, -, own, same⟩ | ⟨moves, unforced, -, same⟩⟩
  · rw [same]
    exact chosen_hint source free nofun hinted
  · rw [same]
    cases forced : aliases.forced? shared with
    | none =>
        refine chosen_hint source free ?_ hinted
        exact fun other isKey => Option.some.inj isKey ▸ forced
    | some name =>
        obtain ⟨fresh, unpromised⟩ :=
          aligned.forced_fresh plain (free shared rfl) (unbound shared rfl).2 forced
        exact chosen_new hint (.refl aliases) (fun _ _ => rfl) fresh
          (.inr ⟨shared, List.mem_cons_self, forced⟩) unpromised (.inl (free shared rfl))
  · rw [same]
    exact aligned.chosen_allocated plain hint moves (free shared rfl) (unbound shared rfl).2
  · rw [same]
    refine chosen_hint source free ?_ hinted
    exact fun other isKey => Option.some.inj isKey ▸ unforced

end PathQuery
