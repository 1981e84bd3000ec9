import Mathlib.Data.List.Perm.Subperm
import Mathlib.Data.List.Nodup
import PathQuery.Path.Aliases
import PathQuery.Proofs.Path.Reading

namespace PathQuery.Aliases

/-! # Names for aliases

A minted alias differs from the root alias, from every forced one and from those that
were minted before.  Its number is searched for: as many are tried as there are forced
aliases and one more, so one of them has to be free.
-/

variable {aliases : Aliases} {n last : Nat}

theorem numbered_injective {m n : Nat} (same : aliases.numbered m = aliases.numbered n) :
    m = n := by
  have texts := congrArg String.toList same
  simp only [numbered, String.toList_append, List.append_assoc] at texts
  have digits := List.append_cancel_left (List.append_cancel_left texts)
  rw [Nat.toString_eq_repr, Nat.toString_eq_repr, Nat.toList_repr, Nat.toList_repr] at digits
  have values := congrArg (Nat.ofDigitChars 10 · 0) digits
  simpa using values

theorem numbered_ne_root (n : Nat) : aliases.numbered n ≠ aliases.root := by
  intro same
  have lengths := congrArg (fun text => text.toList.length) same
  simp [numbered] at lengths

theorem isWord_numbered (word : Reading.IsWord aliases.root) (n : Nat) :
    Reading.IsWord (aliases.numbered n) := by
  refine ⟨?_, ?_⟩
  · intro empty
    have lengths := congrArg (fun text => text.toList.length) empty
    simp [numbered] at lengths
  · intro c member
    simp only [numbered, String.toList_append, List.mem_append, Nat.toString_eq_repr,
      Nat.toList_repr] at member
    rcases member with (inRoot | inMark) | inDigits
    · exact word.2 c inRoot
    · obtain rfl | rfl : c = '_' ∨ c = 'P' := by simpa using inMark
      · decide
      · decide
    · have digit := Nat.isDigit_of_mem_toDigits (by decide) (by decide) inDigits
      simp [Reading.isWordChar, Char.isAlphanum, digit]

theorem isTaken_iff {name : String} :
    aliases.isTaken name = true ↔ name ∈ aliases.forced.map Prod.snd := by
  simp [isTaken]

/-- One number after the other is tried, from `n` on, until its alias is not forced. -/
inductive Search (aliases : Aliases) : Nat → Nat → Prop
  | found {n : Nat} (free : aliases.isTaken (aliases.numbered n) = false) : Search aliases n n
  | goOn {n last : Nat} (taken : aliases.isTaken (aliases.numbered n) = true)
      (later : Search aliases (n + 1) last) : Search aliases n last

theorem Search.free (search : aliases.Search n last) :
    aliases.isTaken (aliases.numbered last) = false := by
  induction search with
  | found free => exact free
  | goOn _ _ ih => exact ih

theorem Search.le (search : aliases.Search n last) : n ≤ last := by
  induction search with
  | found _ => exact Nat.le_refl _
  | goOn _ _ ih => exact Nat.le_of_succ_le ih

theorem Search.taken (search : aliases.Search n last) {m : Nat} (lower : n ≤ m) (upper : m < last) :
    aliases.isTaken (aliases.numbered m) = true := by
  induction search with
  | found _ => omega
  | @goOn n _ taken _ ih =>
      obtain rfl | above := Nat.eq_or_lt_of_le lower
      · exact taken
      · exact ih above upper

theorem freeFrom_search {count : Nat}
    (free : ∃ i ≤ count, aliases.isTaken (aliases.numbered (n + i)) = false) :
    aliases.Search n (aliases.freeFrom count n) := by
  induction count generalizing n with
  | zero =>
      obtain ⟨i, none, free⟩ := free
      obtain rfl : i = 0 := Nat.le_zero.mp none
      exact .found free
  | succ count ih =>
      unfold freeFrom
      split
      · rename_i taken
        obtain ⟨i, within, free⟩ := free
        cases i with
        | zero => simp [taken] at free
        | succ i =>
            refine .goOn taken (ih ⟨i, Nat.le_of_succ_le_succ within, ?_⟩)
            rwa [Nat.add_assoc, Nat.add_comm 1 i]
      · rename_i notTaken
        exact .found (by simpa using notTaken)

/-- Of more numbers than there are forced aliases, one gives an alias that is not forced. -/
theorem exists_free (aliases : Aliases) (n : Nat) :
    ∃ i ≤ aliases.forced.length, aliases.isTaken (aliases.numbered (n + i)) = false := by
  by_contra taken
  simp only [not_exists, not_and, Bool.not_eq_false] at taken
  let names := (List.range (aliases.forced.length + 1)).map fun i => aliases.numbered (n + i)
  have distinct : names.Nodup := by
    refine List.Nodup.map ?_ List.nodup_range
    intro i j same
    exact Nat.add_left_cancel (numbered_injective same)
  have within : names ⊆ aliases.forced.map Prod.snd := by
    intro name listed
    obtain ⟨i, inRange, rfl⟩ := List.mem_map.mp listed
    exact isTaken_iff.mp (taken i (Nat.le_of_lt_succ (List.mem_range.mp inRange)))
  have lengths := (distinct.subperm within).length_le
  simp only [names, List.length_map, List.length_range] at lengths
  omega

/-- The search for a number always ends. -/
theorem mint_search (aliases : Aliases) :
    aliases.Search (aliases.lastIndex + 1) aliases.mint.2.lastIndex :=
  freeFrom_search (exists_free aliases (aliases.lastIndex + 1))

/-- The alias has a number up to the last one that was minted, and is not forced. -/
def IsMinted (aliases : Aliases) (name : String) : Prop :=
  ∃ n ≤ aliases.lastIndex, name = aliases.numbered n ∧ aliases.isTaken name = false

theorem mint_fresh (aliases : Aliases) :
    ¬ aliases.IsMinted aliases.mint.1 ∧ aliases.mint.2.IsMinted aliases.mint.1 := by
  have search := aliases.mint_search
  constructor
  · rintro ⟨n, old, same, -⟩
    obtain rfl := numbered_injective same
    exact absurd (Nat.le_trans search.le old) (Nat.not_succ_le_self aliases.lastIndex)
  · exact ⟨_, Nat.le_refl _, rfl, search.free⟩

theorem lastIndex_mint (aliases : Aliases) : aliases.lastIndex ≤ aliases.mint.2.lastIndex :=
  Nat.le_of_succ_le aliases.mint_search.le

end PathQuery.Aliases
