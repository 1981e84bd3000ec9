import Mathlib.Data.Nat.Nth
import PathQuery.Proofs.Path.History

namespace PathQuery.Aliases

/-! # Minted aliases

Whoever asks for the alias of a sourcekey gets the same one every time.  An alias that is
neither in use nor forced is minted: its number is the next one, and the numbers whose
aliases are forced are left out.  So the aliases that are minted, one after the other, have
all the other numbers in order.
-/

variable {aliases next : Aliases} {key name root : String} {forced : List (String × String)}
  {n last : Nat}

/-- The positive numbers whose aliases nobody wants. -/
def Unforced (root : String) (forced : List (String × String)) (n : Nat) : Prop :=
  0 < n ∧ ∀ entry ∈ forced, entry.2 ≠ root ++ "_P" ++ toString n

instance : DecidablePred (Unforced root forced) :=
  fun _ => inferInstanceAs (Decidable (_ ∧ _))

theorem unforced_iff :
    Unforced aliases.root aliases.forced n ↔
      0 < n ∧ aliases.isTaken (aliases.numbered n) = false := by
  simp [Unforced, isTaken, numbered]

theorem infinite_unforced (root : String) (forced : List (String × String)) :
    {n | Unforced root forced n}.Infinite := by
  rw [Set.infinite_iff_exists_gt]
  intro n
  obtain ⟨i, -, free⟩ := exists_free (new root forced []) (n + 1)
  exact ⟨n + 1 + i, unforced_iff.mpr ⟨by omega, free⟩, by omega⟩

/-- The number that is minted is the next one that is not forced. -/
theorem mint_lastIndex (aliases : Aliases) :
    aliases.mint.2.lastIndex = Nat.nth (Unforced aliases.root aliases.forced)
      (Nat.count (Unforced aliases.root aliases.forced) (aliases.lastIndex + 1)) := by
  have search := aliases.mint_search
  have least : IsLeast {n | Unforced aliases.root aliases.forced n ∧ aliases.lastIndex + 1 ≤ n}
      aliases.mint.2.lastIndex := by
    constructor
    · exact ⟨unforced_iff.mpr ⟨by have := search.le; omega, search.free⟩, search.le⟩
    · rintro n ⟨unforced, later⟩
      by_contra before
      have taken := search.taken later (Nat.lt_of_not_le before)
      rw [(unforced_iff.mp unforced).2] at taken
      contradiction
  rw [Nat.nth_count_eq_sInf, least.csInf_eq]

theorem count_mint (aliases : Aliases) :
    Nat.count (Unforced aliases.root aliases.forced) (aliases.mint.2.lastIndex + 1) =
      Nat.count (Unforced aliases.root aliases.forced) (aliases.lastIndex + 1) + 1 := by
  rw [mint_lastIndex]
  exact Nat.count_nth_succ fun finite => absurd finite (infinite_unforced _ _)

inductive Request where
  | allocate (key : String)
  | mint
  | bind (key name : String)
  | get (key : String)

namespace Request

/-- The answer to a request, and the aliases after it. -/
def serve (aliases : Aliases) : Request → Option String × Aliases
  | .allocate key => (some (aliases.allocate key).1, (aliases.allocate key).2)
  | .mint => (some aliases.mint.1, aliases.mint.2)
  | .bind key name => (some (aliases.bind key name).1, (aliases.bind key name).2)
  | .get key => (aliases.get? key, aliases)

def run (aliases : Aliases) (requests : List Request) : Aliases :=
  requests.foldl (fun aliases request => (request.serve aliases).2) aliases

/-- An alias is asked for that is neither in use nor forced. -/
def AsksFresh (aliases : Aliases) : Request → Prop
  | .allocate key => aliases.get? key = none ∧ aliases.forced? key = none
  | .mint => True
  | _ => False

instance : DecidablePred (AsksFresh aliases)
  | .allocate _ => inferInstanceAs (Decidable (_ ∧ _))
  | .mint => isTrue trivial
  | .bind .. => isFalse id
  | .get _ => isFalse id

/-- The aliases that requests for fresh ones are answered with, in order. -/
def freshAnswers (aliases : Aliases) : List Request → List String
  | [] => []
  | request :: later =>
    (if request.AsksFresh aliases then (request.serve aliases).1.toList else []) ++
      freshAnswers (request.serve aliases).2 later

theorem serve_grows (request : Request) : aliases.Grows (request.serve aliases).2 := by
  cases request with
  | allocate key => exact aliases.grows_allocate key
  | mint => exact aliases.mint_grows
  | bind key name => exact aliases.bind_grows key name
  | get key => exact .refl aliases

theorem run_grows (requests : List Request) : aliases.Grows (run aliases requests) := by
  induction requests generalizing aliases with
  | nil => exact .refl aliases
  | cons request later ih => exact request.serve_grows.trans ih

/-- A request for a fresh alias is answered with a minted one, and no other request mints. -/
theorem serve_cases (request : Request) (aliases : Aliases) :
    (request.AsksFresh aliases ∧ (request.serve aliases).1 = some aliases.mint.1 ∧
      (request.serve aliases).2.lastIndex = aliases.mint.2.lastIndex) ∨
    (¬ request.AsksFresh aliases ∧ (request.serve aliases).2.lastIndex = aliases.lastIndex) := by
  have bind_lastIndex : ∀ (aliases : Aliases) key name,
      (aliases.bind key name).2.lastIndex = aliases.lastIndex := by
    intro aliases key name
    unfold Aliases.bind
    split <;> rfl
  cases request with
  | allocate key =>
      cases unbound : aliases.get? key with
      | some found =>
          refine .inr ⟨by simp [AsksFresh, unbound], ?_⟩
          rw [serve, Aliases.allocate, unbound]
      | none =>
          rcases allocate_cases unbound with ⟨name, wanted, allocated⟩ | ⟨unwanted, allocated⟩
          · refine .inr ⟨by simp [AsksFresh, wanted], ?_⟩
            rw [serve, allocated, bind_lastIndex]
          · refine .inl ⟨⟨unbound, unwanted⟩, ?_, ?_⟩
            · have fresh : aliases.mint.2.get? key = none := unbound
              rw [serve, allocated, bind_fst fresh]
            · rw [serve, allocated, bind_lastIndex]
  | mint => exact .inl ⟨trivial, rfl, rfl⟩
  | bind key name => exact .inr ⟨id, bind_lastIndex aliases key name⟩
  | get key => exact .inr ⟨id, rfl⟩

/-- The numbers of fresh aliases are those that are not forced, from the last one on. -/
theorem freshAnswers_getElem? (requests : List Request) {i : Nat}
    (answer : (freshAnswers aliases requests)[i]? = some name) :
    name = aliases.numbered (Nat.nth (Unforced aliases.root aliases.forced)
      (Nat.count (Unforced aliases.root aliases.forced) (aliases.lastIndex + 1) + i)) := by
  induction requests generalizing aliases i with
  | nil => simp [freshAnswers] at answer
  | cons request later ih =>
      have grows : aliases.Grows (request.serve aliases).2 := request.serve_grows
      have numbered : ∀ n, (request.serve aliases).2.numbered n = aliases.numbered n := by
        intro n
        rw [Aliases.numbered, Aliases.numbered, grows.root]
      obtain ⟨asks, minted, index⟩ | ⟨asks, index⟩ := request.serve_cases aliases
      · rw [freshAnswers, if_pos asks, minted] at answer
        cases i with
        | zero =>
            simp only [Option.toList_some, List.singleton_append, List.getElem?_cons_zero,
              Option.some.injEq] at answer
            rw [← answer, Nat.add_zero, ← mint_lastIndex]
            rfl
        | succ i =>
            have rest := ih answer
            rw [numbered, grows.root, grows.forced, index, count_mint] at rest
            rw [rest, Nat.add_assoc, Nat.add_comm 1 i]
      · rw [freshAnswers, if_neg asks, List.nil_append] at answer
        have rest := ih answer
        rwa [numbered, grows.root, grows.forced, index] at rest

end Request

open Request

/-- The aliases with the first and the third number are forced. -/
example : freshAnswers (new "M" [("a", "M_P1"), ("b", "M_P3")] [])
    [.allocate "x", .mint, .allocate "a", .allocate "x", .bind "z" "Z", .allocate "y"] =
      ["M_P2", "M_P4", "M_P5"] := by
  decide

end PathQuery.Aliases
