import Mathlib.Data.Multiset.AddSub
import Mathlib.Logic.Relation
import PathQuery.Choice.Lookup

namespace PathQuery.Choice

/-! # Schedules

Look-ups are started in order while fewer than a limit are under way, and those under way are
done in any order.  The first that fails ends them all.  Whatever the schedule is, all are
done in the end, in some order, or one of them has failed.
-/

/-- A look-up, and what it comes to when it is done. -/
structure Work where
  batch : Nat
  answer : Except String (List Row)

def Work.rows (work : Work) : List Row :=
  match work.answer with
  | .ok rows => rows
  | .error _ => []

structure Pool where
  waiting : List Work
  underWay : Multiset Work
  /-- The rows of the look-ups that are done, in the order in which they were done. -/
  rows : List Row

variable {limit : Nat} {works done : List Work} {pool next : Pool}
  {outcome : Except Failure (List Row)} {wanted wanted' : Except Failure (List Row) → Prop}

namespace Pool

/-- What may come next: the first that waits is started, or any that is under way is done. -/
inductive Step (limit : Nat) : Pool → Pool → Prop
  | start {work : Work} {waiting : List Work} {underWay : Multiset Work} {rows : List Row}
      (room : underWay.card < limit) :
      Step limit ⟨work :: waiting, underWay, rows⟩ ⟨waiting, work ::ₘ underWay, rows⟩
  | finish {work : Work} {found : List Row} {waiting : List Work} {underWay : Multiset Work}
      {rows : List Row} (succeeds : work.answer = .ok found) :
      Step limit ⟨waiting, work ::ₘ underWay, rows⟩ ⟨waiting, underWay, rows ++ found⟩

/-- How it may end: all are done, or any that is under way fails. -/
inductive Ends : Pool → Except Failure (List Row) → Prop
  | done {rows : List Row} : Ends ⟨[], 0, rows⟩ (.ok rows)
  | fail {work : Work} {reason : String} {waiting : List Work} {underWay : Multiset Work}
      {rows : List Row} (fails : work.answer = .error reason) :
      Ends ⟨waiting, work ::ₘ underWay, rows⟩ (.error ⟨work.batch, reason⟩)

/-- Under every schedule it ends, and does so as wanted. -/
inductive Ensures (limit : Nat) (wanted : Except Failure (List Row) → Prop) : Pool → Prop
  | intro {pool : Pool} (goesOn : (∃ outcome, Ends pool outcome) ∨ ∃ next, Step limit pool next)
      (ends : ∀ outcome, Ends pool outcome → wanted outcome)
      (steps : ∀ next, Step limit pool next → Ensures limit wanted next) :
      Ensures limit wanted pool

theorem Ensures.mono (ensures : Ensures limit wanted pool)
    (weaken : ∀ outcome, wanted outcome → wanted' outcome) : Ensures limit wanted' pool := by
  induction ensures with
  | intro goesOn ends steps ih =>
      exact .intro goesOn (fun outcome isEnd => weaken outcome (ends outcome isEnd)) ih

/-- Whichever steps lead to an end, it is one that is ensured. -/
theorem Ensures.of_schedule (ensures : Ensures limit wanted pool)
    (schedule : Relation.ReflTransGen (Step limit) pool next) (ends : Ends next outcome) :
    wanted outcome := by
  induction schedule using Relation.ReflTransGen.head_induction_on with
  | refl =>
      obtain ⟨-, isEnd, -⟩ := ensures
      exact isEnd outcome ends
  | head step _ ih =>
      obtain ⟨-, -, steps⟩ := ensures
      exact ih (steps _ step)

/-- As many of those that wait may be started as there is room for. -/
theorem Ensures.starts {waiting : List Work} {underWay : Multiset Work} {rows : List Row}
    (ensures : Ensures limit wanted ⟨waiting, underWay, rows⟩) {count : Nat}
    (room : underWay.card + count ≤ limit) :
    Ensures limit wanted ⟨waiting.drop count, underWay + (waiting.take count), rows⟩ := by
  induction count generalizing waiting underWay with
  | zero => simpa using ensures
  | succ count ih =>
      cases waiting with
      | nil => simpa using ensures
      | cons work waiting =>
          obtain ⟨-, -, steps⟩ := ensures
          have started := ih (steps _ (.start (by omega))) (by rw [Multiset.card_cons]; omega)
          rw [List.drop_succ_cons, List.take_succ_cons, ← Multiset.cons_coe, Multiset.add_cons,
            ← Multiset.cons_add]
          exact started

/-- Some look-ups are done, and the others wait or are under way. -/
structure Accounts (works done : List Work) (pool : Pool) : Prop where
  all : (done : Multiset Work) + pool.underWay + pool.waiting = works
  rows : pool.rows = done.flatMap Work.rows
  succeeded : ∀ work ∈ done, ∃ rows, work.answer = .ok rows

/-- All are done, in some order, or one of them has failed. -/
inductive IsOutcome (works : List Work) : Except Failure (List Row) → Prop
  | done {done : List Work} (all : done.Perm works)
      (succeeded : ∀ work ∈ done, ∃ rows, work.answer = .ok rows) :
      IsOutcome works (.ok (done.flatMap Work.rows))
  | failed {work : Work} {reason : String} (member : work ∈ works)
      (fails : work.answer = .error reason) : IsOutcome works (.error ⟨work.batch, reason⟩)

theorem Accounts.step (accounts : Accounts works done pool) (step : Step limit pool next) :
    ∃ done, Accounts works done next := by
  obtain ⟨all, rows, succeeded⟩ := accounts
  cases step with
  | start room =>
      refine ⟨done, ?_, rows, succeeded⟩
      rw [← all]
      simp only [← Multiset.cons_coe, Multiset.add_cons, Multiset.cons_add]
  | @finish work found _ _ _ succeeds =>
      have isRows : work.rows = found := by rw [Work.rows, succeeds]
      refine ⟨done ++ [work], ?_, ?_, ?_⟩
      · rw [← all, ← Multiset.coe_add, Multiset.coe_singleton, Multiset.add_assoc,
          Multiset.add_assoc, Multiset.add_assoc, Multiset.cons_add, Multiset.singleton_add]
      · rw [List.flatMap_append, List.flatMap_singleton, isRows, ← rows]
      · intro other member
        obtain before | isLast := List.mem_append.mp member
        · exact succeeded other before
        · exact ⟨found, List.mem_singleton.mp isLast ▸ succeeds⟩

theorem Accounts.ends (accounts : Accounts works done pool) (ends : Ends pool outcome) :
    IsOutcome works outcome := by
  obtain ⟨all, rows, succeeded⟩ := accounts
  cases ends with
  | done =>
      have perm : done.Perm works := by
        rw [← Multiset.coe_eq_coe, ← all]
        simp
      dsimp only at rows
      rw [rows]
      exact .done perm succeeded
  | @fail work reason _ _ _ fails =>
      refine .failed ?_ fails
      rw [← Multiset.mem_coe, ← all]
      simp

/-- While not all are done there is one to start, or one under way that may be done or fail. -/
theorem goesOn (positive : 0 < limit) (pool : Pool) :
    (∃ outcome, Ends pool outcome) ∨ ∃ next, Step limit pool next := by
  obtain ⟨waiting, underWay, rows⟩ := pool
  obtain rfl | ⟨work, member⟩ := underWay.empty_or_exists_mem
  · cases waiting with
    | nil => exact .inl ⟨_, .done⟩
    | cons work waiting => exact .inr ⟨_, .start (by simpa using positive)⟩
  · obtain ⟨others, rfl⟩ := Multiset.exists_cons_of_mem member
    cases answer : work.answer with
    | error reason => exact .inl ⟨_, .fail answer⟩
    | ok found => exact .inr ⟨_, .finish answer⟩

/-- How much is to come: each look-up is started, and it is done. -/
def toCome (pool : Pool) : Nat := 2 * pool.waiting.length + pool.underWay.card

theorem Step.toCome_lt (step : Step limit pool next) : next.toCome < pool.toCome := by
  cases step with
  | start room =>
      simp only [toCome, List.length_cons, Multiset.card_cons]
      omega
  | finish succeeds =>
      simp only [toCome, Multiset.card_cons]
      omega

theorem Accounts.ensures (positive : 0 < limit) (accounts : Accounts works done pool) :
    Ensures limit (IsOutcome works) pool := by
  induction toCome : pool.toCome using Nat.strong_induction_on generalizing pool done with
  | _ n ih =>
      refine .intro (goesOn positive pool) (fun outcome => accounts.ends) fun next step => ?_
      obtain ⟨later, accounts⟩ := accounts.step step
      exact ih next.toCome (toCome ▸ step.toCome_lt) accounts rfl

/-- Under every schedule all look-ups are done, in some order, or one of them fails. -/
theorem ensures_outcome (positive : 0 < limit) (works : List Work) :
    Ensures limit (IsOutcome works) ⟨works, 0, []⟩ := by
  have accounts : Accounts works [] ⟨works, 0, []⟩ := ⟨by simp, rfl, nofun⟩
  exact accounts.ensures positive

end Pool

end PathQuery.Choice
