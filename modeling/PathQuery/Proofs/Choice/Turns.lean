import Mathlib.Algebra.GroupWithZero.Nat
import PathQuery.Proofs.Choice.Schedule

namespace PathQuery.Choice

/-! # Taking turns

Look-ups that take turns follow a schedule: a turn without an answer changes nothing, one with
an answer ends the look-up, and whatever joins the queue is started.  So they come to what is
ensured under every schedule.
-/

open Pool

variable {limit : Nat} {wanted : Except Failure (List Row) → Prop}

def Task.work (task : Task) : Work := ⟨task.batch, task.reply.answer⟩

namespace Run

/-- Which look-ups wait and which are under way, without their order and their delays. -/
def pool (run : Run) : Pool where
  waiting := run.waiting.map Task.work
  underWay := (run.queue.map Task.work : List Work)
  rows := run.rows

/-- What a run came to. -/
def outcome : Run × Option Failure → Except Failure (List Row)
  | (_, some failure) => .error failure
  | (run, none) => .ok run.rows

/-- The queue is not longer than the limit, and only shorter when nothing waits. -/
structure Fits (limit : Nat) (run : Run) : Prop where
  within : run.queue.length ≤ limit
  full : run.waiting = [] ∨ run.queue.length = limit

theorem turnsLeft_eq (run : Run) :
    run.turnsLeft = ((run.queue ++ run.waiting).map fun task => task.reply.delay + 1).sum := by
  rw [turnsLeft, List.sum_eq_foldl, List.foldl_map]

theorem refill_fits {run : Run} (within : run.queue.length ≤ limit) :
    (run.refill limit).Fits limit := by
  simp only [refill]
  constructor
  · simp only [List.length_append, List.length_take]
    omega
  · by_cases enough : run.waiting.length ≤ limit - run.queue.length
    · exact .inl (List.drop_eq_nil_of_le enough)
    · refine .inr ?_
      simp only [List.length_append, List.length_take]
      omega

theorem refill_turnsLeft (limit : Nat) (run : Run) :
    (run.refill limit).turnsLeft = run.turnsLeft := by
  rw [turnsLeft_eq, turnsLeft_eq]
  simp only [refill, List.append_assoc, List.take_append_drop]

/-- What joins the queue is started. -/
theorem refill_ensures {run : Run} (ensures : Ensures limit wanted run.pool)
    (within : run.queue.length ≤ limit) : Ensures limit wanted (run.refill limit).pool := by
  have room : Multiset.card (run.queue.map Task.work : Multiset Work) +
      (limit - run.queue.length) ≤ limit := by
    rw [Multiset.coe_card, List.length_map]
    omega
  have started := ensures.starts room
  simpa only [pool, refill, List.map_drop, List.map_take, List.map_append, Multiset.coe_add]
    using started

/-- A look-up without an answer goes to the back of the queue.  Else it has failed, or its rows
    are added and others join the queue. -/
theorem turn_cases (limit : Nat) (task : Task) (run : Run) :
    (∃ (again : Task) (later : Run), again.work = task.work ∧
      task.reply.delay = again.reply.delay + 1 ∧ later.waiting = run.waiting ∧
      later.queue = run.queue ++ [again] ∧ later.rows = run.rows ∧
      turn limit task run = (later, none)) ∨
    (∃ (reason : String) (later : Run), task.work.answer = .error reason ∧
      turn limit task run = (later, some ⟨task.work.batch, reason⟩)) ∨
    ∃ (found : List Row) (later : Run), task.work.answer = .ok found ∧ later.waiting = run.waiting ∧
      later.queue = run.queue ∧ later.rows = run.rows ++ found ∧
      turn limit task run = (later.refill limit, none) := by
  have waiting : (run.start task).waiting = run.waiting := by
    unfold start
    split <;> rfl
  have queue : (run.start task).queue = run.queue := by
    unfold start
    split <;> rfl
  have rows : (run.start task).rows = run.rows := by
    unfold start
    split <;> rfl
  unfold turn
  generalize run.start task = started at *
  cases hasDelay : task.reply.delay with
  | succ delay =>
      let again : Task := { task with started := true, reply := { task.reply with delay := delay } }
      refine .inl ⟨again, { started with queue := started.queue ++ [again] }, rfl, rfl, waiting, ?_,
        rows, rfl⟩
      dsimp only
      rw [queue]
  | zero =>
      refine .inr ?_
      cases answer : task.reply.answer with
      | error reason => exact .inl ⟨reason, _, answer, rfl⟩
      | ok found =>
          refine .inr ⟨found, { started with
            underWay := started.underWay - 1
            rows := started.rows ++ found }, answer, waiting, queue, ?_, rfl⟩
          dsimp only
          rw [rows]

/-- Nothing waits where the queue is empty, so the run has come to its end. -/
theorem ended_of_queue_nil (positive : 0 < limit) {run : Run}
    (ensures : Ensures limit wanted run.pool) (fits : run.Fits limit) (empty : run.queue = []) :
    wanted (.ok run.rows) := by
  have nothing : run.waiting = [] := by
    refine fits.full.resolve_right fun full => ?_
    rw [empty, List.length_nil] at full
    omega
  obtain ⟨-, ends, -⟩ := ensures
  refine ends _ ?_
  rw [pool, empty, nothing]
  exact .done

/-- A turn ends the run as it is ensured, or it is still ensured and fewer turns are left. -/
theorem turn_ensured {task : Task} {queue : List Task} {run : Run}
    (ensures : Ensures limit wanted run.pool) (fits : run.Fits limit)
    (isQueue : run.queue = task :: queue) :
    (∃ later failure, turn limit task { run with queue } = (later, some failure) ∧
      wanted (.error failure)) ∨
    ∃ later, turn limit task { run with queue } = (later, none) ∧
      Ensures limit wanted later.pool ∧ later.Fits limit ∧ later.turnsLeft < run.turnsLeft := by
  have underWay : run.pool = ⟨run.waiting.map Task.work,
      task.work ::ₘ (queue.map Task.work : List Work), run.rows⟩ := by
    rw [pool, isQueue]
    rfl
  have turns := turnsLeft_eq run
  rw [isQueue, List.cons_append, List.map_cons, List.sum_cons] at turns
  have within := fits.within
  rw [isQueue, List.length_cons] at within
  obtain ⟨again, later, sameWork, delay, waiting, isLater, rows, taken⟩ |
    ⟨reason, later, fails, taken⟩ | ⟨found, later, succeeds, waiting, isLater, rows, taken⟩ :=
    turn_cases limit task { run with queue }
  · dsimp only at waiting isLater rows
    have samePool : later.pool = run.pool := by
      rw [underWay, pool, waiting, isLater, rows, List.map_append, List.map_singleton, sameWork,
        ← Multiset.coe_add, Multiset.coe_singleton, Multiset.add_comm, Multiset.singleton_add]
    refine .inr ⟨later, taken, samePool ▸ ensures, ⟨?_, ?_⟩, ?_⟩
    · rw [isLater, List.length_append, List.length_singleton]
      exact within
    · rw [isLater, waiting, List.length_append, List.length_singleton]
      simpa only [isQueue, List.length_cons] using fits.full
    · rw [turns, turnsLeft_eq, isLater, waiting]
      simp only [List.map_append, List.map_cons, List.map_nil, List.sum_append,
        List.sum_cons, List.sum_nil]
      omega
  · obtain ⟨-, ends, -⟩ := ensures
    rw [underWay] at ends
    exact .inl ⟨later, _, taken, ends _ (.fail fails)⟩
  · dsimp only at waiting isLater rows
    have done : Ensures limit wanted later.pool := by
      obtain ⟨-, -, steps⟩ := ensures
      rw [underWay] at steps
      have next := steps _ (.finish succeeds)
      rwa [pool, waiting, isLater, rows]
    have shorter : later.queue.length ≤ limit := by
      rw [isLater]
      omega
    refine .inr ⟨later.refill limit, taken, refill_ensures done shorter, refill_fits shorter, ?_⟩
    rw [refill_turnsLeft, turns, turnsLeft_eq, isLater, waiting]
    omega

/-- With enough turns the look-ups come to what is ensured under every schedule. -/
theorem takeTurns_ensured (positive : 0 < limit) {fuel : Nat} {run : Run}
    (ensures : Ensures limit wanted run.pool) (fits : run.Fits limit)
    (enough : run.turnsLeft ≤ fuel) : wanted (outcome (takeTurns limit fuel run)) := by
  induction fuel generalizing run with
  | zero =>
      refine ended_of_queue_nil positive ensures fits ?_
      cases isQueue : run.queue with
      | nil => rfl
      | cons task queue =>
          rw [turnsLeft_eq, isQueue, List.cons_append, List.map_cons, List.sum_cons] at enough
          omega
  | succ fuel ih =>
      rw [takeTurns]
      cases isQueue : run.queue with
      | nil =>
          simp only
          exact ended_of_queue_nil positive ensures fits isQueue
      | cons task queue =>
          obtain ⟨later, failure, taken, isWanted⟩ | ⟨later, taken, ensures, fits, fewer⟩ :=
            turn_ensured ensures fits isQueue
          · simp only [taken]
            exact isWanted
          · simp only [taken]
            exact ih ensures fits (by omega)

/-- What each filter comes to. -/
def works (lookup : String → Reply) (filters : List String) : List Work :=
  filters.zipIdx.map fun entry => ⟨entry.2, (lookup entry.1).answer⟩

/-- The look-ups that were run with some filters come to what is ensured under every schedule. -/
theorem ofFilters_ensured (positive : 0 < limit) {lookup : String → Reply} {filters : List String}
    (ensures : Ensures limit wanted ⟨works lookup filters, 0, []⟩) :
    wanted (outcome (ofFilters limit lookup filters)) := by
  refine takeTurns_ensured positive (refill_ensures ?_ (Nat.zero_le limit))
    (refill_fits (Nat.zero_le limit)) (Nat.le_refl _)
  rw [pool, List.map_map]
  exact ensures

end Run

end PathQuery.Choice
