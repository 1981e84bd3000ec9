import PathQuery.Filter.Template

namespace PathQuery.Choice

/-! # Look-ups

Look-ups are started in order, and no more than a given number are under way at once.
They take turns: a look-up whose answer is not there yet goes to the back of the queue.
When one is done the next that waits joins the queue.  The first that fails ends the
run, and the rows of the others are kept in the order in which they were done.
-/

/-- What a look-up comes to: after `delay` turns without an answer, rows or a failure. -/
structure Reply where
  delay : Nat
  answer : Except String (List Row)

structure Task where
  batch : Nat
  filter : String
  started : Bool
  reply : Reply

structure Failure where
  batch : Nat
  reason : String
  deriving DecidableEq

def Failure.message (failure : Failure) : String :=
  "lookup for choice batch " ++ toString failure.batch ++ " failed: " ++ failure.reason

structure Run where
  waiting : List Task
  queue : List Task
  /-- The filters of the look-ups that were started, in order. -/
  calls : List String
  underWay : Nat
  /-- The most look-ups that were under way at once. -/
  mostUnderWay : Nat
  rows : List Row

namespace Run

/-- Let waiting look-ups join the queue as far as the limit allows. -/
def refill (limit : Nat) (run : Run) : Run :=
  let count := limit - run.queue.length
  { run with
    waiting := run.waiting.drop count
    queue := run.queue ++ run.waiting.take count }

def start (task : Task) (run : Run) : Run :=
  if task.started then run
  else
    { run with
      calls := run.calls ++ [task.filter]
      underWay := run.underWay + 1
      mostUnderWay := max run.mostUnderWay (run.underWay + 1) }

/-- The turn of a look-up, which is not in the queue.  A failure comes with the run as
    it was then. -/
def turn (limit : Nat) (task : Task) (run : Run) : Run × Option Failure :=
  let run := run.start task
  match task.reply.delay with
  | delay + 1 =>
    let task := { task with started := true, reply := { task.reply with delay } }
    ({ run with queue := run.queue ++ [task] }, none)
  | 0 =>
    let run := { run with underWay := run.underWay - 1 }
    match task.reply.answer with
    | .error reason => (run, some ⟨task.batch, reason⟩)
    | .ok rows => (({ run with rows := run.rows ++ rows }).refill limit, none)

def turnsLeft (run : Run) : Nat :=
  (run.queue ++ run.waiting).foldl (fun turns task => turns + (task.reply.delay + 1)) 0

/-- Take turns until no look-up is left or one fails. -/
def takeTurns (limit : Nat) : Nat → Run → Run × Option Failure
  | 0, run => (run, none)
  | fuel + 1, run =>
    match run.queue with
    | [] => (run, none)
    | task :: queue =>
      match turn limit task { run with queue } with
      | (run, some failure) => (run, some failure)
      | (run, none) => takeTurns limit fuel run

/-- Run the look-ups with some filters, with at most `limit` under way. -/
def ofFilters (limit : Nat) (lookup : String → Reply) (filters : List String) :
    Run × Option Failure :=
  let tasks := filters.zipIdx.map fun (filter, batch) => ⟨batch, filter, false, lookup filter⟩
  let run : Run := Run.refill limit ⟨tasks, [], [], 0, 0, []⟩
  takeTurns limit run.turnsLeft run

end Run

end PathQuery.Choice
