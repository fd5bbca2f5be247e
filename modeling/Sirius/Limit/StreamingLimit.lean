import Sirius.Lib.Runs
import Sirius.Lib.ThreadPool

/-!
# The streaming limit

`sirius_physical_streaming_limit` (`src/op/sirius_physical_limit.cpp`) counts down two atomic
counters, the rows still to be skipped and the rows still to be produced. Every call of `execute` goes
through the batches of one task and claims rows of both counters, batch by batch, by a load and a
compare-exchange in a loop. What a call has claimed it materializes; if that allocation fails, the task
is rescheduled with the same batches (`src/pipeline/gpu_pipeline_task.cpp`,
`src/pipeline/gpu_pipeline_executor.cpp`).

A batch is its number of rows. A call moves by single atomic operations, and the labels of a run say
which call moves, which compare-exchange fails without a reason and which allocation fails.
-/

namespace Sirius.Limit

open Lib

/-! ## Calls -/

/-- Where a call of `execute` stands with its current batch of `rows` rows. -/
inductive Phase where
  /-- At the head of the loop, with no current batch. -/
  | check
  /-- In `claim(_remaining_offset, rows)`: before the load, before the exchange. -/
  | loadOffset (rows : Nat)
  | casOffset (rows current : Nat)
  /-- In `claim(_remaining_limit, rows - skip)`. -/
  | loadLimit (rows skip : Nat)
  | casLimit (rows skip current : Nat)
  /-- Before the slice of `take` rows is copied. -/
  | materialize (take : Nat)
  /-- Behind the loop. -/
  | finish
  deriving DecidableEq, Repr

/-- A call of `execute`, with the batches of its task, those behind the current one, and the rows of
the output batches so far. -/
structure Exec where
  input : List Nat
  todo : List Nat
  phase : Phase := .check
  output : Nat := 0
  retryCount : Nat := 0
  deriving DecidableEq, Repr

/-- The members of the operator. The counters of a constant limit and offset are never negative. -/
structure Counters where
  remainingOffset : Nat
  remainingLimit : Nat
  limitExhausted : Bool := false
  deriving DecidableEq, Repr

/-- With `skip` rows of the batch claimed for the offset, the call goes on to the limit if some are
left. -/
def Exec.skipped (e : Exec) (rows skip : Nat) : Exec :=
  { e with phase := if rows - skip = 0 then .check else .loadLimit rows skip }

def Exec.next (c : Counters) (e : Exec) : Counters × Exec :=
  match e.phase with
  | .check =>
    match e.todo with
    | [] => (c, { e with phase := .finish })
    | rows :: rest =>
      if c.remainingLimit = 0 then (c, { e with phase := .finish })
      else if rows = 0 then (c, { e with todo := rest })
      else (c, { e with todo := rest, phase := .loadOffset rows })
  | .loadOffset rows =>
    if 0 < c.remainingOffset then (c, { e with phase := .casOffset rows c.remainingOffset })
    else (c, e.skipped rows 0)
  | .casOffset rows current =>
    if c.remainingOffset = current then
      ({ c with remainingOffset := current - min current rows }, e.skipped rows (min current rows))
    else (c, { e with phase := .loadOffset rows })
  | .loadLimit rows skip =>
    if 0 < c.remainingLimit then (c, { e with phase := .casLimit rows skip c.remainingLimit })
    else (c, { e with phase := .check })
  | .casLimit rows skip current =>
    if c.remainingLimit = current then
      ({ c with remainingLimit := current - min current (rows - skip) },
        { e with phase := .materialize (min current (rows - skip)) })
    else (c, { e with phase := .loadLimit rows skip })
  | .materialize take => (c, { e with phase := .check, output := e.output + take })
  | .finish => (c, e)

/-- A compare-exchange that fails although the counter has the expected value. -/
def Exec.spurious (e : Exec) : Option Exec :=
  match e.phase with
  | .casOffset rows _ => some { e with phase := .loadOffset rows }
  | .casLimit rows skip _ => some { e with phase := .loadLimit rows skip }
  | _ => none

/-! ## Tasks -/

/-- A task that is not running, with how often it has been rescheduled. -/
structure Waiting where
  input : List Nat
  retryCount : Nat := 0
  deriving DecidableEq, Repr

structure State where
  counters : Counters
  waiting : List Waiting
  running : List Exec := []
  /-- Rows of the outputs that `execute` has returned. -/
  emitted : Nat := 0
  deriving DecidableEq, Repr

inductive Label where
  | start (i : Nat)
  | run (i : Nat)
  | spurious (i : Nat)
  | oom (i : Nat)
  deriving DecidableEq, Repr

def maxOomRetries : Nat := 100

def step (s : State) : Label → Option State
  | .start i =>
    match s.waiting[i]? with
    | some w => some { s with
        waiting := s.waiting.eraseIdx i
        running := { input := w.input, todo := w.input, retryCount := w.retryCount } :: s.running }
    | none => none
  | .run i =>
    match s.running[i]? with
    | some e =>
      if e.phase = .finish then
        some { s with
          counters := { s.counters with
            limitExhausted := s.counters.limitExhausted || s.counters.remainingLimit == 0 }
          running := s.running.eraseIdx i
          emitted := s.emitted + e.output }
      else some { s with
        counters := (e.next s.counters).1
        running := s.running.set i (e.next s.counters).2 }
    | none => none
  | .spurious i =>
    match s.running[i]? with
    | some e => e.spurious.map fun e' => { s with running := s.running.set i e' }
    | none => none
  -- What the call has claimed stays claimed.
  | .oom i =>
    match s.running[i]? with
    | some e =>
      match e.phase with
      | .materialize _ =>
        if e.retryCount + 1 ≤ maxOomRetries then some { s with
          waiting := { input := e.input, retryCount := e.retryCount + 1 } :: s.waiting
          running := s.running.eraseIdx i }
        else none
      | _ => none
    | none => none

/-- The operator with its constants, and tasks with all batches of the input. -/
def State.initial (limit offset : Nat) (tasks : List (List Nat)) : State where
  counters := { remainingOffset := offset, remainingLimit := limit }
  waiting := tasks.map fun input => { input }

/-- No call is running, and the input is consumed or the limit exhausted. -/
def State.Done (s : State) : Prop :=
  s.running = [] ∧ (s.waiting = [] ∨ s.counters.remainingLimit = 0)

instance (s : State) : Decidable s.Done := inferInstanceAs (Decidable (_ ∧ _))

end Sirius.Limit
