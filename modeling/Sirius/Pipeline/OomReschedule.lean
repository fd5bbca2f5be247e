import Mathlib.Data.List.Nodup
import Mathlib.Data.List.Range

/-!
# Rescheduling a GPU pipeline task after an out-of-memory failure

A `gpu_pipeline_task` runs the operators of its pipeline on one input. An allocation that fails
throws an `oom_reschedule_exception` carrying the intermediate data and the index of the operator
to resume at; `gpu_pipeline_executor` catches it, wraps both into a new local state and schedules a
new task. The module models

* `computeTask` and `execute` (`src/pipeline/gpu_pipeline_task.cpp`),
* the catch block of the worker lambda (`src/pipeline/gpu_pipeline_executor.cpp`), as
  `handleOomReschedule`, and
* the whole chain of tasks a given sequence of failures leads to, as `runChain`.

Operators are arbitrary functions on the operator data. The executor state logs the index of every
operator application that succeeded, so that "each operator ran once, in order" can be said.

The resume index of a failure inside operator `i` is `i`, that of a failure while preparing the
input is the literal `0`. The second one is right only for a task that starts at operator `0`,
which is what `oomChain_iff` makes precise.
-/

namespace Sirius.OomReschedule

open List

universe u

variable {D : Type u}

/-! ## Tasks, failures and errors -/

/-- An operator of a pipeline: its name and what its `execute` computes. -/
structure Operator (D : Type u) where
  name : String
  execute : D → D

/-- The part of a `sirius_pipeline` a task reads: its operators, in order, and its sink. -/
structure Pipeline (D : Type u) where
  operators : List (Operator D)
  sink : Option (Operator D)

structure LocalState (D : Type u) where
  inputData : Option D
  startOperatorIndex : Nat := 0
  retryCount : Nat := 0
  originalTaskId : Option Nat := none

structure Task (D : Type u) where
  taskId : Nat
  localState : LocalState D

/-- Where an attempt runs out of memory: in `prepare_for_processing`, or in operator `i`. -/
inductive OomFailure where
  | prepare
  | operator (i : Nat)
  deriving DecidableEq, Repr

/-- What `gpu_pipeline_task::execute` can throw. -/
inductive TaskError (D : Type u) where
  | oomReschedule (intermediateData : D) (resumeOperatorIndex : Nat) (message : String)
  | runtimeError (message : String)
  /-- `duckdb::vector` checks its index. -/
  | indexOutOfBounds (index size : Nat)

/-- What the executor has done so far: outputs handed to the sink, indices of the operator
applications that returned, the error reported to the completion handler, and the task creator's
id counter. -/
structure ExecutorState (D : Type u) where
  published : List D := []
  applied : List Nat := []
  reportedError : Option String := none
  nextTaskId : Nat := 0

/-! ## One task -/

/-- The loop of `compute_task`, from operator `i` on; `failure` is where this attempt runs out of
memory, if it does. Returns the log of applications next to the result. -/
def runOperators (failure : Option OomFailure) :
    Nat → List (Operator D) → D → List Nat → Except (TaskError D) D × List Nat
  | _, [], data, log => (.ok data, log)
  | i, op :: ops, data, log =>
    if failure = some (.operator i) then
      (.error (.oomReschedule data i s!"OOM at operator {op.name} (index {i})"), log)
    else
      runOperators failure (i + 1) ops (op.execute data) (log ++ [i])

def computeTask (p : Pipeline D) (failure : Option OomFailure) (start : Nat) (data : D)
    (log : List Nat) : Except (TaskError D) D × List Nat :=
  runOperators failure start (p.operators.drop start) data log

def publishOutput (p : Pipeline D) (output : D) (st : ExecutorState D) :
    Except (TaskError D) (ExecutorState D) :=
  match p.sink with
  | some _ => .ok { st with published := st.published ++ [output] }
  | none => .error (.runtimeError "Sink operator not found")

/-- `gpu_pipeline_task::execute`. The resume index of a failed preparation is the literal `0` of
the source, whatever the start index of the task is. -/
def execute (p : Pipeline D) (failure : Option OomFailure) (ls : LocalState D)
    (st : ExecutorState D) : Option (TaskError D) × ExecutorState D :=
  if p.operators.length ≤ ls.startOperatorIndex then
    (some (.indexOutOfBounds ls.startOperatorIndex p.operators.length), st)
  else
    match ls.inputData with
    | none => (some (.runtimeError "gpu_pipeline_task::execute: input_data is null"), st)
    | some data =>
      if failure = some .prepare then
        (some (.oomReschedule data 0 "OOM while preparing batches for processing: "), st)
      else
        match computeTask p failure ls.startOperatorIndex data st.applied with
        | (.error e, log) => (some e, { st with applied := log })
        | (.ok output, log) =>
          match publishOutput p output { st with applied := log } with
          | .ok st' => (none, st')
          | .error e => (some e, { st with applied := log })

/-! ## The executor's catch block and the chain of tasks -/

def maxOomRetries : Nat := 100

def reportError (msg : String) (st : ExecutorState D) : ExecutorState D :=
  { st with reportedError := st.reportedError <|> some msg }

/-- How often the work of a task has been rescheduled once it fails again. -/
def nextRetryCount (ls : LocalState D) : Nat :=
  match ls.originalTaskId with
  | some _ => ls.retryCount + 1
  | none => 1

def origTaskId (t : Task D) : Nat := t.localState.originalTaskId.getD t.taskId

/-- The task `create_rescheduled_task` builds from the exception's data and resume index. -/
def rescheduledTask (t : Task D) (newTaskId : Nat) (data : D) (resume : Nat) : Task D :=
  { taskId := newTaskId,
    localState := { inputData := some data, startOperatorIndex := resume,
                    retryCount := nextRetryCount t.localState,
                    originalTaskId := some (origTaskId t) } }

/-- The catch block for `oom_reschedule_exception`: the task to schedule next, if any. -/
def handleOomReschedule (t : Task D) (data : D) (resume : Nat) (st : ExecutorState D) :
    ExecutorState D × Option (Task D) :=
  if st.reportedError.isSome then
    (st, none)
  else if nextRetryCount t.localState > maxOomRetries then
    (reportError (s!"GPU pipeline task exceeded maximum OOM retry limit ({maxOomRetries})" ++
      s!" for original task {origTaskId t}") st, none)
  else
    ({ st with nextTaskId := st.nextTaskId + 1 },
      some (rescheduledTask t st.nextTaskId data resume))

def runTask (p : Pipeline D) (failure : Option OomFailure) (t : Task D) (st : ExecutorState D) :
    ExecutorState D × Option (Task D) :=
  match execute p failure t.localState st with
  | (none, st') => (st', none)
  | (some (.oomReschedule data resume _), st') => handleOomReschedule t data resume st'
  | (some (.runtimeError msg), st') => (reportError msg st', none)
  | (some (.indexOutOfBounds i n), st') =>
    (reportError s!"Attempted to access index {i} within vector of size {n}" st', none)

/-- The chain of rescheduled tasks: attempt number `k` runs into the `k`-th failure, the attempt
after the last failure into none. -/
def runChain (p : Pipeline D) : List OomFailure → Task D → ExecutorState D → ExecutorState D
  | [], t, st => (runTask p none t st).1
  | f :: fs, t, st =>
    match runTask p (some f) t st with
    | (st', some t') => runChain p fs t' st'
    | (st', none) => st'

def Task.initial (taskId : Nat) (input : D) : Task D :=
  { taskId, localState := { inputData := some input } }

/-- What the pipeline is for: all operators, first to last. -/
def applyAll (ops : List (Operator D)) (input : D) : D :=
  ops.foldl (fun data op => op.execute data) input

/-- The failures a chain of tasks can meet, the next task starting at operator `start` of `n`: an
operator below the start index is not run, so it cannot fail. -/
def CanHappen (n : Nat) : Nat → List OomFailure → Prop
  | _, [] => True
  | _, .prepare :: fs => CanHappen n 0 fs
  | start, .operator i :: fs => start ≤ i ∧ i < n ∧ CanHappen n i fs

/-- No input preparation fails once a task had to be resumed past operator `0`. -/
def NoPrepareAfterProgress (fs : List OomFailure) : Prop :=
  ∀ before after i, fs = before ++ .prepare :: after → .operator i ∈ before → i = 0

/-! ## What one attempt does -/

@[simp] theorem applyAll_nil (input : D) : applyAll [] input = input := rfl

@[simp] theorem applyAll_cons (op : Operator D) (ops : List (Operator D)) (input : D) :
    applyAll (op :: ops) input = applyAll ops (op.execute input) := rfl

variable (ops : List (Operator D))

theorem applyAll_append (ops' : List (Operator D)) (input : D) :
    applyAll (ops ++ ops') input = applyAll ops' (applyAll ops input) := by
  simp [applyAll]

/-- Running the operators from `start` on what the operators below it computed is running them
all. -/
theorem applyAll_drop_take (start : Nat) (input : D) :
    applyAll (ops.drop start) (applyAll (ops.take start) input) = applyAll ops input := by
  rw [← applyAll_append, take_append_drop]

variable {start i : Nat}

theorem applyAll_take_drop_take (h : start ≤ i) (input : D) :
    applyAll ((ops.drop start).take (i - start)) (applyAll (ops.take start) input) =
      applyAll (ops.take i) input := by
  obtain ⟨k, rfl⟩ := Nat.exists_eq_add_of_le h
  rw [← applyAll_append, Nat.add_sub_cancel_left, ← take_add]

theorem runOperators_ok {failure : Option OomFailure} (i : Nat) (data : D) (log : List Nat)
    (h : ∀ j, i ≤ j → j < i + ops.length → failure ≠ some (.operator j)) :
    runOperators failure i ops data log =
      (.ok (applyAll ops data), log ++ range' i ops.length) := by
  induction ops generalizing i data log with
  | nil => simp [runOperators]
  | cons op ops ih =>
    have hi : failure ≠ some (.operator i) := h i le_rfl (by simp)
    have hops : ∀ j, i + 1 ≤ j → j < i + 1 + ops.length → failure ≠ some (.operator j) := by
      intro j hj hj'
      apply h j (by omega)
      simp only [length_cons]
      omega
    rw [runOperators, if_neg hi, ih _ _ _ hops]
    simp [range'_succ]

/-- A failure inside operator `j` hands back the input of operator `j`. -/
theorem runOperators_oom {j : Nat} (i : Nat) (data : D) (log : List Nat) (hi : i ≤ j)
    (hj : j < i + ops.length) :
    ∃ msg, runOperators (some (.operator j)) i ops data log =
      (.error (.oomReschedule (applyAll (ops.take (j - i)) data) j msg),
        log ++ range' i (j - i)) := by
  induction ops generalizing i data log with
  | nil => simp only [length_nil] at hj; omega
  | cons op ops ih =>
    rw [runOperators]
    by_cases hij : j = i
    · subst hij
      exact ⟨_, by rw [if_pos rfl]; simp; rfl⟩
    · have hne : (some (OomFailure.operator j)) ≠ some (.operator i) := by simpa using hij
      rw [if_neg hne]
      simp only [length_cons] at hj
      obtain ⟨msg, hmsg⟩ := ih (i + 1) (op.execute data) (log ++ [i]) (by omega) (by omega)
      obtain ⟨k, hk⟩ : ∃ k, j - i = k + 1 := ⟨j - i - 1, by omega⟩
      have hk' : j - (i + 1) = k := by omega
      rw [hk'] at hmsg
      exact ⟨msg, by rw [hmsg, hk]; simp [range'_succ]⟩

/-- The state of a chain between two attempts: task `t` starts at `start` on `data`, and it may
fail `fuel` more times before the retry limit. -/
structure Pending (t : Task D) (st : ExecutorState D) (start : Nat) (data : D) (fuel : Nat) :
    Prop where
  input : t.localState.inputData = some data
  start_eq : t.localState.startOperatorIndex = start
  no_error : st.reportedError = none
  retries : fuel = 0 ∨ nextRetryCount t.localState + fuel ≤ maxOomRetries + 1

theorem pending_initial (taskId next : Nat) (input : D) {fuel : Nat} (h : fuel ≤ maxOomRetries) :
    Pending (Task.initial taskId input) { nextTaskId := next } 0 input fuel where
  input := rfl
  start_eq := rfl
  no_error := rfl
  retries := Or.inr (by simp [Task.initial, nextRetryCount]; omega)

/-- The catch block schedules exactly one task, which resumes where the exception says. -/
theorem Pending.reschedule {t : Task D} {st : ExecutorState D} {data : D} {fuel : Nat}
    (h : Pending t st start data (fuel + 1)) (data' : D) (resume : Nat) (log : List Nat) :
    ∃ t' st', handleOomReschedule t data' resume { st with applied := log } = (st', some t') ∧
      Pending t' st' resume data' fuel ∧ st'.published = st.published ∧ st'.applied = log := by
  have hr : ¬ nextRetryCount t.localState > maxOomRetries := by
    rcases h.retries with h0 | h0 <;> omega
  refine ⟨rescheduledTask t st.nextTaskId data' resume,
    { st with applied := log, nextTaskId := st.nextTaskId + 1 }, ?_, ⟨rfl, rfl, h.no_error, ?_⟩,
    rfl, rfl⟩
  · simp only [handleOomReschedule, h.no_error, Option.isSome_none, Bool.false_eq_true, if_false,
      if_neg hr]
  · rcases h.retries with h0 | h0
    · omega
    · right
      show nextRetryCount t.localState + 1 + fuel ≤ maxOomRetries + 1
      omega

section Steps

variable {p : Pipeline D} {t : Task D} {st : ExecutorState D} {start fuel : Nat} {data : D}

/-- An attempt whose preparation fails is followed by one that starts at operator `0`. -/
theorem runChain_prepare (h : Pending t st start data (fuel + 1))
    (hs : start < p.operators.length) (fs : List OomFailure) :
    ∃ t' st', runChain p (.prepare :: fs) t st = runChain p fs t' st' ∧
      Pending t' st' 0 data fuel ∧ st'.published = st.published ∧ st'.applied = st.applied := by
  obtain ⟨t', st', hre, hp, hpub, happ⟩ := h.reschedule data 0 st.applied
  refine ⟨t', st', ?_, hp, hpub, happ⟩
  have hs' : ¬ p.operators.length ≤ start := by omega
  rw [runChain, runTask, execute, h.start_eq, if_neg hs', h.input]
  simp only [if_true]
  rw [hre]

/-- An attempt that fails inside operator `i` is followed by one that starts at operator `i`, on
the data operator `i` was given. -/
theorem runChain_operator (h : Pending t st start data (fuel + 1)) (hsi : start ≤ i)
    (hi : i < p.operators.length) (fs : List OomFailure) :
    ∃ t' st', runChain p (.operator i :: fs) t st = runChain p fs t' st' ∧
      Pending t' st' i (applyAll ((p.operators.drop start).take (i - start)) data) fuel ∧
      st'.published = st.published ∧
      st'.applied = st.applied ++ range' start (i - start) := by
  obtain ⟨t', st', hre, hp, hpub, happ⟩ := h.reschedule
    (applyAll ((p.operators.drop start).take (i - start)) data) i
    (st.applied ++ range' start (i - start))
  refine ⟨t', st', ?_, hp, hpub, happ⟩
  have hs' : ¬ p.operators.length ≤ start := by omega
  have hne : (some (OomFailure.operator i)) ≠ some .prepare := by simp
  obtain ⟨msg, hmsg⟩ := runOperators_oom (p.operators.drop start) start data st.applied hsi
    (by rw [length_drop]; omega)
  rw [runChain, runTask, execute, h.start_eq, if_neg hs', h.input]
  simp only [if_neg hne, computeTask, hmsg]
  rw [hre]

theorem runChain_nil (h : Pending t st start data fuel) (hs : start < p.operators.length) :
    (runChain p [] t st).applied =
        st.applied ++ range' start (p.operators.length - start) ∧
      (p.sink.isSome → (runChain p [] t st).reportedError = none) ∧
      (runChain p [] t st).published = st.published ++
        (if p.sink.isSome then [applyAll (p.operators.drop start) data] else []) := by
  have hs' : ¬ p.operators.length ≤ start := by omega
  rw [runChain, runTask, execute, h.start_eq, if_neg hs', h.input]
  simp only [reduceCtorEq, if_false, computeTask]
  rw [runOperators_ok _ _ _ _ (by simp), length_drop]
  cases hsink : p.sink with
  | none => simp [publishOutput, hsink, reportError]
  | some sink => simp [publishOutput, hsink, h.no_error]

end Steps

/-! ## Whole chains -/

/-- `NoPrepareAfterProgress`, read along the chain: a preparation may fail only in a task that
starts at operator `0`. -/
def SafeFrom : Nat → List OomFailure → Prop
  | _, [] => True
  | start, .prepare :: fs => start = 0 ∧ SafeFrom 0 fs
  | _, .operator i :: fs => SafeFrom i fs

theorem safeFrom_iff {n : Nat} (fs : List OomFailure) (start : Nat) (h : CanHappen n start fs) :
    SafeFrom start fs ↔ ∀ before after, fs = before ++ .prepare :: after →
      start = 0 ∧ ∀ i, .operator i ∈ before → i = 0 := by
  induction fs generalizing start with
  | nil => simp [SafeFrom]
  | cons f fs ih =>
    cases f with
    | prepare =>
      rw [SafeFrom, ih 0 h]
      constructor
      · rintro ⟨rfl, hfs⟩ before after heq
        refine ⟨rfl, fun i hi => ?_⟩
        cases before with
        | nil => cases hi
        | cons f before =>
          obtain ⟨rfl, rfl⟩ := cons.inj heq
          exact (hfs before after rfl).2 i (by simpa using hi)
      · intro hall
        refine ⟨(hall [] fs rfl).1, fun before after heq => ⟨rfl, fun i hi => ?_⟩⟩
        exact (hall (.prepare :: before) after (by rw [heq]; rfl)).2 i
          (mem_cons_of_mem _ hi)
    | operator j =>
      obtain ⟨hsj, -, hfs⟩ := h
      rw [SafeFrom, ih j hfs]
      constructor
      · intro hall before after heq
        cases before with
        | nil => cases heq
        | cons f before =>
          obtain ⟨rfl, rfl⟩ := cons.inj heq
          obtain ⟨rfl, hz⟩ := hall before after rfl
          -- The task resumed at `0`, so the one before it cannot have started later.
          refine ⟨Nat.le_zero.mp hsj, fun i hi => ?_⟩
          rcases mem_cons.mp hi with hi | hi
          · exact OomFailure.operator.inj hi
          · exact hz i hi
      · intro hall before after heq
        have hz := (hall (.operator j :: before) after (by rw [heq]; rfl)).2
        exact ⟨hz j mem_cons_self, fun i hi => hz i (mem_cons_of_mem _ hi)⟩

theorem noPrepareAfterProgress_iff {n : Nat} {fs : List OomFailure} (h : CanHappen n 0 fs) :
    NoPrepareAfterProgress fs ↔ SafeFrom 0 fs := by
  rw [safeFrom_iff fs 0 h]
  constructor
  · exact fun hn before after heq => ⟨rfl, fun i => hn before after i heq⟩
  · exact fun hn before after i heq => (hn before after heq).2 i

theorem range_append_range' (h : start ≤ i) :
    range start ++ range' start (i - start) = range i := by
  obtain ⟨k, rfl⟩ := Nat.exists_eq_add_of_le h
  rw [Nat.add_sub_cancel_left, range_eq_range', range_eq_range']
  have happ : range' 0 start ++ range' (0 + 1 * start) k = range' 0 (start + k) :=
    range'_append
  simpa using happ

/-- **Safe chains compute the pipeline.** The invariant is that the pending task's data is the
output of the operators below its start index, and that those are the ones applied so far. -/
theorem runChain_of_safe {p : Pipeline D} (hsink : p.sink.isSome) (input : D) {fs : List OomFailure}
    {t : Task D} {st : ExecutorState D}
    (h : Pending t st start (applyAll (p.operators.take start) input) fs.length)
    (happ : st.applied = range start) (hs : start < p.operators.length)
    (hcan : CanHappen p.operators.length start fs) (hsafe : SafeFrom start fs) :
    (runChain p fs t st).published = st.published ++ [applyAll p.operators input] ∧
      (runChain p fs t st).applied = range p.operators.length ∧
      (runChain p fs t st).reportedError = none := by
  induction fs generalizing t st start with
  | nil =>
    obtain ⟨h1, h2, h3⟩ := runChain_nil h hs
    refine ⟨?_, ?_, h2 hsink⟩
    · rw [h3, if_pos hsink, applyAll_drop_take]
    · rw [h1, happ, range_append_range' hs.le]
  | cons f fs ih =>
    cases f with
    | prepare =>
      obtain ⟨rfl, hsafe⟩ := hsafe
      obtain ⟨t', st', heq, hp, hpub, happ'⟩ := runChain_prepare h hs fs
      rw [heq, ← hpub]
      exact ih hp (happ'.trans happ) hs hcan hsafe
    | operator i =>
      obtain ⟨hsi, hi, hcan⟩ := hcan
      obtain ⟨t', st', heq, hp, hpub, happ'⟩ := runChain_operator h hsi hi fs
      rw [applyAll_take_drop_take _ hsi] at hp
      rw [happ, range_append_range' hsi] at happ'
      rw [heq, ← hpub]
      exact ih hp happ' hi hcan hsafe

section Unsafe

variable {p : Pipeline D} {fs : List OomFailure} {t : Task D} {st : ExecutorState D} {start : Nat}
  {data : D}

/-- Every chain applies operator `0` at least once more if its pending task starts there. -/
theorem count_zero_le_runChain (h : Pending t st start data fs.length)
    (hs : start < p.operators.length) (hcan : CanHappen p.operators.length start fs) :
    st.applied.count 0 + (if start = 0 then 1 else 0) ≤ (runChain p fs t st).applied.count 0 := by
  induction fs generalizing t st start data with
  | nil =>
    rw [(runChain_nil h hs).1, count_append, count_range']
    split <;> simp_all
  | cons f fs ih =>
    cases f with
    | prepare =>
      obtain ⟨t', st', heq, hp, -, happ⟩ := runChain_prepare h hs fs
      have hcount := ih hp (by omega) hcan
      rw [happ, if_pos rfl] at hcount
      rw [heq]
      split <;> omega
    | operator i =>
      obtain ⟨hsi, hi, hcan⟩ := hcan
      obtain ⟨t', st', heq, hp, -, happ⟩ := runChain_operator h hsi hi fs
      have hcount := ih hp hi hcan
      rw [happ, count_append, count_range'] at hcount
      rw [heq]
      -- Operator `0` ran in this attempt iff the attempt started at `0` and got past it.
      rcases Nat.eq_zero_or_pos start with rfl | hpos
      · rcases Nat.eq_zero_or_pos i with rfl | hpos'
        · simpa using hcount
        · simp [hpos', hpos'.ne'] at hcount ⊢
          exact hcount
      · rw [if_neg hpos.ne']
        omega

/-- **Unsafe chains apply operator `0` twice.** The first preparation that fails in a resumed task
sends data that already went through operator `0` back to it. -/
theorem two_le_count_zero_of_unsafe (h : Pending t st start data fs.length)
    (hs : start < p.operators.length) (hcan : CanHappen p.operators.length start fs)
    (hone : 0 < start → 1 ≤ st.applied.count 0) (hun : ¬ SafeFrom start fs) :
    2 ≤ (runChain p fs t st).applied.count 0 := by
  induction fs generalizing t st start data with
  | nil => exact absurd trivial hun
  | cons f fs ih =>
    cases f with
    | prepare =>
      obtain ⟨t', st', heq, hp, -, happ⟩ := runChain_prepare h hs fs
      rw [heq]
      rcases Nat.eq_zero_or_pos start with rfl | hpos
      · exact ih hp hs hcan (by simp) (fun hsafe => hun ⟨rfl, hsafe⟩)
      · have hcount := count_zero_le_runChain hp (by omega) hcan
        have := hone hpos
        rw [happ, if_pos rfl] at hcount
        omega
    | operator i =>
      obtain ⟨hsi, hi, hcan⟩ := hcan
      obtain ⟨t', st', heq, hp, -, happ⟩ := runChain_operator h hsi hi fs
      rw [heq]
      apply ih hp hi hcan _ hun
      intro hpos
      rw [happ, count_append]
      rcases Nat.eq_zero_or_pos start with rfl | hpos'
      · rw [count_range']
        simp [hpos]
      · have := hone hpos'
        omega

theorem published_of_no_operators (hops : p.operators = []) :
    (runChain p fs t st).published = st.published := by
  cases fs <;> simp [runChain, runTask, execute, hops, reportError]

/-- Whatever fails on the way, a chain hands one output to the sink, or none if there is no sink. -/
theorem runChain_published (h : Pending t st start data fs.length)
    (hs : start < p.operators.length) (hcan : CanHappen p.operators.length start fs) :
    (p.sink.isSome → (runChain p fs t st).reportedError = none) ∧
      ∃ output, (runChain p fs t st).published =
        st.published ++ if p.sink.isSome then [output] else [] := by
  induction fs generalizing t st start data with
  | nil => exact ⟨(runChain_nil h hs).2.1, _, (runChain_nil h hs).2.2⟩
  | cons f fs ih =>
    cases f with
    | prepare =>
      obtain ⟨t', st', heq, hp, hpub, -⟩ := runChain_prepare h hs fs
      rw [heq, ← hpub]
      exact ih hp (by omega) hcan
    | operator i =>
      obtain ⟨hsi, hi, hcan⟩ := hcan
      obtain ⟨t', st', heq, hp, hpub, -⟩ := runChain_operator h hsi hi fs
      rw [heq, ← hpub]
      exact ih hp hi hcan

end Unsafe

/-- The chain publishes one output, the pipeline applied to the input, having applied every
operator once and in order. -/
def ChainCorrect (p : Pipeline D) (input : D) (st : ExecutorState D) : Prop :=
  st.published = [applyAll p.operators input] ∧
    st.applied = List.range p.operators.length ∧ st.reportedError = none

/-- **Exactly when OOM rescheduling preserves the result**, for a sequence of failures within the
retry limit. -/
theorem oomChain_iff (p : Pipeline D) (input : D) (taskId next : Nat) (fs : List OomFailure)
    (hcan : CanHappen p.operators.length 0 fs) (hlimit : fs.length ≤ maxOomRetries) :
    ChainCorrect p input (runChain p fs (Task.initial taskId input) { nextTaskId := next }) ↔
      p.operators ≠ [] ∧ p.sink.isSome ∧ NoPrepareAfterProgress fs := by
  have hpend := pending_initial taskId next input hlimit
  rw [noPrepareAfterProgress_iff hcan]
  constructor
  · rintro ⟨hpub, happ, -⟩
    have hne : p.operators ≠ [] := by
      intro hnil
      rw [published_of_no_operators hnil] at hpub
      cases hpub
    have hpos : 0 < p.operators.length := length_pos_iff.mpr hne
    refine ⟨hne, ?_, ?_⟩
    · by_contra hsink
      obtain ⟨-, output, hnone⟩ := runChain_published hpend hpos hcan
      rw [hpub, if_neg hsink] at hnone
      cases hnone
    · by_contra hun
      have htwo := two_le_count_zero_of_unsafe hpend hpos hcan (by simp) hun
      rw [happ, count_eq_one_of_mem nodup_range (mem_range.mpr hpos)] at htwo
      omega
  · rintro ⟨hne, hsink, hsafe⟩
    exact runChain_of_safe hsink input hpend rfl (length_pos_iff.mpr hne) hcan hsafe

def incDouble : Pipeline Nat where
  operators := [⟨"inc", (· + 1)⟩, ⟨"double", (· * 2)⟩]
  sink := some ⟨"collect", id⟩

/-- Operator `1` fails, then the preparation of the resumed task, then nothing: the published
output is `((5 + 1) + 1) * 2` where the pipeline computes `(5 + 1) * 2`. -/
theorem incDouble_prepare_after_operator :
    CanHappen incDouble.operators.length 0 [.operator 1, .prepare] ∧
      [OomFailure.operator 1, .prepare].length ≤ maxOomRetries ∧
      (runChain incDouble [.operator 1, .prepare] (Task.initial 0 5) {}).published = [14] ∧
      (runChain incDouble [.operator 1, .prepare] (Task.initial 0 5) {}).applied = [0, 0, 1] ∧
      ¬ ChainCorrect incDouble 5
        (runChain incDouble [.operator 1, .prepare] (Task.initial 0 5) {}) := by
  refine ⟨⟨by decide, by decide, trivial⟩, by decide, rfl, rfl, ?_⟩
  rintro ⟨hpub, -⟩
  exact absurd (cons.inj hpub).1 (by decide)

/-- Failures of the preparation at operator `0`, then inside operator `1`, are harmless. -/
theorem incDouble_operator_after_prepare :
    ChainCorrect incDouble 5
      (runChain incDouble [.prepare, .operator 0, .operator 1] (Task.initial 0 5)
        { nextTaskId := 1 }) := by
  have hcan : CanHappen incDouble.operators.length 0 [.prepare, .operator 0, .operator 1] :=
    ⟨by decide, by decide, by decide, by decide, trivial⟩
  exact (oomChain_iff incDouble 5 0 1 _ hcan (by decide)).mpr
    ⟨by simp [incDouble], rfl, (noPrepareAfterProgress_iff hcan).mpr ⟨rfl, trivial⟩⟩

/-! ## Every chain hands over one output -/

/-- **Safe or not, a chain hands over one output** and reports no error. -/
theorem oomChain_one_output (p : Pipeline D) (input : D) (taskId next : Nat) (fs : List OomFailure)
    (hne : p.operators ≠ []) (hsink : p.sink.isSome) (hcan : CanHappen p.operators.length 0 fs)
    (hlen : fs.length ≤ maxOomRetries) :
    ∃ output, (runChain p fs (Task.initial taskId input) { nextTaskId := next }).published = [output] ∧
      (runChain p fs (Task.initial taskId input) { nextTaskId := next }).reportedError = none := by
  obtain ⟨herror, output, hpub⟩ := runChain_published (pending_initial taskId next input hlen)
    (length_pos_iff.2 hne) hcan
  rw [if_pos hsink] at hpub
  exact ⟨output, hpub, herror hsink⟩

theorem incDouble_one_output :
    ∃ output, (runChain incDouble [.operator 1, .prepare] (Task.initial 0 5) {}).published = [output] :=
  (oomChain_one_output incDouble 5 0 0 [.operator 1, .prepare] (by simp [incDouble]) rfl
    ⟨by decide, by decide, trivial⟩ (by decide)).imp fun _ h => h.1

end Sirius.OomReschedule
