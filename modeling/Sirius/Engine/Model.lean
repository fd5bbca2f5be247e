import Sirius.Lib.Runs
import Sirius.Lib.ThreadPool

/-!
# The pipeline engine

The engine that drives the pipelines of one query: the task creator (`src/creator/task_creator.cpp`),
the GPU and scan executors' worker lambdas, and the status protocol of `sirius_pipeline`
(`mark_task_created`, `mark_task_completed`, `update_pipeline_status`,
`notify_downstream_pipelines`). The model is a step function on an explicit state.

* `Graph` is what does not change while the query runs: the kind of every pipeline's source, the
  ports of its first operator, its consumers and parents, its sink.
* `PipeState` is the shared memory of one pipeline: the task counters, the finished flag, the
  `_status_mutex`, the contents of the input repositories, and the flags of the scan operators.
* A thread (a creator lambda, a worker lambda) is the stack of `Op`s it has still to perform. An
  operation is as small as the source makes it observable: the two counter loads of a status check
  are two operations, and the lock is held from one operation to the next.

The environment of the engine is part of the labels: what a task publishes, when an allocation
fails, when a split provider delivers or closes.

Two ghost fields, `pushed` and `consumed`, record every batch that ever entered the inputs of a
pipeline and every batch that a completed task has taken.
-/

namespace Sirius.Engine

open Lib List

variable {P S B : Type}

/-! ## Static structure -/

inductive Barrier where
  | pipelineBarrier
  | partialBarrier
  | fullBarrier
  deriving DecidableEq, Repr

/-- An input port of a pipeline's first operator. A port without a repository only orders
pipelines. -/
structure Port (P : Type) where
  src : P
  barrier : Barrier
  hasRepo : Bool := true

/-- The source types `update_pipeline_status` and the task creator distinguish. `ports` is every
pipeline fed by other pipelines, `gpuScan` the scans fed by a split connector. -/
inductive SourceKind where
  | ports
  | gpuScan
  | duckdbScan
  | icebergScan
  | cpuSource
  deriving DecidableEq, Repr

/-- `task_creation_hint`: a ready operator always names itself. -/
inductive Hint (P : Type) where
  | ready
  | waitingForInputData (producer : P)
  deriving DecidableEq, Repr

/-- The scheduling interface of a pipeline's first operator: `get_next_task_hint` and
`get_next_task_input_data`, with the operator's own state `S`. Asking for a hint can change that
state. A pull takes batches out of the repositories and loses none, the ports stay the same, and with
empty repositories there is no input. -/
structure FirstOperator (P S B : Type) where
  hint : S → (P → Bool) → List (List B) → Option (Hint P)
  hintState : S → (P → Bool) → List (List B) → S := fun s _ _ => s
  pull : S → List (List B) → Option (List B × List (List B) × S)
  pull_conserves : ∀ {s inputs taken rest s'}, pull s inputs = some (taken, rest, s') →
    (taken ++ rest.flatten).Perm inputs.flatten ∧ rest.length = inputs.length
  pull_empty : ∀ {s inputs}, (∀ repo ∈ inputs, repo = []) → pull s inputs = none

namespace FirstOperator

/-- `sirius_physical_operator::get_next_task_hint`. -/
def portsHint (ports : List (Port P)) (finished : P → Bool) (inputs : List (List B)) :
    Option (Hint P) :=
  if ports.isEmpty then none
  else
    match ports.find? fun port => port.barrier == .fullBarrier && !finished port.src with
    | some port => some (.waitingForInputData port.src)
    | none =>
      if (ports.zip inputs).all fun x =>
          !x.1.hasRepo || (!x.2.isEmpty && (x.1.barrier != .fullBarrier || finished x.1.src)) then
        some .ready
      else
        match ports.find? fun port => port.barrier != .fullBarrier && !finished port.src with
        | some port => some (.waitingForInputData port.src)
        | none => none

/-- `sirius_physical_operator::get_next_task_input_data`: one batch from each port that has one. -/
def portsPull (inputs : List (List B)) : Option (List B × List (List B)) :=
  if (inputs.filterMap List.head?).isEmpty then none
  else some (inputs.filterMap List.head?, inputs.map List.tail)

theorem perm_heads_tails (inputs : List (List B)) :
    (inputs.filterMap head? ++ (inputs.map tail).flatten).Perm inputs.flatten := by
  induction inputs with
  | nil => exact .nil
  | cons repo repos ih =>
    cases repo with
    | nil =>
      rw [filterMap_cons_none head?_nil]
      simpa using ih
    | cons batch batches =>
      simp only [filterMap_cons, head?_cons, map_cons, tail_cons,
        flatten_cons, cons_append]
      refine .cons _ ?_
      rw [← append_assoc]
      exact (perm_append_comm.append_right _).trans
        ((append_assoc ..).symm ▸ (ih.append_left batches))

def ofPorts (ports : List (Port P)) : FirstOperator P S B where
  hint _ := portsHint ports
  pull s inputs := (portsPull inputs).map fun x => (x.1, x.2, s)
  pull_conserves := by
    intro s inputs taken rest s' h
    simp only [portsPull] at h
    split at h
    · cases h
    · cases h
      exact ⟨perm_heads_tails inputs, List.length_map _⟩
  pull_empty := by
    intro s inputs h
    have hnil : inputs.filterMap List.head? = [] := by
      rw [List.filterMap_eq_nil_iff]
      intro repo hrepo
      rw [h repo hrepo, List.head?_nil]
    simp [portsPull, hnil]

/-- The merges of TOP_N and of an ungrouped aggregation take all batches of their first port. -/
def drain (ports : List (Port P)) : FirstOperator P S B where
  hint _ := portsHint ports
  pull s inputs :=
    if (inputs.headD []).isEmpty then none else some (inputs.headD [], inputs.set 0 [], s)
  pull_conserves := by
    intro s inputs taken rest s' h
    split at h
    · cases h
    · cases h
      cases inputs <;> simp
  pull_empty := by
    intro s inputs h
    cases inputs <;> simp_all

end FirstOperator

structure Graph (P S B : Type) where
  kind : P → SourceKind
  ports : P → List (Port P)
  operator : P → FirstOperator P S B
  /-- `get_output_consumers`: the pipelines whose first operator reads this one's output. -/
  consumers : P → List P
  /-- `get_parents`: the pipelines whose status is updated when this one has finished. -/
  parents : P → List P
  /-- The sink is the `RESULT_COLLECTOR`. -/
  terminal : P → Bool
  /-- Some operator is a streaming limit. -/
  hasLimit : P → Bool
  /-- `_max_threads` of a DuckDB scan. -/
  maxThreads : P → Nat
  /-- `_num_scans_in_plan < 2`. -/
  singleScan : Bool
  /-- A scan is a leaf of the plan. -/
  scan_ports : ∀ p, kind p ≠ .ports → ports p = []

/-! ## Shared memory of a pipeline -/

structure PipeState (S B : Type) where
  tasksCreated : Nat := 0
  tasksCompleted : Nat := 0
  pipelineFinished : Bool := false
  /-- `_status_mutex` is held. -/
  locked : Bool := false
  /-- Contents of the input repositories, port by port; for a `gpuScan` the queue of the split
  connector, for an `icebergScan` the unclaimed row-group partitions. -/
  inputs : List (List B) := []
  opState : S
  /-- The split connector has been closed. -/
  closed : Bool := false
  /-- `has_more_partitions` of an Iceberg scan. -/
  hasMorePartitions : Bool := true
  /-- `exhausted` of a DuckDB scan or a CPU source. -/
  exhausted : Bool := false
  /-- `task_scheduled` of a CPU source. -/
  taskScheduled : Bool := false
  /-- `_active_local_states` of a DuckDB scan. -/
  activeLocalStates : Nat := 0
  limitExhausted : Bool := false
  pushed : Multiset B := 0
  consumed : Multiset B := 0

def PipeState.empty (ps : PipeState S B) : Bool := ps.inputs.all List.isEmpty

/-! ## Threads -/

/-- What the worker lambda does after it has destroyed its task: the GPU executor's post-task
step, the scan executor's, or nothing when the task has been rescheduled. -/
inductive After where
  | gpu
  | scan
  | rescheduled
  deriving DecidableEq, Repr

/-- The operations of the engine's threads. The ones from `pull` to `construct` and from
`testFinished` to `setFinished` are performed while holding the pipeline's `_status_mutex`. -/
inductive Op (P B : Type) where
  -- Creator lambdas.
  | createLoop (p : P)
  | lockPull (p : P)
  | pull (p : P)
  | construct (p : P) (batches : List B)
  | createScanState (p : P)
  | constructScan (p : P)
  | claimPartition (p : P)
  | constructCpu (p : P)
  -- Tasks.
  | exec (p : P) (batches : List B)
  | scanTask (p : P)
  | cpuTask (p : P)
  | publish (p : P) (batches : List B) (after : After)
  | destroy (p : P) (batches : List B) (after : After)
  -- `update_pipeline_status(original)`.
  | lockUpdate (p : P) (original : Bool)
  | testFinished (p : P) (original : Bool)
  | checkPorts (p : P) (original : Bool)
  | loadCounters (p : P) (original : Bool)
  | loadedCreated (p : P) (original : Bool) (created : Nat)
  | loadedCompleted (p : P) (original : Bool) (completed : Nat)
  | setFinished (p : P) (original : Bool)
  | notify (p : P) (original : Bool)
  | requestConsumer (p : P)
  -- Post-task steps.
  | postTask (p : P)
  | postScanTask (p : P)
  | scheduleConsumer (p : P)
  | waitCreators (p : P)
  | markCompleted (p : P)
  deriving DecidableEq, Repr

/-- Operations of the creator's thread pool, which `drain_pending_tasks` waits for. -/
def Op.isCreator : Op P B → Bool
  | .createLoop _ | .lockPull _ | .pull _ | .construct _ _ | .createScanState _
  | .constructScan _ | .claimPartition _ | .constructCpu _ => true
  | _ => false

structure State (P S B : Type) where
  pipes : P → PipeState S B
  threads : List (List (Op P B)) := []
  /-- The task creation queue. -/
  requests : List P := []
  /-- The request the creator's manager loop is working on. -/
  manager : Option P := none
  /-- `completion_handler::mark_completed` has been called. -/
  completed : Bool := false

namespace State

variable [DecidableEq P]

@[simps -fullyApplied]
def modify (st : State P S B) (p : P) (f : PipeState S B → PipeState S B) : State P S B :=
  { st with pipes := Function.update st.pipes p (f (st.pipes p)) }

/-- The thread at `i` goes on with `add`, then with what it still had to do. -/
@[simps -fullyApplied]
def goOn (st : State P S B) (i : Nat) (add rest : List (Op P B)) (new : List (List (Op P B)) := []) :
    State P S B :=
  { st with threads := resume st.threads i (add ++ rest) new }

@[simps -fullyApplied]
def spawn (st : State P S B) (thread : List (Op P B)) : State P S B :=
  { st with threads := st.threads ++ [thread] }

end State

def PipeState.lock (ps : PipeState S B) : PipeState S B := { ps with locked := true }

def PipeState.unlock (ps : PipeState S B) : PipeState S B := { ps with locked := false }

def PipeState.created (ps : PipeState S B) : PipeState S B :=
  { ps with tasksCreated := ps.tasksCreated + 1 }

/-! ## The operators' answers -/

namespace Graph

variable (g : Graph P S B)

/-- `all_ports_empty`, as the creation loop asks it. -/
def allPortsEmpty (ps : PipeState S B) (p : P) : Bool :=
  match g.kind p with
  | .gpuScan => ps.closed && ps.empty
  | _ => ps.empty

/-- The source of `p` has nothing more to give, as `update_pipeline_status` asks it. -/
def sourceExhausted (ps : PipeState S B) (p : P) : Bool :=
  match g.kind p with
  | .ports | .gpuScan => g.allPortsEmpty ps p
  | .icebergScan => !ps.hasMorePartitions
  | .duckdbScan | .cpuSource => ps.exhausted

def sourcePipelinesFinished (pipes : P → PipeState S B) (p : P) : Bool :=
  (g.ports p).all fun port => (pipes port.src).pipelineFinished

/-- Outcome of `get_next_task_input_data`: the connector of a GPU scan blocks its caller. -/
inductive PullResult (S B : Type) where
  | blocked
  | null
  | data (batches : List B) (inputs : List (List B)) (opState : S)

def getNextSplit (ps : PipeState S B) : PullResult S B :=
  match ps.inputs with
  | (split :: splits) :: queues => .data [split] (splits :: queues) ps.opState
  | _ => if ps.closed then .null else .blocked

def getNextTaskInputData (ps : PipeState S B) (p : P) : PullResult S B :=
  match g.kind p with
  | .gpuScan => getNextSplit ps
  | _ =>
    match (g.operator p).pull ps.opState ps.inputs with
    | none => .null
    | some (batches, inputs, opState) => .data batches inputs opState

def dispatch (p : P) : Op P B :=
  match g.kind p with
  | .ports | .gpuScan => .createLoop p
  | .duckdbScan => .createScanState p
  | .icebergScan => .claimPartition p
  | .cpuSource => .constructCpu p

/-- `get_next_task_hint` of the first operator of `p`. An Iceberg scan is asked for its partitions
instead, and a CPU source is ready once. -/
def getNextTaskHint (pipes : P → PipeState S B) (p : P) : Option (Hint P) :=
  let ps := pipes p
  match g.kind p with
  | .ports => (g.operator p).hint ps.opState (fun q => (pipes q).pipelineFinished) ps.inputs
  | .gpuScan => if g.allPortsEmpty ps p then none else some .ready
  | .duckdbScan => if ps.exhausted then none else some .ready
  | .icebergScan => if ps.empty then none else some .ready
  | .cpuSource => if ps.taskScheduled then none else some .ready

/-- A DuckDB scan creates its own continuations: a consumer that waits for one whose source is
drained, or that has all its tasks, asks for nothing. -/
def producerRefuses (pipes : P → PipeState S B) (q : P) : Bool :=
  g.kind q == .duckdbScan &&
    ((pipes q).exhausted || !decide ((pipes q).tasksCreated < g.maxThreads q))

end Graph

/-! ## One operation of a thread -/

/-- What the worker lambda has still to do once its task is destroyed. -/
def After.ops (p : P) : After → List (Op P B)
  | .gpu => [.postTask p]
  | .scan => [.postScanTask p]
  | .rescheduled => []

variable [DecidableEq P]

/-- Perform operation `op` of the thread at `i`, which goes on with `rest`; `none` when the
operation waits. -/
def runOp (g : Graph P S B) (st : State P S B) (i : Nat) (rest : List (Op P B)) :
    Op P B → Option (State P S B)
  -- `while (!node->all_ports_empty())`: lock, pull, construct, unlock, schedule.
  | .createLoop p =>
    some (st.goOn i (if g.allPortsEmpty (st.pipes p) p then [] else [.lockPull p]) rest)
  | .lockPull p =>
    if (st.pipes p).locked then none
    else some ((st.modify p PipeState.lock).goOn i [.pull p] rest)
  | .pull p =>
    match g.getNextTaskInputData (st.pipes p) p with
    | .blocked => none
    | .null => some ((st.modify p PipeState.unlock).goOn i [] rest)
    | .data batches inputs opState =>
      some ((st.modify p fun ps => { ps with inputs := inputs, opState := opState }).goOn i
        [.construct p batches] rest)
  | .construct p batches =>
    some ((st.modify p fun ps => ps.created.unlock).goOn i [.createLoop p] rest
      [[.exec p batches]])
  -- The local state of a DuckDB scan task is built before the lock is taken.
  | .createScanState p =>
    some ((st.modify p fun ps =>
      { ps with activeLocalStates := ps.activeLocalStates + 1 }).goOn i [.constructScan p] rest)
  | .constructScan p =>
    if (st.pipes p).locked then none
    else some ((st.modify p PipeState.created).goOn i [] rest [[.scanTask p]])
  | .claimPartition p =>
    if (st.pipes p).locked then none
    else
      match (st.pipes p).inputs with
      | (batch :: batches) :: inputs =>
        some ((st.modify p fun ps =>
          { ps.created with
            inputs := batches :: inputs,
            hasMorePartitions := ps.hasMorePartitions && !(batches :: inputs).all List.isEmpty
          }).goOn i (if g.singleScan then [.claimPartition p] else []) rest
            [[.publish p [batch] .scan]])
      | _ => some (st.goOn i [] rest)
  | .constructCpu p =>
    if (st.pipes p).locked then none
    else some ((st.modify p PipeState.created).goOn i [] rest [[.cpuTask p]])
  -- A task computes, publishes, and is destroyed.
  | .exec p batches => some (st.goOn i [.publish p batches .gpu] rest)
  | .scanTask _ => none
  | .cpuTask p =>
    some ((st.modify p fun ps => { ps with exhausted := true }).goOn i [.publish p [] .scan] rest)
  | .publish p batches after => some (st.goOn i [.destroy p batches after] rest)
  | .destroy p batches after =>
    some ((st.modify p fun ps =>
      { ps with tasksCompleted := ps.tasksCompleted + 1,
                consumed := ps.consumed + (batches : Multiset B) }).goOn i
      (.lockUpdate p true :: after.ops p) rest)
  -- `update_pipeline_status`.
  | .lockUpdate p original =>
    if (st.pipes p).locked then none
    else some ((st.modify p PipeState.lock).goOn i [.testFinished p original] rest)
  | .testFinished p original =>
    if (st.pipes p).pipelineFinished then
      some ((st.modify p PipeState.unlock).goOn i [.notify p original] rest)
    else if g.kind p = .ports ∨ g.kind p = .gpuScan then
      if (st.pipes p).limitExhausted then some (st.goOn i [.loadCounters p original] rest)
      else if g.sourcePipelinesFinished st.pipes p then
        some (st.goOn i [.checkPorts p original] rest)
      else some ((st.modify p PipeState.unlock).goOn i [] rest)
    else some (st.goOn i [.checkPorts p original] rest)
  | .checkPorts p original =>
    if g.sourceExhausted (st.pipes p) p then some (st.goOn i [.loadCounters p original] rest)
    else some ((st.modify p PipeState.unlock).goOn i [] rest)
  | .loadCounters _ _ => none
  | .loadedCreated p original created =>
    if created = (st.pipes p).tasksCompleted then
      some (st.goOn i [.setFinished p original] rest)
    else some ((st.modify p PipeState.unlock).goOn i [] rest)
  | .loadedCompleted p original completed =>
    if (st.pipes p).tasksCreated = completed then
      some (st.goOn i [.setFinished p original] rest)
    else some ((st.modify p PipeState.unlock).goOn i [] rest)
  | .setFinished p original =>
    some ((st.modify p fun ps => { ps.unlock with pipelineFinished := true }).goOn i
      [.notify p original] rest)
  -- `notify_downstream_pipelines`.
  | .notify p original =>
    if g.terminal p then some (st.goOn i [] rest)
    else some (st.goOn i
      ((if original then [] else (g.consumers p).map .requestConsumer) ++
        (g.parents p).map (.lockUpdate · false)) rest)
  | .requestConsumer q =>
    some ({ st with requests := if (st.pipes q).pipelineFinished then st.requests
                                else st.requests ++ [q] }.goOn i [] rest)
  -- The post-task steps.
  | .postTask p =>
    if g.terminal p && (st.pipes p).pipelineFinished then
      some ({ st with requests := [] }.goOn i [.waitCreators p] rest)
    else some (st.goOn i ((g.consumers p).map .scheduleConsumer) rest)
  | .postScanTask p =>
    some (st.goOn i (if st.completed then [] else (g.consumers p).map .scheduleConsumer) rest)
  | .scheduleConsumer q => some ({ st with requests := st.requests ++ [q] }.goOn i [] rest)
  | .waitCreators p =>
    if st.threads.any (·.any Op.isCreator) then none else some (st.goOn i [.markCompleted p] rest)
  | .markCompleted _ => some ({ st with completed := true }.goOn i [] rest)

/-! ## Steps -/

/-- The choices of a run: which thread goes on and, where the engine does not decide it, how. -/
inductive Label (P S B : Type) where
  | run (i : Nat)
  /-- The task of thread `i` pushes `batch` to port `j` of pipeline `q`. -/
  | push (i : Nat) (q : P) (j : Nat) (batch : B)
  /-- The GPU task of thread `i` runs out of memory and is rescheduled. -/
  | oomReschedule (i : Nat)
  /-- The task of thread `i` changes the state of the pipeline's first operator. -/
  | setOpState (i : Nat) (opState : S)
  | exhaustLimit (i : Nat)
  /-- The scan task of thread `i` creates its continuation. -/
  | continueScan (i : Nat)
  /-- The scan task of thread `i` has drained its local state. -/
  | drainScan (i : Nat)
  /-- The operands of `tasks_created.load() == tasks_completed.load()` are unsequenced. -/
  | loadCreated (i : Nat)
  | loadCompleted (i : Nat)
  | popRequest
  | resolveRequest
  | pushSplit (p : P) (split : B)
  | closeConnector (p : P)
  deriving Repr

/-- What asking the first operator of `q` for a hint does to its state. -/
def State.asked (g : Graph P S B) (st : State P S B) (q : P) : State P S B :=
  if g.kind q = .ports then
    st.modify q fun ps =>
      { ps with
        opState := (g.operator q).hintState ps.opState (fun r => (st.pipes r).pipelineFinished)
          ps.inputs }
  else st

/-- `get_operator_for_next_task`, one hint at a time. -/
def resolveRequest (g : Graph P S B) (st : State P S B) (q : P) : State P S B :=
  match g.getNextTaskHint st.pipes q with
  | none => { st.asked g q with manager := none }
  | some .ready =>
    let st := if g.kind q = .cpuSource then
        st.modify q fun ps => { ps with taskScheduled := true } else st.asked g q
    ({ st with manager := none }).spawn [g.dispatch q]
  | some (.waitingForInputData r) =>
    if g.producerRefuses st.pipes r then { st.asked g q with manager := none }
    else { st.asked g q with manager := some r }

def step (g : Graph P S B) (st : State P S B) : Label P S B → Option (State P S B)
  | .run i =>
    match st.threads[i]? with
    | some (op :: rest) => runOp g st i rest op
    | _ => none
  | .push i q j batch =>
    match st.threads[i]? with
    | some (.publish p _ _ :: _) =>
      match (g.ports q)[j]? with
      | some port =>
        if port.src = p ∧ port.hasRepo ∧ g.kind q = .ports then
          some (st.modify q fun ps =>
            { ps with inputs := ps.inputs.modify j (· ++ [batch]),
                      pushed := batch ::ₘ ps.pushed })
        else none
      | none => none
    | _ => none
  | .oomReschedule i =>
    match st.threads[i]? with
    | some (.exec p batches :: rest) =>
      -- The new task is constructed without the task-creation lock, the old one destroyed after it.
      some ((st.modify p PipeState.created).goOn i [.destroy p [] .rescheduled] rest
        [[.exec p batches]])
    | _ => none
  | .setOpState i opState =>
    match st.threads[i]? with
    | some (.exec p _ :: _) => some (st.modify p fun ps => { ps with opState := opState })
    | _ => none
  | .exhaustLimit i =>
    match st.threads[i]? with
    | some (.exec p _ :: _) =>
      if g.hasLimit p then some (st.modify p fun ps => { ps with limitExhausted := true }) else none
    | _ => none
  | .continueScan i =>
    match st.threads[i]? with
    | some (.scanTask p :: rest) =>
      some ((st.modify p PipeState.created).goOn i [.publish p [] .scan] rest [[.scanTask p]])
    | _ => none
  | .drainScan i =>
    match st.threads[i]? with
    | some (.scanTask p :: rest) =>
      some ((st.modify p fun ps =>
        { ps with activeLocalStates := ps.activeLocalStates - 1,
                  exhausted := ps.exhausted || decide (ps.activeLocalStates - 1 = 0) }).goOn i
        [.publish p [] .scan] rest)
    | _ => none
  | .loadCreated i =>
    match st.threads[i]? with
    | some (.loadCounters p original :: rest) =>
      some (st.goOn i [.loadedCreated p original (st.pipes p).tasksCreated] rest)
    | _ => none
  | .loadCompleted i =>
    match st.threads[i]? with
    | some (.loadCounters p original :: rest) =>
      some (st.goOn i [.loadedCompleted p original (st.pipes p).tasksCompleted] rest)
    | _ => none
  | .popRequest =>
    match st.manager, st.requests with
    | none, q :: requests => some { st with manager := some q, requests := requests }
    | _, _ => none
  | .resolveRequest =>
    match st.manager with
    | some q => some (resolveRequest g st q)
    | none => none
  | .pushSplit p split =>
    if g.kind p = .gpuScan ∧ ¬ (st.pipes p).closed then
      some (st.modify p fun ps =>
        { ps with inputs := ps.inputs.modify 0 (· ++ [split]), pushed := split ::ₘ ps.pushed })
    else none
  | .closeConnector p =>
    if g.kind p = .gpuScan then some (st.modify p fun ps => { ps with closed := true }) else none

/-- The engine before the query starts: nothing created, open connectors, the row-group partitions
of the Iceberg scans unclaimed, and the creation requests of `start_query`. -/
def State.initial (g : Graph P S B) (opState : P → S) (partitions : P → List B)
    (requests : List P) : State P S B where
  pipes p :=
    match g.kind p with
    | .ports => { opState := opState p, inputs := (g.ports p).map fun _ => [] }
    | .gpuScan => { opState := opState p, inputs := [[]] }
    | .icebergScan =>
      { opState := opState p, inputs := [partitions p], pushed := (partitions p : Multiset B) }
    | .duckdbScan | .cpuSource => { opState := opState p }
  requests := requests

def Reachable (g : Graph P S B) (st : State P S B) : Prop :=
  ∃ opState partitions requests,
    Run (step g) (fun _ _ => True) (State.initial g opState partitions requests) st

end Sirius.Engine
