import Sirius.Engine.Model

/-!
# What one step of the engine does

`step` is a function of a state with stacks of operations, queues and a manager. For the invariants
only two things matter: the shared memory of the pipelines and the multiset of pending operations.
`Effect` lists what a step can do to these two, one constructor for each kind of step, and
`step_effect` says that every step of the engine is one of them. Every step changes the memory of
at most one pipeline.
-/

namespace Sirius.Engine

open Lib List Function

variable {P S B : Type} (st : State P S B)

/-! ## Classes of operations -/

def Op.pipeline : Op P B → P
  | .createLoop p | .lockPull p | .pull p | .construct p _ | .createScanState p
  | .constructScan p | .claimPartition p | .constructCpu p | .exec p _ | .scanTask p
  | .cpuTask p | .publish p _ _ | .destroy p _ _ | .lockUpdate p _ | .testFinished p _
  | .checkPorts p _ | .loadCounters p _ | .loadedCreated p _ _ | .loadedCompleted p _ _
  | .setFinished p _ | .notify p _ | .requestConsumer p | .postTask p | .postScanTask p
  | .scheduleConsumer p | .waitCreators p | .markCompleted p => p

def Op.isTask : Op P B → Bool
  | .exec _ _ | .scanTask _ | .cpuTask _ | .publish _ _ _ | .destroy _ _ _ => true
  | _ => false

/-- The thread holds the `_status_mutex` of the operation's pipeline. -/
def Op.holdsLock : Op P B → Bool
  | .pull _ | .construct _ _ | .testFinished _ _ | .checkPorts _ _ | .loadCounters _ _
  | .loadedCreated _ _ _ | .loadedCompleted _ _ _ | .setFinished _ _ => true
  | _ => false

def Op.isScanState : Op P B → Bool
  | .constructScan _ | .scanTask _ => true
  | _ => false

/-- The task of a CPU source, before it has set `exhausted`. -/
def Op.isCpuSource : Op P B → Bool
  | .constructCpu _ | .cpuTask _ => true
  | _ => false

/-- Input batches that have left the repositories and that no completed task has taken. -/
def Op.batches : Op P B → List B
  | .construct _ bs | .exec _ bs | .publish _ bs _ | .destroy _ bs _ => bs
  | _ => []

def Op.isControl : Op P B → Bool
  | .createLoop _ | .lockPull _ | .createScanState _ | .claimPartition _ | .notify _ _
  | .requestConsumer _ | .postTask _ | .postScanTask _ | .scheduleConsumer _ | .waitCreators _
  | .markCompleted _ => true
  | _ => false

def Op.isPassive (op : Op P B) : Bool :=
  op.isControl || match op with
    | .lockUpdate _ _ => true
    | _ => false

/-- The steps after the post-task check that has found the query complete. -/
def Op.isSignal : Op P B → Bool
  | .waitCreators _ | .markCompleted _ => true
  | _ => false

/-- Operations only a pipeline of the right kind runs. -/
def Op.KindOk (g : Graph P S B) : Op P B → Prop
  | .createLoop p | .lockPull p | .pull p | .construct p _ | .exec p _ =>
    g.kind p = .ports ∨ g.kind p = .gpuScan
  | .createScanState p | .constructScan p | .scanTask p => g.kind p = .duckdbScan
  | .claimPartition p => g.kind p = .icebergScan
  | .constructCpu p | .cpuTask p => g.kind p = .cpuSource
  | _ => True

/-! ## Effects -/

/-- Steps that move the control flow and leave the memory of the pipelines alone. -/
inductive ControlEffect (g : Graph P S B) (pipes : P → PipeState S B) (p : P) :
    Label P S B → Multiset (Op P B) → Multiset (Op P B) → Prop
  | flow (i : Nat) (op : Op P B) (add : Multiset (Op P B)) (hop : op.isControl = true)
      (hpost : op ≠ .postTask p) (hwait : op ≠ .waitCreators p) (hmark : op ≠ .markCompleted p)
      (hp : op.pipeline = p) (hadd : ∀ o ∈ add, o.isPassive = true)
      (hkind : op.KindOk g → ∀ o ∈ add, o.KindOk g) (hquiet : ∀ o ∈ add, o.isSignal = false) :
      ControlEffect g pipes p (.run i) {op} add
  | managerOnly (l : Label P S B) (hl : l = .popRequest ∨ l = .resolveRequest) :
      ControlEffect g pipes p l 0 0
  | dispatch (hcpu : g.kind p ≠ .cpuSource) :
      ControlEffect g pipes p .resolveRequest 0 {g.dispatch p}
  | postTaskComplete (i : Nat) (hterm : g.terminal p = true)
      (hfin : (pipes p).pipelineFinished = true) :
      ControlEffect g pipes p (.run i) {.postTask p} {.waitCreators p}
  | postTask (i : Nat) (add : Multiset (Op P B))
      (hnot : ¬ (g.terminal p = true ∧ (pipes p).pipelineFinished = true))
      (hadd : ∀ o ∈ add, o.isPassive = true) (hkind : ∀ o ∈ add, o.KindOk g)
      (hquiet : ∀ o ∈ add, o.isSignal = false) :
      ControlEffect g pipes p (.run i) {.postTask p} add
  | waitCreators (i : Nat) : ControlEffect g pipes p (.run i) {.waitCreators p} {.markCompleted p}
  | markCompleted (i : Nat) : ControlEffect g pipes p (.run i) {.markCompleted p} 0

/-- `Effect g pipes p l ps rem add`: with memory `pipes`, a step with label `l` replaces the
operations `rem` by `add` and the memory of pipeline `p` by `ps`. -/
inductive Effect (g : Graph P S B) (pipes : P → PipeState S B) (p : P) :
    Label P S B → PipeState S B → Multiset (Op P B) → Multiset (Op P B) → Prop
  | control {l : Label P S B} {rem add : Multiset (Op P B)}
      (h : ControlEffect g pipes p l rem add) : Effect g pipes p l (pipes p) rem add
  | dispatchCpu (hcpu : g.kind p = .cpuSource) (hfirst : (pipes p).taskScheduled = false) :
      Effect g pipes p .resolveRequest { pipes p with taskScheduled := true } 0 {.constructCpu p}
  /-- An operator with ports changes its state when it is asked for a hint. -/
  | hintWaiting (opState : S) :
      Effect g pipes p .resolveRequest { pipes p with opState := opState } 0 0
  | hintReady (opState : S) (hkind : g.kind p = .ports) :
      Effect g pipes p .resolveRequest { pipes p with opState := opState } 0 {.createLoop p}
  | lockPull (i : Nat) (hfree : (pipes p).locked = false) :
      Effect g pipes p (.run i) (pipes p).lock {.lockPull p} {.pull p}
  | pullNull (i : Nat) : Effect g pipes p (.run i) (pipes p).unlock {.pull p} 0
  | pullData (i : Nat) (batches : List B) (inputs : List (List B)) (opState : S)
      (hpull : g.getNextTaskInputData (pipes p) p = .data batches inputs opState) :
      Effect g pipes p (.run i) { pipes p with inputs := inputs, opState := opState } {.pull p}
        {.construct p batches}
  | construct (i : Nat) (batches : List B) :
      Effect g pipes p (.run i) (pipes p).created.unlock {.construct p batches}
        {.createLoop p, .exec p batches}
  | createScanState (i : Nat) :
      Effect g pipes p (.run i) { pipes p with activeLocalStates := (pipes p).activeLocalStates + 1 }
        {.createScanState p} {.constructScan p}
  | constructScan (i : Nat) (hfree : (pipes p).locked = false) :
      Effect g pipes p (.run i) (pipes p).created {.constructScan p} {.scanTask p}
  | claimPartition (i : Nat) (batch : B) (batches : List B) (inputs : List (List B))
      (add : Multiset (Op P B)) (hfree : (pipes p).locked = false)
      (hin : (pipes p).inputs = (batch :: batches) :: inputs)
      (hadd : add = 0 ∨ add = {.claimPartition p}) :
      Effect g pipes p (.run i)
        { (pipes p).created with
          inputs := batches :: inputs,
          hasMorePartitions :=
            (pipes p).hasMorePartitions && !(batches :: inputs).all List.isEmpty }
        {.claimPartition p} (.publish p [batch] .scan ::ₘ add)
  | constructCpu (i : Nat) (hfree : (pipes p).locked = false) :
      Effect g pipes p (.run i) (pipes p).created {.constructCpu p} {.cpuTask p}
  | exec (i : Nat) (batches : List B) :
      Effect g pipes p (.run i) (pipes p) {.exec p batches} {.publish p batches .gpu}
  | oomReschedule (i : Nat) (batches : List B) :
      Effect g pipes p (.oomReschedule i) (pipes p).created {.exec p batches}
        {.destroy p [] .rescheduled, .exec p batches}
  | setOpState (i : Nat) (batches : List B) (opState : S) :
      Effect g pipes p (.setOpState i opState) { pipes p with opState := opState }
        {.exec p batches} {.exec p batches}
  | exhaustLimit (i : Nat) (batches : List B) (hlimit : g.hasLimit p = true) :
      Effect g pipes p (.exhaustLimit i) { pipes p with limitExhausted := true }
        {.exec p batches} {.exec p batches}
  | continueScan (i : Nat) :
      Effect g pipes p (.continueScan i) (pipes p).created {.scanTask p}
        {.publish p [] .scan, .scanTask p}
  | drainScan (i : Nat) :
      Effect g pipes p (.drainScan i)
        { pipes p with
          activeLocalStates := (pipes p).activeLocalStates - 1,
          exhausted := (pipes p).exhausted || decide ((pipes p).activeLocalStates - 1 = 0) }
        {.scanTask p} {.publish p [] .scan}
  | cpuTask (i : Nat) :
      Effect g pipes p (.run i) { pipes p with exhausted := true } {.cpuTask p} {.publish p [] .scan}
  /-- A task of `q` pushes to a port of `p`. -/
  | push (i : Nat) (q : P) (held : List B) (after : After) (j : Nat) (batch : B) (port : Port P)
      (hport : (g.ports p)[j]? = some port) (hsrc : port.src = q) (hkind : g.kind p = .ports) :
      Effect g pipes p (.push i p j batch)
        { pipes p with
          inputs := (pipes p).inputs.modify j (· ++ [batch]),
          pushed := batch ::ₘ (pipes p).pushed }
        {.publish q held after} {.publish q held after}
  | publish (i : Nat) (batches : List B) (after : After) :
      Effect g pipes p (.run i) (pipes p) {.publish p batches after} {.destroy p batches after}
  | destroy (i : Nat) (batches : List B) (after : After) :
      Effect g pipes p (.run i)
        { pipes p with
          tasksCompleted := (pipes p).tasksCompleted + 1,
          consumed := (pipes p).consumed + (batches : Multiset B) }
        {.destroy p batches after}
        (.lockUpdate p true ::ₘ ((after.ops p : List (Op P B)) : Multiset (Op P B)))
  | lockUpdate (i : Nat) (original : Bool) (hfree : (pipes p).locked = false) :
      Effect g pipes p (.run i) (pipes p).lock {.lockUpdate p original} {.testFinished p original}
  | testAlready (i : Nat) (original : Bool) (hfin : (pipes p).pipelineFinished = true) :
      Effect g pipes p (.run i) (pipes p).unlock {.testFinished p original} {.notify p original}
  | testLimit (i : Nat) (original : Bool) (hlimit : (pipes p).limitExhausted = true) :
      Effect g pipes p (.run i) (pipes p) {.testFinished p original} {.loadCounters p original}
  | testSources (i : Nat) (original : Bool) (hfin : (pipes p).pipelineFinished = false)
      (hsrc : g.sourcePipelinesFinished pipes p = true) :
      Effect g pipes p (.run i) (pipes p) {.testFinished p original} {.checkPorts p original}
  | testFail (i : Nat) (original : Bool) (hsrc : g.sourcePipelinesFinished pipes p = false) :
      Effect g pipes p (.run i) (pipes p).unlock {.testFinished p original} 0
  | checkPorts (i : Nat) (original : Bool) (hsrc : g.sourceExhausted (pipes p) p = true) :
      Effect g pipes p (.run i) (pipes p) {.checkPorts p original} {.loadCounters p original}
  | checkFail (i : Nat) (original : Bool) (hsrc : g.sourceExhausted (pipes p) p = false) :
      Effect g pipes p (.run i) (pipes p).unlock {.checkPorts p original} 0
  | loadCreated (i : Nat) (original : Bool) :
      Effect g pipes p (.loadCreated i) (pipes p) {.loadCounters p original}
        {.loadedCreated p original (pipes p).tasksCreated}
  | loadCompleted (i : Nat) (original : Bool) :
      Effect g pipes p (.loadCompleted i) (pipes p) {.loadCounters p original}
        {.loadedCompleted p original (pipes p).tasksCompleted}
  | createdEq (i : Nat) (original : Bool) :
      Effect g pipes p (.run i) (pipes p) {.loadedCreated p original (pipes p).tasksCompleted}
        {.setFinished p original}
  | createdNe (i : Nat) (original : Bool) (created : Nat)
      (hne : created ≠ (pipes p).tasksCompleted) :
      Effect g pipes p (.run i) (pipes p).unlock {.loadedCreated p original created} 0
  | completedEq (i : Nat) (original : Bool) :
      Effect g pipes p (.run i) (pipes p) {.loadedCompleted p original (pipes p).tasksCreated}
        {.setFinished p original}
  | completedNe (i : Nat) (original : Bool) (completed : Nat)
      (hne : (pipes p).tasksCreated ≠ completed) :
      Effect g pipes p (.run i) (pipes p).unlock {.loadedCompleted p original completed} 0
  | setFinished (i : Nat) (original : Bool) :
      Effect g pipes p (.run i) { (pipes p).unlock with pipelineFinished := true }
        {.setFinished p original} {.notify p original}
  | pushSplit (split : B) (hkind : g.kind p = .gpuScan) (hopen : (pipes p).closed = false) :
      Effect g pipes p (.pushSplit p split)
        { pipes p with
          inputs := (pipes p).inputs.modify 0 (· ++ [split]),
          pushed := split ::ₘ (pipes p).pushed } 0 0
  | closeConnector (hkind : g.kind p = .gpuScan) :
      Effect g pipes p (.closeConnector p) { pipes p with closed := true } 0 0

/-! ## Every step is an effect -/

variable (i : Nat)

section StepEffect

variable [DecidableEq P] (p : P)

def Label.thread : Label P S B → Option Nat
  | .run i | .push i _ _ _ | .oomReschedule i | .setOpState i _ | .exhaustLimit i
  | .continueScan i | .drainScan i | .loadCreated i | .loadCompleted i => some i
  | .popRequest | .resolveRequest | .pushSplit _ _ | .closeConnector _ => none

/-- `st` goes to `st'` by replacing `rem` with `add` and the memory of `p` with `ps`; if a thread
did it, `rem` is the head of its stack. The completion of the query is signalled by
`markCompleted` and never taken back. -/
structure Changes (st st' : State P S B) (l : Label P S B) (p : P) (ps : PipeState S B)
    (rem add R : Multiset (Op P B)) : Prop where
  before : pending st.threads = rem + R
  after : pending st'.threads = add + R
  pipes : st'.pipes = Function.update st.pipes p ps
  head : ∀ i, l.thread = some i → ∃ op rest, rem = {op} ∧ st.threads[i]? = some (op :: rest) ∧
    (rest : Multiset (Op P B)) ≤ R
  completed : st.completed = true ∨ (∃ q, .markCompleted q ∈ rem) ↔ st'.completed = true

variable {st' : State P S B} {l : Label P S B} {p : P} {ps : PipeState S B} {op : Op P B}
  {st : State P S B}

theorem Changes.rem_mem {add R : Multiset (Op P B)} (h : Changes st st' l p ps {op} add R) :
    op ∈ pending st.threads := by
  rw [h.before]
  simp

def HasEffect (g : Graph P S B) (st st' : State P S B) (l : Label P S B) : Prop :=
  ∃ p ps rem add R, Changes st st' l p ps rem add R ∧ Effect g st.pipes p l ps rem add

variable {g : Graph P S B} {i : Nat} {rest : List (Op P B)}

/-- A thread's step, from the effect of its head operation. -/
theorem hasEffect_of_thread {add : List (Op P B)} {new : List (List (Op P B))}
    (hl : l.thread = some i) (h : st.threads[i]? = some (op :: rest))
    (hthreads : st'.threads = resume st.threads i (add ++ rest) new)
    (heff : Effect g st.pipes p l ps {op} ((add : Multiset (Op P B)) + pending new))
    (hpipes : st'.pipes = update st.pipes p ps := by first | rfl | simp)
    (hdone : st.completed = true ∨ (∃ q, op = .markCompleted q) ↔ st'.completed = true := by simp) :
    HasEffect g st st' l := by
  obtain ⟨R, hR, hle, hadd⟩ := pending_resume h
  refine ⟨p, ps, {op}, _, R, ⟨?_, ?_, hpipes, ?_, ?_⟩, heff⟩
  · rw [hR, Multiset.singleton_add]
  · rw [hthreads, hadd]
  · intro j hj
    obtain rfl := Option.mem_unique hl hj
    exact ⟨op, rest, rfl, h, hle⟩
  · rw [← hdone]
    simp only [Multiset.mem_singleton, eq_comm]

theorem hasEffect_of_stay (hl : l.thread = some i) (h : st.threads[i]? = some (op :: rest))
    (hthreads : st'.threads = st.threads) (heff : Effect g st.pipes p l ps {op} {op})
    (hpipes : st'.pipes = update st.pipes p ps := by rfl)
    (hdone : st.completed = true ∨ (∃ q, op = .markCompleted q) ↔ st'.completed = true := by simp) :
    HasEffect g st st' l := by
  have hset : st'.threads = resume st.threads i ([op] ++ rest) [] := by
    rw [hthreads, resume, List.append_nil]
    obtain ⟨hi, hget⟩ := List.getElem?_eq_some_iff.mp h
    rw [List.singleton_append, ← hget, List.set_getElem_self]
  refine hasEffect_of_thread hl h hset ?_ hpipes hdone
  rwa [pending_nil, add_zero]

theorem hasEffect_of_env {new : List (List (Op P B))} (hl : l.thread = none)
    (hthreads : st'.threads = st.threads ++ new)
    (heff : Effect g st.pipes p l ps 0 (pending new))
    (hpipes : st'.pipes = update st.pipes p ps := by first | rfl | simp)
    (hdone : st.completed = true ↔ st'.completed = true := by simp) : HasEffect g st st' l := by
  refine ⟨p, ps, 0, _, pending st.threads, ⟨(zero_add _).symm, ?_, hpipes, ?_, ?_⟩, heff⟩
  · rw [hthreads, pending_append, add_comm]
  · intro i hi
    rw [hl] at hi
    cases hi
  · rw [← hdone]
    simp

theorem hasEffect_of_control {add : List (Op P B)} (h : st.threads[i]? = some (op :: rest))
    (hthreads : st'.threads = resume st.threads i (add ++ rest) []) (hpipes : st'.pipes = st.pipes)
    (hop : op.isControl = true) (hadd : ∀ o ∈ add, o.isPassive = true := by simp)
    (hkind : op.KindOk g → ∀ o ∈ add, o.KindOk g := by simp)
    (hquiet : ∀ o ∈ add, o.isSignal = false := by simp)
    (hpost : op ≠ .postTask op.pipeline := by simp)
    (hwait : op ≠ .waitCreators op.pipeline := by simp)
    (hmark : op ≠ .markCompleted op.pipeline := by simp)
    (hdone : st.completed = true ↔ st'.completed = true := by simp) :
    HasEffect g st st' (.run i) := by
  have hkeep : st'.pipes = update st.pipes op.pipeline (st.pipes op.pipeline) := by
    rw [hpipes, update_eq_self]
  refine hasEffect_of_thread rfl h hthreads ?_ hkeep ?_
  · rw [pending_nil, add_zero]
    exact .control (.flow i op _ hop hpost hwait hmark rfl (by simpa using hadd)
      (by simpa using hkind) (by simpa using hquiet))
  · rw [← hdone, or_iff_left]
    rintro ⟨q, rfl⟩
    exact hmark rfl

omit [DecidableEq P] in
/-- An operation that waits for the `_status_mutex` goes on only when the mutex is free. -/
theorem unlocked_of_run {o : Option (State P S B)}
    (h : (if (st.pipes p).locked then none else o) = some st') :
    (st.pipes p).locked = false ∧ o = some st' := by
  rwa [Option.ite_none_left_eq_some, Bool.not_eq_true] at h

theorem runOp_effect (h : st.threads[i]? = some (op :: rest))
    (hrun : runOp g st i rest op = some st') : HasEffect g st st' (.run i) := by
  cases op with
  | createLoop p =>
    simp only [runOp, Option.some.injEq] at hrun
    subst hrun
    refine hasEffect_of_control h rfl rfl rfl ?_ ?_ ?_
    · split <;> simp [Op.isPassive, Op.isControl]
    · intro hk
      split <;> simp [Op.KindOk] at hk ⊢
      exact hk
    · split <;> simp [Op.isSignal]
  | lockPull p =>
    obtain ⟨hfree, hrun⟩ := unlocked_of_run hrun
    cases hrun
    exact hasEffect_of_thread rfl h rfl (.lockPull i hfree)
  | pull p =>
    simp only [runOp] at hrun
    split at hrun
    · cases hrun
    · cases hrun
      exact hasEffect_of_thread rfl h rfl (.pullNull i)
    · cases hrun
      exact hasEffect_of_thread rfl h rfl (.pullData i _ _ _ ‹_›)
  | construct p batches =>
    cases hrun
    exact hasEffect_of_thread rfl h rfl (.construct i batches)
  | createScanState p =>
    cases hrun
    exact hasEffect_of_thread rfl h rfl (.createScanState i)
  | constructScan p =>
    obtain ⟨hfree, hrun⟩ := unlocked_of_run hrun
    cases hrun
    exact hasEffect_of_thread rfl h rfl (.constructScan i hfree)
  | claimPartition p =>
    obtain ⟨hfree, hrun⟩ := unlocked_of_run hrun
    split at hrun
    next batch batches inputs hin =>
      cases hrun
      refine hasEffect_of_thread rfl h rfl ?_
      rw [pending_cons, pending_nil, add_zero, add_comm]
      exact .claimPartition i batch batches inputs
        ↑(if g.singleScan then [.claimPartition p] else [] : List (Op P B)) hfree hin
        (by cases g.singleScan <;> simp)
    · cases hrun
      exact hasEffect_of_control h rfl rfl rfl
  | constructCpu p =>
    obtain ⟨hfree, hrun⟩ := unlocked_of_run hrun
    cases hrun
    exact hasEffect_of_thread rfl h rfl (.constructCpu i hfree)
  | exec p batches =>
    cases hrun
    exact hasEffect_of_thread rfl h rfl (.exec i batches)
  | scanTask p => cases hrun
  | cpuTask p =>
    cases hrun
    exact hasEffect_of_thread rfl h rfl (.cpuTask i)
  | publish p batches after =>
    cases hrun
    exact hasEffect_of_thread rfl h rfl (.publish i batches after)
  | destroy p batches after =>
    cases hrun
    refine hasEffect_of_thread rfl h rfl ?_
    rw [pending_nil, add_zero]
    exact .destroy i batches after
  | lockUpdate p original =>
    obtain ⟨hfree, hrun⟩ := unlocked_of_run hrun
    cases hrun
    exact hasEffect_of_thread rfl h rfl (.lockUpdate i original hfree)
  | testFinished p original =>
    simp only [runOp] at hrun
    split at hrun
    · cases hrun
      exact hasEffect_of_thread rfl h rfl (.testAlready i original ‹_›)
    next hfin =>
      split at hrun
      · split at hrun
        · cases hrun
          exact hasEffect_of_thread rfl h rfl (.testLimit i original ‹_›)
        · split at hrun
          · cases hrun
            exact hasEffect_of_thread rfl h rfl
              (.testSources i original (by simpa using hfin) ‹_›)
          · cases hrun
            rename_i hsrc
            exact hasEffect_of_thread rfl h rfl (.testFail i original (by simpa using hsrc))
      next hkind =>
        cases hrun
        -- A scan has no ports, so its source pipelines are trivially finished.
        have hports : g.ports p = [] := g.scan_ports p (fun hk => hkind (Or.inl hk))
        exact hasEffect_of_thread rfl h rfl
          (.testSources i original (by simpa using hfin)
            (by simp [Graph.sourcePipelinesFinished, hports]))
  | checkPorts p original =>
    simp only [runOp] at hrun
    split at hrun
    · cases hrun
      exact hasEffect_of_thread rfl h rfl (.checkPorts i original ‹_›)
    · cases hrun
      rename_i hsrc
      exact hasEffect_of_thread rfl h rfl (.checkFail i original (by simpa using hsrc))
  | loadCounters p original => cases hrun
  | loadedCreated p original created =>
    simp only [runOp] at hrun
    split at hrun
    next heq =>
      subst heq
      cases hrun
      exact hasEffect_of_thread rfl h rfl (.createdEq i original)
    · cases hrun
      exact hasEffect_of_thread rfl h rfl (.createdNe i original created ‹_›)
  | loadedCompleted p original completed =>
    simp only [runOp] at hrun
    split at hrun
    next heq =>
      subst heq
      cases hrun
      exact hasEffect_of_thread rfl h rfl (.completedEq i original)
    · cases hrun
      exact hasEffect_of_thread rfl h rfl (.completedNe i original completed ‹_›)
  | setFinished p original =>
    cases hrun
    exact hasEffect_of_thread rfl h rfl (.setFinished i original)
  | notify p original =>
    simp only [runOp] at hrun
    split at hrun
    · cases hrun
      exact hasEffect_of_control h rfl rfl rfl
    · cases hrun
      refine hasEffect_of_control h rfl rfl rfl ?_ ?_ ?_
      · cases original <;> simp [Op.isPassive, Op.isControl, or_imp, forall_and]
      · cases original <;> simp [Op.KindOk, or_imp, forall_and]
      · cases original <;> simp [Op.isSignal, or_imp, forall_and]
  | requestConsumer q | scheduleConsumer q =>
    cases hrun
    exact hasEffect_of_control h rfl rfl rfl
  | postTask p =>
    simp only [runOp] at hrun
    split at hrun
    next hdone =>
      cases hrun
      rw [Bool.and_eq_true] at hdone
      exact hasEffect_of_thread rfl h rfl (.control (.postTaskComplete i hdone.1 hdone.2))
    next hdone =>
      cases hrun
      rw [Bool.and_eq_true] at hdone
      refine hasEffect_of_thread rfl h rfl (.control (.postTask i _ hdone ?_ ?_ ?_)) <;>
        simp [Op.isPassive, Op.isControl, Op.KindOk, Op.isSignal]
  | postScanTask p =>
    cases hrun
    refine hasEffect_of_control h rfl rfl rfl ?_ ?_ ?_
    · split <;> simp [Op.isPassive, Op.isControl]
    · split <;> simp [Op.KindOk]
    · split <;> simp [Op.isSignal]
  | waitCreators p =>
    simp only [runOp] at hrun
    split at hrun
    · cases hrun
    · cases hrun
      exact hasEffect_of_thread rfl h rfl (.control (.waitCreators i))
  | markCompleted p =>
    cases hrun
    exact hasEffect_of_thread rfl h rfl (.control (.markCompleted i))

theorem State.asked_of_ports {q : P} (hkind : g.kind q = .ports) :
    ∃ opState, st.asked g q = st.modify q fun ps => { ps with opState := opState } := by
  refine ⟨(g.operator q).hintState (st.pipes q).opState
    (fun r => (st.pipes r).pipelineFinished) (st.pipes q).inputs, ?_⟩
  rw [State.asked, if_pos hkind]
  rfl

theorem State.asked_of_ne {q : P} (hkind : g.kind q ≠ .ports) : st.asked g q = st := if_neg hkind

theorem hasEffect_of_waiting (g : Graph P S B) (st : State P S B) (q : P) (m : Option P) :
    HasEffect g st { st.asked g q with manager := m } .resolveRequest := by
  by_cases hkind : g.kind q = .ports
  · obtain ⟨opState, hasked⟩ := st.asked_of_ports hkind
    rw [hasked]
    exact hasEffect_of_env rfl (append_nil _).symm (.hintWaiting (p := q) opState)
  · rw [st.asked_of_ne hkind]
    exact hasEffect_of_env rfl (append_nil _).symm (.control (.managerOnly _ (Or.inr rfl)) : Effect g _ q _ _ _ _)

theorem resolveRequest_effect (g : Graph P S B) (st : State P S B) (q : P) :
    HasEffect g st (resolveRequest g st q) .resolveRequest := by
  unfold resolveRequest
  split
  · exact hasEffect_of_waiting g st q none
  next hhint =>
    by_cases hcpu : g.kind q = .cpuSource
    · have hfirst : (st.pipes q).taskScheduled = false := by
        simp only [Graph.getNextTaskHint, hcpu] at hhint
        by_contra hne
        simp [hne] at hhint
      simp only [hcpu, if_true]
      refine hasEffect_of_env rfl rfl ?_
      rw [pending_cons, pending_nil, add_zero]
      have hdispatch : g.dispatch q = .constructCpu q := by simp [Graph.dispatch, hcpu]
      rw [hdispatch]
      exact .dispatchCpu hcpu hfirst
    · simp only [hcpu, if_false]
      by_cases hkind : g.kind q = .ports
      · obtain ⟨opState, hasked⟩ := st.asked_of_ports hkind
        rw [hasked]
        refine hasEffect_of_env rfl rfl ?_
        rw [pending_cons, pending_nil, add_zero]
        have hdispatch : g.dispatch q = .createLoop q := by simp [Graph.dispatch, hkind]
        rw [hdispatch]
        exact .hintReady opState hkind
      · rw [st.asked_of_ne hkind]
        refine hasEffect_of_env rfl rfl ?_ (update_eq_self q _).symm
        rw [pending_cons, pending_nil, add_zero]
        exact .control (.dispatch hcpu)
  · split
    · exact hasEffect_of_waiting g st q none
    next r _ _ =>
      exact hasEffect_of_waiting g st q (some r)

/-- **Every step of the engine is an effect.** -/
theorem step_effect (h : step g st l = some st') : HasEffect g st st' l := by
  cases l <;> simp only [step] at h
  case run i =>
    split at h
    · exact runOp_effect ‹_› h
    · cases h
  case push i q j batch =>
    split at h
    next p held after rest hthread =>
      split at h
      next port hport =>
        split at h
        next hok =>
          cases h
          exact hasEffect_of_stay rfl hthread rfl
            (.push i p held after j batch port hport hok.1 hok.2.2)
        · cases h
      · cases h
    · cases h
  case oomReschedule i =>
    split at h
    next p batches rest hthread =>
      cases h
      exact hasEffect_of_thread rfl hthread rfl (.oomReschedule i batches)
    · cases h
  case setOpState i opState =>
    split at h
    next p batches rest hthread =>
      cases h
      exact hasEffect_of_stay rfl hthread rfl (.setOpState i batches opState)
    · cases h
  case exhaustLimit i =>
    split at h
    next p batches rest hthread =>
      split at h
      · cases h
        exact hasEffect_of_stay rfl hthread rfl (.exhaustLimit i batches ‹_›)
      · cases h
    · cases h
  case continueScan i =>
    split at h
    next p rest hthread =>
      cases h
      exact hasEffect_of_thread rfl hthread rfl (.continueScan i)
    · cases h
  case drainScan i =>
    split at h
    next p rest hthread =>
      cases h
      exact hasEffect_of_thread rfl hthread rfl (.drainScan i)
    · cases h
  case loadCreated i =>
    split at h
    next p original rest hthread =>
      cases h
      exact hasEffect_of_thread rfl hthread rfl (.loadCreated i original)
    · cases h
  case loadCompleted i =>
    split at h
    next p original rest hthread =>
      cases h
      exact hasEffect_of_thread rfl hthread rfl (.loadCompleted i original)
    · cases h
  case popRequest =>
    split at h
    next q requests _ _ =>
      cases h
      exact hasEffect_of_env rfl (append_nil _).symm (.control (.managerOnly _ (Or.inl rfl)) : Effect g _ q _ _ _ _)
    · cases h
  case resolveRequest =>
    split at h
    · cases h
      exact resolveRequest_effect g st _
    · cases h
  case pushSplit p split =>
    split at h
    next hok =>
      cases h
      exact hasEffect_of_env rfl (append_nil _).symm (.pushSplit split hok.1 (by simpa using hok.2))
    · cases h
  case closeConnector p =>
    split at h
    · cases h
      exact hasEffect_of_env rfl (append_nil _).symm (.closeConnector ‹_›)
    · cases h

end StepEffect

end Sirius.Engine
