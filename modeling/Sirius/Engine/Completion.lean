import Sirius.Engine.Finished

/-!
# Query completion

`mark_completed` is called from one place: the post-task step of a GPU task of the terminal
pipeline that finds `is_pipeline_finished`. The flag it reads is set in two places: the destructor
of a task of the terminal pipeline, whose worker goes on with the post-task step, and the status
update that an upstream pipeline passes on when it finishes. `completionSafe` says that the flag is
set by a thread that has the post-task step of the terminal pipeline ahead of it; then, until
completion is signalled, some thread always has it ahead.
-/

namespace Sirius.Engine

open Lib Multiset

variable {P S B : Type} [DecidableEq P] {g : Graph P S B}

/-- The post-task step of a worker that ran a task of `p`. -/
def Op.isPostTask (p : P) : Op P B → Bool
  | .postTask q => decide (q = p)
  | _ => false

/-- The steps from the post-task check of `p` to `mark_completed`. -/
def Op.signals (p : P) : Op P B → Bool
  | .postTask q | .waitCreators q | .markCompleted q => decide (q = p)
  | _ => false

def Op.isOutstanding : Op P B → Bool
  | .postTask _ | .postScanTask _ | .scheduleConsumer _ | .waitCreators _ | .markCompleted _ => true
  | op => op.isCreator || op.isTask

variable {p : P} {op : Op P B} {l : Label P S B}

theorem Op.isOutstanding_of_signals (h : op.signals p = true) : op.isOutstanding = true := by
  cases op <;> first | rfl | exact absurd h Bool.false_ne_true

/-- The terminal pipeline `p` is finished, nothing is left that could signal it, and completion has
not been signalled: the query hangs. -/
def Stalled (g : Graph P S B) (st : State P S B) (p : P) : Prop :=
  g.terminal p = true ∧ (st.pipes p).pipelineFinished = true ∧
    (∀ op ∈ pending st.threads, op.isOutstanding = false) ∧
    st.requests = [] ∧ st.manager = none ∧ st.completed = false

/-- A terminal pipeline is marked finished only by a thread that performs its post-task step
afterwards. -/
def completionSafe (g : Graph P S B) (st : State P S B) : Label P S B → Bool
  | .run i =>
    match st.threads[i]? with
    | some (.setFinished p _ :: rest) => !g.terminal p || rest.any (Op.isPostTask p)
    | _ => true
  | _ => true

/-- Completion of a finished terminal pipeline is signalled, or some thread is on its way to. -/
def Signalled (g : Graph P S B) (st : State P S B) : Prop :=
  ∀ p, g.terminal p = true → (st.pipes p).pipelineFinished = true →
    st.completed = true ∨ ∃ op ∈ pending st.threads, op.signals p = true

theorem signals_of_isPostTask (h : op.isPostTask p = true) : op.signals p = true := by
  cases op <;> simp_all [Op.isPostTask, Op.signals]

section

variable {pipes : P → PipeState S B} {q : P} {rem add : Multiset (Op P B)}
  (hterm : g.terminal p = true) (hfin : (pipes p).pipelineFinished = true) (hop : op ∈ rem)
  (hsig : op.signals p = true)

include hterm hfin hop hsig

/-- A signalling operation of a finished terminal pipeline hands on to the next one, or signals. -/
theorem ControlEffect.signals (h : ControlEffect g pipes q l rem add) :
    (∃ o ∈ add, o.signals p = true) ∨ ∃ r, .markCompleted r ∈ rem := by
  cases h with
  | flow i op' add hctl hpost hwait hmark hp _ _ =>
    obtain rfl := mem_singleton.mp hop
    cases op <;> simp_all [Op.signals, Op.pipeline]
  | managerOnly | dispatch => simp at hop
  | postTaskComplete i | waitCreators i =>
    obtain rfl := mem_singleton.mp hop
    exact Or.inl ⟨_, mem_singleton_self _, hsig⟩
  | postTask i add hnot =>
    obtain rfl := mem_singleton.mp hop
    obtain rfl : q = p := of_decide_eq_true hsig
    exact absurd ⟨hterm, hfin⟩ hnot
  | markCompleted i => exact Or.inr ⟨q, mem_singleton_self _⟩

theorem Effect.signals {ps : PipeState S B} (h : Effect g pipes q l ps rem add) :
    (∃ o ∈ add, o.signals p = true) ∨ ∃ r, .markCompleted r ∈ rem := by
  cases h with
  | control h => exact h.signals hterm hfin hop hsig
  | dispatchCpu | hintWaiting | hintReady | pushSplit | closeConnector => simp at hop
  | _ =>
    obtain rfl := mem_singleton.mp hop
    cases hsig

end

theorem Signalled.step {st st' : State P S B} (hs : Signalled g st)
    (hsafe : completionSafe g st l = true) (h : step g st l = some st') : Signalled g st' := by
  obtain ⟨q, ps, rem, add, R, hch, he⟩ := step_effect h
  intro p hterm hfin'
  by_cases hfin : (st.pipes p).pipelineFinished = true
  · rcases hs p hterm hfin with hdone | ⟨op, hop, hsig⟩
    · exact Or.inl (hch.completed.mp (Or.inl hdone))
    · rw [hch.before] at hop
      rw [hch.after]
      rcases mem_add.mp hop with hrem | hR
      · rcases he.signals hterm hfin hrem hsig with ⟨o, ho, hosig⟩ | hmark
        · exact Or.inr ⟨o, mem_add.mpr (Or.inl ho), hosig⟩
        · exact Or.inl (hch.completed.mp (Or.inr hmark))
      · exact Or.inr ⟨op, mem_add.mpr (Or.inr hR), hsig⟩
  · -- The flag has just been set, by a thread with the post-task step ahead of it.
    have hpq : p = q := by
      by_contra hne
      rw [hch.pipes, Function.update_of_ne hne] at hfin'
      exact hfin hfin'
    subst hpq
    rw [hch.pipes, Function.update_self] at hfin'
    cases he with
    | setFinished i original =>
      obtain ⟨op, rest, hrem, hthread, hle⟩ := hch.head i rfl
      obtain rfl := singleton_inj.mp hrem
      simp only [completionSafe, hthread, hterm, Bool.not_true, Bool.false_or] at hsafe
      obtain ⟨o, ho, hpost⟩ := List.any_eq_true.mp hsafe
      rw [hch.after]
      exact Or.inr ⟨o, mem_add.mpr (Or.inr (mem_of_le hle ho)),
        signals_of_isPostTask hpost⟩
    | _ => exact absurd hfin' hfin

/-- **Query completion is signalled.** No state of a run whose steps are all `completionSafe` is
stalled. -/
theorem query_completion_signalled (g : Graph P S B) (opState : P → S) (partitions : P → List B)
    (requests : List P) (st : State P S B)
    (hrun : Run (step g) (fun st l => completionSafe g st l = true)
      (State.initial g opState partitions requests) st) (p : P) : ¬ Stalled g st p := by
  rintro ⟨hterm, hfin, hidle, _, _, hopen⟩
  have hinit : Signalled g (State.initial g opState partitions requests) := by
    intro q _ hq
    simp only [State.initial] at hq
    split at hq <;> cases hq
  have hsig : Signalled g st := hrun.invariant hinit fun hs hsafe h => hs.step hsafe h
  rcases hsig p hterm hfin with hdone | ⟨op, hop, hop'⟩
  · rw [hopen] at hdone
    cases hdone
  · have hno := hidle op hop
    rw [Op.isOutstanding_of_signals hop'] at hno
    cases hno

/-- The run of `oneScan` goes on to the signal. -/
theorem oneScan_completion_signalled :
    ∃ st, Run (step oneScan) (fun st l => completionSafe oneScan st l = true) oneScanInitial st ∧
      (st.pipes 0).pipelineFinished = true ∧ (∀ thread ∈ st.threads, thread = []) ∧
      ¬ Stalled oneScan st 0 := by
  obtain ⟨st, hrun, hfin, hidle⟩ : ∃ st : State (Fin 1) Unit Nat,
      Run (step oneScan) (fun st l => completionSafe oneScan st l = true) oneScanInitial st ∧
        (st.pipes 0).pipelineFinished = true ∧ ∀ thread ∈ st.threads, thread = [] := by
    apply Run.exists_of_runLabels (oneSplitRun ++ List.replicate 4 (Label.run 1))
    decide +kernel
  exact ⟨st, hrun, hfin, hidle, query_completion_signalled oneScan _ _ _ st hrun 0⟩

/-! ## A query that hangs -/

abbrev scanPipeline : Fin 2 := ⟨0, Nat.zero_lt_two⟩

abbrev sinkPipeline : Fin 2 := ⟨1, Nat.one_lt_two⟩

/-- A GPU scan streaming into the pipeline that feeds the result collector. -/
def streamToCollector : Graph (Fin 2) Unit Nat where
  kind p := if p = scanPipeline then .gpuScan else .ports
  ports p := if p = scanPipeline then [] else [⟨scanPipeline, .pipelineBarrier, true⟩]
  operator p := .ofPorts (if p = scanPipeline then [] else [⟨scanPipeline, .pipelineBarrier, true⟩])
  consumers p := if p = scanPipeline then [sinkPipeline] else []
  parents p := if p = scanPipeline then [sinkPipeline] else []
  terminal p := decide (p = sinkPipeline)
  hasLimit _ := false
  maxThreads _ := 1
  singleScan := true
  scan_ports := by decide

/-- Two scan tasks. The post-task step of the first one starts a creation loop of the collecting
pipeline, which takes the output of both before the second scan task is destroyed. Its tasks
complete and see an unfinished pipeline; then the destructor of the second scan task finishes the
scan and, by notification, the collecting pipeline. -/
def finishedByNotification : List (Label (Fin 2) Unit Nat) :=
  List.flatten [
    [.pushSplit scanPipeline 1, .pushSplit scanPipeline 2, .closeConnector scanPipeline, .popRequest, .resolveRequest],
    List.replicate 9 (.run 0),
    .run 1 :: .push 1 sinkPipeline 0 10 :: List.replicate 5 (.run 1),
    .loadCreated 1 :: List.replicate 3 (.run 1),
    [.run 2, .push 2 sinkPipeline 0 20, .popRequest, .resolveRequest],
    List.replicate 9 (.run 3), List.replicate 6 (.run 4), List.replicate 6 (.run 5),
    List.replicate 5 (.run 2), .loadCreated 2 :: List.replicate 6 (.run 2),
    .loadCreated 2 :: List.replicate 5 (.run 2), [.popRequest, .resolveRequest]]

theorem streamToCollector_stalled :
    ∃ st, Reachable streamToCollector st ∧ Stalled streamToCollector st 1 := by
  obtain ⟨st, hrun, hfin, hidle, hrest⟩ : ∃ st : State (Fin 2) Unit Nat,
      Run (step streamToCollector) (fun _ _ => true = true)
        (State.initial streamToCollector (fun _ => ()) (fun _ => []) [0]) st ∧
      (st.pipes 1).pipelineFinished = true ∧ (∀ thread ∈ st.threads, thread = []) ∧
      st.requests = [] ∧ st.manager = none ∧ st.completed = false := by
    apply Run.exists_of_runLabels finishedByNotification
    decide +kernel
  refine ⟨st, ⟨_, _, _, hrun.mono fun _ _ _ => trivial⟩, rfl, hfin, ?_, hrest⟩
  rw [pending_eq_zero_iff.mpr hidle]
  simp

end Sirius.Engine
