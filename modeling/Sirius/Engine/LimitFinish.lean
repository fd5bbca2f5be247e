import Mathlib.Data.Fintype.Basic
import Sirius.Engine.Completion

/-!
# Pipelines that are finished by a limit

`update_pipeline_status` does not wait for the source of a pipeline whose streaming limit is exhausted.
Batches may still be queued at its ports and others may still come, and the creation loop
(`while (!node->all_ports_empty())`) does not ask whether the pipeline is finished. If it finds a batch
for a finished pipeline, the next thing it does is to construct a task of it. Otherwise a finished
pipeline has no task, and never gets one.

That is not enough for `wait_for_completion`, which throws if it finds any task in a queue. A terminal
pipeline that is finished by its limit signals completion while the pipelines before it may still have
tasks. So completion has to come after all pipelines are finished (`signalSafe`).
-/

namespace Sirius.Engine

open Lib List

variable {P S B : Type} [DecidableEq P] {g : Graph P S B}

/-- The runs of the engine in which no task is constructed between the counter loads of a status check
or for an exhausted DuckDB scan, and the creator does not find input for a finished pipeline. -/
abbrev LateRun (g : Graph P S B) : State P S B → State P S B → Prop :=
  Run (step g) fun st l => finishSafe st l = true ∧ lateSafe g st l = true

/-- Completion is signalled only when all pipelines are finished. -/
def signalSafe (st : State P S B) : Label P S B → Prop
  | .run i =>
    match st.threads[i]? with
    | some (.markCompleted _ :: _) => ∀ p, (st.pipes p).pipelineFinished = true
    | _ => True
  | _ => True

instance [Fintype P] (st : State P S B) (l : Label P S B) : Decidable (signalSafe st l) := by
  unfold signalSafe
  split
  · split <;> infer_instance
  · infer_instance

theorem Idle.of_run {st st' : State P S B} (hs : Idle g st) (hrun : LateRun g st st') : Idle g st' :=
  hrun.invariant hs fun hs hsafe h => hs.step hsafe.1 hsafe.2 h

/-- A step that is not `lateSafe` takes input for a finished pipeline, and a task is constructed for
it. -/
theorem created_of_not_lateSafe {st : State P S B} {l : Label P S B}
    (hlate : lateSafe g st l = false) :
    ∃ p st' st'', (st.pipes p).pipelineFinished = true ∧ step g st l = some st' ∧
      step g st' l = some st'' ∧
      (st''.pipes p).tasksCreated = (st.pipes p).tasksCreated + 1 := by
  cases l with
  | run i =>
    simp only [lateSafe] at hlate
    split at hlate
    next p rest hthread =>
      obtain ⟨hfin, hdata⟩ := Bool.or_eq_false_iff.mp hlate
      split at hdata
      next batches inputs opState hpull =>
        set pulled := (st.modify p fun ps => { ps with inputs := inputs, opState := opState }).goOn i
          [.construct p batches] rest with hpulled
        have hnext : pulled.threads[i]? = some (.construct p batches :: rest) := by
          have hlt : i < st.threads.length := (List.getElem?_eq_some_iff.mp hthread).1
          simp [hpulled, resume, State.modify, hlt]
        refine ⟨p, pulled, (pulled.modify p fun ps => ps.created.unlock).goOn i [.createLoop p] rest
          [[.exec p batches]], by simpa using hfin, ?_, ?_, ?_⟩
        · simp only [step, hthread, runOp, hpull]
          rfl
        · simp only [step, hnext, runOp]
        · simp [hpulled, PipeState.created, PipeState.unlock]
      next => cases hdata
    next => cases hlate
  | _ => cases hlate

/-- Completion is signalled by one step only. -/
theorem signals_of_completed {st st' : State P S B} {l : Label P S B} (h : step g st l = some st')
    (hdone : st'.completed = true) :
    st.completed = true ∨ ∃ i p rest, l = .run i ∧ st.threads[i]? = some (.markCompleted p :: rest) := by
  obtain ⟨q, ps, rem, add, R, hch, he⟩ := step_effect h
  refine (hch.completed.2 hdone).imp_right ?_
  rintro ⟨p, hmark⟩
  cases he with
  | control he =>
    cases he with
    | markCompleted i =>
      obtain ⟨op, rest, hrem, hthread, -⟩ := hch.head i rfl
      obtain rfl := Multiset.singleton_inj.mp hrem
      exact ⟨i, q, rest, rfl, hthread⟩
    | flow i op add hctl hpost hwait hmark' hp =>
      obtain rfl := Multiset.mem_singleton.mp hmark
      exact absurd (by rw [← hp]; rfl) hmark'
    | _ => simp at hmark
  | _ => simp at hmark

/-- The runs that are `LateRun`s and signal completion only after all pipelines. -/
abbrev SignalRun (g : Graph P S B) : State P S B → State P S B → Prop :=
  Run (step g) fun st l => (finishSafe st l = true ∧ lateSafe g st l = true) ∧ signalSafe st l

/-- With completion all pipelines are finished. -/
theorem finished_of_completed {st st' : State P S B} (hopen : st.completed = false)
    (hrun : SignalRun g st st') (hdone : st'.completed = true) :
    ∀ p, (st'.pipes p).pipelineFinished = true := by
  refine hrun.invariant (I := fun st => st.completed = true → ∀ p, (st.pipes p).pipelineFinished = true)
    (fun h => absurd h (by rw [hopen]; exact Bool.false_ne_true)) ?_ hdone
  intro st st' l hs hsafe h hdone p
  apply finished_step h
  rcases signals_of_completed h hdone with hbefore | ⟨i, r, rest, rfl, hthread⟩
  · exact hs hbefore p
  · have hsignal := hsafe.2
    rw [signalSafe, hthread] at hsignal
    exact hsignal p

/-- **No task after a pipeline is finished**, by its limit or otherwise, in a run whose steps are all
`finishSafe` and `lateSafe`; and none at all once completion is signalled, if that is done after all
pipelines. A step that is not `lateSafe` is followed by one that creates a task of a finished pipeline, and
a signal that is given while there is a task leaves it there. -/
theorem limit_finished_pipeline_final (g : Graph P S B) (opState : P → S) (partitions : P → List B)
    (requests : List P) {st : State P S B}
    (hrun : LateRun g (State.initial g opState partitions requests) st) :
    (∀ p, (st.pipes p).pipelineFinished = true →
      (∀ op ∈ pending st.threads, op.pipeline = p → op.isTask = false) ∧
      ∀ st', LateRun g st st' →
        (st'.pipes p).pipelineFinished = true ∧
        (st'.pipes p).tasksCreated = (st.pipes p).tasksCreated ∧
        (st'.pipes p).tasksCompleted = (st.pipes p).tasksCompleted) ∧
    (SignalRun g (State.initial g opState partitions requests) st → st.completed = true →
      ∀ st', LateRun g st st' → ∀ op ∈ pending st'.threads, op.isTask = false) ∧
    (∀ l, lateSafe g st l = false → ∃ p st' st'', (st.pipes p).pipelineFinished = true ∧
      step g st l = some st' ∧ step g st' l = some st'' ∧
      (st''.pipes p).tasksCreated = (st.pipes p).tasksCreated + 1) ∧
    ∀ i p rest, st.threads[i]? = some (.markCompleted p :: rest) →
      ∃ st', step g st (.run i) = some st' ∧ st'.completed = true ∧
        ∀ op ∈ pending st.threads, op.isTask = true → op ∈ pending st'.threads := by
  have hs : Idle g st := (Idle.initial opState partitions requests).of_run hrun
  have hidle : ∀ st, Idle g st → ∀ p, (st.pipes p).pipelineFinished = true →
      ∀ op ∈ pending st.threads, op.pipeline = p → op.isTask = false := by
    intro st hs p hfin
    exact tally_indicator_eq_zero.mp (hs.idle p hfin).2
  have hfinal : ∀ p, (st.pipes p).pipelineFinished = true → ∀ st', LateRun g st st' →
      (st'.pipes p).pipelineFinished = true ∧
        (st'.pipes p).tasksCreated = (st.pipes p).tasksCreated := by
    intro p hfin st' hrun'
    refine hrun'.frame (R := fun a b => (b.pipes p).pipelineFinished = true ∧
      (b.pipes p).tasksCreated = (a.pipes p).tasksCreated) hs
      (fun hs hsafe h => hs.step hsafe.1 hsafe.2 h) ⟨hfin, rfl⟩ ?_
    intro a b l ha _ h hab
    obtain ⟨hclosed, hzero⟩ := ha.idle p hab.1
    have hsame := (ha.idle_step h hclosed hzero (ha.no_construct_of_finished hab.1)).1
    exact ⟨finished_step h p hab.1, hsame.trans hab.2⟩
  refine ⟨fun p hfin => ⟨hidle st hs p hfin, fun st' hrun' => ?_⟩, fun hsignal hdone st' hrun' op hop => ?_,
    fun l hlate => created_of_not_lateSafe hlate, fun i p rest hthread => ?_⟩
  · -- The number of tasks created stays, so the number of tasks completed, which is no larger, does.
    have hcreated := hfinal p hfin st' hrun'
    have hs' : Idle g st' := hs.of_run hrun'
    have hcounts := (hs.counters_eq_iff p).mpr (hs.idle p hfin).2
    have hcounts' := (hs'.counters_eq_iff p).mpr (hs'.idle p hcreated.1).2
    exact ⟨hcreated.1, hcreated.2, by omega⟩
  · have hfin := finished_of_completed rfl hsignal hdone op.pipeline
    exact hidle st' (hs.of_run hrun') op.pipeline (hfinal _ hfin st' hrun').1 op hop rfl
  · obtain ⟨R, hpending, -, hresume⟩ := pending_resume hthread
    refine ⟨{ st with completed := true }.goOn i [] rest, ?_, rfl, fun op hop htask => ?_⟩
    · simp only [step, hthread, runOp]
    · rw [hpending] at hop
      have hafter : pending (resume st.threads i ([] ++ rest) []) = R := by
        rw [hresume]
        simp
      rcases Multiset.mem_cons.mp hop with rfl | hR
      · cases htask
      · exact hafter ▸ hR

/-! ## A limit that is exhausted early -/

/-- A GPU scan streaming into a pipeline with a limit that feeds the result collector. -/
def limitToCollector : Graph (Fin 2) Unit Nat :=
  { streamToCollector with hasLimit := fun p => decide (p = sinkPipeline) }

abbrev limitStart : State (Fin 2) Unit Nat :=
  State.initial limitToCollector (fun _ => ()) (fun _ => []) [scanPipeline]

def oneBatchLimit : List (Label (Fin 2) Unit Nat) :=
  List.flatten [
    [.pushSplit scanPipeline 1, .closeConnector scanPipeline, .popRequest, .resolveRequest], List.replicate 5 (.run 0),
    .run 1 :: .push 1 sinkPipeline 0 10 :: List.replicate 5 (.run 1), .loadCreated 1 :: List.replicate 8 (.run 1),
    [.popRequest, .resolveRequest], List.replicate 5 (.run 2), [.exhaustLimit 3],
    List.replicate 5 (.run 3), .loadCreated 3 :: List.replicate 6 (.run 3)]

/-- The limit is exhausted by the last batch, and completion is signalled. -/
theorem limitToCollector_no_task_after_finish :
    ∃ st, SignalRun limitToCollector limitStart st ∧
      (st.pipes 1).limitExhausted = true ∧ (∀ p, (st.pipes p).pipelineFinished = true) ∧
      st.completed = true ∧
      ∀ st', LateRun limitToCollector st st' →
        (st'.pipes 1).tasksCreated = 1 ∧ ∀ op ∈ pending st'.threads, op.isTask = false := by
  obtain ⟨st, hrun, hlimit, hfin, hone, hdone⟩ : ∃ st : State (Fin 2) Unit Nat,
      Run (step limitToCollector)
        (fun st l => (finishSafe st l && lateSafe limitToCollector st l && decide (signalSafe st l)) = true)
        limitStart st ∧
      (st.pipes 1).limitExhausted = true ∧ (∀ p, (st.pipes p).pipelineFinished = true) ∧
      (st.pipes 1).tasksCreated = 1 ∧ st.completed = true := by
    apply Run.exists_of_runLabels oneBatchLimit
    decide +kernel
  have hsignal : SignalRun limitToCollector _ st := hrun.mono fun _ _ hsafe => by
    simpa only [Bool.and_eq_true, decide_eq_true_eq] using hsafe
  obtain ⟨hfinal, hqueues, -⟩ := limit_finished_pipeline_final limitToCollector _ _ _
    (hsignal.mono fun _ _ hsafe => hsafe.1)
  refine ⟨st, hsignal, hlimit, hfin, hdone, fun st' hrun' => ⟨?_, hqueues hsignal hdone st' hrun'⟩⟩
  rw [((hfinal 1 (hfin 1)).2 st' hrun').2.1, hone]

/-- The first of two batches exhausts the limit, and the pipeline is finished. -/
def limitFinished : List (Label (Fin 2) Unit Nat) :=
  List.flatten [
    [.pushSplit scanPipeline 1, .pushSplit scanPipeline 2, .closeConnector scanPipeline, .popRequest, .resolveRequest],
    List.replicate 9 (.run 0),
    .run 1 :: .push 1 sinkPipeline 0 10 :: List.replicate 5 (.run 1), .loadCreated 1 :: List.replicate 3 (.run 1),
    [.popRequest, .resolveRequest], List.replicate 5 (.run 3), [.exhaustLimit 4],
    List.replicate 5 (.run 4), .loadCreated 4 :: List.replicate 3 (.run 4)]

/-- The second batch arrives, a task is created for it, and completion is signalled while that task is
queued. -/
def secondBatch : List (Label (Fin 2) Unit Nat) :=
  List.flatten [
    .run 2 :: .push 2 sinkPipeline 0 20 :: List.replicate 5 (.run 2), .loadCreated 2 :: List.replicate 8 (.run 2),
    [.popRequest, .resolveRequest], List.replicate 5 (.run 5), List.replicate 3 (.run 4)]

/-- A task of the finished pipeline is created, and it is in a queue when the query is complete. Or the
second scan task still is, though no task of the finished pipeline is ever created. -/
theorem limitToCollector_task_after_finish :
    (∃ st st', Reachable limitToCollector st ∧ (st.pipes 1).pipelineFinished = true ∧
      Run (step limitToCollector) (fun _ _ => True) st st' ∧
      (st.pipes 1).tasksCreated < (st'.pipes 1).tasksCreated ∧
      st'.completed = true ∧ .exec 1 [20] ∈ pending st'.threads) ∧
    ∃ st, LateRun limitToCollector limitStart st ∧
      (st.pipes 1).pipelineFinished = true ∧ st.completed = true ∧ .exec 0 [2] ∈ pending st.threads := by
  constructor
  · obtain ⟨st, hrun, hfin, hone, hlater⟩ : ∃ st : State (Fin 2) Unit Nat,
        Run (step limitToCollector) (fun _ _ => true = true) limitStart st ∧
        (st.pipes 1).pipelineFinished = true ∧ (st.pipes 1).tasksCreated = 1 ∧
        (runLabels (guarded (step limitToCollector) fun _ _ => true) st secondBatch).any
          (fun st' => decide ((st'.pipes 1).tasksCreated = 2 ∧ st'.completed = true ∧
            .exec 1 [20] ∈ pending st'.threads)) = true := by
      apply Run.exists_of_runLabels limitFinished
      decide +kernel
    obtain ⟨st', hrun', htwo, hlast⟩ := Run.exists_of_runLabels _ hlater
    refine ⟨st, st', ⟨_, _, _, hrun.mono fun _ _ _ => trivial⟩, hfin,
      hrun'.mono fun _ _ _ => trivial, ?_, hlast⟩
    rw [hone, htwo]
    decide
  · obtain ⟨st, hrun, hst⟩ : ∃ st : State (Fin 2) Unit Nat,
        Run (step limitToCollector)
          (fun st l => (finishSafe st l && lateSafe limitToCollector st l) = true)
          limitStart st ∧
        (st.pipes 1).pipelineFinished = true ∧ st.completed = true ∧ .exec 0 [2] ∈ pending st.threads := by
      apply Run.exists_of_runLabels (limitFinished ++ List.replicate 3 (Label.run 4))
      decide +kernel
    exact ⟨st, hrun.mono fun _ _ hsafe => Bool.and_eq_true_iff.mp hsafe, hst⟩

end Sirius.Engine
