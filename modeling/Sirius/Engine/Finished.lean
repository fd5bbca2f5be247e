import Sirius.Engine.Idle

/-!
# A finished pipeline is final

Without a limit `update_pipeline_status` marks a pipeline finished after three observations made one
after the other: the source pipelines are finished, the source is exhausted, the two task counters
agree. What a thread in the middle of that check has established (`Op.Knows`) no other thread can take
back, so that a finished pipeline is `Drained`: no batch is left and none comes.
-/

namespace Sirius.Engine

open Lib List

variable {P S B : Type} [DecidableEq P] {g : Graph P S B}

/-! ## What a status check knows -/

/-- The source pipelines of `p` are finished and its source has nothing more to give. -/
def SourceDone (g : Graph P S B) (pipes : P → PipeState S B) (p : P) : Prop :=
  g.sourcePipelinesFinished pipes p = true ∧ g.sourceExhausted (pipes p) p = true

/-- Nothing can come any more, and nothing is in flight. -/
def Drained (g : Graph P S B) (st : State P S B) (p : P) : Prop :=
  SourceDone g st.pipes p ∧ tasksOf p (pending st.threads) = 0

def Op.Knows (g : Graph P S B) (st : State P S B) : Op P B → Prop
  | .construct p _ => (st.pipes p).pipelineFinished = false
  | .checkPorts p _ => g.sourcePipelinesFinished st.pipes p = true
  | .loadCounters p _ => SourceDone g st.pipes p
  | .loadedCreated p _ created => SourceDone g st.pipes p ∧ created = (st.pipes p).tasksCreated
  | .loadedCompleted p _ completed =>
    SourceDone g st.pipes p ∧ completed ≤ (st.pipes p).tasksCompleted
  | .setFinished p _ => Drained g st p
  | _ => True

/-- The invariant of the runs whose steps are all `finishSafe`. -/
structure Sound (g : Graph P S B) (st : State P S B) : Prop extends Tracked g st where
  conserved : ∀ p, Conserved g p (st.pipes p) (heldBy p (pending st.threads))
  noLimit : ∀ p, (st.pipes p).limitExhausted = false
  knows : ∀ op ∈ pending st.threads, op.Knows g st
  drained : ∀ p, (st.pipes p).pipelineFinished = true → Drained g st p

variable {st st' : State P S B} {p : P}

theorem sourcePipelinesFinished_step {l : Label P S B} (h : step g st l = some st')
    (hsrc : g.sourcePipelinesFinished st.pipes p = true) :
    g.sourcePipelinesFinished st'.pipes p = true := by
  unfold Graph.sourcePipelinesFinished at hsrc ⊢
  rw [all_eq_true] at hsrc ⊢
  intro port hport
  exact finished_step h _ (hsrc port hport)

/-! ## Steps of sound states -/

/-- What a status check knows of the source. -/
def Op.KnowsSource (g : Graph P S B) (st : State P S B) : Op P B → Prop
  | .checkPorts p _ => g.sourcePipelinesFinished st.pipes p = true
  | .loadCounters p _ | .loadedCreated p _ _ | .loadedCompleted p _ _ | .setFinished p _ =>
    SourceDone g st.pipes p
  | _ => True

/-- A status check knows of the source and of the counters. -/
theorem Op.knows_iff {op : Op P B} : op.Knows g st ↔ op.KnowsSource g st ∧ op.KnowsIdle g st := by
  have hclosed : ∀ p, SourceDone g st.pipes p → Closed g st.pipes p := by
    intro p hdone
    exact .inr hdone.2
  cases op <;> simp only [Op.Knows, Op.KnowsSource, Op.KnowsIdle, Drained, and_true, true_and]
  case loadCounters p original =>
    exact ⟨fun hdone => ⟨hdone, hclosed p hdone⟩, And.left⟩
  all_goals
    exact ⟨fun h => ⟨h.1, hclosed _ h.1, h.2⟩, fun h => ⟨h.1, h.2.2⟩⟩

section Step

variable {st st' : State P S B} {l : Label P S B}

section

variable (hs : Sound g st)

include hs

theorem Sound.no_publish (hsrc : g.sourcePipelinesFinished st.pipes p = true) {port : Port P}
    (hport : port ∈ g.ports p) (held : List B) (after : After) :
    .publish port.src held after ∉ pending st.threads := by
  have hfin : (st.pipes port.src).pipelineFinished = true := all_eq_true.mp hsrc port hport
  exact not_mem_of_tasksOf (hs.drained _ hfin).2 rfl rfl

/-- **An exhausted source stays exhausted** once the source pipelines are finished. -/
theorem Sound.sourceDone_step (h : step g st l = some st') (hdone : SourceDone g st.pipes p) :
    SourceDone g st'.pipes p := by
  obtain ⟨hsrc, hex⟩ := hdone
  refine ⟨sourcePipelinesFinished_step h hsrc, hs.sourceExhausted_step h ?_ hex⟩
  intro port hport held after
  exact hs.no_publish hsrc hport held after

/-- What a status check knows of the source is enough to know the counters. -/
theorem Sound.isIdle : Idle g st where
  toTracked := hs.toTracked
  limitKind p hlimit := by
    rw [hs.noLimit p] at hlimit
    cases hlimit
  knowsIdle op hop := (Op.knows_iff.mp (hs.knows op hop)).2
  idle p hfin := by
    obtain ⟨hdone, hzero⟩ := hs.drained p hfin
    exact ⟨.inr hdone.2, hzero⟩

/-- Every step is `lateSafe`: the inputs of a finished pipeline are empty. -/
theorem Sound.lateSafe (l : Label P S B) : lateSafe g st l = true := by
  cases l with
  | run i =>
    simp only [Engine.lateSafe]
    split
    next p rest hthread =>
      cases hfin : (st.pipes p).pipelineFinished with
      | false => rfl
      | true =>
        split
        next batches inputs opState hpull =>
          have hnil := hs.inputs_nil (hs.drained p hfin).1.2
          exact absurd hpull (getNextTaskInputData_of_empty hnil _ _ _)
        next => rfl
    next => rfl
  | _ => rfl

/-- **What a status check knows of the source stays true**, whichever thread moves. -/
theorem Sound.source_step (h : step g st l = some st') {op : Op P B} (hop : op ∈ pending st.threads) :
    op.KnowsSource g st' := by
  have hknows := (Op.knows_iff.mp (hs.knows op hop)).1
  cases op with
  | checkPorts p original => exact sourcePipelinesFinished_step h hknows
  | loadCounters | loadedCreated | loadedCompleted | setFinished =>
    exact hs.sourceDone_step h hknows
  | _ => trivial

theorem Sound.source_add {ps : PipeState S B} {rem add R : Multiset (Op P B)}
    (h : step g st l = some st') (hch : Changes st st' l p ps rem add R)
    (he : Effect g st.pipes p l ps rem add) : ∀ op ∈ add, op.KnowsSource g st' := by
  cases he with
  | control h =>
    intro op hop
    have hpassive := h.add_passive op hop
    cases op <;> trivial
  | claimPartition i batch batches inputs add _ _ hadd =>
    rcases hadd with rfl | rfl <;> simp [Op.KnowsSource]
  | destroy i batches after => cases after <;> simp [After.ops, Op.KnowsSource]
  | testLimit i original hlimit =>
    rw [hs.noLimit p] at hlimit
    cases hlimit
  | testSources i original _ hsrc =>
    simp only [Multiset.mem_singleton, forall_eq]
    exact sourcePipelinesFinished_step h hsrc
  | checkPorts i original hsrc =>
    simp only [Multiset.mem_singleton, forall_eq]
    exact hs.sourceDone_step h ⟨hs.knows _ hch.rem_mem, hsrc⟩
  | loadCreated | loadCompleted | createdEq | completedEq =>
    -- The check goes on with what it knows.
    have hknows := hs.source_step h hch.rem_mem
    simp only [Multiset.mem_singleton, forall_eq]
    exact hknows
  | _ => simp [Op.KnowsSource]

theorem Sound.sourceDone_of_finished_step (h : step g st l = some st')
    (hfin : (st'.pipes p).pipelineFinished = true) : SourceDone g st'.pipes p := by
  apply hs.sourceDone_step h
  rcases finished_step_cases h hfin with hold | ⟨original, hmem⟩
  · exact (hs.drained p hold).1
  · exact (hs.knows _ hmem).1

end

theorem Sound.step (hlimit : ∀ i p, l = .exhaustLimit i → g.hasLimit p = false) (hs : Sound g st)
    (hsafe : finishSafe st l = true) (h : step g st l = some st') : Sound g st' where
  toTracked := hs.toTracked.step hsafe h
  conserved := local_step held_of_isPassive h (fun _ _ _ _ _ _ he hk => he.conserved hk)
    hs.conserved
  noLimit := memory_step h (fun p _ _ _ _ _ he hk => he.noLimit (hlimit · p) hk) hs.noLimit
  knows := by
    have hidle := hs.isIdle.step hsafe (hs.lateSafe l) h
    obtain ⟨p, ps, rem, add, R, hch, he⟩ := step_effect h
    intro op hop
    refine Op.knows_iff.mpr ⟨?_, hidle.knowsIdle op hop⟩
    rw [hch.after] at hop
    rcases Multiset.mem_add.mp hop with hadd | hR
    · exact hs.source_add h hch he op hadd
    · refine hs.source_step h ?_
      rw [hch.before]
      exact Multiset.mem_add.mpr (Or.inr hR)
  drained p hfin :=
    ⟨hs.sourceDone_of_finished_step h hfin,
      ((hs.isIdle.step hsafe (hs.lateSafe l) h).idle p hfin).2⟩

end Step

theorem Sound.initial (opState : P → S) (partitions : P → List B) (requests : List P) :
    Sound g (State.initial g opState partitions requests) where
  toTracked := Tracked.initial opState partitions requests
  conserved p := by
    simp only [Conserved, Shape, State.initial]
    split <;> simp_all
  noLimit p := by
    simp only [State.initial]
    split <;> rfl
  knows := by simp [State.initial]
  drained p := by
    simp only [State.initial]
    split <;> simp

abbrev SafeRun (g : Graph P S B) : State P S B → State P S B → Prop :=
  Run (step g) fun st l => finishSafe st l = true

theorem Sound.of_run (hlimit : ∀ p, g.hasLimit p = false) (hs : Sound g st)
    (hrun : SafeRun g st st') : Sound g st' :=
  hrun.invariant hs fun hs hsafe h => hs.step (fun _ p _ => hlimit p) hsafe h

theorem Sound.consumed_of_finished (hs : Sound g st) (hfin : (st.pipes p).pipelineFinished = true) :
    (st.pipes p).pushed = (st.pipes p).consumed := by
  obtain ⟨hdone, hzero⟩ := hs.drained p hfin
  have hheld : heldBy p (pending st.threads) = 0 := by
    apply tally_eq_zero
    intro op hop hp
    cases op with
    | construct q bs =>
      obtain rfl : q = p := hp
      exact absurd hop (hs.isIdle.no_construct_of_finished hfin bs)
    | exec | publish | destroy => exact absurd hop (not_mem_of_tasksOf hzero rfl hp)
    | _ => rfl
  rw [(hs.conserved p).2, hs.inputs_nil hdone.2, hheld]
  simp

/-- Nothing is pushed to the inputs of a pipeline whose source is done. -/
theorem Sound.pushed_step {l : Label P S B} (hs : Sound g st) (h : Engine.step g st l = some st')
    (hdone : SourceDone g st.pipes p) : (st'.pipes p).pushed = (st.pipes p).pushed := by
  obtain ⟨q, ps, rem, add, R, hch, he⟩ := step_effect h
  rw [hch.pipes]
  by_cases hpq : p = q
  · subst hpq
    rw [Function.update_self]
    cases he with
    | push i q held after j batch port hport hq _ =>
      subst hq
      exact absurd hch.rem_mem (hs.no_publish hdone.1 (mem_of_getElem? hport) held after)
    | pushSplit split hkind hopen =>
      have hex := hdone.2
      simp [Graph.sourceExhausted, Graph.allPortsEmpty, hkind, hopen] at hex
    | _ => rfl
  · rw [Function.update_of_ne hpq]

/-- **A finished pipeline is final and lost nothing**, in a run whose steps are all `finishSafe`:
every batch ever pushed to it has been consumed, no task of it is in flight, and nothing comes
afterwards. -/
theorem finished_pipeline_final (g : Graph P S B) (hlimit : ∀ p, g.hasLimit p = false)
    (opState : P → S) (partitions : P → List B) (requests : List P) (st st' : State P S B)
    (hrun : SafeRun g (State.initial g opState partitions requests) st)
    (hrun' : SafeRun g st st') (p : P) (hfin : (st.pipes p).pipelineFinished = true) :
    (st.pipes p).pushed = (st.pipes p).consumed ∧
      (∀ op ∈ pending st.threads, op.pipeline = p → op.isTask = false) ∧
      (st'.pipes p).pipelineFinished = true ∧
      (st'.pipes p).tasksCreated = (st.pipes p).tasksCreated ∧
      (st'.pipes p).pushed = (st.pipes p).pushed := by
  have hs : Sound g st := (Sound.initial opState partitions requests).of_run hlimit hrun
  refine ⟨hs.consumed_of_finished hfin, tally_indicator_eq_zero.mp (hs.drained p hfin).2, ?_⟩
  -- What happens afterwards: the frame rule over the rest of the run.
  refine hrun'.frame (R := fun a b => (b.pipes p).pipelineFinished = true ∧
    (b.pipes p).tasksCreated = (a.pipes p).tasksCreated ∧
    (b.pipes p).pushed = (a.pipes p).pushed) hs
    (fun hs hsafe h => hs.step (fun _ p _ => hlimit p) hsafe h) ⟨hfin, rfl, rfl⟩ ?_
  rintro a b l ha - h ⟨hfin, hcreated, hpushed⟩
  have hd := ha.drained p hfin
  refine ⟨finished_step h p hfin, ?_, ?_⟩
  · have hidle := ha.isIdle
    obtain ⟨hclosed, hzero⟩ := hidle.idle p hfin
    rw [(hidle.idle_step h hclosed hzero (hidle.no_construct_of_finished hfin)).1, hcreated]
  · rw [ha.pushed_step h hd.1, hpushed]

def oneScan : Graph (Fin 1) Unit Nat where
  kind _ := .gpuScan
  ports _ := []
  operator _ := .ofPorts []
  consumers _ := []
  parents _ := []
  terminal _ := true
  hasLimit _ := false
  maxThreads _ := 1
  singleScan := true
  scan_ports _ _ := rfl

abbrev onlyScan : Fin 1 := ⟨0, Nat.zero_lt_one⟩

/-- `oneScan` with an open connector and the request for its first task. -/
def oneScanInitial : State (Fin 1) Unit Nat :=
  State.initial oneScan (fun _ => ()) (fun _ => []) [onlyScan]

def oneSplitRun : List (Label (Fin 1) Unit Nat) :=
  List.flatten [
    [.pushSplit onlyScan 1, .closeConnector onlyScan, .popRequest, .resolveRequest],
    List.replicate 5 (.run 0), List.replicate 6 (.run 1), [.loadCreated 1, .run 1, .run 1]]

theorem oneScan_finished_pipeline_final :
    ∃ st, SafeRun oneScan oneScanInitial st ∧ (st.pipes 0).pipelineFinished = true ∧
      (st.pipes 0).pushed = {1} ∧ (st.pipes 0).consumed = {1} ∧
      ∀ st', SafeRun oneScan st st' → (st'.pipes 0).pushed = {1} := by
  obtain ⟨st, hrun, hfin, hpushed⟩ : ∃ st : State (Fin 1) Unit Nat,
      SafeRun oneScan oneScanInitial st ∧ (st.pipes 0).pipelineFinished = true ∧
        (st.pipes 0).pushed = {1} := by
    apply Run.exists_of_runLabels oneSplitRun
    decide +kernel
  have hfinal := fun st' hrun' =>
    finished_pipeline_final oneScan (fun _ => rfl) _ _ _ st st' hrun hrun' 0 hfin
  refine ⟨st, hrun, hfin, hpushed, ?_, ?_⟩
  · rw [← (hfinal st (.refl st)).1, hpushed]
  · intro st' hrun'
    rw [(hfinal st' hrun').2.2.2.2, hpushed]

/-! ## What goes wrong otherwise -/

/-- Two splits become two tasks. The first one completes and its status check loads
`tasks_created`; the second one runs out of memory and is rescheduled; the check loads
`tasks_completed`. -/
def oomBetweenLoads : List (Label (Fin 1) Unit Nat) :=
  List.flatten [
    [.pushSplit onlyScan 1, .pushSplit onlyScan 2, .closeConnector onlyScan, .popRequest,
      .resolveRequest],
    List.replicate 9 (.run 0), List.replicate 6 (.run 1),
    [.loadCreated 1, .oomReschedule 2, .run 2, .run 1, .run 1]]

theorem oneScan_finished_with_task_in_flight :
    ∃ st, Reachable oneScan st ∧ (∀ p, oneScan.hasLimit p = false) ∧
      (st.pipes 0).pipelineFinished = true ∧ .exec 0 [2] ∈ pending st.threads ∧
      (st.pipes 0).pushed ≠ (st.pipes 0).consumed := by
  obtain ⟨st, hrun, hst⟩ : ∃ st : State (Fin 1) Unit Nat,
      Run (step oneScan) (fun _ _ => true = true) oneScanInitial st ∧
        (st.pipes 0).pipelineFinished = true ∧ .exec 0 [2] ∈ pending st.threads ∧
        (st.pipes 0).pushed ≠ (st.pipes 0).consumed := by
    apply Run.exists_of_runLabels oomBetweenLoads
    decide +kernel
  exact ⟨st, ⟨_, _, _, hrun.mono fun _ _ _ => trivial⟩, fun _ => rfl, hst⟩

/-! ## In every reachable state -/

/-- **No batch is lost or duplicated**, and counters and mutexes are exact, whatever the interleaving. -/
theorem batches_accounted {st : State P S B} (h : Reachable g st) (p : P) :
    (st.pipes p).pushed = ((st.pipes p).inputs.flatten : Multiset B) +
        heldBy p (pending st.threads) + (st.pipes p).consumed ∧
      (st.pipes p).tasksCreated = (st.pipes p).tasksCompleted + tasksOf p (pending st.threads) ∧
      lockersOf p (pending st.threads) = (st.pipes p).locked.toNat := by
  obtain ⟨opState, partitions, requests, hrun⟩ := h
  have hs := Sound.initial (g := g) opState partitions requests
  obtain ⟨hbasic, hconserved⟩ := hrun.invariant (I := fun st => Basic g st ∧
      ∀ p, Conserved g p (st.pipes p) (heldBy p (pending st.threads))) ⟨hs.toBasic, hs.conserved⟩
    fun ha _ h => ⟨ha.1.step h,
      local_step held_of_isPassive h (fun _ _ _ _ _ _ he hk => he.conserved hk) ha.2⟩
  exact ⟨(hconserved p).2, hbasic.balanced p, hbasic.mutex p⟩

theorem oneScan_batches_accounted :
    ∃ st, Reachable oneScan st ∧ heldBy 0 (pending st.threads) = {2} ∧
      (st.pipes 0).pushed = (st.pipes 0).inputs.flatten + {2} + (st.pipes 0).consumed := by
  obtain ⟨st, hrun, hheld⟩ : ∃ st : State (Fin 1) Unit Nat,
      Run (step oneScan) (fun _ _ => true = true) oneScanInitial st ∧
        heldBy 0 (pending st.threads) = {2} := by
    apply Run.exists_of_runLabels oomBetweenLoads
    decide +kernel
  have h : Reachable oneScan st := ⟨_, _, _, hrun.mono fun _ _ _ => trivial⟩
  exact ⟨st, h, hheld, hheld ▸ (batches_accounted h 0).1⟩

end Sirius.Engine
