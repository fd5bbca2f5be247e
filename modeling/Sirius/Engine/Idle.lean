import Sirius.Engine.Conservation

/-!
# A finished pipeline has no tasks

`update_pipeline_status` marks a pipeline finished when the two task counters agree. That no task is in
flight then, and that none comes later, rests on two things: whoever compares the counters holds the
status mutex, under which tasks are constructed (`Closed`), and the creator finds no input for a
finished pipeline (`lateSafe`). Two steps of the engine construct tasks in other ways: the creator builds
a local state for a DuckDB scan that has been exhausted since the request was accepted, and the executor
constructs the task of an out-of-memory reschedule, without the mutex, between the two counter loads.
`finishSafe` excludes these two.
-/

namespace Sirius.Engine

open Lib Multiset Function

variable {P S B : Type} [DecidableEq P] {g : Graph P S B}

/-! ## Side conditions -/

/-- A status check of `p` has loaded `tasks_created` and not yet `tasks_completed`. -/
def Op.betweenLoads (p : P) : Op P B → Bool
  | .loadedCreated q _ _ => decide (q = p)
  | _ => false

/-- The step does not create a local state for an exhausted DuckDB scan, and does not construct a
rescheduled task between the counter loads of a status check. -/
def finishSafe (st : State P S B) : Label P S B → Bool
  | .run i =>
    match st.threads[i]? with
    | some (.createScanState p :: _) => !(st.pipes p).exhausted
    | _ => true
  | .oomReschedule i =>
    match st.threads[i]? with
    | some (.exec p _ :: _) => !st.threads.any (·.any (Op.betweenLoads p))
    | _ => true
  | _ => true

/-- The creator does not find input for a finished pipeline. -/
def lateSafe (g : Graph P S B) (st : State P S B) : Label P S B → Bool
  | .run i =>
    match st.threads[i]? with
    | some (.pull p :: _) =>
      !(st.pipes p).pipelineFinished ||
        match g.getNextTaskInputData (st.pipes p) p with
        | .data _ _ _ => false
        | _ => true
    | _ => true
  | _ => true

/-! ## Flags of the scans -/

/-- The flags of the scans can be trusted in the runs whose steps are all `finishSafe`. -/
structure Tracked (g : Graph P S B) (st : State P S B) : Prop extends Basic g st where
  scanStates : ∀ p, ScanStates g p (st.pipes p)
    (pendingOf (indicator Op.isScanState) p (pending st.threads))
  cpuTask : ∀ p, CpuTask g p (st.pipes p)
    (pendingOf (indicator Op.isCpuSource) p (pending st.threads))
  partitions : ∀ p, Partitions g p (st.pipes p)

theorem all_isEmpty_iff {inputs : List (List B)} :
    inputs.all List.isEmpty = true ↔ inputs.flatten = [] := by
  rw [List.flatten_eq_nil_iff, List.all_eq_true]
  simp

variable {p : P} {ps : PipeState S B}

omit [DecidableEq P] in
/-- Empty repositories give no input. -/
theorem getNextTaskInputData_of_empty (h : ps.inputs.flatten = []) (batches : List B)
    (inputs : List (List B)) (opState : S) :
    g.getNextTaskInputData ps p ≠ .data batches inputs opState := by
  have hempty : ∀ repo ∈ ps.inputs, repo = [] := List.flatten_eq_nil_iff.mp h
  unfold Graph.getNextTaskInputData
  split
  · unfold Graph.getNextSplit
    split
    next hin =>
      simp [hin] at hempty
    · split <;> simp
  · rw [(g.operator p).pull_empty hempty]
    simp

namespace Tracked

variable {st : State P S B} {op : Op P B}

theorem inputs_nil (hs : Tracked g st) (h : g.sourceExhausted (st.pipes p) p = true) :
    (st.pipes p).inputs.flatten = [] := by
  unfold Graph.sourceExhausted at h
  split at h
  next hkind =>
    simp only [Graph.allPortsEmpty, hkind] at h
    exact all_isEmpty_iff.mp h
  next hkind =>
    simp only [Graph.allPortsEmpty, hkind, Bool.and_eq_true] at h
    exact all_isEmpty_iff.mp h.2
  next hkind =>
    exact hs.partitions p hkind (by simpa using h)
  next hkind =>
    simp [(hs.scanStates p hkind).1]
  next hkind =>
    simp [(hs.cpuTask p hkind).1]

theorem no_source_op (hs : Tracked g st) (h : g.sourceExhausted (st.pipes p) p = true)
    (hop : op ∈ pending st.threads) (hp : op.pipeline = p) :
    op.isScanState = false ∧ op.isCpuSource = false := by
  have hkind := hs.kinds op hop
  constructor
  · by_contra hscan
    rw [Bool.not_eq_false] at hscan
    have hduck : g.kind p = .duckdbScan := by
      cases op <;> simp_all [Op.isScanState, Op.KindOk, Op.pipeline]
    simp only [Graph.sourceExhausted, hduck] at h
    have hzero := (hs.scanStates p hduck).2.2 h
    rw [tally_indicator_eq_zero.mp hzero op hop hp] at hscan
    cases hscan
  · by_contra hcpu
    rw [Bool.not_eq_false] at hcpu
    have hsource : g.kind p = .cpuSource := by
      cases op <;> simp_all [Op.isCpuSource, Op.KindOk, Op.pipeline]
    simp only [Graph.sourceExhausted, hsource] at h
    have hcount := (hs.cpuTask p hsource).2
    have hone := Bool.toNat_le (st.pipes p).taskScheduled
    rw [h, Bool.toNat_true] at hcount
    have hzero : pendingOf (indicator Op.isCpuSource) p (pending st.threads) = 0 := by omega
    rw [tally_indicator_eq_zero.mp hzero op hop hp] at hcpu
    cases hcpu

end Tracked

variable {op : Op P B}

theorem not_mem_of_tasksOf {ops : Multiset (Op P B)} (hzero : tasksOf p ops = 0)
    (htask : op.isTask = true) (hp : op.pipeline = p) : op ∉ ops := by
  intro hop
  have hnot := tally_indicator_eq_zero.mp hzero op hop hp
  rw [htask] at hnot
  cases hnot

/-! ## What a step cannot undo -/

section Monotone

variable {pipes : P → PipeState S B} {p : P} {l : Label P S B} {ps : PipeState S B}
  {rem add : Multiset (Op P B)}

omit [DecidableEq P]

theorem Effect.finished_mono (h : Effect g pipes p l ps rem add)
    (hfin : (pipes p).pipelineFinished = true) : ps.pipelineFinished = true := by
  cases h with
  | setFinished => rfl
  | _ => exact hfin

theorem Effect.completed_mono (h : Effect g pipes p l ps rem add) :
    (pipes p).tasksCompleted ≤ ps.tasksCompleted := by
  cases h with
  | destroy => exact Nat.le_succ _
  | _ => exact Nat.le_refl _

theorem Effect.finished_of_setFinished (h : Effect g pipes p l ps rem add)
    (hfin : ps.pipelineFinished = true) :
    (pipes p).pipelineFinished = true ∨ ∃ original, rem = {.setFinished p original} := by
  cases h with
  | setFinished i original => exact Or.inr ⟨original, rfl⟩
  | _ => exact Or.inl hfin

end Monotone

variable {st st' : State P S B} {l : Label P S B}

theorem finished_step (h : step g st l = some st') :
    ∀ p, (st.pipes p).pipelineFinished = true → (st'.pipes p).pipelineFinished = true := by
  refine memory_step (J := fun p ps => (st.pipes p).pipelineFinished = true →
    ps.pipelineFinished = true) h ?_ fun _ hfin => hfin
  intro p ps rem add R _ he _ hfin
  exact he.finished_mono hfin

/-- A pipeline is finished, or at the end of a status check. -/
theorem finished_step_cases (h : step g st l = some st')
    (hfin : (st'.pipes p).pipelineFinished = true) :
    (st.pipes p).pipelineFinished = true ∨
      ∃ original, .setFinished p original ∈ pending st.threads := by
  obtain ⟨q, ps, rem, add, R, hch, he⟩ := step_effect h
  rw [hch.pipes] at hfin
  by_cases hpq : p = q
  · subst hpq
    rw [update_self] at hfin
    rcases he.finished_of_setFinished hfin with hold | ⟨original, rfl⟩
    · exact .inl hold
    · exact .inr ⟨original, hch.rem_mem⟩
  · rw [update_of_ne hpq] at hfin
    exact .inl hfin

theorem completed_step (h : step g st l = some st') :
    ∀ p, (st.pipes p).tasksCompleted ≤ (st'.pipes p).tasksCompleted := by
  refine memory_step (J := fun p ps => (st.pipes p).tasksCompleted ≤ ps.tasksCompleted) h ?_
    fun _ => le_rfl
  intro p ps rem add R _ he _
  exact he.completed_mono

/-! ## Pipelines that construct tasks under the mutex only -/

/-- Tasks of `p` are constructed under its status mutex only, or its source has nothing more to give. -/
def Closed (g : Graph P S B) (pipes : P → PipeState S B) (p : P) : Prop :=
  (g.kind p = .ports ∨ g.kind p = .gpuScan) ∨ g.sourceExhausted (pipes p) p = true

section Step

variable {st st' : State P S B} {l : Label P S B}

/-- **An exhausted source stays exhausted** if no task is left that could push to it. -/
theorem Tracked.sourceExhausted_step (hs : Tracked g st) (h : step g st l = some st')
    (hpush : ∀ port ∈ g.ports p, ∀ held after, .publish port.src held after ∉ pending st.threads)
    (hex : g.sourceExhausted (st.pipes p) p = true) : g.sourceExhausted (st'.pipes p) p = true := by
  have hnil := hs.inputs_nil hex
  obtain ⟨q, ps, rem, add, R, hch, he⟩ := step_effect h
  rw [hch.pipes]
  by_cases hpq : p = q
  · subst hpq
    rw [update_self]
    cases he with
    | pullData i batches inputs opState hpull =>
      exact absurd hpull (getNextTaskInputData_of_empty hnil _ _ _)
    | claimPartition i batch batches inputs add _ hin _ => simp [hin] at hnil
    | drainScan i => cases (hs.no_source_op hex hch.rem_mem rfl).1
    | cpuTask i => cases (hs.no_source_op hex hch.rem_mem rfl).2
    | push i q held after j batch port hport hq _ =>
      subst hq
      exact absurd hch.rem_mem (hpush port (List.mem_of_getElem? hport) held after)
    | pushSplit split hkind hopen =>
      simp [Graph.sourceExhausted, Graph.allPortsEmpty, hkind, hopen] at hex
    | closeConnector hkind =>
      simp only [Graph.sourceExhausted, Graph.allPortsEmpty, hkind, Bool.and_eq_true] at hex ⊢
      exact ⟨trivial, hex.2⟩
    | _ => exact hex
  · rwa [update_of_ne hpq]

theorem Tracked.closed_step (hs : Tracked g st) (h : step g st l = some st')
    (hclosed : Closed g st.pipes p) : Closed g st'.pipes p := by
  by_cases hkind : g.kind p = .ports ∨ g.kind p = .gpuScan
  · exact .inl hkind
  · -- A scan has no ports to which anything could be pushed.
    have hports : g.ports p = [] := g.scan_ports p fun hp => hkind (.inl hp)
    refine .inr (hs.sourceExhausted_step h ?_ (hclosed.resolve_left hkind))
    rw [hports]
    intro port hport
    cases hport

/-- **No task of a closed pipeline is created**, provided that no thread is about to construct one and
none of its tasks is being rescheduled. -/
theorem Tracked.created_step (hs : Tracked g st) (h : step g st l = some st')
    (hclosed : Closed g st.pipes p) (hconstruct : ∀ bs, .construct p bs ∉ pending st.threads)
    (hoom : ∀ i bs rest, l = .oomReschedule i → st.threads[i]? ≠ some (.exec p bs :: rest)) :
    (st'.pipes p).tasksCreated = (st.pipes p).tasksCreated := by
  obtain ⟨q, ps, rem, add, R, hch, he⟩ := step_effect h
  rw [hch.pipes]
  by_cases hpq : p = q
  · subst hpq
    rw [update_self]
    -- The operations of the scans are not those of a pipeline with ports or a connector.
    have hscan : ∀ op : Op P B, rem = {op} → op.KindOk g := by
      intro op hrem
      exact hs.kinds_rem hch op (by simp [hrem])
    have hex : g.kind p ≠ .ports → g.kind p ≠ .gpuScan →
        g.sourceExhausted (st.pipes p) p = true := by
      intro hports hgpu
      exact hclosed.resolve_left (by simp [hports, hgpu])
    cases he with
    | construct i batches => exact absurd hch.rem_mem (hconstruct batches)
    | constructScan i _ | continueScan i =>
      have hkind : g.kind p = .duckdbScan := hscan _ rfl
      cases (hs.no_source_op (hex (by simp [hkind]) (by simp [hkind])) hch.rem_mem rfl).1
    | claimPartition i batch batches inputs add _ hin _ =>
      have hkind : g.kind p = .icebergScan := hscan _ rfl
      have hnil := hs.inputs_nil (hex (by simp [hkind]) (by simp [hkind]))
      simp [hin] at hnil
    | constructCpu i _ =>
      have hkind : g.kind p = .cpuSource := hscan _ rfl
      cases (hs.no_source_op (hex (by simp [hkind]) (by simp [hkind])) hch.rem_mem rfl).2
    | oomReschedule i batches =>
      obtain ⟨op, rest, hrem, hthread, _⟩ := hch.head i rfl
      obtain rfl := singleton_inj.mp hrem
      exact absurd hthread (hoom i batches rest rfl)
    | _ => rfl
  · rw [update_of_ne hpq]

/-- **A closed pipeline without tasks stays so** when no thread is about to construct one. -/
theorem Tracked.idle_step (hs : Tracked g st) (h : step g st l = some st')
    (hclosed : Closed g st.pipes p) (hzero : tasksOf p (pending st.threads) = 0)
    (hconstruct : ∀ bs, .construct p bs ∉ pending st.threads) :
    (st'.pipes p).tasksCreated = (st.pipes p).tasksCreated ∧
      tasksOf p (pending st'.threads) = 0 := by
  have hcreated : (st'.pipes p).tasksCreated = (st.pipes p).tasksCreated := by
    refine hs.created_step h hclosed hconstruct ?_
    intro i bs rest _ hthread
    have hmem : Op.exec p bs ∈ pending st.threads :=
      mem_pending_of_mem (List.mem_of_getElem? hthread) (List.mem_cons_self ..)
    exact not_mem_of_tasksOf hzero rfl rfl hmem
  refine ⟨hcreated, ?_⟩
  have hcompleted := completed_step h p
  have hbal := hs.balanced p
  have hbal' := balanced_step h hs.balanced p
  simp only [Balanced] at hbal hbal'
  omega

/-- While a status check of `p` holds the mutex, no creator is about to construct a task of `p`. -/
theorem Basic.no_construct (hb : Basic g st) (hop : op ∈ pending st.threads)
    (hl : op.holdsLock = true) (hne : ∀ p bs, op ≠ .construct p bs) :
    ∀ bs, .construct op.pipeline bs ∉ pending st.threads := by
  intro bs hmem
  exact hb.lock_unique hop hmem (fun heq => hne _ _ heq.symm) hl rfl rfl

omit [DecidableEq P] in
theorem any_any_of_mem {f : Op P B → Bool} (hop : op ∈ pending st.threads) (hf : f op = true) :
    st.threads.any (·.any f) = true := by
  obtain ⟨thread, hthread, hmem⟩ := List.mem_flatten.mp hop
  exact List.any_eq_true.mpr ⟨thread, hthread, List.any_eq_true.mpr ⟨op, hmem, hf⟩⟩

variable {rem add R : Multiset (Op P B)}

theorem not_exhausted_of_finishSafe (hsafe : finishSafe st l = true)
    (hch : Changes st st' l p ps rem add R) (he : Effect g st.pipes p l ps rem add)
    (hrem : rem = {.createScanState p}) : (st.pipes p).exhausted = false := by
  have hlabel : ∃ i, l = .run i := by
    cases he with
    | control h => cases h <;> simp_all
    | _ => simp_all
  obtain ⟨i, rfl⟩ := hlabel
  obtain ⟨op, rest, hop, hthread, _⟩ := hch.head i rfl
  obtain rfl : Op.createScanState p = op := singleton_inj.mp (hrem.symm.trans hop)
  simpa only [finishSafe, hthread, Bool.not_eq_true'] using hsafe

theorem Tracked.step (hs : Tracked g st) (hsafe : finishSafe st l = true)
    (h : step g st l = some st') : Tracked g st' where
  toBasic := hs.toBasic.step h
  scanStates := local_step isScanState_of_isPassive h
    (fun _ _ _ _ _ hch he hk => he.scanStates (hs.kinds_rem hch)
      (not_exhausted_of_finishSafe hsafe hch he) hk) hs.scanStates
  cpuTask := local_step isCpuSource_of_isPassive h
    (fun _ _ _ _ _ hch he hk => he.cpuSourceTask (hs.kinds_rem hch) hk) hs.cpuTask
  partitions := memory_step h
    (fun _ _ _ _ _ hch he hk => he.partitions (hs.kinds_rem hch) hk) hs.partitions

end Step

theorem Tracked.initial (opState : P → S) (partitions : P → List B) (requests : List P) :
    Tracked g (State.initial g opState partitions requests) where
  toBasic := Basic.initial opState partitions requests
  scanStates p := by
    intro hkind
    simp [State.initial, hkind]
  cpuTask p := by
    intro hkind
    simp [State.initial, hkind]
  partitions p := by
    intro hkind hmore
    simp [State.initial, hkind] at hmore

/-! ## What a status check knows of the counters -/

/-- What a thread that compares the counters has established and no other thread can take back. -/
def Op.KnowsIdle (g : Graph P S B) (st : State P S B) : Op P B → Prop
  | .construct p _ => (st.pipes p).pipelineFinished = false
  | .loadCounters p _ => Closed g st.pipes p
  | .loadedCreated p _ created => Closed g st.pipes p ∧ created = (st.pipes p).tasksCreated
  | .loadedCompleted p _ completed =>
    Closed g st.pipes p ∧ completed ≤ (st.pipes p).tasksCompleted
  | .setFinished p _ => Closed g st.pipes p ∧ tasksOf p (pending st.threads) = 0
  | _ => True

/-- The invariant of the runs whose steps are all `finishSafe` and `lateSafe`. -/
structure Idle (g : Graph P S B) (st : State P S B) : Prop extends Tracked g st where
  limitKind : ∀ p, (st.pipes p).limitExhausted = true → g.kind p = .ports ∨ g.kind p = .gpuScan
  knowsIdle : ∀ op ∈ pending st.threads, op.KnowsIdle g st
  idle : ∀ p, (st.pipes p).pipelineFinished = true →
    Closed g st.pipes p ∧ tasksOf p (pending st.threads) = 0

variable {rem add R : Multiset (Op P B)}

omit [DecidableEq P] in
theorem Effect.limitKind {pipes : P → PipeState S B} (h : Effect g pipes p l ps rem add)
    (hkind : ∀ op ∈ rem, op.KindOk g)
    (hk : (pipes p).limitExhausted = true → g.kind p = .ports ∨ g.kind p = .gpuScan) :
    ps.limitExhausted = true → g.kind p = .ports ∨ g.kind p = .gpuScan := by
  cases h with
  | exhaustLimit i batches _ =>
    intro _
    exact hkind (.exec p batches) (mem_singleton_self _)
  | _ => exact hk

namespace Idle

variable {st st' : State P S B} {l : Label P S B}

theorem no_construct_of_finished (hs : Idle g st) (hfin : (st.pipes p).pipelineFinished = true) :
    ∀ bs, .construct p bs ∉ pending st.threads := by
  intro bs hmem
  have hnot : (st.pipes p).pipelineFinished = false := hs.knowsIdle _ hmem
  rw [hfin] at hnot
  cases hnot

/-- **What a thread knows of the counters stays true**, whichever thread moves. -/
theorem knows_step (hs : Idle g st) (h : step g st l = some st') (hsafe : finishSafe st l = true)
    (hop : op ∈ pending st.threads) : op.KnowsIdle g st' := by
  have hknows := hs.knowsIdle op hop
  cases op with
  | construct p bs =>
    -- Only the end of a status check sets the flag, and that holds the same mutex.
    have hnot : (st.pipes p).pipelineFinished = false := hknows
    show (st'.pipes p).pipelineFinished = false
    by_contra hfin
    rw [Bool.not_eq_false] at hfin
    rcases finished_step_cases h hfin with hold | ⟨original, hmem⟩
    · rw [hnot] at hold
      cases hold
    · exact hs.lock_unique hmem hop (by simp) rfl rfl rfl
  | loadCounters p original => exact hs.closed_step h hknows
  | loadedCreated p original created =>
    obtain ⟨hclosed, hcreated⟩ := hknows
    refine ⟨hs.closed_step h hclosed, ?_⟩
    rw [hcreated]
    refine (hs.created_step h hclosed (hs.no_construct hop rfl (by simp)) ?_).symm
    rintro i bs rest rfl hthread
    have hbetween : st.threads.any (·.any (Op.betweenLoads p)) = true :=
      any_any_of_mem hop (by simp [Op.betweenLoads])
    simp only [finishSafe, hthread, hbetween] at hsafe
    cases hsafe
  | loadedCompleted p original completed =>
    exact ⟨hs.closed_step h hknows.1, hknows.2.trans (completed_step h p)⟩
  | setFinished p original =>
    exact ⟨hs.closed_step h hknows.1,
      (hs.idle_step h hknows.1 hknows.2 (hs.no_construct hop rfl (by simp))).2⟩
  | _ => trivial

theorem not_finished_of_lateSafe (hlate : lateSafe g st l = true) {i : Nat} (hl : l = .run i)
    (hch : Changes st st' l p ps {.pull p} add R) {batches : List B} {inputs : List (List B)}
    {opState : S} (hpull : g.getNextTaskInputData (st.pipes p) p = .data batches inputs opState) :
    (st.pipes p).pipelineFinished = false := by
  subst hl
  obtain ⟨op, rest, hrem, hthread, _⟩ := hch.head i rfl
  obtain rfl := singleton_inj.mp hrem
  simpa only [lateSafe, hthread, hpull, Bool.or_false, Bool.not_eq_true'] using hlate

theorem knows_add (hs : Idle g st) (hlate : lateSafe g st l = true) (h : step g st l = some st')
    (hch : Changes st st' l p ps rem add R) (he : Effect g st.pipes p l ps rem add) :
    ∀ op ∈ add, op.KnowsIdle g st' := by
  have hkeep : st'.pipes p = ps := by rw [hch.pipes, update_self]
  cases he with
  | control h =>
    intro op hop
    have hpassive := h.add_passive op hop
    cases op <;> trivial
  | claimPartition i batch batches inputs add _ _ hadd =>
    rcases hadd with rfl | rfl <;> simp [Op.KnowsIdle]
  | destroy i batches after => cases after <;> simp [After.ops, Op.KnowsIdle]
  | pullData i batches inputs opState hpull =>
    simp only [mem_singleton, forall_eq]
    show (st'.pipes p).pipelineFinished = false
    rw [hkeep]
    exact not_finished_of_lateSafe hlate rfl hch hpull
  | testLimit i original hlimit =>
    simp only [mem_singleton, forall_eq]
    exact .inl (hs.limitKind p hlimit)
  | checkPorts i original hsrc =>
    simp only [mem_singleton, forall_eq]
    exact hs.closed_step h (.inr hsrc)
  | loadCreated i original | loadCompleted i original =>
    simp only [mem_singleton, forall_eq]
    exact ⟨hs.closed_step h (hs.knowsIdle _ hch.rem_mem), by rw [hkeep]⟩
  | createdEq i original =>
    obtain ⟨hclosed, hcreated⟩ := hs.knowsIdle _ hch.rem_mem
    have hzero := (hs.counters_eq_iff p).mp hcreated.symm
    simp only [mem_singleton, forall_eq]
    exact ⟨hs.closed_step h hclosed,
      (hs.idle_step h hclosed hzero (hs.no_construct hch.rem_mem rfl (by simp))).2⟩
  | completedEq i original =>
    obtain ⟨hclosed, hle⟩ := hs.knowsIdle _ hch.rem_mem
    have hbal := hs.balanced p
    have hzero : tasksOf p (pending st.threads) = 0 := by
      simp only [Balanced] at hbal
      omega
    simp only [mem_singleton, forall_eq]
    exact ⟨hs.closed_step h hclosed,
      (hs.idle_step h hclosed hzero (hs.no_construct hch.rem_mem rfl (by simp))).2⟩
  | _ => simp [Op.KnowsIdle]

/-- **A finished pipeline has no tasks**: the status check has shown it, and nothing takes it back. -/
theorem idle_of_finished_step (hs : Idle g st) (h : step g st l = some st')
    (hfin : (st'.pipes p).pipelineFinished = true) :
    Closed g st'.pipes p ∧ tasksOf p (pending st'.threads) = 0 := by
  have hold : (Closed g st.pipes p ∧ tasksOf p (pending st.threads) = 0) ∧
      ∀ bs, .construct p bs ∉ pending st.threads := by
    rcases finished_step_cases h hfin with hold | ⟨original, hmem⟩
    · exact ⟨hs.idle p hold, hs.no_construct_of_finished hold⟩
    · exact ⟨hs.knowsIdle _ hmem, hs.no_construct hmem rfl (by simp)⟩
  obtain ⟨⟨hclosed, hzero⟩, hconstruct⟩ := hold
  exact ⟨hs.closed_step h hclosed, (hs.idle_step h hclosed hzero hconstruct).2⟩

theorem step (hs : Idle g st) (hsafe : finishSafe st l = true) (hlate : lateSafe g st l = true)
    (h : Engine.step g st l = some st') : Idle g st' where
  toTracked := hs.toTracked.step hsafe h
  limitKind := memory_step h (fun _ _ _ _ _ hch he hk => he.limitKind (hs.kinds_rem hch) hk)
    hs.limitKind
  knowsIdle := by
    obtain ⟨p, ps, rem, add, R, hch, he⟩ := step_effect h
    intro op hop
    rw [hch.after] at hop
    rcases mem_add.mp hop with hadd | hR
    · exact hs.knows_add hlate h hch he op hadd
    · refine hs.knows_step h hsafe ?_
      rw [hch.before]
      exact mem_add.mpr (Or.inr hR)
  idle _ hfin := hs.idle_of_finished_step h hfin

theorem initial (opState : P → S) (partitions : P → List B) (requests : List P) :
    Idle g (State.initial g opState partitions requests) where
  toTracked := Tracked.initial opState partitions requests
  limitKind p := by
    simp only [State.initial]
    split <;> simp
  knowsIdle := by simp [State.initial]
  idle p := by
    simp only [State.initial]
    split <;> simp

end Idle

end Sirius.Engine
