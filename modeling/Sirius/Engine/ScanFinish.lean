import Sirius.Engine.Finished

/-!
# GPU scans and the close of their connector

A GPU scan is exhausted when its split connector is closed and empty. Nobody looks at the
connector when it is closed: the finished flag is evaluated by the destructor of a task of the scan
and nowhere else. `closeSafe` says that at the close a split is still queued, or some work of the
scan that ends in a status check is still pending; then the scan always finishes. A connector that
is closed without a split leaves the scan unfinished for ever.
-/

namespace Sirius.Engine

open Lib Multiset Function

variable {P S B : Type} {g : Graph P S B}

/-! ## Scan tasks of a finished pipeline -/

def Op.isStatusCheck : Op P B → Bool
  | .lockUpdate _ _ | .testFinished _ _ | .checkPorts _ _ | .loadCounters _ _
  | .loadedCreated _ _ _ | .loadedCompleted _ _ _ | .setFinished _ _ => true
  | _ => false

/-- Work that ends in a status check: a task, its construction, its destructor. -/
def Op.endsInCheck : Op P B → Bool
  | .construct _ _ => true
  | op => op.isTask || op.isStatusCheck

variable {op : Op P B}

theorem Op.outstanding_of_endsInCheck (h : op.endsInCheck = true) :
    (op.isCreator || op.isTask || op.isStatusCheck) = true := by
  cases op <;> first | rfl | exact absurd h Bool.false_ne_true

/-- The scan `p` is closed and drained, nothing of it is outstanding, and it is not finished. -/
def ScanStuck (g : Graph P S B) (st : State P S B) (p : P) : Prop :=
  g.kind p = .gpuScan ∧ (st.pipes p).closed = true ∧ (st.pipes p).empty = true ∧
    p ∉ st.requests ∧ st.manager ≠ some p ∧
    (∀ op ∈ pending st.threads, op.pipeline = p →
      (op.isCreator || op.isTask || op.isStatusCheck) = false) ∧
    (st.pipes p).pipelineFinished = false

variable [DecidableEq P] in
/-- A connector is closed while a split is queued or work of the scan that ends in a status check
is pending, unless the scan is finished. -/
def closeSafe (st : State P S B) : Label P S B → Bool
  | .closeConnector p =>
    (st.pipes p).pipelineFinished || !(st.pipes p).empty ||
      st.threads.any (·.any fun op => op.endsInCheck && decide (op.pipeline = p))
  | _ => true

/-! ## Counter loads -/

/-- What the loaded counters are worth under the mutex: a task completed since then waits for the
mutex. -/
def Op.Loaded (st : State P S B) : Op P B → Prop
  | .loadedCreated p _ created =>
    created ≤ (st.pipes p).tasksCreated ∧
      ((st.pipes p).tasksCompleted ≤ created ∨
        ∃ original, .lockUpdate p original ∈ pending st.threads)
  | .loadedCompleted p _ completed =>
    (st.pipes p).tasksCompleted = completed ∨
      ∃ original, .lockUpdate p original ∈ pending st.threads
  | _ => True

variable {pipes : P → PipeState S B} {p q : P} {l : Label P S B} {ps : PipeState S B}
  {rem add : Multiset (Op P B)}

theorem Effect.created_mono (h : Effect g pipes p l ps rem add) :
    (pipes p).tasksCreated ≤ ps.tasksCreated := by
  cases h with
  | construct | constructScan | claimPartition | constructCpu | oomReschedule | continueScan =>
    exact Nat.le_succ _
  | _ => exact Nat.le_refl _

/-- Only taking the mutex removes the request for it. -/
theorem Effect.locked_of_lockUpdate {original : Bool} (h : Effect g pipes q l ps rem add)
    (hrem : .lockUpdate p original ∈ rem) : (pipes p).locked = false := by
  cases h with
  | lockUpdate i o hfree =>
    obtain ⟨rfl, rfl⟩ : p = q ∧ original = o := by simpa using hrem
    exact hfree
  | control h =>
    cases h with
    | flow i op add hop =>
      obtain rfl := mem_singleton.mp hrem
      simp [Op.isControl] at hop
    | _ => simp at hrem
  | _ => simp at hrem

theorem Effect.rem_pipeline (h : Effect g pipes q l ps rem add) (hop : op ∈ rem) :
    op.pipeline = q ∨ op ∈ add := by
  cases h with
  | control h =>
    cases h with
    | flow i op' add _ _ _ _ hp =>
      obtain rfl := mem_singleton.mp hop
      exact Or.inl hp
    | managerOnly | dispatch => simp at hop
    | _ =>
      obtain rfl := mem_singleton.mp hop
      exact Or.inl rfl
  | push => exact Or.inr hop
  | dispatchCpu | hintWaiting | hintReady | pushSplit | closeConnector => simp at hop
  | _ =>
    obtain rfl := mem_singleton.mp hop
    exact Or.inl rfl

/-- **Work that ends in a check goes on**, up to a failed comparison of the counters. -/
theorem Effect.check_goes_on (h : Effect g pipes p l ps rem add) (hkind : g.kind p = .gpuScan)
    (hclosed : (pipes p).closed = true) (hop : op ∈ rem) (hcheck : op.endsInCheck = true) :
    ps.pipelineFinished = true ∨ ps.empty = false ∨
      (∃ o ∈ add, o.endsInCheck = true ∧ o.pipeline = p) ∨
      (∃ original created, rem = {.loadedCreated p original created} ∧
        created ≠ (pipes p).tasksCompleted) ∨
      ∃ original completed, rem = {.loadedCompleted p original completed} ∧
        (pipes p).tasksCreated ≠ completed := by
  cases h with
  | construct i batches | oomReschedule i batches =>
    exact .inr (.inr (.inl ⟨.exec p batches, by simp, rfl, rfl⟩))
  | constructScan | claimPartition | constructCpu | lockPull | pullNull | pullData
  | createScanState =>
    obtain rfl := mem_singleton.mp hop
    cases hcheck
  | exec | setOpState | exhaustLimit | drainScan | cpuTask | publish | lockUpdate | testLimit
  | testSources | checkPorts | loadCreated | loadCompleted | createdEq | completedEq =>
    exact .inr (.inr (.inl ⟨_, mem_singleton_self _, rfl, rfl⟩))
  | continueScan i => exact .inr (.inr (.inl ⟨.scanTask p, by simp, rfl, rfl⟩))
  | destroy i batches after => exact .inr (.inr (.inl ⟨.lockUpdate p true, by simp, rfl, rfl⟩))
  | testAlready i original hfin => exact Or.inl hfin
  | testFail i original hsrc =>
    have hports : g.ports p = [] := g.scan_ports p (by simp [hkind])
    simp [Graph.sourcePipelinesFinished, hports] at hsrc
  | checkFail i original hsrc =>
    -- Closed and not exhausted: a split is queued.
    simp only [Graph.sourceExhausted, Graph.allPortsEmpty, hkind, hclosed, Bool.true_and] at hsrc
    exact Or.inr (Or.inl hsrc)
  | createdNe i original created hne =>
    exact Or.inr (Or.inr (Or.inr (Or.inl ⟨original, created, rfl, hne⟩)))
  | completedNe i original completed hne =>
    exact Or.inr (Or.inr (Or.inr (Or.inr ⟨original, completed, rfl, hne⟩)))
  | setFinished i original => exact Or.inl rfl
  | push i q held after j batch port _ _ hports => simp [hkind] at hports
  | dispatchCpu | hintWaiting | hintReady | pushSplit | closeConnector => simp at hop
  | control h =>
    cases h with
    | flow i op' add hctl =>
      obtain rfl := mem_singleton.mp hop
      cases op <;> simp_all [Op.endsInCheck, Op.isTask, Op.isStatusCheck, Op.isControl]
    | managerOnly | dispatch => simp at hop
    | _ =>
      obtain rfl := mem_singleton.mp hop
      cases hcheck

theorem Effect.split_goes_on (h : Effect g pipes p l ps rem add) (hkind : g.kind p = .gpuScan)
    (hclosed : (pipes p).closed = true) (hrem : ∀ op ∈ rem, op.KindOk g)
    (hsplit : (pipes p).empty = false) :
    ps.empty = false ∨ ∃ o ∈ add, o.endsInCheck = true ∧ o.pipeline = p := by
  cases h with
  | pullData i batches inputs opState =>
    exact Or.inr ⟨_, mem_singleton_self _, rfl, rfl⟩
  | claimPartition => simp [Op.KindOk, hkind] at hrem
  | push i q held after j batch port _ _ hports => simp [hkind] at hports
  | pushSplit split _ hopen =>
    rw [hclosed] at hopen
    cases hopen
  | _ => exact Or.inl hsplit

theorem Effect.closed_cases (h : Effect g pipes p l ps rem add) (hclosed : ps.closed = true) :
    (pipes p).closed = true ∨ l = .closeConnector p := by
  cases h with
  | closeConnector => exact Or.inr rfl
  | _ => exact Or.inl hclosed

theorem Effect.of_closeConnector (h : Effect g pipes p (.closeConnector q) ps rem add) :
    ps = { pipes p with closed := true } ∧ rem = 0 ∧ add = 0 := by
  cases h with
  | control h => cases h with | managerOnly _ hlabel => simp at hlabel
  | closeConnector => exact ⟨rfl, rfl, rfl⟩

variable [DecidableEq P]

theorem created_mono_step {st st' : State P S B} (h : step g st l = some st') :
    ∀ p, (st.pipes p).tasksCreated ≤ (st'.pipes p).tasksCreated := by
  refine memory_step (J := fun p ps => (st.pipes p).tasksCreated ≤ ps.tasksCreated) h ?_
    fun _ => le_rfl
  intro p ps rem add R _ he _
  exact he.created_mono

section Step

variable {st st' : State P S B} {l : Label P S B}

/-- A completion leaves a status check behind. -/
theorem completed_step_cases (h : step g st l = some st') (p : P) :
    (st'.pipes p).tasksCompleted = (st.pipes p).tasksCompleted ∨
      ∃ original, .lockUpdate p original ∈ pending st'.threads := by
  obtain ⟨q, ps, rem, add, R, hch, he⟩ := step_effect h
  by_cases hpq : p = q
  · subst hpq
    rw [hch.pipes, hch.after, update_self]
    cases he with
    | destroy i batches after => exact Or.inr ⟨true, by simp⟩
    | _ => exact Or.inl rfl
  · rw [hch.pipes, update_of_ne hpq]
    exact Or.inl rfl

theorem lockUpdate_step (h : step g st l = some st') (hlocked : (st.pipes p).locked = true)
    {original : Bool} (hop : .lockUpdate p original ∈ pending st.threads) :
    .lockUpdate p original ∈ pending st'.threads := by
  obtain ⟨q, ps, rem, add, R, hch, he⟩ := step_effect h
  rw [hch.before] at hop
  rw [hch.after]
  rcases mem_add.mp hop with hrem | hR
  · rw [he.locked_of_lockUpdate hrem] at hlocked
    cases hlocked
  · exact mem_add.mpr (Or.inr hR)

theorem Op.Loaded.step (hb : Basic g st) (hop : op ∈ pending st.threads) (hl : op.Loaded st)
    (h : Engine.step g st l = some st') : op.Loaded st' := by
  cases op with
  | loadedCreated p original created =>
    have hlocked : (st.pipes p).locked = true := hb.locked_of_mem hop rfl
    refine ⟨hl.1.trans (created_mono_step h p), ?_⟩
    rcases hl.2 with hle | ⟨o, ho⟩
    · rcases completed_step_cases h p with heq | hwait
      · exact Or.inl (heq ▸ hle)
      · exact Or.inr hwait
    · exact Or.inr ⟨o, lockUpdate_step h hlocked ho⟩
  | loadedCompleted p original completed =>
    have hlocked : (st.pipes p).locked = true := hb.locked_of_mem hop rfl
    rcases hl with heq | ⟨o, ho⟩
    · rcases completed_step_cases h p with heq' | hwait
      · exact Or.inl (heq'.trans heq)
      · exact Or.inr hwait
    · exact Or.inr ⟨o, lockUpdate_step h hlocked ho⟩
  | _ => trivial

theorem Basic.loaded_add (hb : Basic g st) {R : Multiset (Op P B)}
    (hch : Changes st st' l p ps rem add R) (he : Effect g st.pipes p l ps rem add) :
    ∀ op ∈ add, op.Loaded st' := by
  have hkeep : st'.pipes p = ps := by rw [hch.pipes, update_self]
  cases he with
  | control h =>
    intro op hop
    have hpassive := h.add_passive op hop
    cases op <;> trivial
  | claimPartition i batch batches inputs add _ _ hadd =>
    rcases hadd with rfl | rfl <;> simp [Op.Loaded]
  | destroy i batches after => cases after <;> simp [After.ops, Op.Loaded]
  | loadCreated i original =>
    simp only [mem_singleton, forall_eq]
    refine ⟨by rw [hkeep], Or.inl ?_⟩
    have hbal := hb.balanced p
    rw [hkeep, hbal]
    exact Nat.le_add_right _ _
  | loadCompleted i original =>
    simp only [mem_singleton, forall_eq]
    exact Or.inl (by rw [hkeep])
  | _ => simp [Op.Loaded]

/-! ## The scan stays alive -/

/-- A closed scan is finished, or a split is queued, or work that ends in a check is pending. -/
def ScanAlive (g : Graph P S B) (st : State P S B) : Prop :=
  ∀ p, g.kind p = .gpuScan → (st.pipes p).closed = true →
    (st.pipes p).pipelineFinished = true ∨ (st.pipes p).empty = false ∨
      ∃ op ∈ pending st.threads, op.endsInCheck = true ∧ op.pipeline = p

/-- A failed comparison of the counters leaves other work that ends in a check. -/
theorem Basic.other_check (hb : Basic g st) {R : Multiset (Op P B)}
    (hpend : pending st.threads = {op} + R) (htask : op.isTask = false)
    (hlock : ∀ original, op ≠ .lockUpdate p original)
    (hwait : (∃ original, .lockUpdate p original ∈ pending st.threads) ∨
      (st.pipes p).tasksCreated ≠ (st.pipes p).tasksCompleted) :
    ∃ o ∈ R, o.endsInCheck = true ∧ o.pipeline = p := by
  rcases hwait with ⟨original, hmem⟩ | hne
  · rw [hpend] at hmem
    rcases mem_add.mp hmem with heq | hR
    · exact absurd (mem_singleton.mp heq).symm (hlock original)
    · exact ⟨_, hR, rfl, rfl⟩
  · have hpos : tasksOf p (pending st.threads) ≠ 0 := fun h0 => hne ((hb.counters_eq_iff p).mpr h0)
    rw [Ne, tally_indicator_eq_zero] at hpos
    push Not at hpos
    obtain ⟨o, ho, hp, ht⟩ := hpos
    rw [Bool.ne_false_iff] at ht
    rw [hpend] at ho
    rcases mem_add.mp ho with heq | hR
    · obtain rfl := mem_singleton.mp heq
      rw [htask] at ht
      cases ht
    · exact ⟨o, hR, by cases o <;> simp_all [Op.endsInCheck], hp⟩

/-- **The scan stays alive** along safe steps. -/
theorem ScanAlive.step (ha : ScanAlive g st) (hb : Basic g st)
    (hl : ∀ op ∈ pending st.threads, op.Loaded st) (hsafe : closeSafe st l = true)
    (h : Engine.step g st l = some st') : ScanAlive g st' := by
  obtain ⟨q, ps, rem, add, R, hch, he⟩ := step_effect h
  intro p hkind hclosed'
  by_cases hpq : p = q
  · subst hpq
    rw [hch.pipes, update_self] at hclosed' ⊢
    rw [hch.after]
    rcases he.closed_cases hclosed' with hclosed | rfl
    · rcases ha p hkind hclosed with hfin | hsplit | ⟨op, hop, hcheck, hp⟩
      · exact Or.inl (he.finished_mono hfin)
      · rcases he.split_goes_on hkind hclosed (hb.kinds_rem hch) hsplit with hsplit' | ⟨o, ho, hc⟩
        · exact Or.inr (Or.inl hsplit')
        · exact Or.inr (Or.inr ⟨o, mem_add.mpr (Or.inl ho), hc⟩)
      · rw [hch.before] at hop
        rcases mem_add.mp hop with hrem | hR
        · have hother : ∀ o ∈ R, o.endsInCheck = true ∧ o.pipeline = p →
              ps.pipelineFinished = true ∨ ps.empty = false ∨
                ∃ o ∈ add + R, o.endsInCheck = true ∧ o.pipeline = p :=
            fun o ho hc => Or.inr (Or.inr ⟨o, mem_add.mpr (Or.inr ho), hc⟩)
          rcases he.check_goes_on hkind hclosed hrem hcheck with
            hfin | hsplit | ⟨o, ho, hc⟩ | ⟨original, created, rfl, hne⟩ |
            ⟨original, completed, rfl, hne⟩
          · exact Or.inl hfin
          · exact Or.inr (Or.inl hsplit)
          · exact Or.inr (Or.inr ⟨o, mem_add.mpr (Or.inl ho), hc⟩)
          · obtain ⟨hle, hwait⟩ := hl _ hch.rem_mem
            obtain ⟨o, ho, hc⟩ := hb.other_check hch.before rfl (by simp)
              (hwait.symm.imp_right fun hle' => by omega)
            exact hother o ho hc
          · obtain ⟨o, ho, hc⟩ := hb.other_check hch.before rfl (by simp)
              ((hl _ hch.rem_mem).symm.imp_right fun heq => by omega)
            exact hother o ho hc
        · exact Or.inr (Or.inr ⟨op, mem_add.mpr (Or.inr hR), hcheck, hp⟩)
    · obtain ⟨rfl, rfl, rfl⟩ := he.of_closeConnector
      rw [← hch.before]
      simp only [closeSafe, Bool.or_eq_true, Bool.not_eq_true', or_assoc] at hsafe
      rcases hsafe with hfin | hsplit | hany
      · exact Or.inl hfin
      · exact Or.inr (Or.inl hsplit)
      · obtain ⟨thread, hthread, hany⟩ := List.any_eq_true.mp hany
        obtain ⟨op, hop, hcheck⟩ := List.any_eq_true.mp hany
        rw [Bool.and_eq_true, decide_eq_true_iff] at hcheck
        exact Or.inr (Or.inr ⟨op, mem_pending_of_mem hthread hop, hcheck⟩)
  · rw [hch.pipes, update_of_ne hpq] at hclosed' ⊢
    rw [hch.after]
    rcases ha p hkind hclosed' with hfin | hsplit | ⟨op, hop, hcheck, hp⟩
    · exact Or.inl hfin
    · exact Or.inr (Or.inl hsplit)
    · rw [hch.before] at hop
      have hstay : op ∈ add + R := by
        rcases mem_add.mp hop with hrem | hR
        · rcases he.rem_pipeline hrem with hq | hadd
          · exact absurd (hp.symm.trans hq) hpq
          · exact mem_add.mpr (Or.inl hadd)
        · exact mem_add.mpr (Or.inr hR)
      exact Or.inr (Or.inr ⟨op, hstay, hcheck, hp⟩)

end Step

/-- The invariant of the runs whose steps are all `closeSafe`. -/
structure ScanInv (g : Graph P S B) (st : State P S B) : Prop extends Basic g st where
  loaded : ∀ op ∈ pending st.threads, op.Loaded st
  alive : ScanAlive g st

theorem ScanInv.initial (opState : P → S) (partitions : P → List B) (requests : List P) :
    ScanInv g (State.initial g opState partitions requests) where
  toBasic := Basic.initial opState partitions requests
  loaded := by simp [State.initial]
  alive := by
    intro p hkind hclosed
    simp [State.initial, hkind] at hclosed

theorem ScanInv.step {st st' : State P S B} (hs : ScanInv g st) (hsafe : closeSafe st l = true)
    (h : step g st l = some st') : ScanInv g st' where
  toBasic := hs.toBasic.step h
  loaded := by
    obtain ⟨p, ps, rem, add, R, hch, he⟩ := step_effect h
    intro op hop
    rw [hch.after] at hop
    rcases mem_add.mp hop with hadd | hR
    · exact hs.loaded_add hch he op hadd
    · have hmem : op ∈ pending st.threads := by
        rw [hch.before]
        exact mem_add.mpr (Or.inr hR)
      exact (hs.loaded op hmem).step hs.toBasic hmem h
  alive := hs.alive.step hs.toBasic hs.loaded hsafe h

/-- **A GPU scan always finishes.** In a run whose steps are all `closeSafe`, no scan is closed,
drained, without outstanding work and unfinished. -/
theorem gpu_scan_finishes (g : Graph P S B) (opState : P → S) (partitions : P → List B)
    (requests : List P) (st : State P S B)
    (hrun : Run (step g) (fun st l => closeSafe st l = true)
      (State.initial g opState partitions requests) st) (p : P) : ¬ ScanStuck g st p := by
  rintro ⟨hkind, hclosed, hempty, _, _, hidle, hopen⟩
  have hs : ScanInv g st :=
    hrun.invariant (ScanInv.initial opState partitions requests) fun hs hsafe h => hs.step hsafe h
  rcases hs.alive p hkind hclosed with hfin | hsplit | ⟨op, hop, hcheck, hp⟩
  · rw [hopen] at hfin
    cases hfin
  · rw [hempty] at hsplit
    cases hsplit
  · have hno := hidle op hop hp
    rw [Op.outstanding_of_endsInCheck hcheck] at hno
    cases hno

/-- One split is enough: the connector is closed while it is queued. -/
theorem oneScan_gpu_scan_finishes :
    ∃ st, Run (step oneScan) (fun st l => closeSafe st l = true) oneScanInitial st ∧
      (st.pipes 0).closed = true ∧ (st.pipes 0).empty = true ∧
      (∀ thread ∈ st.threads, thread = []) ∧ ¬ ScanStuck oneScan st 0 := by
  obtain ⟨st, hrun, hst⟩ : ∃ st : State (Fin 1) Unit Nat,
      Run (step oneScan) (fun st l => closeSafe st l = true) oneScanInitial st ∧
        (st.pipes 0).closed = true ∧ (st.pipes 0).empty = true ∧
        ∀ thread ∈ st.threads, thread = [] := by
    apply Run.exists_of_runLabels (oneSplitRun ++ List.replicate 4 (Label.run 1))
    decide +kernel
  exact ⟨st, hrun, hst.1, hst.2.1, hst.2.2, gpu_scan_finishes oneScan _ _ _ st hrun 0⟩

/-- Every row group is pruned: the provider closes the connector without a split, and the request
for the first task finds nothing to do. -/
theorem oneScan_stuck_without_splits :
    ∃ st, Reachable oneScan st ∧ ScanStuck oneScan st 0 := by
  obtain ⟨st, hrun, hidle, hst⟩ : ∃ st : State (Fin 1) Unit Nat,
      Run (step oneScan) (fun _ _ => true = true) oneScanInitial st ∧ st.threads = [] ∧
        (st.pipes 0).closed = true ∧ (st.pipes 0).empty = true ∧ st.requests = [] ∧
        st.manager = none ∧ (st.pipes 0).pipelineFinished = false := by
    apply Run.exists_of_runLabels [Label.closeConnector 0, Label.popRequest, Label.resolveRequest]
    decide +kernel
  obtain ⟨hclosed, hempty, hrequests, hmanager, hopen⟩ := hst
  refine ⟨st, ⟨_, _, _, hrun.mono fun _ _ _ => trivial⟩, rfl, hclosed, hempty, ?_, ?_, ?_, hopen⟩
  · simp [hrequests]
  · simp [hmanager]
  · simp [hidle]

end Sirius.Engine
