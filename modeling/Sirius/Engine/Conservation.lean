import Mathlib.Tactic.Abel
import Sirius.Engine.Invariants

/-!
# Batches and scan flags

Where the batches of a pipeline are: every batch that ever entered its inputs is still in a
repository, held by a task (or by the creator that is about to construct one), or consumed by a
completed task. The flags of the scan operators are tied to the pending operations in the same
way: a DuckDB scan counts its undrained local states, a CPU source has at most one task.
-/

namespace Sirius.Engine

open Lib Multiset

variable {P S B : Type} {g : Graph P S B}

/-! ## Batches -/

def Op.held (op : Op P B) : Multiset B := (op.batches : Multiset B)

variable [DecidableEq P] in
/-- Batches of `p` that have left the repositories and that no completed task has taken. -/
abbrev heldBy (p : P) (ops : Multiset (Op P B)) : Multiset B := pendingOf Op.held p ops

theorem held_of_isPassive (op : Op P B) (h : op.isPassive = true) : op.held = 0 := by
  cases op <;> simp_all [Op.isPassive, Op.isControl, Op.held, Op.batches]

/-- The repositories of `p` are those of its ports; a split connector has one queue. -/
def Shape (g : Graph P S B) (p : P) (ps : PipeState S B) : Prop :=
  (g.kind p = .ports → ps.inputs.length = (g.ports p).length) ∧
    (g.kind p = .gpuScan → ps.inputs ≠ [])

def Conserved (g : Graph P S B) (p : P) (ps : PipeState S B) (held : Multiset B) : Prop :=
  Shape g p ps ∧ ps.pushed = (ps.inputs.flatten : Multiset B) + held + ps.consumed

theorem getNextSplit_conserves {ps : PipeState S B} {batches : List B} {inputs : List (List B)}
    {opState : S} (h : Graph.getNextSplit ps = .data batches inputs opState) :
    (batches ++ inputs.flatten).Perm ps.inputs.flatten ∧ inputs.length = ps.inputs.length := by
  unfold Graph.getNextSplit at h
  split at h
  next split splits queues hin =>
    cases h
    simp [hin]
  · split at h <;> cases h

theorem getNextTaskInputData_conserves {p : P} {ps : PipeState S B} {batches : List B}
    {inputs : List (List B)} {opState : S}
    (h : g.getNextTaskInputData ps p = .data batches inputs opState) :
    (batches ++ inputs.flatten).Perm ps.inputs.flatten ∧ inputs.length = ps.inputs.length := by
  unfold Graph.getNextTaskInputData at h
  split at h
  · exact getNextSplit_conserves h
  · split at h
    · cases h
    next hpull =>
      cases h
      exact (g.operator p).pull_conserves hpull

/-- Appending a batch to an existing repository adds it to the contents. -/
theorem flatten_modify_append (inputs : List (List B)) (j : Nat) (batch : B)
    (h : j < inputs.length) :
    ((inputs.modify j (· ++ [batch])).flatten : Multiset B) =
      batch ::ₘ (inputs.flatten : Multiset B) := by
  induction inputs generalizing j with
  | nil => simp at h
  | cons repo repos ih =>
    cases j with
    | zero => simp [← coe_add, ← cons_coe]
    | succ j =>
      have hj : j < repos.length := by simpa using h
      simp only [List.modify_succ_cons, List.flatten_cons, ← coe_add, ih j hj]
      simp

theorem Shape.of_length {p : P} {ps ps' : PipeState S B} (h : Shape g p ps)
    (hlen : ps'.inputs.length = ps.inputs.length) : Shape g p ps' := by
  refine ⟨fun hk => hlen.trans (h.1 hk), ?_⟩
  intro hk hnil
  apply h.2 hk
  rw [← List.length_eq_zero_iff, ← hlen, hnil, List.length_nil]

section Effects

variable {pipes : P → PipeState S B} {p : P} {l : Label P S B} {ps : PipeState S B}
  {rem add : Multiset (Op P B)}

variable [DecidableEq P]

theorem Effect.conserved (h : Effect g pipes p l ps rem add) {held : Multiset B}
    (hc : Conserved g p (pipes p) (heldBy p rem + held)) :
    Conserved g p ps (heldBy p add + held) := by
  obtain ⟨hshape, hpushed⟩ := hc
  cases h with
  | control h =>
    refine ⟨hshape, ?_⟩
    have hsame : heldBy p rem = heldBy p add := h.tally_eq held_of_isPassive p
    rwa [← hsame]
  | pullData i batches inputs opState hpull =>
    obtain ⟨hperm, hlen⟩ := getNextTaskInputData_conserves hpull
    refine ⟨hshape.of_length hlen, ?_⟩
    have hcoe := coe_eq_coe.mpr hperm
    rw [← coe_add] at hcoe
    simp only [heldBy, tally_singleton, Op.pipeline, Op.held, Op.batches, if_true] at hpushed ⊢
    rw [hpushed, ← hcoe, coe_nil]
    abel
  | claimPartition i batch batches inputs add _ hin hadd =>
    refine ⟨hshape.of_length (by simp [hin]), ?_⟩
    rw [hin] at hpushed
    rcases hadd with rfl | rfl <;>
      simp_all [PipeState.created, Op.pipeline, Op.held, Op.batches, ← cons_coe]
  | push i q held' after j batch port hport _ hkind =>
    have hlen := hshape.1 hkind
    have hj : j < (pipes p).inputs.length := by
      rw [hlen]
      exact (List.getElem?_eq_some_iff.mp hport).1
    refine ⟨hshape.of_length (by simp), ?_⟩
    rw [flatten_modify_append _ _ _ hj, hpushed, cons_add, cons_add]
  | pushSplit split hkind _ =>
    have hne : 0 < (pipes p).inputs.length := List.length_pos_iff.mpr (hshape.2 hkind)
    refine ⟨hshape.of_length (by simp), ?_⟩
    rw [flatten_modify_append _ _ _ hne, hpushed, cons_add, cons_add]
  | destroy i batches after =>
    refine ⟨hshape, ?_⟩
    cases after <;>
      (simp [After.ops, Op.pipeline, Op.held, Op.batches] at hpushed ⊢; rw [hpushed]; abel)
  | _ =>
    refine ⟨hshape, ?_⟩
    simpa [PipeState.created, PipeState.lock, PipeState.unlock, Op.pipeline, Op.held,
      Op.batches] using hpushed

end Effects

/-! ## Flags of the scans -/

/-- A DuckDB scan counts its undrained local states, and an exhausted one has none. -/
def ScanStates (g : Graph P S B) (p : P) (ps : PipeState S B) (states : Nat) : Prop :=
  g.kind p = .duckdbScan →
    ps.inputs = [] ∧ ps.activeLocalStates = states ∧ (ps.exhausted = true → states = 0)

/-- A CPU source has one task, from its scheduling to the flag `exhausted`. -/
def CpuTask (g : Graph P S B) (p : P) (ps : PipeState S B) (tasks : Nat) : Prop :=
  g.kind p = .cpuSource → ps.inputs = [] ∧ tasks + ps.exhausted.toNat = ps.taskScheduled.toNat

/-- An Iceberg scan without more partitions has handed them all out. -/
def Partitions (g : Graph P S B) (p : P) (ps : PipeState S B) : Prop :=
  g.kind p = .icebergScan → ps.hasMorePartitions = false → ps.inputs.flatten = []

theorem isScanState_of_isPassive (op : Op P B) (h : op.isPassive = true) :
    indicator Op.isScanState op = 0 := by
  cases op <;> simp_all [Op.isPassive, Op.isControl, indicator, Op.isScanState]

theorem isCpuSource_of_isPassive (op : Op P B) (h : op.isPassive = true) :
    indicator Op.isCpuSource op = 0 := by
  cases op <;> simp_all [Op.isPassive, Op.isControl, indicator, Op.isCpuSource]

section Effects

variable {pipes : P → PipeState S B} {p : P} {l : Label P S B} {ps : PipeState S B}
  {rem add : Multiset (Op P B)} {k : Nat}

theorem Effect.partitions (h : Effect g pipes p l ps rem add) (hkind : ∀ op ∈ rem, op.KindOk g)
    (hk : Partitions g p (pipes p)) : Partitions g p ps := by
  intro hp
  specialize hk hp
  cases h with
  | claimPartition i batch batches inputs add _ hin _ =>
    intro hmore
    -- The claimed partition was still there, so the flag has just been cleared.
    have hbefore : (pipes p).hasMorePartitions = true := by simpa [hin] using hk
    rw [List.flatten_eq_nil_iff]
    simpa [hbefore] using hmore
  | push i q held after j batch port _ _ hports => simp [hp] at hports
  | pushSplit split hgpu _ => simp [hp] at hgpu
  | pullData i batches inputs opState _ => simp [Op.KindOk, hp] at hkind
  | _ => exact hk

theorem Effect.noLimit (h : Effect g pipes p l ps rem add)
    (hlimit : ∀ i, l = .exhaustLimit i → g.hasLimit p = false)
    (hk : (pipes p).limitExhausted = false) : ps.limitExhausted = false := by
  cases h with
  | exhaustLimit i batches hlim =>
    rw [hlimit i rfl] at hlim
    cases hlim
  | _ => exact hk

variable [DecidableEq P]

/-- The local states are counted, provided that no local state is created for an exhausted scan. -/
theorem Effect.scanStates (h : Effect g pipes p l ps rem add) (hkind : ∀ op ∈ rem, op.KindOk g)
    (hsafe : rem = {.createScanState p} → (pipes p).exhausted = false)
    (hk : ScanStates g p (pipes p) (pendingOf (indicator Op.isScanState) p rem + k)) :
    ScanStates g p ps (pendingOf (indicator Op.isScanState) p add + k) := by
  intro hp
  specialize hk hp
  cases h with
  | control h => simpa only [h.tally_eq isScanState_of_isPassive p] using hk
  | claimPartition
  | cpuTask i | pullData i batches inputs opState _ => simp [Op.KindOk, hp] at hkind
  | destroy i batches after =>
    cases after <;> simpa [After.ops, Op.pipeline, indicator, Op.isScanState] using hk
  | createScanState i =>
    specialize hsafe rfl
    simp [hsafe, Op.pipeline, indicator, Op.isScanState] at hk ⊢
    exact ⟨hk.1, by omega⟩
  | drainScan i =>
    simp [Op.pipeline, indicator, Op.isScanState] at hk ⊢
    refine ⟨hk.1, by omega, ?_⟩
    rintro (hex | hlast)
    · simp [hex] at hk
    · omega
  | push i q held after j batch port _ _ hports => simp [hp] at hports
  | pushSplit split hgpu _ => simp [hp] at hgpu
  | dispatchCpu hcpu _ => simp [hp] at hcpu
  | _ =>
    simpa [PipeState.created, PipeState.lock, PipeState.unlock, Op.pipeline, indicator,
      Op.isScanState] using hk

theorem Effect.cpuSourceTask (h : Effect g pipes p l ps rem add)
    (hkind : ∀ op ∈ rem, op.KindOk g)
    (hk : CpuTask g p (pipes p) (pendingOf (indicator Op.isCpuSource) p rem + k)) :
    CpuTask g p ps (pendingOf (indicator Op.isCpuSource) p add + k) := by
  intro hp
  specialize hk hp
  cases h with
  | control h => simpa only [h.tally_eq isCpuSource_of_isPassive p] using hk
  | claimPartition | drainScan i
  | pullData i batches inputs opState _ => simp [Op.KindOk, hp] at hkind
  | destroy i batches after =>
    cases after <;> simpa [After.ops, Op.pipeline, indicator, Op.isCpuSource] using hk
  | dispatchCpu _ hfirst =>
    obtain ⟨hinputs, hcount⟩ := hk
    have hadd : pendingOf (indicator Op.isCpuSource) p {(.constructCpu p : Op P B)} = 1 := by
      simp [Op.pipeline, indicator, Op.isCpuSource]
    refine ⟨hinputs, ?_⟩
    rw [hfirst, Bool.toNat_false, pendingOf, tally_zero] at hcount
    rw [hadd, Bool.toNat_true]
    show 1 + k + (pipes p).exhausted.toNat = 1
    omega
  | cpuTask i =>
    obtain ⟨hinputs, hcount⟩ := hk
    have hone := Bool.toNat_le (pipes p).taskScheduled
    have hrem : pendingOf (indicator Op.isCpuSource) p {(.cpuTask p : Op P B)} = 1 := by
      simp [Op.pipeline, indicator, Op.isCpuSource]
    have hadd : pendingOf (indicator Op.isCpuSource) p {(.publish p [] .scan : Op P B)} = 0 := by
      simp [Op.pipeline, indicator, Op.isCpuSource]
    refine ⟨hinputs, ?_⟩
    rw [hrem] at hcount
    rw [hadd, Bool.toNat_true]
    show 0 + k + 1 = (pipes p).taskScheduled.toNat
    omega
  | push i q held after j batch port _ _ hports => simp [hp] at hports
  | pushSplit split hgpu _ => simp [hp] at hgpu
  | _ =>
    simpa [PipeState.created, PipeState.lock, PipeState.unlock, Op.pipeline, indicator,
      Op.isCpuSource] using hk

end Effects

end Sirius.Engine
