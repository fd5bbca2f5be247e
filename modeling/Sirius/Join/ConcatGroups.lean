import Mathlib.Algebra.Order.BigOperators.Group.Finset
import Mathlib.Algebra.Order.Ring.Nat
import Sirius.Join.Concat

/-!
# Which batches the concat operator pulls together

`get_next_task_hint` of `sirius_physical_concat` answers from the batches that are there whether a
pull pays off, and `get_next_task_input_data` pulls the next group. Both are called at any time while
batches arrive. Every batch is pulled once, in the order of its partition; a group of several batches
keeps to the threshold unless `_concat_all` is set; and a pull after the answer `READY` finds a group.

Pulls come from creation loops, which begin with the answer `READY`
(`src/creator/task_creator.cpp`). With `_concat_all` this answer waits for the end of the source, so
that a partition is pulled as a whole.
-/

namespace Sirius.Join

open Lib List Function

variable {R : Type} {m : Nat}

/-! ## Hints and pulls -/

inductive TaskHint where
  | ready
  | waitingForInputData
  deriving DecidableEq, Repr

def ConcatState.nextTaskHint (wholePartition : Bool) (concatBatchBytes : Nat)
    (st : ConcatState m R) : Option TaskHint :=
  if st.sourceFinished then
    if st.allPortsEmpty then none else some .ready
  else if wholePartition then some .waitingForInputData
  else if (List.finRange (m + 1)).any fun i =>
      enoughData concatBatchBytes (st.queues i).length 0 0 (st.queues i) then some .ready
  else some .waitingForInputData

/-- The answer that `ConcatState.ready` stands for. -/
theorem nextTaskHint_eq_ready_iff {wholePartition : Bool} {concatBatchBytes : Nat} {st : ConcatState m R} :
    st.nextTaskHint wholePartition concatBatchBytes = some .ready ↔
      st.ready wholePartition concatBatchBytes = true := by
  unfold ConcatState.nextTaskHint ConcatState.ready
  cases st.sourceFinished <;> cases st.allPortsEmpty <;> cases wholePartition <;> simp

/-- The operator with what has been sent to it and what has been pulled from it. `opened` says that
a hint has answered `READY`. -/
structure PullState (m : Nat) (R : Type) where
  concat : ConcatState m R := {}
  opened : Bool := false
  sent : List (Fin (m + 1) × Batch R) := []
  pulled : List (Fin (m + 1) × List (Batch R)) := []

inductive PullLabel (m : Nat) (R : Type) where
  | arrive (i : Fin (m + 1)) (batch : Batch R)
  | sourceFinishes
  | hint
  | pull

def PullState.take (st : PullState m R) (i : Fin (m + 1)) (taken queue : List (Batch R)) :
    PullState m R :=
  { st with
    concat.queues := Function.update st.concat.queues i queue
    pulled := st.pulled ++ [(i, taken)] }

def pullStep (wholePartition : Bool) (concatBatchBytes : Nat) (st : PullState m R) :
    PullLabel m R → Option (PullState m R)
  | .arrive i batch =>
    if st.concat.sourceFinished then none
    else some { st with
      concat.queues := Function.update st.concat.queues i (st.concat.queues i ++ [batch])
      sent := st.sent ++ [(i, batch)] }
  | .sourceFinishes => some { st with concat.sourceFinished := true }
  | .hint =>
    if st.concat.nextTaskHint wholePartition concatBatchBytes = some .ready then
      some { st with opened := true }
    else some st
  | .pull =>
    match st.concat.nextGroup wholePartition concatBatchBytes (List.finRange (m + 1)) with
    | none => some st
    | some (i, taken, queue) => some (st.take i taken queue)

def fromCreationLoop (st : PullState m R) : PullLabel m R → Bool
  | .pull => st.opened
  | _ => true

abbrev CreationRun (wholePartition : Bool) (concatBatchBytes : Nat) :
    PullState m R → PullState m R → Prop :=
  Run (pullStep wholePartition concatBatchBytes) fun st l => fromCreationLoop st l = true

def PullLabel.isPull : PullLabel m R → Bool
  | .pull => true
  | _ => false

def atPartition {A : Type} (i : Fin (m + 1)) (items : List (Fin (m + 1) × A)) : List A :=
  (items.filter fun x => x.1 = i).map Prod.snd

theorem atPartition_append {A : Type} (i : Fin (m + 1)) (xs ys : List (Fin (m + 1) × A)) :
    atPartition i (xs ++ ys) = atPartition i xs ++ atPartition i ys := by
  simp [atPartition]

theorem atPartition_singleton {A : Type} (i j : Fin (m + 1)) (a : A) :
    atPartition i [(j, a)] = if j = i then [a] else [] := by
  by_cases h : j = i
  · simp [atPartition, h]
  · simp [atPartition, h]

/-! ## Groups -/

section

variable {wholePartition : Bool} {concatBatchBytes : Nat} {st : ConcatState m R} {st' : PullState m R}
  {l : PullLabel m R}

theorem pullGroup_ne_nil (wholePartition : Bool) (concatBatchBytes total : Nat)
    (taken : List (Batch R)) {queue : List (Batch R)} (h : taken ≠ [] ∨ queue ≠ []) :
    (pullGroup wholePartition concatBatchBytes total taken queue).1 ≠ [] := by
  induction queue generalizing total taken with
  | nil =>
    rcases h with h | h
    · exact h
    · exact absurd rfl h
  | cons batch queue ih =>
    rw [pullGroup]
    split
    · split
      · exact cons_ne_nil _ _
      next hne =>
        simpa using hne
    · exact ih _ _ (.inl (by simp))

/-- Several batches are pulled together only within the threshold. -/
theorem pullGroup_bytes (concatBatchBytes total : Nat) {taken : List (Batch R)}
    (htotal : total = (taken.map Batch.bytes).sum) (hle : taken = [] ∨ total ≤ concatBatchBytes)
    (queue : List (Batch R)) :
    ((pullGroup false concatBatchBytes total taken queue).1.map Batch.bytes).sum ≤ concatBatchBytes ∨
      (pullGroup false concatBatchBytes total taken queue).1.length ≤ 1 := by
  induction queue generalizing total taken with
  | nil =>
    rw [pullGroup]
    rcases hle with rfl | hle
    · exact .inr (by simp)
    · exact .inl (htotal ▸ hle)
  | cons batch queue ih =>
    rw [pullGroup]
    split
    · split
      · exact .inr (by simp)
      next hne =>
        rcases hle with rfl | hle
        · simp at hne
        · exact .inl (htotal ▸ hle)
    next hfits =>
      apply ih
      · simp [htotal]
      · right
        simpa using hfits

theorem nextGroup_eq_none {is : List (Fin (m + 1))} :
    st.nextGroup wholePartition concatBatchBytes is = none ↔ ∀ i ∈ is, st.queues i = [] := by
  induction is with
  | nil => simp [ConcatState.nextGroup]
  | cons i is ih =>
    rw [ConcatState.nextGroup]
    split
    next hpull =>
      have hempty : st.queues i = [] := by
        by_contra hne
        have h := pullGroup_ne_nil wholePartition concatBatchBytes 0 [] (.inr hne)
        rw [hpull] at h
        exact h rfl
      rw [ih]
      simp [hempty]
    next hne hpull =>
      simp only [reduceCtorEq, false_iff]
      intro hall
      rw [hall i (.head _), pullGroup] at hpull
      cases hpull
      exact hne rfl

theorem exists_nextGroup (wholePartition : Bool) (concatBatchBytes : Nat)
    (h : ∃ i, st.queues i ≠ []) :
    st.nextGroup wholePartition concatBatchBytes (finRange (m + 1)) ≠ none := by
  intro hnone
  obtain ⟨i, hi⟩ := h
  exact hi (nextGroup_eq_none.1 hnone i (mem_finRange i))

theorem allPortsEmpty_eq_false : st.allPortsEmpty = false ↔ ∃ i, st.queues i ≠ [] := by
  simp [ConcatState.allPortsEmpty]

theorem exists_batch_of_ready (h : st.nextTaskHint wholePartition concatBatchBytes = some .ready) :
    ∃ i, st.queues i ≠ [] := by
  rw [nextTaskHint_eq_ready_iff, ConcatState.ready] at h
  split at h
  · exact allPortsEmpty_eq_false.1 (by simpa using h)
  · obtain ⟨i, -, hi⟩ := any_eq_true.1 (Bool.and_eq_true_iff.1 h).2
    refine ⟨i, fun hnil => ?_⟩
    rw [hnil, enoughData] at hi
    cases hi

theorem sourceFinished_of_ready (h : st.nextTaskHint true concatBatchBytes = some .ready) :
    st.sourceFinished = true := by
  by_contra hopen
  simp [nextTaskHint_eq_ready_iff, ConcatState.ready, hopen] at h

/-! ## Runs -/

/-- What the pulled groups and the batches that are left make up. -/
structure PullInv (wholePartition : Bool) (concatBatchBytes : Nat) (st : PullState m R) : Prop where
  batches : ∀ i, (atPartition i st.pulled).flatten ++ st.concat.queues i = atPartition i st.sent
  groups : ∀ g ∈ st.pulled, g.2 ≠ [] ∧
    (concatBatchBytes < (g.2.map Batch.bytes).sum → g.2.length = 1 ∨ wholePartition = true)

theorem PullInv.step {st : PullState m R} (h : PullInv wholePartition concatBatchBytes st)
    (hstep : pullStep wholePartition concatBatchBytes st l = some st') :
    PullInv wholePartition concatBatchBytes st' := by
  cases l <;> rw [pullStep] at hstep
  case arrive i batch =>
    split at hstep
    · cases hstep
    · cases hstep
      refine ⟨?_, h.groups⟩
      intro j
      rw [atPartition_append, ← h.batches j, atPartition_singleton]
      by_cases hij : i = j
      · subst hij
        simp
      · simp [update_of_ne (Ne.symm hij), hij]
  case sourceFinishes =>
    cases hstep
    exact ⟨h.batches, h.groups⟩
  case hint =>
    split at hstep
    · cases hstep
      exact ⟨h.batches, h.groups⟩
    · cases hstep
      exact h
  case pull =>
    split at hstep
    · cases hstep
      exact h
    next i taken queue hnext =>
      cases hstep
      obtain ⟨hpull, hne⟩ := nextGroup_eq_some hnext
      refine ⟨?_, ?_⟩
      · intro j
        show (atPartition j (st.pulled ++ [(i, taken)])).flatten ++
          update st.concat.queues i queue j = atPartition j st.sent
        rw [atPartition_append, ← h.batches j, atPartition_singleton]
        by_cases hij : i = j
        · subst hij
          have hsplit := pullGroup_append wholePartition concatBatchBytes 0 [] (st.concat.queues i)
          rw [hpull, nil_append] at hsplit
          simp [← hsplit]
        · simp [update_of_ne (Ne.symm hij), hij]
      · intro g hg
        rcases mem_append.1 hg with hg | hg
        · exact h.groups g hg
        · rw [mem_singleton.1 hg]
          have htaken := pullGroup_ne_nil wholePartition concatBatchBytes 0 [] (.inr hne)
          rw [hpull] at htaken
          refine ⟨htaken, ?_⟩
          intro hmore
          cases wholePartition with
          | true => exact .inr rfl
          | false =>
            left
            have hbytes := pullGroup_bytes concatBatchBytes 0 rfl (.inl rfl) (st.concat.queues i)
            rw [hpull] at hbytes
            have hpos : 0 < taken.length := length_pos_iff.2 htaken
            simp only at hbytes hmore ⊢
            omega

/-- With `_concat_all` a pull comes after the end of the source and empties its partition. -/
structure WholeInv (st : PullState m R) : Prop where
  opened : st.opened = true → st.concat.sourceFinished = true
  pulled : ∀ i, atPartition i st.pulled = [] ∨
    (st.concat.sourceFinished = true ∧ st.concat.queues i = [] ∧
      (atPartition i st.pulled).length = 1)

theorem WholeInv.step {st : PullState m R} (h : WholeInv st) (hok : fromCreationLoop st l = true)
    (hstep : pullStep true concatBatchBytes st l = some st') : WholeInv st' := by
  cases l <;> rw [pullStep] at hstep
  case arrive i batch =>
    split at hstep
    · cases hstep
    next hfinished =>
      cases hstep
      refine ⟨h.opened, ?_⟩
      intro j
      rcases h.pulled j with hj | ⟨hj, -⟩
      · exact .inl hj
      · exact absurd hj hfinished
  case sourceFinishes =>
    cases hstep
    refine ⟨fun _ => rfl, ?_⟩
    intro j
    exact (h.pulled j).imp_right fun hj => ⟨rfl, hj.2⟩
  case hint =>
    split at hstep
    next hready =>
      cases hstep
      exact ⟨fun _ => sourceFinished_of_ready hready, h.pulled⟩
    · cases hstep
      exact h
  case pull =>
    split at hstep
    · cases hstep
      exact h
    next i taken queue hnext =>
      cases hstep
      obtain ⟨hpull, hne⟩ := nextGroup_eq_some hnext
      refine ⟨h.opened, ?_⟩
      intro j
      by_cases hij : i = j
      · subst hij
        -- The partition has a batch, so nothing has been pulled from it before.
        have hnone : atPartition i st.pulled = [] := by
          rcases h.pulled i with hi | ⟨-, hi, -⟩
          · exact hi
          · exact absurd hi hne
        have hqueue : queue = [] := by
          rw [← pullGroup_whole 0 [] (st.concat.queues i), hpull]
        right
        refine ⟨h.opened hok, by simp [PullState.take, hqueue], ?_⟩
        simp [PullState.take, atPartition_append, atPartition_singleton, hnone]
      · simpa [PullState.take, atPartition_append, atPartition_singleton, hij,
          update_of_ne (Ne.symm hij)] using h.pulled j

/-- A batch stays until a pull. -/
theorem exists_batch_step {st : PullState m R} (hl : l.isPull = false)
    (hstep : pullStep wholePartition concatBatchBytes st l = some st')
    (h : ∃ i, st.concat.queues i ≠ []) : ∃ i, st'.concat.queues i ≠ [] := by
  obtain ⟨i, hi⟩ := h
  refine ⟨i, ?_⟩
  cases l with
  | arrive j batch =>
    rw [pullStep] at hstep
    split at hstep
    · cases hstep
    · cases hstep
      by_cases hij : i = j
      · subst hij
        simp
      · simpa [update_of_ne hij] using hi
  | sourceFinishes =>
    cases hstep
    exact hi
  | hint =>
    rw [pullStep] at hstep
    split at hstep <;> cases hstep <;> exact hi
  | pull => cases hl

/-- After the end of the source the hint is empty once nothing is left. -/
theorem nextTaskHint_eq_none (h : st.sourceFinished = true) :
    st.nextTaskHint wholePartition concatBatchBytes = none ↔ ∀ i, st.queues i = [] := by
  rw [ConcatState.nextTaskHint, if_pos h]
  by_cases hempty : st.allPortsEmpty = true
  · simp only [hempty, if_true, true_iff]
    simpa [ConcatState.allPortsEmpty] using hempty
  · simp only [hempty, if_false, reduceCtorEq, false_iff]
    simpa [ConcatState.allPortsEmpty] using hempty

theorem nextTaskHint_of_finished (h : st.sourceFinished = true) (hne : ∃ i, st.queues i ≠ []) :
    st.nextTaskHint wholePartition concatBatchBytes = some .ready := by
  simpa [nextTaskHint_eq_ready_iff, ConcatState.ready, ConcatState.allPortsEmpty, h] using hne

def PullState.numWaiting (st : PullState m R) : Nat := ∑ i, (st.concat.queues i).length

theorem exists_pull (wholePartition : Bool) (concatBatchBytes : Nat) {st : PullState m R}
    (hopen : st.opened = true)
    (hne : ∃ i, st.concat.queues i ≠ []) :
    ∃ st', CreationRun wholePartition concatBatchBytes st st' ∧
      st'.opened = true ∧ st'.sent = st.sent ∧ st'.numWaiting < st.numWaiting := by
  obtain ⟨⟨i, taken, queue⟩, hnext⟩ :=
    Option.ne_none_iff_exists'.1 (exists_nextGroup wholePartition concatBatchBytes hne)
  have hstep : pullStep wholePartition concatBatchBytes st .pull = some (st.take i taken queue) := by
    simp only [pullStep, hnext]
  refine ⟨_, .single .pull hopen hstep, hopen, rfl, ?_⟩
  obtain ⟨hpull, hqueue⟩ := nextGroup_eq_some hnext
  have htaken := pullGroup_ne_nil wholePartition concatBatchBytes 0 [] (.inr hqueue)
  have hsplit := pullGroup_append wholePartition concatBatchBytes 0 [] (st.concat.queues i)
  rw [hpull] at htaken hsplit
  have hlt : queue.length < (st.concat.queues i).length := by
    have hlen := congrArg length hsplit
    have hpos : 0 < taken.length := length_pos_iff.2 htaken
    simp only [length_append, nil_append] at hlen
    omega
  apply Finset.sum_lt_sum
  · intro j _
    by_cases hij : j = i
    · subst hij
      simpa [PullState.take] using hlt.le
    · simp [PullState.take, update_of_ne hij]
  · exact ⟨i, Finset.mem_univ i, by simpa [PullState.take] using hlt⟩

theorem exists_drained_of_opened (wholePartition : Bool) (concatBatchBytes : Nat)
    {st : PullState m R} (hopen : st.opened = true) :
    ∃ st', CreationRun wholePartition concatBatchBytes st st' ∧
      st'.sent = st.sent ∧ ∀ i, st'.concat.queues i = [] := by
  have hprogress : ∀ a : PullState m R, a.opened = true ∧ a.sent = st.sent →
      (∀ i, a.concat.queues i = []) ∨ ∃ b, CreationRun wholePartition concatBatchBytes a b ∧
        (b.opened = true ∧ b.sent = st.sent) ∧ b.numWaiting < a.numWaiting := by
    intro a ha
    by_cases hall : ∀ i, a.concat.queues i = []
    · exact .inl hall
    · right
      obtain ⟨b, hb, hopen, hsent, hlt⟩ :=
        exists_pull wholePartition concatBatchBytes ha.1 (not_forall.1 hall)
      exact ⟨b, hb, ⟨hopen, hsent.trans ha.2⟩, hlt⟩
  obtain ⟨st', hrun, ⟨-, hsent⟩, hdrained⟩ :=
    Run.exists_of_measure _ _ PullState.numWaiting hprogress ⟨hopen, rfl⟩
  exact ⟨st', hrun, hsent, hdrained⟩

theorem exists_drained (wholePartition : Bool) (concatBatchBytes : Nat) (st : PullState m R) :
    ∃ st', CreationRun wholePartition concatBatchBytes st st' ∧
      st'.sent = st.sent ∧ ∀ i, st'.concat.queues i = [] := by
  by_cases hne : ∃ i, st.concat.queues i ≠ []
  · let finished : PullState m R := { st with concat.sourceFinished := true }
    let opened : PullState m R := { finished with opened := true }
    have hfinish : CreationRun wholePartition concatBatchBytes st finished :=
      .single .sourceFinishes rfl rfl
    have hready : finished.concat.nextTaskHint wholePartition concatBatchBytes = some .ready :=
      nextTaskHint_of_finished rfl hne
    have hhint : pullStep wholePartition concatBatchBytes finished .hint = some opened :=
      if_pos hready
    obtain ⟨st', hrun, hsent, hdrained⟩ :=
      exists_drained_of_opened wholePartition concatBatchBytes (rfl : opened.opened = true)
    exact ⟨st', (hfinish.tail .hint rfl hhint).trans hrun, hsent, hdrained⟩
  · exact ⟨st, .refl st, rfl, fun i => not_not.1 fun hi => hne ⟨i, hi⟩⟩

/-- **Grouping**, in every run. With `_concat_all`, a partition is pulled in one group that holds
all batches ever sent to it. -/
theorem concat_pulls_each_batch (wholePartition : Bool) (concatBatchBytes m : Nat) (R : Type) :
    (∀ st : PullState m R,
      Run (pullStep wholePartition concatBatchBytes) (fun _ _ => True) {} st →
      (∀ i, (atPartition i st.pulled).flatten ++ st.concat.queues i = atPartition i st.sent) ∧
      (∀ g ∈ st.pulled, g.2 ≠ [] ∧
        (concatBatchBytes < (g.2.map Batch.bytes).sum → g.2.length = 1 ∨ wholePartition = true)) ∧
      (st.concat.nextTaskHint wholePartition concatBatchBytes = some .ready → ∀ st',
        Run (pullStep wholePartition concatBatchBytes) (fun _ l => l.isPull = false) st st' →
        st'.concat.nextGroup wholePartition concatBatchBytes (List.finRange (m + 1)) ≠ none) ∧
      (st.concat.sourceFinished = true →
        (st.concat.nextTaskHint wholePartition concatBatchBytes = none ↔
          ∀ i, st.concat.queues i = [])) ∧
      ∃ st', CreationRun wholePartition concatBatchBytes st st' ∧
        st'.sent = st.sent ∧ ∀ i, st'.concat.queues i = []) ∧
    (wholePartition = true → ∀ st : PullState m R,
      CreationRun wholePartition concatBatchBytes {} st → ∀ i,
        atPartition i st.pulled = [] ∨ atPartition i st.pulled = [atPartition i st.sent]) := by
  have hinitial : PullInv wholePartition concatBatchBytes ({} : PullState m R) :=
    ⟨fun _ => rfl, by simp⟩
  refine ⟨?_, ?_⟩
  · intro st hrun
    have hinv := hrun.invariant hinitial fun ha _ hstep => ha.step hstep
    refine ⟨hinv.batches, hinv.groups, ?_, nextTaskHint_eq_none,
      exists_drained wholePartition concatBatchBytes st⟩
    intro hready st' hrun'
    apply exists_nextGroup
    exact hrun'.invariant (exists_batch_of_ready hready) fun ha hl hstep =>
      exists_batch_step hl hstep ha
  · intro hwhole st hrun i
    subst hwhole
    have hinv := hrun.invariant hinitial fun ha _ hstep => ha.step hstep
    have hpulled := hrun.invariant (I := WholeInv) ⟨by simp, fun _ => .inl rfl⟩
      fun ha hok hstep => ha.step hok hstep
    rcases hpulled.pulled i with hi | ⟨-, hempty, hlen⟩
    · exact .inl hi
    · right
      obtain ⟨g, hg⟩ := length_eq_one_iff.1 hlen
      have hbatches := hinv.batches i
      rw [hg, hempty] at hbatches
      rw [hg, ← hbatches]
      simp

/-- Two batches that exceed the threshold together are one group with `_concat_all`. -/
theorem concat_pulls_each_batch_whole : ∃ st : PullState 0 Nat,
    CreationRun true 10 {} st ∧ st.pulled = [(0, [⟨[1], 6⟩, ⟨[2], 6⟩])] ∧
      (atPartition 0 st.pulled = [] ∨ atPartition 0 st.pulled = [atPartition 0 st.sent]) := by
  obtain ⟨st, hrun, hpulled⟩ : ∃ st, CreationRun (m := 0) (R := Nat) true 10 {} st ∧
      st.pulled = [(0, [⟨[1], 6⟩, ⟨[2], 6⟩])] := by
    apply Run.exists_of_runLabels [PullLabel.arrive 0 ⟨[1], 6⟩, PullLabel.arrive 0 ⟨[2], 6⟩,
      PullLabel.sourceFinishes, PullLabel.hint, PullLabel.pull]
    decide
  exact ⟨st, hrun, hpulled, (concat_pulls_each_batch true 10 0 Nat).2 rfl st hrun 0⟩

end

end Sirius.Join
