import Sirius.Limit.StreamingLimit

/-!
# How many rows a streaming limit emits

`State.deliverable` is what the operator can still be said to emit: the rows emitted, those that the
running calls have claimed, and those that the counters still admit of the rows that no call has
claimed. Every operation of a call keeps it, however the calls interleave (`Exec.next_spec`), and in the
end it is the number of emitted rows. A failed allocation keeps it only if claiming the same rows once
more makes up for the claims that are lost (`State.RetryKeeps`).
-/

namespace Sirius.Limit

open Lib List

/-! ## Rows claimed and rows left -/

def Exec.made (e : Exec) : Nat :=
  e.output + match e.phase with
    | .materialize take => take
    | _ => 0

/-- Rows of the call's batches that are claimed neither of the offset nor of the limit. -/
def Exec.unclaimed (e : Exec) : Nat :=
  e.todo.sum + match e.phase with
    | .loadOffset rows | .casOffset rows _ => rows
    | .loadLimit rows skip | .casLimit rows skip _ => rows - skip
    | _ => 0

def Counters.wanted (c : Counters) (rows : Nat) : Nat :=
  min c.remainingLimit (rows - c.remainingOffset)

/-- What holds of a running call: claims of the limit come after the offset is used up. -/
structure Exec.Ok (c : Counters) (e : Exec) : Prop where
  claimed : e.made + e.unclaimed ≤ e.input.sum
  phase : match e.phase with
    | .check | .loadOffset _ | .casOffset _ _ => True
    | .loadLimit rows skip => c.remainingOffset = 0 ∧ skip < rows
    | .casLimit rows skip current => c.remainingOffset = 0 ∧ skip < rows ∧ 0 < current
    | .materialize take => c.remainingOffset = 0 ∧ 0 < take
    | .finish => e.todo = [] ∨ c.remainingLimit = 0

structure Counters.Le (c' c : Counters) : Prop where
  offset : c'.remainingOffset ≤ c.remainingOffset
  limit : c'.remainingLimit ≤ c.remainingLimit

theorem Counters.Le.refl (c : Counters) : c.Le c := ⟨le_rfl, le_rfl⟩

variable {c : Counters} {e e' : Exec}

theorem Exec.Ok.mono {c' : Counters} (h : e.Ok c) (hle : c'.Le c) : e.Ok c' := by
  obtain ⟨hoffset, hlimit⟩ := hle
  refine ⟨h.claimed, ?_⟩
  have hphase := h.phase
  cases hp : e.phase <;> simp only [hp] at hphase ⊢
  case loadLimit rows skip => exact ⟨by omega, hphase.2⟩
  case casLimit rows skip current => exact ⟨by omega, hphase.2⟩
  case materialize take => exact ⟨by omega, hphase.2⟩
  case finish => exact hphase.imp_right fun hzero => by omega

/-- A claim of the offset. Rows are left over only if it has used up the offset. -/
theorem Exec.skipped_spec {rows skip : Nat}
    (hclaimed : e.output + (e.todo.sum + rows) ≤ e.input.sum)
    (hskip : skip = min c.remainingOffset rows) (R : Nat) :
    (e.skipped rows skip).Ok { c with remainingOffset := c.remainingOffset - skip } ∧
    (e.skipped rows skip).made +
        { c with remainingOffset := c.remainingOffset - skip }.wanted
          (R + (e.skipped rows skip).unclaimed) =
      e.output + c.wanted (R + (e.todo.sum + rows)) := by
  unfold Exec.skipped
  by_cases hleft : rows - skip = 0
  · rw [if_pos hleft]
    refine ⟨⟨?_, trivial⟩, ?_⟩
    · simp only [Exec.made, Exec.unclaimed]
      omega
    · simp only [Exec.made, Exec.unclaimed, Counters.wanted]
      omega
  · rw [if_neg hleft]
    refine ⟨⟨?_, ?_, ?_⟩, ?_⟩
    · simp only [Exec.made, Exec.unclaimed]
      omega
    · show c.remainingOffset - skip = 0
      omega
    · omega
    · simp only [Exec.made, Exec.unclaimed, Counters.wanted]
      omega

/-- **One operation of a call** keeps what the call has claimed together with what the counters admit of
the unclaimed rows, `R` of them in other calls. -/
theorem Exec.next_spec (h : e.Ok c) (R : Nat) :
    (e.next c).1.Le c ∧ (e.next c).2.Ok (e.next c).1 ∧
    (e.next c).2.input = e.input ∧
    (e.next c).2.made + (e.next c).1.wanted (R + (e.next c).2.unclaimed) =
      e.made + c.wanted (R + e.unclaimed) := by
  obtain ⟨input, todo, phase, output, retryCount⟩ := e
  obtain ⟨hclaimed, hphase⟩ := h
  cases phase with
  | check =>
    simp only [Exec.made, Exec.unclaimed] at hclaimed
    cases todo with
    | nil => exact ⟨.refl c, ⟨hclaimed, .inl rfl⟩, rfl, rfl⟩
    | cons rows rest =>
      simp only [Exec.next]
      split
      next hzero => exact ⟨.refl c, ⟨hclaimed, .inr hzero⟩, rfl, rfl⟩
      next =>
        rw [sum_cons] at hclaimed
        split
        next hrows =>
          refine ⟨.refl c, ⟨?_, trivial⟩, rfl, ?_⟩
          · simp only [Exec.made, Exec.unclaimed]
            omega
          · simp [Exec.made, Exec.unclaimed, hrows]
        next =>
          refine ⟨.refl c, ⟨?_, trivial⟩, rfl, ?_⟩
          · simp only [Exec.made, Exec.unclaimed]
            omega
          · simp [Exec.made, Exec.unclaimed, Nat.add_comm rows]
  | loadOffset rows =>
    simp only [Exec.next]
    split
    next => exact ⟨.refl c, ⟨hclaimed, trivial⟩, rfl, rfl⟩
    next hzero =>
      have hmin : 0 = min c.remainingOffset rows := by omega
      exact ⟨.refl c, Exec.skipped_spec hclaimed hmin R |>.imp_right fun h => ⟨rfl, h⟩⟩
  | casOffset rows current =>
    simp only [Exec.next]
    split
    next heq =>
      subst heq
      exact ⟨⟨Nat.sub_le _ _, le_rfl⟩,
        Exec.skipped_spec hclaimed rfl R |>.imp_right fun h => ⟨rfl, h⟩⟩
    next => exact ⟨.refl c, ⟨hclaimed, trivial⟩, rfl, rfl⟩
  | loadLimit rows skip =>
    obtain ⟨hoffset, hskip⟩ := hphase
    simp only [Exec.next]
    split
    next hpos => exact ⟨.refl c, ⟨hclaimed, hoffset, hskip, hpos⟩, rfl, rfl⟩
    next hzero =>
      simp only [Exec.made, Exec.unclaimed] at hclaimed
      refine ⟨.refl c, ⟨?_, trivial⟩, rfl, ?_⟩
      · simp only [Exec.made, Exec.unclaimed]
        omega
      · simp only [Exec.made, Exec.unclaimed, Counters.wanted]
        omega
  | casLimit rows skip current =>
    obtain ⟨hoffset, hskip, hpos⟩ := hphase
    simp only [Exec.next]
    split
    next heq =>
      subst heq
      simp only [Exec.made, Exec.unclaimed] at hclaimed
      refine ⟨⟨le_rfl, Nat.sub_le _ _⟩, ⟨?_, hoffset, ?_⟩, rfl, ?_⟩
      · simp only [Exec.made, Exec.unclaimed]
        omega
      · omega
      · simp only [Exec.made, Exec.unclaimed, Counters.wanted]
        omega
    next => exact ⟨.refl c, ⟨hclaimed, hoffset, hskip⟩, rfl, rfl⟩
  | materialize take => exact ⟨.refl c, ⟨hclaimed, trivial⟩, rfl, rfl⟩
  | finish => exact ⟨.refl c, ⟨hclaimed, hphase⟩, rfl, rfl⟩

theorem Exec.spurious_spec (h : e.Ok c) (hs : e.spurious = some e') :
    e'.Ok c ∧ e'.made = e.made ∧ e'.unclaimed = e.unclaimed := by
  obtain ⟨input, todo, phase, output, retryCount⟩ := e
  obtain ⟨hclaimed, hphase⟩ := h
  cases phase with
  | casOffset rows current =>
    cases hs
    exact ⟨⟨hclaimed, trivial⟩, rfl, rfl⟩
  | casLimit rows skip current =>
    cases hs
    exact ⟨⟨hclaimed, hphase.1, hphase.2.1⟩, rfl, rfl⟩
  | _ => cases hs

/-! ## The operator -/

def State.unclaimed (s : State) : Nat :=
  (s.waiting.map (·.input.sum)).sum + (s.running.map Exec.unclaimed).sum

/-- Rows emitted, rows claimed by running calls, and rows that the counters still admit. -/
def State.deliverable (s : State) : Nat :=
  s.emitted + (s.running.map Exec.made).sum + s.counters.wanted s.unclaimed

def State.Ok (s : State) : Prop := ∀ e ∈ s.running, e.Ok s.counters

/-- What the rescheduling of call `e` needs. The remaining limit covers the rows that no call has
claimed and those that the call has claimed; and the call has skipped no row of its batches for the
offset, unless that is all that remains of the limit. -/
def State.RetryKeeps (s : State) (e : Exec) : Prop :=
  s.unclaimed + e.made ≤ s.counters.remainingLimit ∧
    (e.made + e.todo.sum = e.input.sum ∨ s.unclaimed + e.made = s.counters.remainingLimit)

/-- The step is not the failure of an allocation that loses rows or makes up for too many. -/
def retrySafe (s : State) : Label → Prop
  | .oom i => ∀ e ∈ s.running[i]?, s.RetryKeeps e
  | _ => True

instance (s : State) (l : Label) : Decidable (retrySafe s l) :=
  match l with
  | .oom i => inferInstanceAs (Decidable (∀ e ∈ s.running[i]?, _ ∧ (_ ∨ _)))
  | .start _ | .run _ | .spurious _ => isTrue trivial

def noOom : Label → Prop
  | .oom _ => False
  | _ => True

instance (l : Label) : Decidable (noOom l) :=
  match l with
  | .oom _ => isFalse id
  | .start _ | .run _ | .spurious _ => isTrue trivial

variable {s : State} {i : Nat} {s' : State}

theorem State.Ok.set (h : s.Ok) (hle : c.Le s.counters) (he' : e'.Ok c) :
    State.Ok { s with counters := c, running := s.running.set i e' } := by
  intro x hx
  rcases mem_or_eq_of_mem_set hx with hx | rfl
  · exact (h x hx).mono hle
  · exact he'

/-- If call `e` becomes `e'`, it is enough to look at the two calls. -/
theorem State.deliverable_set (he : s.running[i]? = some e)
    (h : ∀ R, e'.made + c.wanted (R + e'.unclaimed) = e.made + s.counters.wanted (R + e.unclaimed)) :
    State.deliverable { s with counters := c, running := s.running.set i e' } = s.deliverable := by
  have h := h ((s.waiting.map (·.input.sum)).sum + ((s.running.eraseIdx i).map Exec.unclaimed).sum)
  simp only [State.deliverable, State.unclaimed, sum_map_set _ he, sum_map_eraseIdx _ he, Nat.add_assoc]
    at h ⊢
  omega

theorem step_start (hok : s.Ok) (h : step s (.start i) = some s') :
    s'.Ok ∧ s'.deliverable = s.deliverable := by
  simp only [step] at h
  split at h
  next w hw =>
    cases h
    refine ⟨fun e he => ?_, ?_⟩
    · rcases mem_cons.1 he with rfl | he
      · exact ⟨by simp [Exec.made, Exec.unclaimed], trivial⟩
      · exact hok e he
    · have hwaiting := sum_map_eraseIdx (·.input.sum) hw
      simp only [State.deliverable, State.unclaimed, hwaiting, map_cons, sum_cons, Exec.made,
        Exec.unclaimed, Nat.add_zero, Nat.zero_add, Nat.add_assoc]
  next => cases h

theorem step_run (hok : s.Ok) (h : step s (.run i) = some s') :
    s'.Ok ∧ s'.deliverable = s.deliverable := by
  simp only [step] at h
  split at h
  next e he =>
    have heok := hok e (mem_of_getElem? he)
    split at h
    next hfinish =>
      cases h
      refine ⟨fun e' he' => (hok e' (mem_of_mem_eraseIdx he')).mono ⟨le_rfl, le_rfl⟩, ?_⟩
      have hmade : e.made = e.output := by simp [Exec.made, hfinish]
      -- The rows that the call leaves are none, or the limit is used up.
      have hleft : e.unclaimed = 0 ∨ s.counters.remainingLimit = 0 := by
        have hphase := heok.phase
        simp only [hfinish] at hphase
        exact hphase.imp_left fun hnil => by simp [Exec.unclaimed, hfinish, hnil]
      simp only [State.deliverable, State.unclaimed, sum_map_eraseIdx _ he, Counters.wanted, hmade]
      omega
    next =>
      cases h
      obtain ⟨hle, hnext, -⟩ := Exec.next_spec heok 0
      exact ⟨hok.set hle hnext, State.deliverable_set he fun R => (Exec.next_spec heok R).2.2.2⟩
  next => cases h

theorem step_spurious (hok : s.Ok) (h : step s (.spurious i) = some s') :
    s'.Ok ∧ s'.deliverable = s.deliverable := by
  simp only [step] at h
  split at h
  next e he =>
    obtain ⟨e', he', rfl⟩ := Option.map_eq_some_iff.1 h
    obtain ⟨hok', hmade, hunclaimed⟩ := Exec.spurious_spec (hok e (mem_of_getElem? he)) he'
    exact ⟨hok.set (.refl _) hok', State.deliverable_set he fun R => by rw [hmade, hunclaimed]⟩
  next => cases h

/-- The rows of a failed call become unclaimed again, and its claims are lost. -/
theorem wanted_retry_iff {R made todo input : Nat} (hoffset : c.remainingOffset = 0)
    (hpos : 0 < made) (hclaimed : made + todo ≤ input) :
    c.wanted (R + input) = made + c.wanted (R + todo) ↔
      R + todo + made ≤ c.remainingLimit ∧
        (made + todo = input ∨ R + todo + made = c.remainingLimit) := by
  simp only [Counters.wanted, hoffset, Nat.sub_zero]
  omega

/-- **A failed allocation** keeps what is deliverable exactly if it is `RetryKeeps`. -/
theorem step_oom (hok : s.Ok) (h : step s (.oom i) = some s') :
    s'.Ok ∧ (s'.deliverable = s.deliverable ↔ retrySafe s (.oom i)) := by
  simp only [step] at h
  split at h
  next e he =>
    obtain ⟨hclaimed, hphase⟩ := hok e (mem_of_getElem? he)
    split at h
    next take htake =>
      split at h
      next =>
        cases h
        refine ⟨fun e' he' => hok e' (mem_of_mem_eraseIdx he'), ?_⟩
        simp only [htake] at hphase
        have hunclaimed : e.unclaimed = e.todo.sum := by simp [Exec.unclaimed, htake]
        have hpos : 0 < e.made := by
          simp only [Exec.made, htake]
          omega
        have hmade := sum_map_eraseIdx Exec.made he
        obtain ⟨R, hbefore, hafter⟩ : ∃ R, s.unclaimed = R + e.todo.sum ∧
            State.unclaimed { s with
              waiting := { input := e.input, retryCount := e.retryCount + 1 } :: s.waiting
              running := s.running.eraseIdx i } = R + e.input.sum := by
          refine ⟨(s.waiting.map (·.input.sum)).sum +
            ((s.running.eraseIdx i).map Exec.unclaimed).sum, ?_, ?_⟩
          · rw [State.unclaimed, sum_map_eraseIdx _ he, hunclaimed, Nat.add_assoc]
          · simp only [State.unclaimed, map_cons, sum_cons]
            omega
        have hiff := wanted_retry_iff (R := R) hphase.1 hpos (hunclaimed ▸ hclaimed)
        have hkeeps : retrySafe s (.oom i) ↔ s.RetryKeeps e := by
          simp [retrySafe, he]
        rw [hkeeps, State.RetryKeeps, hbefore, ← hiff]
        simp only [State.deliverable, hafter, hbefore, hmade]
        omega
      next => cases h
    next => cases h
  next => cases h

/-- **One step** keeps what is deliverable, a failed allocation only if it is `RetryKeeps`. -/
theorem step_spec {l : Label} (hok : s.Ok) (h : step s l = some s') :
    s'.Ok ∧ (s'.deliverable = s.deliverable ↔ retrySafe s l) := by
  cases l with
  | start i => simpa [retrySafe] using step_start hok h
  | run i => simpa [retrySafe] using step_run hok h
  | spurious i => simpa [retrySafe] using step_spurious hok h
  | oom i => exact step_oom hok h

/-! ## Runs -/

theorem State.ok_initial (limit offset : Nat) (tasks : List (List Nat)) :
    (State.initial limit offset tasks).Ok := by
  simp [State.Ok, State.initial]

theorem State.deliverable_initial (limit offset : Nat) (tasks : List (List Nat)) :
    (State.initial limit offset tasks).deliverable = min limit (tasks.flatten.sum - offset) := by
  simp [State.deliverable, State.initial, State.unclaimed, Counters.wanted, Function.comp_def,
    sum_flatten]

theorem State.Done.deliverable (h : s.Done) : s.deliverable = s.emitted := by
  obtain ⟨hrunning, hwaiting | hlimit⟩ := h
  · simp [State.deliverable, State.unclaimed, Counters.wanted, hrunning, hwaiting]
  · simp [State.deliverable, Counters.wanted, hrunning, hlimit]

theorem run_keeps {ok : State → Label → Prop} (hsafe : ∀ s l, ok s l → retrySafe s l) (hok : s.Ok)
    (hrun : Run step ok s s') : s'.Ok ∧ s'.deliverable = s.deliverable := by
  refine hrun.invariant (I := fun a => a.Ok ∧ a.deliverable = s.deliverable) ⟨hok, rfl⟩ ?_
  rintro a b l ⟨ha, hd⟩ hl h
  obtain ⟨hb, hiff⟩ := step_spec ha h
  exact ⟨hb, (hiff.2 (hsafe a l hl)).trans hd⟩

/-- **Rows emitted by a streaming limit**, for every limit, offset, grouping of the batches into
tasks and interleaving of the calls. The first failed allocation that is not `RetryKeeps` changes
their number, if no other allocation fails after it. -/
theorem rows_emitted (limit offset : Nat) (tasks : List (List Nat)) {s : State}
    (hrun : Run step retrySafe (State.initial limit offset tasks) s) :
    (s.Done → s.emitted = min limit (tasks.flatten.sum - offset)) ∧
    ∀ (i : Nat) (s' s'' : State), step s (.oom i) = some s' → ¬ retrySafe s (.oom i) →
      Run step (fun _ l => noOom l) s' s'' → s''.Done →
        s''.emitted ≠ min limit (tasks.flatten.sum - offset) := by
  obtain ⟨hok, hkept⟩ := run_keeps (fun _ _ h => h) (State.ok_initial limit offset tasks) hrun
  rw [State.deliverable_initial] at hkept
  refine ⟨fun hdone => hdone.deliverable.symm.trans hkept, ?_⟩
  intro i s' s'' hstep hunsafe hrest hdone hemitted
  obtain ⟨hok', hiff⟩ := step_spec hok hstep
  obtain ⟨-, hsame⟩ := run_keeps (fun a l hl => by cases l <;> trivial) hok' hrest
  refine hunsafe (hiff.1 ?_)
  rw [← hsame, hdone.deliverable, hemitted, hkept]

/-- The only running call goes through one batch without a skip, up to the copy of its rows. -/
def claimBatch : List Label := [.run 0, .run 0, .run 0, .run 0]

def limitClaimed : State where
  counters := { remainingOffset := 0, remainingLimit := 0 }
  waiting := []
  running := [{ input := [5], todo := [], phase := .materialize 3 }]

/-- A call whose allocation fails is made again, while another call claims the rest; and the same with
a limit that is too small for that. -/
theorem rows_emitted_retry :
    (∃ s, Run step retrySafe (State.initial 100 0 [[3], [2]]) s ∧ s.Done ∧ s.emitted = 5) ∧
    ∃ s s', step limitClaimed (.oom 0) = some s ∧ Run step (fun _ l => noOom l) s s' ∧ s'.Done ∧
      s'.emitted ≠ 3 := by
  constructor
  · obtain ⟨s, hrun, hdone⟩ : ∃ s, Run step (fun a l => decide (retrySafe a l) = true)
        (State.initial 100 0 [[3], [2]]) s ∧ s.Done := by
      apply Run.exists_of_runLabels ([Label.start 0] ++ claimBatch ++
        [Label.oom 0, Label.start 1, Label.start 0] ++ claimBatch ++
        replicate 3 (Label.run 1) ++ [Label.spurious 1] ++ replicate 5 (Label.run 1) ++
        replicate 3 (Label.run 0))
      decide
    have hrun := hrun.mono fun a l h => of_decide_eq_true h
    exact ⟨s, hrun, hdone, (rows_emitted 100 0 [[3], [2]] hrun).1 hdone⟩
  · obtain ⟨_, hrun, rfl⟩ : ∃ s, Run step (fun a l => decide (retrySafe a l) = true)
        (State.initial 3 0 [[5]]) s ∧ s = limitClaimed := by
      apply Run.exists_of_runLabels ([Label.start 0] ++ claimBatch)
      decide
    obtain ⟨s', hrest, hdone⟩ : ∃ s', Run step (fun _ l => decide (noOom l) = true)
        { limitClaimed with waiting := [{ input := [5], retryCount := 1 }], running := [] } s' ∧
          s'.Done := by
      apply Run.exists_of_runLabels [Label.start 0, Label.run 0, Label.run 0]
      decide
    have hrun := hrun.mono fun a l h => of_decide_eq_true h
    have hrest := hrest.mono fun a l h => of_decide_eq_true h
    exact ⟨_, s', rfl, hrest, hdone,
      (rows_emitted 3 0 [[5]] hrun).2 0 _ s' rfl (by decide) hrest hdone⟩

/-- Five rows. With `LIMIT 3` no row is emitted, and with `LIMIT 100 OFFSET 2` all five are, if the
allocation of the only call fails once. In both cases it should be three. -/
theorem retry_changes_rows :
    (∃ s, Run step (fun _ _ => True) (State.initial 3 0 [[5]]) s ∧ s.Done ∧ s.emitted = 0) ∧
    ∃ s, Run step (fun _ _ => True) (State.initial 100 2 [[5]]) s ∧ s.Done ∧ s.emitted = 5 := by
  constructor
  · obtain ⟨s, hrun, h⟩ : ∃ s, Run step (fun _ _ => true = true) (State.initial 3 0 [[5]]) s ∧
        s.Done ∧ s.emitted = 0 := by
      apply Run.exists_of_runLabels ([Label.start 0] ++ claimBatch ++
        [Label.oom 0, Label.start 0, Label.run 0, Label.run 0])
      decide
    exact ⟨s, hrun.mono fun _ _ _ => trivial, h⟩
  · obtain ⟨s, hrun, h⟩ : ∃ s, Run step (fun _ _ => true = true) (State.initial 100 2 [[5]]) s ∧
        s.Done ∧ s.emitted = 5 := by
      apply Run.exists_of_runLabels ([Label.start 0, Label.run 0] ++ claimBatch ++
        [Label.oom 0, Label.start 0] ++ claimBatch ++ [Label.run 0, Label.run 0, Label.run 0])
      decide
    exact ⟨s, hrun.mono fun _ _ _ => trivial, h⟩

/-! ## With failed allocations -/

/-- Rows emitted or claimed, and what is left of the limit. -/
def State.granted (s : State) : Nat :=
  s.emitted + (s.running.map Exec.made).sum + s.counters.remainingLimit

theorem Exec.next_granted (c : Counters) (e : Exec) :
    (e.next c).2.made + (e.next c).1.remainingLimit = e.made + c.remainingLimit := by
  obtain ⟨input, todo, phase, output, retryCount⟩ := e
  cases phase <;> simp only [Exec.next, Exec.skipped]
  case check => split <;> [skip; split <;> [skip; split]] <;> rfl
  all_goals (try split) <;> (try split) <;> simp only [Exec.made] <;> omega

/-- Only a failed allocation changes it, which loses what the call has claimed. -/
theorem step_granted_le {l : Label} (h : step s l = some s') : s'.granted ≤ s.granted := by
  cases l <;> simp only [step] at h
  case start i =>
    split at h <;> cases h
    simp [State.granted, Exec.made]
  case run i =>
    split at h
    next e he =>
      have hnext := e.next_granted s.counters
      split at h <;> cases h
      next hfinish =>
        simp only [State.granted, sum_map_eraseIdx _ he, Exec.made, hfinish]
        omega
      next =>
        simp only [State.granted, sum_map_set _ he, sum_map_eraseIdx Exec.made he]
        omega
    next => cases h
  case spurious i =>
    split at h
    next e he =>
      obtain ⟨e', he', rfl⟩ := Option.map_eq_some_iff.1 h
      have hmade : e'.made = e.made := by
        obtain ⟨input, todo, phase, output, retryCount⟩ := e
        cases phase <;> cases he' <;> rfl
      simp only [State.granted, sum_map_set _ he, sum_map_eraseIdx Exec.made he, hmade]
      omega
    next => cases h
  case oom i =>
    split at h
    next e he =>
      split at h
      · split at h <;> cases h
        simp only [State.granted, sum_map_eraseIdx Exec.made he]
        omega
      · cases h
    next => cases h

/-- **Never more rows than the limit**, whatever the interleaving and the failed allocations. -/
theorem rows_le_limit (limit offset : Nat) (tasks : List (List Nat)) {s : State}
    (hrun : Run step (fun _ _ => True) (State.initial limit offset tasks) s) :
    s.emitted + (s.running.map Exec.made).sum + s.counters.remainingLimit ≤ limit :=
  hrun.invariant (I := fun a => a.granted ≤ limit) (by simp [State.granted, State.initial])
    fun ha _ h => (step_granted_le h).trans ha

theorem rows_le_limit_oom :
    ∃ s, Run step (fun _ _ => True) (State.initial 3 0 [[5]]) s ∧ s.waiting ≠ [] ∧ s.emitted ≤ 3 := by
  obtain ⟨s, hrun, hwaiting⟩ : ∃ s, Run step (fun _ _ => true = true) (State.initial 3 0 [[5]]) s ∧
      s.waiting ≠ [] := by
    apply Run.exists_of_runLabels (.start 0 :: claimBatch ++ [.oom 0])
    decide
  have hrun := hrun.mono fun _ _ _ => trivial
  exact ⟨s, hrun, hwaiting, by have := rows_le_limit 3 0 [[5]] hrun; omega⟩

end Sirius.Limit
