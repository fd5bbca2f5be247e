import Mathlib.Data.List.Nodup
import Sirius.Lib.Runs
import Sirius.Lib.Queue

/-!
# The task scheduler

`task_scheduler` keeps the GPU pipeline tasks in a queue until a device asks for work. Its management
loop (`src/pipeline/task_scheduler.cpp`) blocks on a channel of two kinds of events: an executor is
ready, or a task was pushed. It collects the ready devices in a set, and matches them with the tasks
of the queue. The downgrade executors (`src/downgrade/downgrade_executor.cpp`) take tasks out of the
same queue, move their data to another memory and put them back.

A step is what one thread does between two points where others can interfere: a push, a send, one
search of the queue.

No task is lost or handed out twice, and preferences are kept (`Safe`). But a task that a downgrade
executor puts back is not announced in the channel. If the loop has looked for it in the meantime,
it stays in the queue next to a ready device until some other event comes
(`putBack_strands_task`). With the condition that a task comes back only while the loop still has to
look (`Noticed`), nothing is stranded (`scheduler_safe`).
-/

namespace Sirius.Scheduler

open Lib List

/-! ## Tasks and events -/

inductive TaskKind where
  | duckdbScan | parquetScan | cpuSource | gpuPipeline | other
  deriving DecidableEq, Repr

structure Task where
  id : Nat
  kind : TaskKind
  preferredDeviceId : Option Int
  deriving DecidableEq, Repr

def TaskKind.isScan : TaskKind → Bool
  | .duckdbScan | .parquetScan | .cpuSource => true
  | _ => false

/-- `get_preferred_device_id`, which only a `gpu_pipeline_task` has. -/
def Task.preference (t : Task) : Option Int :=
  if t.kind = .gpuPipeline then t.preferredDeviceId else none

inductive TaskRequestKind where
  | deviceReady
  | taskAvailable
  deriving DecidableEq, Repr

structure TaskRequest where
  deviceId : Int
  isScan : Bool := false
  kind : TaskRequestKind := .deviceReady
  deriving DecidableEq, Repr

inductive Executor where
  | scan
  | gpu (deviceId : Int)
  deriving DecidableEq, Repr

/-! ## The state -/

/-- Where the management loop is: at `get`, at `try_get`, or in the matcher with the devices it has
still to visit. A visit searches the queue twice, first for a task that prefers the device. -/
inductive Loop where
  | blocked
  | draining
  | exact (todo : List Int)
  | fallback (deviceId : Int) (todo : List Int)
  deriving DecidableEq, Repr

/-- `wakes` counts the calls of `schedule` that have pushed their task and not sent their event.
`held` is in the hands of the downgrade executors. `scheduled` and `handed` are the history. -/
structure State where
  queue : List Task := []
  channel : List TaskRequest := []
  wakes : Nat := 0
  ready : List Int := []
  loop : Loop := .blocked
  held : List Task := []
  scheduled : List Task := []
  handed : List (Task × Executor) := []
  deriving DecidableEq

/-- Insertion into `std::set<int>`, an ascending list. -/
def insertDevice (d : Int) : List Int → List Int
  | [] => [d]
  | e :: l => if d < e then d :: e :: l else if d = e then e :: l else e :: insertDevice d l

def State.handle (s : State) (r : TaskRequest) : State :=
  if r.kind = .deviceReady ∧ r.isScan = false then { s with ready := insertDevice r.deviceId s.ready }
  else s

/-! ## Steps -/

def prefers (d : Int) (t : Task) : Bool := t.preference == some d

/-- The second search: no preference, or one for a device that does not exist. -/
def unbound (executors : List Int) (t : Task) : Bool :=
  t.preference.all fun d => !executors.contains d

inductive Label where
  /-- `schedule`, up to the push -/
  | push (t : Task)
  /-- the send of a `schedule` -/
  | wake
  /-- a GPU executor has reserved a worker -/
  | deviceReady (d : Int)
  | scanRequest
  /-- `get` returns an event -/
  | receive
  | drain
  /-- `try_get` finds nothing -/
  | startMatcher
  | searchExact
  | searchFallback
  /-- back to `get` -/
  | endMatcher
  /-- a downgrade executor takes the newest task with data to move -/
  | takeOut (hasMatchingBatches : Task → Bool)
  /-- the destructor of `convertible_gpu_pipeline_task` -/
  | putBack (t : Task)

/-- `_gpu_executors.at(d)->schedule(task)`, and the device leaves the set. -/
def State.dispatch (s : State) (d : Int) (t : Task) (queue : List Task) (todo : List Int) : State :=
  { s with
    queue, ready := s.ready.filter (· != d), loop := .exact todo
    handed := s.handed ++ [(t, .gpu d)] }

def State.push (s : State) (t : Task) : State :=
  if t.kind.isScan then
    { s with scheduled := s.scheduled ++ [t], handed := s.handed ++ [(t, .scan)] }
  else
    { s with scheduled := s.scheduled ++ [t], queue := s.queue ++ [t], wakes := s.wakes + 1 }

variable (executors : List Int)

def searchExact (s : State) : Option State :=
  match s.loop with
  | .exact (d :: todo) =>
    match popIf (prefers d) true s.queue with
    | some (t, queue) => some (s.dispatch d t queue todo)
    | none => some { s with loop := .fallback d todo }
  | _ => none

def searchFallback (s : State) : Option State :=
  match s.loop with
  | .fallback d todo =>
    match popIf (unbound executors) true s.queue with
    | some (t, queue) => some (s.dispatch d t queue todo)
    | none => some { s with loop := .exact todo }
  | _ => none

def step (s : State) : Label → Option State
  | .push t => if t ∈ s.scheduled then none else some (s.push t)
  | .wake =>
    if s.wakes = 0 then none
    else some { s with
      wakes := s.wakes - 1, channel := s.channel ++ [{ deviceId := 0, kind := .taskAvailable }] }
  | .deviceReady d =>
    if d ∈ executors then some { s with channel := s.channel ++ [{ deviceId := d }] } else none
  | .scanRequest => some { s with channel := s.channel ++ [{ deviceId := 0, isScan := true }] }
  | .receive =>
    match s.loop, s.channel with
    | .blocked, r :: channel => some ({ s with channel, loop := .draining }.handle r)
    | _, _ => none
  | .drain =>
    match s.loop, s.channel with
    | .draining, r :: channel => some ({ s with channel }.handle r)
    | _, _ => none
  | .startMatcher =>
    match s.loop, s.channel with
    | .draining, [] => some { s with loop := .exact s.ready }
    | _, _ => none
  | .searchExact => searchExact s
  | .searchFallback => searchFallback executors s
  | .endMatcher =>
    match s.loop with
    | .exact [] => some { s with loop := .blocked }
    | _ => none
  | .takeOut p =>
    match popIf p false s.queue with
    | some (t, queue) => some { s with queue, held := s.held ++ [t] }
    | none => none
  | .putBack t =>
    if t ∈ s.held then some { s with queue := s.queue ++ [t], held := s.held.erase t } else none

/-! ## Properties -/

/-- The matcher may hand the task to the device. -/
def Dispatchable (d : Int) (t : Task) : Prop := prefers d t ∨ unbound executors t

/-- Every task is in the queue, held by a downgrade executor or handed to one executor, and one
whose preferred device exists goes there. -/
structure Safe (s : State) : Prop where
  conserved : s.scheduled.Perm (s.queue ++ s.held ++ s.handed.map (·.1))
  once : (s.handed.map (·.1)).Nodup
  preferred : ∀ t e d, (t, e) ∈ s.handed → t.preference = some d → d ∈ executors → e = .gpu d

/-- The loop is blocked on an empty channel, no task is with a downgrade executor, and no call of
`schedule` is half way. -/
structure Quiet (s : State) : Prop where
  blocked : s.loop = .blocked
  channel : s.channel = []
  held : s.held = []
  wakes : s.wakes = 0

/-- No ready device has a task in the queue that it may get. -/
def NothingStranded (s : State) : Prop :=
  ∀ d ∈ s.ready, ∀ t ∈ s.queue, ¬Dispatchable executors d t

/-- The loop will look at the task for the device before it blocks. -/
def Loop.WillSearch (d : Int) (t : Task) : Loop → Prop
  | .blocked => False
  | .draining => True
  | .exact todo => d ∈ todo
  | .fallback d' todo => d ∈ todo ∨ d = d' ∧ unbound executors t

/-- A task that is put back now does not need an event of its own: there is one on its way, or the
loop has still to look for every ready device that may get it. -/
def Noticed (s : State) (t : Task) : Prop :=
  s.channel ≠ [] ∨ s.wakes ≠ 0 ∨
    ∀ d ∈ s.ready, Dispatchable executors d t → s.loop.WillSearch executors d t

def PutBackNoticed (s : State) : Label → Prop
  | .putBack t => Noticed executors s t
  | _ => True

/-! ## Tasks are conserved -/

section Tasks

inductive Moves (s s' : State) : Prop
  | none (hscheduled : s'.scheduled = s.scheduled) (hqueue : s'.queue = s.queue)
      (hheld : s'.held = s.held) (hhanded : s'.handed = s.handed)
  | scan (t : Task) (hnew : t ∉ s.scheduled) (hkind : t.kind.isScan)
      (hscheduled : s'.scheduled = s.scheduled ++ [t]) (hqueue : s'.queue = s.queue)
      (hheld : s'.held = s.held) (hhanded : s'.handed = s.handed ++ [(t, .scan)])
  | enqueue (t : Task) (hnew : t ∉ s.scheduled) (hscheduled : s'.scheduled = s.scheduled ++ [t])
      (hqueue : s'.queue = s.queue ++ [t]) (hheld : s'.held = s.held)
      (hhanded : s'.handed = s.handed)
  | dispatch (d : Int) (t : Task) (hd : Dispatchable executors d t)
      (hscheduled : s'.scheduled = s.scheduled) (hqueue : s.queue.Perm (t :: s'.queue))
      (hheld : s'.held = s.held) (hhanded : s'.handed = s.handed ++ [(t, .gpu d)])
  | takeOut (t : Task) (hscheduled : s'.scheduled = s.scheduled)
      (hqueue : s.queue.Perm (t :: s'.queue)) (hheld : s'.held = s.held ++ [t])
      (hhanded : s'.handed = s.handed)
  | putBack (t : Task) (hscheduled : s'.scheduled = s.scheduled)
      (hqueue : s'.queue = s.queue ++ [t]) (hheld : s.held.Perm (t :: s'.held))
      (hhanded : s'.handed = s.handed)

variable {executors} {s s' : State} {l : Label} {t : Task}

/-- A request touches the set of ready devices only. -/
@[simp]
theorem handle_frame (r : TaskRequest) :
    (s.handle r).queue = s.queue ∧ (s.handle r).held = s.held ∧
      (s.handle r).scheduled = s.scheduled ∧ (s.handle r).handed = s.handed ∧
      (s.handle r).loop = s.loop ∧ (s.handle r).channel = s.channel := by
  rw [State.handle]
  split <;> simp

theorem push_moves (hnew : t ∉ s.scheduled) : Moves executors s (s.push t) := by
  rw [State.push]
  split
  · exact .scan t hnew ‹_› rfl rfl rfl rfl
  · exact .enqueue t hnew rfl rfl rfl rfl

theorem searchExact_moves (h : searchExact s = some s') :
    Moves executors s s' := by
  unfold searchExact at h
  split at h
  · split at h
    next hpop =>
      cases h
      obtain ⟨hp, hperm⟩ := popIf_eq_some hpop
      exact .dispatch _ _ (.inl hp) rfl hperm rfl rfl
    · cases h
      exact .none rfl rfl rfl rfl
  · cases h

theorem searchFallback_moves (h : searchFallback executors s = some s') :
    Moves executors s s' := by
  unfold searchFallback at h
  split at h
  · split at h
    next hpop =>
      cases h
      obtain ⟨hp, hperm⟩ := popIf_eq_some hpop
      exact .dispatch _ _ (.inr hp) rfl hperm rfl rfl
    · cases h
      exact .none rfl rfl rfl rfl
  · cases h

theorem step_moves (h : step executors s l = some s') :
    Moves executors s s' := by
  cases l <;> simp only [step] at h
  case push t =>
    split at h
    · cases h
    · cases h
      exact push_moves ‹_›
  case searchExact => exact searchExact_moves h
  case searchFallback => exact searchFallback_moves h
  case takeOut p =>
    split at h
    next hpop =>
      cases h
      exact .takeOut _ rfl (popIf_eq_some hpop).2 rfl rfl
    · cases h
  case putBack t =>
    split at h
    · cases h
      exact .putBack t rfl rfl (perm_cons_erase ‹_›) rfl
    · cases h
  case receive | drain =>
    split at h
    · cases h
      exact .none (by simp) (by simp) (by simp) (by simp)
    · cases h
  all_goals
    try split at h
    all_goals
      cases h
      try exact .none rfl rfl rfl rfl

structure Conserved (executors : List Int) (s : State) : Prop where
  conserved : s.scheduled.Perm (s.queue ++ s.held ++ s.handed.map (·.1))
  distinct : s.scheduled.Nodup
  preferred : ∀ t e d, (t, e) ∈ s.handed → t.preference = some d → d ∈ executors → e = .gpu d

theorem Conserved.safe (h : Conserved executors s) : Safe executors s :=
  ⟨h.conserved, (nodup_append.1 (h.conserved.nodup_iff.1 h.distinct)).2.1, h.preferred⟩

theorem preference_of_isScan (h : t.kind.isScan) : t.preference = none := by
  rw [Task.preference, if_neg]
  rintro hk
  rw [hk] at h
  cases h

/-- The matcher keeps the preferences. -/
theorem Dispatchable.eq_of_preference {d d' : Int} (h : Dispatchable executors d t)
    (hp : t.preference = some d') (hd : d' ∈ executors) : d = d' := by
  rcases h with h | h
  · rw [prefers, hp, beq_iff_eq, Option.some.injEq] at h
    exact h.symm
  · simp [unbound, hp, hd] at h

theorem Moves.count_eq (h : Moves executors s s') (a : Task) :
    s'.scheduled.count a + (s.queue ++ s.held ++ s.handed.map (·.1)).count a =
      s.scheduled.count a + (s'.queue ++ s'.held ++ s'.handed.map (·.1)).count a := by
  cases h with
  | none hscheduled hqueue hheld hhanded => simp only [hscheduled, hqueue, hheld, hhanded]
  | scan t _ _ hscheduled hqueue hheld hhanded | enqueue t _ hscheduled hqueue hheld hhanded =>
    simp only [hscheduled, hqueue, hheld, hhanded, count_append, map_append, map_cons, map_nil]
    omega
  | dispatch _ t _ hscheduled hperm hother hhanded | takeOut t hscheduled hperm hother hhanded
  | putBack t hscheduled hother hperm hhanded =>
    have hcount := hperm.count_eq a
    simp only [hscheduled, hother, hhanded, count_append, map_append, map_cons, map_nil,
      count_cons, count_nil] at hcount ⊢
    omega

theorem Conserved.step (h : Conserved executors s) (hstep : step executors s l = some s') :
    Conserved executors s' := by
  have hmoves := step_moves hstep
  refine ⟨perm_iff_count.2 fun a => ?_, ?_, fun t' e d' hmem hp hd' => ?_⟩
  · have hbefore := h.conserved.count_eq a
    have hmoved := hmoves.count_eq a
    omega
  · cases hmoves with
    | scan t hnew _ hscheduled | enqueue t hnew hscheduled =>
      rw [hscheduled]
      exact h.distinct.append (nodup_singleton t) (by simpa using hnew)
    | none hscheduled | dispatch _ _ _ hscheduled | takeOut _ hscheduled | putBack _ hscheduled =>
      exact hscheduled ▸ h.distinct
  · cases hmoves with
    | scan t _ hkind _ _ _ hhanded =>
      rw [hhanded, mem_append, mem_singleton] at hmem
      rcases hmem with hmem | hmem
      · exact h.preferred t' e d' hmem hp hd'
      · cases hmem
        rw [preference_of_isScan hkind] at hp
        cases hp
    | dispatch d t hd _ _ _ hhanded =>
      rw [hhanded, mem_append, mem_singleton] at hmem
      rcases hmem with hmem | hmem
      · exact h.preferred t' e d' hmem hp hd'
      · cases hmem
        rw [hd.eq_of_preference hp hd']
    | none _ _ _ hhanded | enqueue _ _ _ _ _ hhanded | takeOut _ _ _ _ hhanded
    | putBack _ _ _ _ hhanded => exact h.preferred t' e d' (hhanded ▸ hmem) hp hd'

end Tasks

/-! ## Wake-ups -/

section WakeUps

variable {executors} {s s' : State} {l : Label}

/-- A ready device and a task for it are noticed: an event is on its way, or the loop has still to
look. -/
def Watched (executors : List Int) (s : State) : Prop :=
  ∀ d ∈ s.ready, ∀ t ∈ s.queue, Dispatchable executors d t →
    s.channel ≠ [] ∨ s.wakes ≠ 0 ∨ s.loop.WillSearch executors d t

theorem Watched.nothingStranded (h : Watched executors s) (hq : Quiet s) :
    NothingStranded executors s := by
  intro d hd t ht hdisp
  rcases h d hd t ht hdisp with hchannel | hwakes | hloop
  · exact hchannel hq.channel
  · exact hwakes hq.wakes
  · rw [hq.blocked] at hloop
    exact hloop

theorem watched_push (h : Watched executors s) (t : Task) : Watched executors (s.push t) := by
  rw [State.push]
  split
  · exact h
  · exact fun _ _ _ _ _ => .inr (.inl (Nat.succ_ne_zero _))

theorem watched_of_channel (h : s.channel ≠ []) : Watched executors s :=
  fun _ _ _ _ _ => .inl h

theorem watched_of_draining (h : s.loop = .draining) : Watched executors s :=
  fun _ _ _ _ _ => .inr (.inr (by rw [h]; trivial))

section

variable (h : Watched executors s) {t : Task}

include h

/-- A device that gets a task leaves the set, and the matcher goes on with the others. -/
theorem watched_dispatch {d : Int} {todo : List Int} {pred : Task → Bool} {queue : List Task}
    (hpop : popIf pred true s.queue = some (t, queue))
    (hloop : ∀ d' t, d' ≠ d → s.loop.WillSearch executors d' t → d' ∈ todo) :
    Watched executors (s.dispatch d t queue todo) := by
  intro d' hd' t' ht' hdisp
  obtain ⟨hready, hne⟩ := mem_filter.1 hd'
  have hmem := (popIf_eq_some hpop).2.mem_iff.2 (mem_cons_of_mem _ ht')
  exact (h d' hready t' hmem hdisp).imp_right (.imp_right (hloop d' t' (by simpa using hne)))

theorem watched_searchExact (hs : searchExact s = some s') : Watched executors s' := by
  unfold searchExact at hs
  split at hs
  next d todo hloop =>
    split at hs
    next t queue hpop =>
      cases hs
      refine watched_dispatch h hpop fun d' t' hne hsearch => ?_
      rw [hloop] at hsearch
      exact (mem_cons.1 hsearch).resolve_left hne
    next hpop =>
      cases hs
      intro d' hd' t' ht' hdisp
      refine (h d' hd' t' ht' hdisp).imp_right (.imp_right fun hsearch => ?_)
      rw [hloop] at hsearch
      rcases mem_cons.1 hsearch with rfl | hmem
      · -- No task prefers the device, so this one is for every device.
        have hp := popIf_eq_none.1 hpop t' ht'
        exact .inr ⟨rfl, hdisp.resolve_left (by simp [hp])⟩
      · exact .inl hmem
  · cases hs

theorem watched_searchFallback (hs : searchFallback executors s = some s') :
    Watched executors s' := by
  unfold searchFallback at hs
  split at hs
  next d todo hloop =>
    split at hs
    next t queue hpop =>
      cases hs
      refine watched_dispatch h hpop fun d' t' hne hsearch => ?_
      rw [hloop] at hsearch
      exact hsearch.resolve_right fun hd => hne hd.1
    next hpop =>
      cases hs
      intro d' hd' t' ht' hdisp
      refine (h d' hd' t' ht' hdisp).imp_right (.imp_right fun hsearch => ?_)
      rw [hloop] at hsearch
      rcases hsearch with hmem | ⟨rfl, hunbound⟩
      · exact hmem
      · rw [popIf_eq_none.1 hpop t' ht'] at hunbound
        cases hunbound
  · cases hs

/-- **Step.** Every step keeps it, where a task is put back only if it is noticed. -/
theorem Watched.step (hok : PutBackNoticed executors s l) (hstep : step executors s l = some s') :
    Watched executors s' := by
  cases l <;> simp only [Scheduler.step] at hstep
  case push t =>
    split at hstep
    · cases hstep
    · cases hstep
      exact watched_push h t
  case wake =>
    split at hstep
    · cases hstep
    · cases hstep
      exact watched_of_channel (by simp)
  case deviceReady d =>
    split at hstep
    · cases hstep
      exact watched_of_channel (by simp)
    · cases hstep
  case scanRequest =>
    cases hstep
    exact watched_of_channel (by simp)
  case receive =>
    split at hstep
    · cases hstep
      exact watched_of_draining (by simp)
    · cases hstep
  case drain =>
    split at hstep
    next hloop _ =>
      cases hstep
      exact watched_of_draining (by simpa using hloop)
    · cases hstep
  case startMatcher =>
    split at hstep
    · cases hstep
      exact fun d hd _ _ _ => .inr (.inr hd)
    · cases hstep
  case searchExact => exact watched_searchExact h hstep
  case searchFallback => exact watched_searchFallback h hstep
  case endMatcher =>
    split at hstep
    next hloop =>
      cases hstep
      intro d hd t ht hdisp
      refine (h d hd t ht hdisp).imp_right (.imp_right fun hsearch => ?_)
      rw [hloop] at hsearch
      cases hsearch
    · cases hstep
  case takeOut p =>
    split at hstep
    next hpop =>
      cases hstep
      intro d hd t ht hdisp
      exact h d hd t ((popIf_eq_some hpop).2.mem_iff.2 (mem_cons_of_mem _ ht)) hdisp
    · cases hstep
  case putBack t =>
    split at hstep
    · cases hstep
      intro d hd t' ht' hdisp
      rcases mem_append.1 ht' with ht' | ht'
      · exact h d hd t' ht' hdisp
      · cases mem_singleton.1 ht'
        exact hok.imp_right (.imp_right fun hsearch => hsearch d hd hdisp)
    · cases hstep

end

end WakeUps

/-! ## Runs -/

section Runs

variable {executors} {s : State}

theorem conserved_of_run {ok : State → Label → Prop} (h : Run (step executors) ok {} s) :
    Conserved executors s :=
  h.invariant ⟨.refl _, .nil, fun _ _ _ h => nomatch h⟩ fun hc _ hstep => hc.step hstep

/-- **Scheduling.** In every run no task is lost or handed out twice, and preferences are kept. If
tasks are put back only while they are noticed, no ready device waits next to a task for it. -/
theorem scheduler_safe {ok : State → Label → Prop} (h : Run (step executors) ok {} s) :
    Safe executors s ∧
      (Run (step executors) (PutBackNoticed executors) {} s → Quiet s →
        NothingStranded executors s) := by
  refine ⟨(conserved_of_run h).safe, fun hrun hquiet => ?_⟩
  have hwatched : Watched executors s :=
    hrun.invariant (fun _ hd => nomatch hd) fun hw hok hstep => hw.step hok hstep
  exact hwatched.nothingStranded hquiet

def anyTask : Task := ⟨0, .gpuPipeline, none⟩

def deviceWaits : List Label :=
  [.deviceReady 0, .receive, .startMatcher, .searchExact, .searchFallback, .endMatcher]

/-- A check that implies `PutBackNoticed`: the task comes back before its event is sent. -/
def putBackBeforeWake (s : State) : Label → Bool
  | .putBack _ => s.wakes != 0
  | _ => true

/-- A downgrade executor takes the task and puts it back before the loop has looked: it is
dispatched, and the scheduler comes to rest. -/
theorem scheduler_safe_putBackBeforeWake :
    ∃ s, Run (step [0]) (PutBackNoticed [0]) {} s ∧ Quiet s ∧
      s.handed = [(anyTask, .gpu 0)] ∧ Safe [0] s ∧ NothingStranded [0] s := by
  obtain ⟨s, hrun, ⟨hloop, hchannel, hheld, hwakes⟩, hhanded⟩ : ∃ s : State,
      Run (step [0]) (fun s l => putBackBeforeWake s l = true) {} s ∧
        (s.loop = .blocked ∧ s.channel = [] ∧ s.held = [] ∧ s.wakes = 0) ∧
        s.handed = [(anyTask, .gpu 0)] := by
    apply Run.exists_of_runLabels (deviceWaits ++ [Label.push anyTask,
      Label.takeOut fun _ => true, Label.putBack anyTask, Label.wake, Label.receive,
      Label.startMatcher, Label.searchExact, Label.searchFallback, Label.endMatcher])
    decide
  have hrun' : Run (step [0]) (PutBackNoticed [0]) {} s := hrun.mono fun a l hl => by
    cases l with
    | putBack t => exact .inr (.inl (by simpa [putBackBeforeWake] using hl))
    | _ => trivial
  have hq : Quiet s := ⟨hloop, hchannel, hheld, hwakes⟩
  obtain ⟨hsafe, hnothing⟩ := scheduler_safe hrun'
  exact ⟨s, hrun', hq, hhanded, hsafe, hnothing hrun' hq⟩

/-- **A lost wake-up.** The task is with a downgrade executor while the loop handles its event. When
it comes back, the loop is blocked on an empty channel, and the device is ready. -/
theorem putBack_strands_task :
    ∃ s, Run (step [0]) (fun _ _ => True) {} s ∧ Quiet s ∧ ¬NothingStranded [0] s := by
  obtain ⟨s, hrun, ⟨hloop, hchannel, hheld, hwakes⟩, hready, hqueue⟩ : ∃ s : State,
      Run (step [0]) (fun _ _ => true = true) {} s ∧
        (s.loop = .blocked ∧ s.channel = [] ∧ s.held = [] ∧ s.wakes = 0) ∧
        0 ∈ s.ready ∧ anyTask ∈ s.queue := by
    apply Run.exists_of_runLabels (deviceWaits ++ [Label.push anyTask,
      Label.takeOut fun _ => true, Label.wake, Label.receive, Label.startMatcher,
      Label.searchExact, Label.searchFallback, Label.endMatcher, Label.putBack anyTask])
    decide
  refine ⟨s, hrun.mono fun _ _ _ => trivial, ⟨hloop, hchannel, hheld, hwakes⟩, ?_⟩
  exact fun h => h 0 hready anyTask hqueue (.inr rfl)

end Runs

end Sirius.Scheduler
