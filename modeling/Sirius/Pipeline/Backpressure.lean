import Sirius.Pipeline.Scheduler

/-!
# Pull-signal backpressure

The manager thread of a `gpu_pipeline_executor` (`src/pipeline/gpu_pipeline_executor.cpp`) reserves a
worker, tells the scheduler that its device is ready, waits for a task in the queue of the executor and
dispatches it. The scheduler hands out a task only for such a signal, so that tasks wait in its own queue,
where the downgrade executors can see them.

A signal is a credit: it is in the channel or in the set of ready devices until a task is handed over for
it. With the tasks in the queue of the executor there is at most one as long as the manager waits, and none
otherwise (`ExecutorInv.credit`). But a task that runs out of memory goes back to the queue of its executor
directly, without a credit. `backpressured_iff` says that such tasks are the only reason for a longer queue.
-/

namespace Sirius.Backpressure

open Lib List Function
open Scheduler (Task TaskRequest Dispatchable Conserved insertDevice searchExact)

/-! ## The executors -/

/-- A task for an executor, with the number of times that it was rescheduled. -/
structure Job where
  task : Task
  retryCount : Nat := 0
  deriving DecidableEq

/-- Where `manager_loop` is. From `signal` to `dispatch` it has a reserved slot. -/
inductive Manager where
  | reserve
  | signal
  | pop
  | dispatch (job : Job)
  | stopped
  deriving DecidableEq

def Manager.slots : Manager → Nat
  | .reserve | .stopped => 0
  | .signal | .pop | .dispatch _ => 1

inductive Worker where
  | executing (job : Job)
  | returning
  deriving DecidableEq

/-- `taken` is the history of the tasks that the manager has popped. -/
structure Executor where
  manager : Manager := .reserve
  queue : List Job := []
  workers : List Worker := []
  taken : List Task := []
  deriving DecidableEq

def Executor.active (e : Executor) : Nat := e.manager.slots + e.workers.length

/-- The scheduler, the executor of each device, and `has_error` of the completion handler -/
structure State where
  scheduler : Scheduler.State := {}
  executors : Int → Executor := fun _ => {}
  hasError : Bool := false

def maxOomRetries : Nat := 100

/-! ## Steps -/

inductive Label where
  /-- a step of the scheduler, or of the threads that use its queue -/
  | scheduler (l : Scheduler.Label)
  /-- the pool has a free slot -/
  | reserve (d : Int)
  /-- the manager sends `device_ready` -/
  | signal (d : Int)
  | pop (d : Int)
  | dispatch (d : Int)
  /-- a worker catches an `oom_reschedule_exception`; the new task gets an identifier -/
  | oom (d : Int) (worker : Nat) (newTaskId : Nat)
  /-- a worker returns its slot, after reporting an error or not -/
  | finish (d : Int) (worker : Nat) (error : Bool)

def State.set (s : State) (d : Int) (e : Executor) : State :=
  { s with executors := Function.update s.executors d e }

def deliver (handed : List (Task × Scheduler.Executor)) (executors : Int → Executor) (d : Int) : Executor :=
  { executors d with
    queue := (executors d).queue ++ (handed.filter fun h => h.2 = .gpu d).map fun h => ⟨h.1, 0⟩ }

section Step

variable (devices : List Int) (threads : Int → Nat) (mayOom : Task → Bool)

/-- The part of the worker after an `oom_reschedule_exception` -/
def State.reschedule (s : State) (d : Int) (worker : Nat) (job : Job) (newTaskId : Nat) : State :=
  let e := { s.executors d with workers := (s.executors d).workers.set worker .returning }
  let nextRetryCount := job.retryCount + 1
  if s.hasError then s.set d e
  else if maxOomRetries < nextRetryCount then { s.set d e with hasError := true }
  else
    s.set d { e with queue := e.queue ++ [⟨{ job.task with id := newTaskId }, nextRetryCount⟩] }

def step (s : State) : Label → Option State
  | .scheduler (.deviceReady _) => none
  | .scheduler l =>
    (Scheduler.step devices s.scheduler l).map fun scheduler => { s with
      scheduler
      executors := deliver (scheduler.handed.drop s.scheduler.handed.length) s.executors }
  | .reserve d =>
    let e := s.executors d
    if d ∈ devices ∧ e.manager = .reserve ∧ e.active < threads d then
      some (s.set d { e with manager := .signal })
    else none
  | .signal d =>
    let e := s.executors d
    if e.manager = .signal then
      (Scheduler.step devices s.scheduler (.deviceReady d)).map fun scheduler =>
        { s.set d { e with manager := .pop } with scheduler }
    else none
  | .pop d =>
    let e := s.executors d
    match e.manager, e.queue with
    | .pop, job :: queue =>
      let taken := e.taken ++ [job.task]
      if job.task.kind = .gpuPipeline then
        some (s.set d { e with manager := .dispatch job, queue, taken })
      else
        -- The cast to `gpu_pipeline_task` fails, and the manager leaves its loop.
        some { s.set d { e with manager := .stopped, queue, taken } with hasError := true }
    | _, _ => none
  | .dispatch d =>
    let e := s.executors d
    match e.manager with
    | .dispatch job =>
      some (s.set d { e with manager := .reserve, workers := e.workers ++ [.executing job] })
    | _ => none
  | .oom d worker newTaskId =>
    match (s.executors d).workers[worker]? with
    | some (.executing job) =>
      if mayOom job.task then some (s.reschedule d worker job newTaskId) else none
    | _ => none
  | .finish d worker error =>
    let e := s.executors d
    if worker < e.workers.length then
      some { s.set d { e with workers := e.workers.eraseIdx worker } with hasError := s.hasError || error }
    else none

end Step

/-- **The property.** The queue of an executor is no longer than the slots that its manager has reserved
and not dispatched. Every other task that waits is in the queue of the scheduler, or a downgrade executor
has taken it from there. -/
structure Backpressured (s : State) : Prop where
  bounded : ∀ d, (s.executors d).queue.length ≤ (s.executors d).manager.slots
  visible : ∀ t ∈ s.scheduler.scheduled, t.kind.isScan = false → (∀ d, t ∉ (s.executors d).taken) →
    t ∈ s.scheduler.queue ∨ t ∈ s.scheduler.held ∨ ∃ d, t ∈ (s.executors d).queue.map Job.task

/-! ## Credits -/

section Credits

variable {devices : List Int} {s s' : Scheduler.State} {d : Int}

def isSignal (d : Int) (r : TaskRequest) : Bool :=
  r.kind = .deviceReady && !r.isScan && r.deviceId == d

/-- The signals of a device that no task was handed over for -/
def credits (d : Int) (s : Scheduler.State) : Nat :=
  s.channel.countP (isSignal d) + if d ∈ s.ready then 1 else 0

def toVisit : Scheduler.Loop → List Int
  | .blocked | .draining => []
  | .exact todo => todo
  | .fallback d todo => d :: todo

structure Visiting (s : Scheduler.State) : Prop where
  ready : s.ready.Pairwise (· < ·)
  nodup : (toVisit s.loop).Nodup
  subset : ∀ d ∈ toVisit s.loop, d ∈ s.ready

theorem mem_insertDevice {x : Int} {l : List Int} : x ∈ insertDevice d l ↔ x = d ∨ x ∈ l := by
  induction l with
  | nil => simp [insertDevice]
  | cons e l ih =>
    rw [insertDevice]
    split
    · exact mem_cons
    · split
      next heq =>
        simp [heq]
      · rw [mem_cons, ih, mem_cons]
        tauto

theorem pairwise_insertDevice {l : List Int} (h : l.Pairwise (· < ·)) :
    (insertDevice d l).Pairwise (· < ·) := by
  induction l with
  | nil => simp [insertDevice]
  | cons e l ih =>
    obtain ⟨hlt, hl⟩ := pairwise_cons.1 h
    rw [insertDevice]
    split
    next hd =>
      refine pairwise_cons.2 ⟨?_, h⟩
      intro x hx
      rcases mem_cons.1 hx with rfl | hx
      · exact hd
      · exact Int.lt_trans hd (hlt x hx)
    · split
      · exact h
      · refine pairwise_cons.2 ⟨?_, ih hl⟩
        intro x hx
        rcases mem_insertDevice.1 hx with rfl | hx
        · omega
        · exact hlt x hx

/-- Two signals that meet in the set become one. -/
theorem credits_handle {r : TaskRequest} {channel : List TaskRequest} (h : s.channel = r :: channel)
    (loop : Scheduler.Loop) :
    credits d ({ s with channel, loop }.handle r) ≤ credits d s := by
  unfold credits
  simp only [Scheduler.handle_frame, h, countP_cons]
  simp only [Scheduler.State.handle, isSignal]
  split
  next hr =>
    simp only [mem_insertDevice, hr.1, hr.2]
    by_cases hd : d = r.deviceId
    · simp [hd]
    · simp [hd, Ne.symm hd]
  · exact Nat.add_le_add_right (Nat.le_add_right _ _) _

theorem Visiting.handle (h : s.ready.Pairwise (· < ·)) (r : TaskRequest) (channel : List TaskRequest) :
    Visiting ({ s with channel, loop := .draining }.handle r) where
  ready := by
    rw [Scheduler.State.handle]
    split
    · exact pairwise_insertDevice h
    · exact h
  nodup := by simp [toVisit]
  subset d hd := by simp [toVisit] at hd

/-- What a step of the scheduler does to the credits: the tasks that are handed to a device are paid. -/
structure Pays (s s' : Scheduler.State) (new : List (Task × Scheduler.Executor)) : Prop where
  handed : s'.handed = s.handed ++ new
  visiting : Visiting s'
  credits (d : Int) : credits d s' + (new.filter fun h => h.2 = .gpu d).length ≤ credits d s

/-- A step that concerns neither the devices nor what was handed out -/
theorem Visiting.pays_nil (h : Visiting s) (hhanded : s'.handed = s.handed) (hready : s'.ready = s.ready)
    (hloop : s'.loop = s.loop)
    (hchannel : ∀ d, s'.channel.countP (isSignal d) = s.channel.countP (isSignal d)) : Pays s s' [] where
  handed := by rw [hhanded, append_nil]
  visiting := ⟨hready ▸ h.ready, hloop ▸ h.nodup, by rw [hready, hloop]; exact h.subset⟩
  credits d := by
    rw [Backpressure.credits, Backpressure.credits, hchannel, hready]
    exact Nat.le_refl _

theorem Visiting.pays_handle (h : Visiting s) {r : TaskRequest} {channel : List TaskRequest}
    (hchannel : s.channel = r :: channel) :
    Pays s ({ s with channel, loop := .draining }.handle r) [] where
  handed := by simp
  visiting := .handle h.ready r channel
  credits _ := credits_handle hchannel .draining

theorem Visiting.pays_loop (h : Visiting s) {loop : Scheduler.Loop}
    (hsub : (toVisit loop).Sublist (toVisit s.loop)) : Pays s { s with loop } [] where
  handed := by rw [append_nil]
  visiting := ⟨h.ready, h.nodup.sublist hsub, fun d hd => h.subset d (hsub.subset hd)⟩
  credits _ := Nat.le_refl _

theorem Visiting.pays_dispatch (h : Visiting s) {todo : List Int} (hloop : toVisit s.loop = d :: todo)
    (t : Task) (queue : List Task) : Pays s (s.dispatch d t queue todo) [(t, .gpu d)] where
  handed := rfl
  visiting := by
    have hnodup := h.nodup
    rw [hloop] at hnodup
    obtain ⟨hd, htodo⟩ := nodup_cons.1 hnodup
    refine ⟨h.ready.filter _, htodo, ?_⟩
    intro x hx
    refine mem_filter.2 ⟨h.subset x (hloop ▸ .tail _ hx), ?_⟩
    rw [bne_iff_ne]
    intro heq
    exact hd (heq ▸ hx)
  credits x := by
    have hd : d ∈ s.ready := h.subset d (hloop ▸ .head _)
    simp only [Backpressure.credits, Scheduler.State.dispatch, mem_filter, bne_iff_ne]
    by_cases hx : x = d
    · simp [hx, hd]
    · simp [hx, Ne.symm hx]

variable {l : Scheduler.Label}

theorem Visiting.step (h : Visiting s) (hl : ∀ d, l ≠ .deviceReady d)
    (hstep : Scheduler.step devices s l = some s') : ∃ new, Pays s s' new := by
  cases l <;> simp only [Scheduler.step] at hstep
  case push t =>
    split at hstep
    · cases hstep
    · cases hstep
      rw [Scheduler.State.push]
      split
      · refine ⟨[(t, .scan)], rfl, ⟨h.ready, h.nodup, h.subset⟩, ?_⟩
        intro d
        exact Nat.le_refl _
      · exact ⟨[], h.pays_nil rfl rfl rfl fun _ => rfl⟩
  case wake =>
    split at hstep
    · cases hstep
    · cases hstep
      exact ⟨[], h.pays_nil rfl rfl rfl fun d => by simp [isSignal]⟩
  case deviceReady d => exact absurd rfl (hl d)
  case scanRequest =>
    cases hstep
    exact ⟨[], h.pays_nil rfl rfl rfl fun d => by simp [isSignal]⟩
  case receive =>
    split at hstep
    next hchannel =>
      cases hstep
      exact ⟨[], h.pays_handle hchannel⟩
    · cases hstep
  case drain =>
    split at hstep
    next hloop hchannel =>
      cases hstep
      have hpays := h.pays_handle hchannel
      rw [← hloop] at hpays
      exact ⟨[], hpays⟩
    · cases hstep
  case startMatcher =>
    split at hstep
    · cases hstep
      refine ⟨[], by simp, ⟨h.ready, ?_, fun _ hd => hd⟩, fun _ => Nat.le_refl _⟩
      exact h.ready.imp Int.ne_of_lt
    · cases hstep
  case searchExact =>
    simp only [searchExact] at hstep
    split at hstep
    next d todo hloop =>
      have hvisit : toVisit s.loop = d :: todo := by rw [hloop]; rfl
      split at hstep
      · cases hstep
        exact ⟨_, h.pays_dispatch hvisit _ _⟩
      · cases hstep
        exact ⟨[], h.pays_loop (hvisit ▸ .refl _)⟩
    · cases hstep
  case searchFallback =>
    simp only [Scheduler.searchFallback] at hstep
    split at hstep
    next d todo hloop =>
      have hvisit : toVisit s.loop = d :: todo := by rw [hloop]; rfl
      split at hstep
      · cases hstep
        exact ⟨_, h.pays_dispatch hvisit _ _⟩
      · cases hstep
        exact ⟨[], h.pays_loop (hvisit ▸ sublist_cons_self _ _)⟩
    · cases hstep
  case endMatcher =>
    split at hstep
    · cases hstep
      exact ⟨[], h.pays_loop (nil_sublist _)⟩
    · cases hstep
  case takeOut p | putBack t =>
    split at hstep
    · cases hstep
      exact ⟨[], h.pays_nil rfl rfl rfl fun _ => rfl⟩
    · cases hstep

theorem credits_deviceReady (h : Scheduler.step devices s (.deviceReady d) = some s') :
    d ∈ devices ∧ s' = { s with channel := s.channel ++ [{ deviceId := d }] } ∧
      ∀ x, credits x s' = credits x s + if x = d then 1 else 0 := by
  simp only [Scheduler.step] at h
  split at h
  next hd =>
    cases h
    refine ⟨hd, rfl, ?_⟩
    intro x
    simp only [credits, countP_append, countP_singleton, isSignal]
    by_cases hx : x = d
    · simp [hx]
      omega
    · simp [hx, Ne.symm hx]
  · cases h

end Credits

/-! ## Runs without rescheduled tasks -/

def Manager.awaited : Manager → Nat
  | .pop => 1
  | _ => 0

theorem Manager.awaited_le_slots (m : Manager) : m.awaited ≤ m.slots := by
  cases m <;> simp [awaited, slots]

/-- No task that an executor with workers can get runs out of memory. -/
def OomFree (devices : List Int) (threads : Int → Nat) (mayOom : Task → Bool) : Prop :=
  ∀ d ∈ devices, 0 < threads d → ∀ t, t.kind = .gpuPipeline → Dispatchable devices d t → mayOom t = false

structure ExecutorInv (devices : List Int) (threads : Int → Nat) (scheduler : Scheduler.State) (d : Int)
    (e : Executor) : Prop where
  credit : credits d scheduler + e.queue.length ≤ e.manager.awaited
  hasThreads : e.manager ≠ .reserve ∨ e.workers ≠ [] → d ∈ devices ∧ 0 < threads d
  queued : ∀ job ∈ e.queue, Dispatchable devices d job.task
  popped : ∀ job, e.manager = .dispatch job ∨ .executing job ∈ e.workers →
    job.task.kind = .gpuPipeline ∧ Dispatchable devices d job.task
  handed : ∀ t, (t, .gpu d) ∈ scheduler.handed → t ∈ e.queue.map Job.task ∨ t ∈ e.taken

structure Inv (devices : List Int) (threads : Int → Nat) (s : State) : Prop where
  conserved : Conserved devices s.scheduler
  visiting : Visiting s.scheduler
  scans : ∀ t, (t, .scan) ∈ s.scheduler.handed → t.kind.isScan = true
  executors : ∀ d, ExecutorInv devices threads s.scheduler d (s.executors d)

section Runs

variable {devices : List Int} {threads : Int → Nat} {mayOom : Task → Bool} {s s' : State} {d : Int}
  {e : Executor} {t : Task} {scheduler : Scheduler.State} {l : Scheduler.Label}

theorem inv_start (devices : List Int) (threads : Int → Nat) : Inv devices threads {} where
  conserved := ⟨.refl _, .nil, fun _ _ _ h => nomatch h⟩
  visiting := ⟨.nil, .nil, fun _ h => nomatch h⟩
  scans _ h := nomatch h
  executors d := {
    credit := Nat.le_refl 0
    hasThreads := fun h => by simp at h
    queued := fun _ h => nomatch h
    popped := fun _ h => by simp at h
    handed := fun _ h => nomatch h }

/-- A step of one executor -/
theorem Inv.set (h : Inv devices threads s) (he : ExecutorInv devices threads s.scheduler d e)
    (hasError : Bool) : Inv devices threads { s.set d e with hasError } where
  conserved := h.conserved
  visiting := h.visiting
  scans := h.scans
  executors x := by
    show ExecutorInv devices threads s.scheduler x (update s.executors d e x)
    rw [update_apply]
    split
    next hx =>
      rw [hx]
      exact he
    · exact h.executors x

theorem dispatchable_of_mem {a b : Scheduler.State} {new : List (Task × Scheduler.Executor)}
    (hmoves : Scheduler.Moves devices a b) (hnew : b.handed = a.handed ++ new)
    {x : Scheduler.Executor} (ht : (t, x) ∈ new) :
    (∃ d, x = .gpu d ∧ Dispatchable devices d t) ∨ x = .scan ∧ t.kind.isScan = true := by
  have hnil (h : b.handed = a.handed) : new = [] := by
    rw [h] at hnew
    simpa using hnew.symm
  have hone {y : Task × Scheduler.Executor} (h : b.handed = a.handed ++ [y]) : (t, x) = y := by
    rw [h, append_cancel_left_eq] at hnew
    exact mem_singleton.1 (hnew ▸ ht)
  cases hmoves with
  | none _ _ _ h | enqueue _ _ _ _ _ h | takeOut _ _ _ _ h | putBack _ _ _ _ h => cases hnil h ▸ ht
  | scan t' _ hkind _ _ _ h =>
    cases hone h
    exact .inr ⟨rfl, hkind⟩
  | dispatch d t' hd _ _ _ h =>
    cases hone h
    exact .inl ⟨d, rfl, hd⟩

theorem inv_scheduler (h : Inv devices threads s) (hl : ∀ d, l ≠ .deviceReady d)
    (hstep : Scheduler.step devices s.scheduler l = some scheduler) :
    Inv devices threads { s with
      scheduler
      executors := deliver (scheduler.handed.drop s.scheduler.handed.length) s.executors } := by
  obtain ⟨new, hpays⟩ := h.visiting.step hl hstep
  have hmoves := Scheduler.step_moves hstep
  have hdrop : scheduler.handed.drop s.scheduler.handed.length = new := by
    rw [hpays.handed, drop_left]
  rw [hdrop]
  refine ⟨h.conserved.step hstep, hpays.visiting, ?_, ?_⟩
  · intro t ht
    rw [hpays.handed, mem_append] at ht
    rcases ht with ht | ht
    · exact h.scans t ht
    · rcases dispatchable_of_mem hmoves hpays.handed ht with ⟨d, hd, -⟩ | ⟨-, hscan⟩
      · cases hd
      · exact hscan
  · intro d
    have he := h.executors d
    refine ⟨?_, he.hasThreads, ?_, he.popped, ?_⟩
    · have hcredit := he.credit
      have hpay := hpays.credits d
      simp only [deliver, length_append, length_map]
      omega
    · intro job hjob
      rcases mem_append.1 hjob with hjob | hjob
      · exact he.queued job hjob
      · obtain ⟨⟨t, x⟩, hmem, rfl⟩ := mem_map.1 hjob
        obtain ⟨hmem, hx⟩ := mem_filter.1 hmem
        obtain rfl : x = .gpu d := of_decide_eq_true hx
        rcases dispatchable_of_mem hmoves hpays.handed hmem with ⟨d', hd', hdisp⟩ | ⟨hscan, -⟩
        · cases hd'
          exact hdisp
        · cases hscan
    · intro t ht
      rw [hpays.handed, mem_append] at ht
      simp only [deliver, map_append, mem_append]
      rcases ht with ht | ht
      · exact (he.handed t ht).imp_left .inl
      · left
        right
        refine mem_map.2 ⟨⟨t, 0⟩, mem_map.2 ⟨(t, .gpu d), ?_, rfl⟩, rfl⟩
        exact mem_filter.2 ⟨ht, by simp⟩

theorem inv_signal (h : Inv devices threads s) (hmanager : (s.executors d).manager = .signal)
    (hstep : Scheduler.step devices s.scheduler (.deviceReady d) = some scheduler) :
    Inv devices threads { s.set d { s.executors d with manager := .pop } with scheduler } := by
  obtain ⟨hd, hscheduler, hcredits⟩ := credits_deviceReady hstep
  have hhanded : scheduler.handed = s.scheduler.handed := by rw [hscheduler]
  refine ⟨h.conserved.step hstep, ?_, hhanded ▸ h.scans, ?_⟩
  · rw [hscheduler]
    exact ⟨h.visiting.ready, h.visiting.nodup, h.visiting.subset⟩
  · intro x
    have hx := h.executors x
    show ExecutorInv devices threads scheduler x (update s.executors d _ x)
    rw [update_apply]
    split
    next heq =>
      subst heq
      refine ⟨?_, ?_, hx.queued, ?_, hhanded ▸ hx.handed⟩
      · have hcredit := hx.credit
        rw [hmanager] at hcredit
        rw [hcredits, if_pos rfl]
        show credits x s.scheduler + 1 + (s.executors x).queue.length ≤ 1
        have hzero : credits x s.scheduler + (s.executors x).queue.length ≤ 0 := hcredit
        omega
      · intro _
        exact hx.hasThreads (.inl (by simp [hmanager]))
      · intro job hjob
        rcases hjob with hjob | hjob
        · cases hjob
        · exact hx.popped job (.inr hjob)
    next hne =>
      refine ⟨?_, hx.hasThreads, hx.queued, hx.popped, hhanded ▸ hx.handed⟩
      rw [hcredits, if_neg hne]
      exact hx.credit

/-- The manager goes on without touching the queue, and does not wait for a task before. -/
theorem ExecutorInv.manager (h : ExecutorInv devices threads scheduler d e)
    (hbefore : e.manager.awaited = 0) {manager : Manager} {workers : List Worker}
    (hthreads : d ∈ devices ∧ 0 < threads d)
    (hpopped : ∀ job, manager = .dispatch job ∨ .executing job ∈ workers →
      job.task.kind = .gpuPipeline ∧ Dispatchable devices d job.task) :
    ExecutorInv devices threads scheduler d { e with manager, workers } where
  credit := by
    have hcredit := h.credit
    rw [hbefore] at hcredit
    exact Nat.le_trans hcredit (Nat.zero_le _)
  hasThreads _ := hthreads
  queued := h.queued
  popped := hpopped
  handed := h.handed

theorem ExecutorInv.pop (h : ExecutorInv devices threads scheduler d e) (hbefore : e.manager = .pop)
    {job : Job} {queue : List Job} (hqueue : e.queue = job :: queue) {manager : Manager}
    (hkind : ∀ job', manager = .dispatch job' → job' = job ∧ job.task.kind = .gpuPipeline) :
    ExecutorInv devices threads scheduler d
      { e with manager, queue, taken := e.taken ++ [job.task] } where
  credit := by
    have hcredit := h.credit
    rw [hbefore, hqueue, length_cons] at hcredit
    have hone : credits d scheduler + (queue.length + 1) ≤ 1 := hcredit
    show credits d scheduler + queue.length ≤ manager.awaited
    omega
  hasThreads _ := h.hasThreads (.inl (by simp [hbefore]))
  queued job' hjob' := h.queued job' (hqueue ▸ .tail _ hjob')
  popped job' hjob' := by
    rcases hjob' with hjob' | hjob'
    · obtain ⟨rfl, hgpu⟩ := hkind job' hjob'
      exact ⟨hgpu, h.queued job' (hqueue ▸ .head _)⟩
    · exact h.popped job' (.inr hjob')
  handed t ht := by
    have hor := h.handed t ht
    rw [hqueue, map_cons, mem_cons] at hor
    show t ∈ queue.map Job.task ∨ t ∈ e.taken ++ [job.task]
    rw [mem_append, mem_singleton]
    tauto

theorem step_scheduler (hl : ∀ d, l ≠ .deviceReady d) :
    step devices threads mayOom s (.scheduler l) =
      (Scheduler.step devices s.scheduler l).map fun scheduler => { s with
        scheduler
        executors := deliver (scheduler.handed.drop s.scheduler.handed.length) s.executors } := by
  cases l with
  | deviceReady d => exact absurd rfl (hl d)
  | _ => rfl

theorem Inv.step (hoom : OomFree devices threads mayOom) (h : Inv devices threads s) {l : Label}
    (hstep : step devices threads mayOom s l = some s') : Inv devices threads s' := by
  cases l
  case scheduler l =>
    by_cases hl : ∀ d, l ≠ .deviceReady d
    · rw [step_scheduler hl] at hstep
      obtain ⟨scheduler, hscheduler, rfl⟩ := Option.map_eq_some_iff.1 hstep
      exact inv_scheduler h hl hscheduler
    · push Not at hl
      obtain ⟨d, rfl⟩ := hl
      cases hstep
  all_goals simp only [Backpressure.step] at hstep
  case reserve d =>
    split at hstep
    next hguard =>
      obtain ⟨hd, hmanager, hactive⟩ := hguard
      cases hstep
      apply Inv.set h _ s.hasError
      apply (h.executors d).manager (by rw [hmanager]; rfl) ⟨hd, by omega⟩
      intro job hjob
      rcases hjob with hjob | hjob
      · cases hjob
      · exact (h.executors d).popped job (.inr hjob)
    · cases hstep
  case signal d =>
    split at hstep
    next hmanager =>
      obtain ⟨scheduler, hscheduler, rfl⟩ := Option.map_eq_some_iff.1 hstep
      exact inv_signal h hmanager hscheduler
    · cases hstep
  case pop d =>
    split at hstep
    next job queue hmanager hqueue =>
      split at hstep
      next hkind =>
        cases hstep
        apply Inv.set h _ s.hasError
        apply (h.executors d).pop hmanager hqueue
        intro job' hjob'
        cases hjob'
        exact ⟨rfl, hkind⟩
      · cases hstep
        apply h.set
        exact (h.executors d).pop hmanager hqueue fun _ hjob => by cases hjob
    · cases hstep
  case dispatch d =>
    split at hstep
    next job hmanager =>
      cases hstep
      have he := h.executors d
      apply Inv.set h _ s.hasError
      apply he.manager (by rw [hmanager]; rfl) (he.hasThreads (.inl (by simp [hmanager])))
      intro job' hjob'
      rcases hjob' with hjob' | hjob'
      · cases hjob'
      · rcases mem_append.1 hjob' with hjob' | hjob'
        · exact he.popped job' (.inr hjob')
        · cases mem_singleton.1 hjob'
          exact he.popped job (.inl hmanager)
    · cases hstep
  case oom d worker newTaskId =>
    split at hstep
    next job hworker =>
      have hmem := mem_of_getElem? hworker
      have he := h.executors d
      obtain ⟨hkind, hdisp⟩ := he.popped job (.inr hmem)
      obtain ⟨hd, hthreads⟩ := he.hasThreads (.inr (ne_nil_of_mem hmem))
      rw [hoom d hd hthreads job.task hkind hdisp] at hstep
      cases hstep
    · cases hstep
  case finish d worker error =>
    split at hstep
    next hworker =>
      cases hstep
      have he := h.executors d
      apply h.set
      refine ⟨he.credit, ?_, he.queued, ?_, he.handed⟩
      · intro _
        exact he.hasThreads (.inr (ne_nil_of_length_pos (by omega)))
      · intro job hjob
        exact he.popped job (hjob.imp_right mem_of_mem_eraseIdx)
    · cases hstep

theorem Inv.backpressured (h : Inv devices threads s) : Backpressured s where
  bounded d := by
    have hcredit := (h.executors d).credit
    have hslots := (s.executors d).manager.awaited_le_slots
    omega
  visible t ht hscan htaken := by
    have hmem := h.conserved.conserved.mem_iff.1 ht
    rw [mem_append, mem_append] at hmem
    rcases hmem with (hmem | hmem) | hmem
    · exact .inl hmem
    · exact .inr (.inl hmem)
    · obtain ⟨⟨t, x⟩, hhanded, rfl⟩ := mem_map.1 hmem
      cases x with
      | scan =>
        rw [h.scans t hhanded] at hscan
        cases hscan
      | gpu d =>
        rcases (h.executors d).handed t hhanded with hqueue | hpopped
        · exact .inr (.inr ⟨d, hqueue⟩)
        · exact absurd hpopped (htaken d)

/-! ## A task that runs out of memory -/

theorem deliver_append (a b : List (Task × Scheduler.Executor)) (executors : Int → Executor) :
    deliver (a ++ b) executors = deliver b (deliver a executors) := by
  funext d
  simp [deliver]

theorem run_scheduler (threads : Int → Nat) (mayOom : Task → Bool) {s : State} {a b : Scheduler.State}
    (h : Run (Scheduler.step devices) (fun _ l => ∀ d, l ≠ .deviceReady d) a b) (hs : s.scheduler = a)
    (hvisiting : Visiting a) :
    Visiting b ∧ ∃ new, b.handed = a.handed ++ new ∧
      Run (step devices threads mayOom) (fun _ _ => True) s
        { s with scheduler := b, executors := deliver new s.executors } := by
  induction h with
  | refl =>
    refine ⟨hvisiting, [], by simp, ?_⟩
    have hdeliver : deliver [] s.executors = s.executors := by
      funext d
      simp [deliver]
    rw [hdeliver, ← hs]
    exact .refl s
  | @tail b c l hrun hl hstep ih =>
    obtain ⟨hvisiting', new, hnew, hrun'⟩ := ih
    obtain ⟨more, hpays⟩ := hvisiting'.step hl hstep
    refine ⟨hpays.visiting, new ++ more, by rw [hpays.handed, hnew, append_assoc], ?_⟩
    refine hrun'.tail (.scheduler l) trivial ?_
    rw [step_scheduler hl, deliver_append]
    simp only [hstep, Option.map_some, hpays.handed, drop_left]

theorem exists_run_handed (hkind : t.kind = .gpuPipeline) (hdisp : Dispatchable devices d t) :
    ∃ b, Run (Scheduler.step devices) (fun _ l => ∀ d, l ≠ .deviceReady d)
        { channel := [{ deviceId := d }] } b ∧ b.handed = [(t, .gpu d)] := by
  let visit : Scheduler.State :=
    { queue := [t], wakes := 1, ready := [d], loop := .exact [d], scheduled := [t] }
  have hpush : Scheduler.step devices { channel := [{ deviceId := d }] } (.push t) =
      some { channel := [{ deviceId := d }], queue := [t], wakes := 1, scheduled := [t] } := by
    simp [Scheduler.step, Scheduler.State.push, hkind, Scheduler.TaskKind.isScan]
  have hvisit : Run (Scheduler.step devices) (fun _ l => ∀ d, l ≠ .deviceReady d)
      { channel := [{ deviceId := d }] } visit :=
    ((Run.single (.push t) (by simp) hpush).tail .receive (by simp) rfl).tail .startMatcher (by simp) rfl
  cases hprefers : Scheduler.prefers d t with
  | true =>
    have hexact : Scheduler.step devices visit .searchExact = some (visit.dispatch d t [] []) := by
      simp [Scheduler.step, searchExact, visit, popIf, popFirst, hprefers]
    exact ⟨_, hvisit.tail .searchExact (by simp) hexact, rfl⟩
  | false =>
    have hunbound : Scheduler.unbound devices t = true := by
      rcases hdisp with h | h
      · rw [hprefers] at h
        cases h
      · exact h
    have hexact : Scheduler.step devices visit .searchExact =
        some { visit with loop := .fallback d [] } := by
      simp [Scheduler.step, searchExact, visit, popIf, popFirst, hprefers]
    have hfallback : Scheduler.step devices { visit with loop := .fallback d [] } .searchFallback =
        some (visit.dispatch d t [] []) := by
      simp [Scheduler.step, Scheduler.searchFallback, visit, popIf, popFirst, hunbound,
        Scheduler.State.dispatch]
    exact ⟨_, (hvisit.tail .searchExact (by simp) hexact).tail .searchFallback (by simp) hfallback, rfl⟩

/-- An executor runs its task, which is rescheduled before the manager has reserved another slot. -/
theorem exists_run_oom (hkind : t.kind = .gpuPipeline) (hoom : mayOom t = true)
    (he : s.executors d = { manager := .pop, queue := [⟨t, 0⟩] }) (herror : s.hasError = false) :
    ∃ s', Run (step devices threads mayOom) (fun _ _ => True) s s' ∧
      (s'.executors d).queue.length = 1 ∧ (s'.executors d).manager = .reserve := by
  let popped := s.set d { manager := .dispatch ⟨t, 0⟩, taken := [t] }
  have hpop : step devices threads mayOom s (.pop d) = some popped := by
    simp [step, he, hkind, popped]
  let running := popped.set d { workers := [.executing ⟨t, 0⟩], taken := [t] }
  have hdispatch : step devices threads mayOom popped (.dispatch d) = some running := by
    simp [step, State.set, popped, running]
  have hrescheduled : step devices threads mayOom running (.oom d 0 0) =
      some (running.reschedule d 0 ⟨t, 0⟩ 0) := by
    simp [step, State.set, running, hoom]
  refine ⟨_, ((Run.single _ trivial hpop).tail _ trivial hdispatch).tail _ trivial hrescheduled, ?_⟩
  have hnoError : popped.hasError = false := herror
  simp [State.reschedule, State.set, hnoError, maxOomRetries, running]

/-- **Pull-signal backpressure** holds in every reachable state if and only if no task that an
executor can get is rescheduled after running out of memory. -/
theorem backpressured_iff (devices : List Int) (threads : Int → Nat) (mayOom : Task → Bool) :
    (∀ s, Run (step devices threads mayOom) (fun _ _ => True) {} s → Backpressured s) ↔
      OomFree devices threads mayOom := by
  constructor
  · intro h d hd hthreads t hkind hdisp
    rw [← Bool.not_eq_true]
    intro hoom
    let reserved : State := State.set {} d { manager := .signal }
    have hreserve : step devices threads mayOom {} (.reserve d) = some reserved := by
      simp [step, hd, Executor.active, Manager.slots, hthreads, reserved]
    let signalled : State :=
      { reserved.set d { manager := .pop } with scheduler := { channel := [{ deviceId := d }] } }
    have hsignal : step devices threads mayOom reserved (.signal d) = some signalled := by
      simp [step, State.set, Scheduler.step, hd, reserved, signalled]
    obtain ⟨b, hb, hhanded⟩ := exists_run_handed hkind hdisp
    have hvisiting : Visiting { channel := [{ deviceId := d }] } :=
      ⟨.nil, .nil, fun _ h => by cases h⟩
    have hscheduler : signalled.scheduler = { channel := [{ deviceId := d }] } := rfl
    obtain ⟨-, new, hnew, hrun⟩ := run_scheduler threads mayOom hb hscheduler hvisiting
    obtain rfl : new = [(t, .gpu d)] := (hhanded.symm.trans hnew).symm
    let handed : State :=
      { signalled with scheduler := b, executors := deliver [(t, .gpu d)] signalled.executors }
    have hexecutor : handed.executors d = { manager := .pop, queue := [⟨t, 0⟩] } := by
      have hd : signalled.executors d = { manager := .pop } := update_self ..
      simp [deliver, hd, handed]
    have hnoError : handed.hasError = false := rfl
    obtain ⟨s, hlast, hlength, hmanager⟩ := exists_run_oom hkind hoom hexecutor hnoError
    have hbounded := (h s ((((Run.single _ trivial hreserve).tail _ trivial hsignal).trans hrun).trans
      hlast)).bounded d
    rw [hlength, hmanager] at hbounded
    cases hbounded
  · intro hoom s hrun
    have hinv := hrun.invariant (inv_start devices threads) fun h _ hstep => h.step hoom hstep
    exact hinv.backpressured

/-- A worker of a pool of one runs out of memory while the manager waits for a slot. -/
theorem oom_overfills_queue :
    ∃ s, Run (step [0] (fun _ => 1) (fun _ => true)) (fun _ _ => True) {} s ∧
      (s.executors 0).queue.length = 1 ∧ (s.executors 0).manager.slots = 0 ∧ ¬ Backpressured s := by
  obtain ⟨s, hrun, hlength, hslots⟩ : ∃ s : State,
      Run (step [0] (fun _ => 1) (fun _ => true)) (fun _ _ => true = true) {} s ∧
      (s.executors 0).queue.length = 1 ∧ (s.executors 0).manager.slots = 0 := by
    apply Run.exists_of_runLabels [Label.reserve 0, Label.signal 0,
      Label.scheduler (.push Scheduler.anyTask), Label.scheduler .wake, Label.scheduler .receive,
      Label.scheduler .drain, Label.scheduler .startMatcher, Label.scheduler .searchExact,
      Label.scheduler .searchFallback, Label.pop 0, Label.dispatch 0, Label.oom 0 0 1]
    decide
  refine ⟨s, hrun.mono fun _ _ _ => trivial, hlength, hslots, ?_⟩
  intro h
  have hbounded := h.bounded 0
  omega

end Runs

end Sirius.Backpressure
