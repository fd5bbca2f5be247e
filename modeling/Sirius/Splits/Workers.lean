import Sirius.Lib.Runs
import Sirius.Lib.ThreadPool

/-!
# Split providers and their workers

`split_provider::run` hands every batch of splits to the `scoped_dispatcher` as a closure that makes the
splits and pushes them to the connector of the scan. The dispatcher keeps at most `max_inflight_` closures
in the thread pool and the others in a queue of its own; a task that is done passes its slot on.

Every closure holds a reference to one `worker_state`, and so does `run` while it is at work. The last
reference closes the connector with the first error. The threads are stacks of operations (`Op`), each of
which is one critical section or touches nothing that is shared. `Counted` says how references, slots
and the end of the stream belong together; the rest of the file shows that every step keeps it.
-/

namespace Sirius.Splits

open Lib List

variable {S E : Type}

abbrev Work (S E : Type) := Except E (List S)

inductive Op (S E : Type) where
  /-- The head of the loop of `split_provider::run` -/
  | claim
  /-- `scoped_dispatcher::enqueue` -/
  | enqueue (work : Work S E)
  /-- `static_thread_pool::schedule` -/
  | schedule (work : Work S E)
  /-- `work_loop` waits for a closure. -/
  | take
  | work (work : Work S E)
  /-- `push_split` -/
  | push (split : S)
  /-- `worker_state::set_error` -/
  | setError (error : E)
  /-- `on_task_done` -/
  | taskDone
  /-- A reference to the `worker_state` is dropped. -/
  | release
  /-- The destructor of the `worker_state` -/
  | close

/-- What a call of `get_next_split` gives. -/
inductive Outcome (S E : Type) where
  | split (split : S)
  | ended
  | threw (error : E)
  deriving DecidableEq

/-- The provider, the `worker_state`, the dispatcher with the queue of the pool, and the connector.
`pushed`, `late` and `returned` record what has been pushed, whether something was pushed after a
`close`, and what the consumer has got. -/
structure Shared (S E : Type) where
  remaining : List (Work S E)
  refs : Nat := 1
  errorPtr : Option E := none
  inflight : Nat := 0
  pending : List (Work S E) := []
  queue : List (Work S E) := []
  splits : List S := []
  closes : Nat := 0
  exception : Option E := none
  pushed : List S := []
  late : Bool := false
  returned : List (Outcome S E) := []

/-- One operation: the memory after it and the operations that take its place. Only `take` waits. -/
def perform (maxInflight : Nat) (s : Shared S E) : Op S E → Option (Shared S E × List (Op S E))
  | .claim =>
    match s.remaining with
    | [] => some (s, [])
    | work :: works =>
      some ({ s with remaining := works, refs := s.refs + 1 }, [.enqueue work, .claim])
  | .enqueue work =>
    if s.inflight < maxInflight then some ({ s with inflight := s.inflight + 1 }, [.schedule work])
    else some ({ s with pending := s.pending ++ [work] }, [])
  | .schedule work => some ({ s with queue := s.queue ++ [work] }, [])
  | .take =>
    match s.queue with
    | [] => none
    | work :: queue =>
      -- The closure is destroyed at the end of the round, after `on_task_done`.
      some ({ s with queue }, [.work work, .taskDone, .release, .take])
  | .work (.ok splits) => some (s, splits.map .push)
  | .work (.error error) => some (s, [.setError error])
  | .push split =>
    some ({ s with
      splits := s.splits ++ [split]
      pushed := s.pushed ++ [split]
      late := s.late || decide (0 < s.closes) }, [])
  | .setError error => some ({ s with errorPtr := s.errorPtr.or (some error) }, [])
  | .taskDone =>
    match s.pending with
    | [] => some ({ s with inflight := s.inflight - 1 }, [])
    | work :: pending => some ({ s with pending }, [.schedule work])
  | .release => some ({ s with refs := s.refs - 1 }, if s.refs = 1 then [.close] else [])
  | .close =>
    some ({ s with closes := s.closes + 1, exception := s.exception.or s.errorPtr }, [])

def getNextSplit (s : Shared S E) : Option (Shared S E) :=
  if s.splits = [] ∧ s.closes = 0 then none
  else
    match s.exception, s.splits with
    | some error, _ => some { s with returned := s.returned ++ [.threw error] }
    | none, split :: splits => some { s with splits, returned := s.returned ++ [.split split] }
    | none, [] => some { s with returned := s.returned ++ [.ended] }

structure State (S E : Type) where
  threads : List (List (Op S E))
  shared : Shared S E

inductive Label where
  /-- A thread performs its next operation. -/
  | thread (i : Nat)
  /-- The consumer calls `get_next_split`. -/
  | get
  deriving DecidableEq

def step (maxInflight : Nat) (s : State S E) : Label → Option (State S E)
  | .thread i =>
    match s.threads[i]? with
    | some (op :: rest) =>
      (perform maxInflight s.shared op).map fun (shared, add) =>
        { threads := resume s.threads i (add ++ rest) [], shared }
    | _ => none
  | .get => (getNextSplit s.shared).map fun shared => { s with shared }

def maxInflight (maxConcurrentTask numThreads : Nat) : Nat :=
  if maxConcurrentTask = 0 then numThreads else min maxConcurrentTask numThreads

/-- `run` is called, and the threads of the pool wait. -/
def start (numThreads : Nat) (works : List (Work S E)) : State S E where
  threads := [.claim, .release] :: List.replicate numThreads [.take]
  shared := { remaining := works }

/-! ## Steps of threads -/

variable {maxInflight i : Nat}

/-- The pending operations of all threads: `op` is replaced by `add`, and the others stay. -/
theorem step_thread {s s' : State S E} (h : step maxInflight s (.thread i) = some s') :
    ∃ op rest add R, s.threads[i]? = some (op :: rest) ∧
      perform maxInflight s.shared op = some (s'.shared, add) ∧
      s'.threads = s.threads.set i (add ++ rest) ∧ pending s.threads = op ::ₘ R ∧
      pending s'.threads = (add : Multiset (Op S E)) + R ∧ (rest : Multiset (Op S E)) ≤ R := by
  rw [step] at h
  split at h
  next op rest hthread =>
    obtain ⟨⟨shared, add⟩, hperform, heq⟩ := Option.map_eq_some_iff.1 h
    cases heq
    obtain ⟨R, hR, hrest, hadd⟩ := pending_resume hthread
    refine ⟨op, rest, add, R, hthread, hperform, by simp [resume], hR, ?_, hrest⟩
    simpa using hadd add []
  · cases h

/-! ## References, slots and the end of the stream -/

namespace Op

/-- The references that an operation brings along: a closure has one, and `release` gives one up. -/
def refs : Op S E → Nat
  | enqueue _ | schedule _ | release => 1
  | _ => 0

/-- The slots of the dispatcher: a closure on its way to the pool has one, and `on_task_done` gives one
up. -/
def slots : Op S E → Nat
  | schedule _ | taskDone => 1
  | _ => 0

def closes : Op S E → Nat
  | close => 1
  | _ => 0

def holds : Op S E → Bool
  | claim | work _ | push _ | setError _ | taskDone => true
  | _ => false

end Op

/-- Whoever holds a reference gives it up later, and a thread of the pool waits when it has nothing else
to do. -/
def Owned : List (Op S E) → Prop
  | [] => True
  | op :: rest => (op.holds = true → Op.release ∈ rest) ∧ (op = .take → rest = []) ∧ Owned rest

variable {add rest : List (Op S E)}

theorem owned_append (hadd : ∀ op ∈ add, op ≠ .take ∧ (op.holds = true → .release ∈ rest))
    (hrest : Owned rest) : Owned (add ++ rest) := by
  induction add with
  | nil => exact hrest
  | cons op add ih =>
    obtain ⟨htake, hholds⟩ := hadd op (.head _)
    refine ⟨?_, fun hop => absurd hop htake, ih fun o ho => hadd o (.tail _ ho)⟩
    intro hop
    exact mem_append_right _ (hholds hop)

variable {s s' : Shared S E} {op : Op S E}

/-- The operations that take the place of `op` hold a reference only if `op` does. -/
theorem holds_of_mem_perform (h : perform maxInflight s op = some (s', add)) (hop : op ≠ .take) :
    ∀ o ∈ add, o ≠ .take ∧ (o.holds = true → op.holds = true) := by
  cases op with
  | take => exact absurd rfl hop
  | claim | enqueue _ | taskDone =>
    rw [perform] at h
    split at h <;> cases h <;> simp [Op.holds]
  | work work => cases work <;> cases h <;> simp [Op.holds]
  | schedule _ | push _ | setError _ | close =>
    cases h
    simp
  | release =>
    cases h
    split <;> simp [Op.holds]

theorem take_mem_perform (h : perform maxInflight s .take = some (s', add)) : .take ∈ add := by
  rw [perform] at h
  split at h
  · cases h
  · cases h
    simp

theorem Owned.perform (howned : Owned (op :: rest)) (h : perform maxInflight s op = some (s', add)) :
    Owned (add ++ rest) := by
  by_cases htake : op = .take
  · have hrest := howned.2.1 htake
    subst htake hrest
    rw [Splits.perform] at h
    split at h
    · cases h
    · cases h
      simp [Owned, Op.holds]
  · apply owned_append _ howned.2.2
    intro o ho
    obtain ⟨hne, hholds⟩ := holds_of_mem_perform h htake o ho
    exact ⟨hne, fun hop => howned.1 (hholds hop)⟩

theorem Owned.release_mem {t : List (Op S E)} (h : Owned t) (hop : op ∈ t)
    (hholds : op.holds = true) : .release ∈ t := by
  induction t with
  | nil => cases hop
  | cons o rest ih =>
    rcases mem_cons.1 hop with rfl | hop
    · exact mem_cons_of_mem _ (h.1 hholds)
    · exact mem_cons_of_mem _ (ih h.2.2 hop)

theorem owned_step {s s' : State S E} (howned : ∀ t ∈ s.threads, Owned t)
    (h : step maxInflight s (.thread i) = some s') : ∀ t ∈ s'.threads, Owned t := by
  obtain ⟨op, rest, add, R, hthread, hperform, hthreads, -⟩ := step_thread h
  intro t ht
  rw [hthreads] at ht
  rcases mem_or_eq_of_mem_set ht with ht | rfl
  · exact howned t ht
  · exact (howned _ (mem_of_getElem? hthread)).perform hperform

/-- How references, slots and closing belong together, for the pending operations `P`. -/
structure Counted (maxInflight : Nat) (P : Multiset (Op S E)) (s : Shared S E) : Prop where
  refs : s.refs = (P.map Op.refs).sum + s.pending.length + s.queue.length
  slots : s.inflight = (P.map Op.slots).sum + s.queue.length
  inflight_le : s.inflight ≤ maxInflight
  pending : s.pending ≠ [] → s.inflight = maxInflight
  closes : s.closes + (P.map Op.closes).sum = if s.refs = 0 then 1 else 0

section Counted

variable {maxInflight : Nat} {R : Multiset (Op S E)} {s s' : Shared S E} {op : Op S E}
  {add : List (Op S E)}

/-- A reference keeps the connector open. -/
theorem Counted.open_of_refs {P : Multiset (Op S E)} (h : Counted maxInflight P s)
    (hrefs : 0 < (P.map Op.refs).sum) : s.closes = 0 := by
  have hcloses := h.closes
  have := h.refs
  rw [if_neg (by omega)] at hcloses
  omega

/-- The operations `add` take the place of `op` and keep the three balances. -/
theorem Counted.replace (h : Counted maxInflight (op ::ₘ R) s)
    (hrefs : s'.refs + op.refs + s.pending.length + s.queue.length =
      s.refs + (add.map Op.refs).sum + s'.pending.length + s'.queue.length)
    (hslots : s'.inflight + op.slots + s.queue.length =
      s.inflight + (add.map Op.slots).sum + s'.queue.length)
    (hle : s'.inflight ≤ maxInflight) (hpending : s'.pending ≠ [] → s'.inflight = maxInflight)
    (hcloses : s'.closes + ((add.map Op.closes).sum + (R.map Op.closes).sum) =
      if s'.refs = 0 then 1 else 0) :
    Counted maxInflight ((add : Multiset (Op S E)) + R) s' := by
  have hrefs₀ := h.refs
  have hslots₀ := h.slots
  rw [Multiset.map_cons, Multiset.sum_cons] at hrefs₀ hslots₀
  refine ⟨?_, ?_, hle, hpending, by simpa using hcloses⟩
  all_goals
    simp only [Multiset.map_add, Multiset.map_coe, Multiset.sum_add, Multiset.sum_coe]
    omega

theorem Counted.step (h : Counted maxInflight (op ::ₘ R) s)
    (hholds : op.holds = true → 0 < (R.map Op.refs).sum)
    (hperform : perform maxInflight s op = some (s', add)) :
    Counted maxInflight ((add : Multiset (Op S E)) + R) s' := by
  obtain ⟨hrefs, hslots, hle, hpending, hcloses⟩ := id h
  simp only [Multiset.map_cons, Multiset.sum_cons] at hrefs hslots hcloses
  cases op with
  | claim =>
    have hpos := hholds rfl
    rw [perform] at hperform
    split at hperform
    · cases hperform
      exact h.replace rfl rfl hle hpending hcloses
    · cases hperform
      rw [if_neg (by omega)] at hcloses
      exact h.replace rfl rfl hle hpending hcloses
  | enqueue work =>
    rw [perform] at hperform
    split at hperform
    next hlt =>
      cases hperform
      exact h.replace rfl rfl hlt (fun hne => absurd (hpending hne) (by omega)) hcloses
    next hfull =>
      cases hperform
      exact h.replace (by simp [Op.refs]; omega) rfl hle
        (fun _ => Nat.le_antisymm hle (Nat.not_lt.1 hfull)) hcloses
  | schedule work =>
    cases hperform
    exact h.replace (by simp [Op.refs]; omega) (by simp [Op.slots]; omega) hle hpending hcloses
  | take =>
    rw [perform] at hperform
    split at hperform
    · cases hperform
    next work queue hqueue =>
      cases hperform
      exact h.replace (by simp [Op.refs, hqueue]; omega) (by simp [Op.slots, hqueue]; omega) hle
        hpending hcloses
  | work work =>
    -- Splits and errors have no reference and no slot of their own.
    cases work with
    | ok splits =>
      cases hperform
      exact h.replace (by simp [Op.refs, Function.comp_def]) (by simp [Op.slots, Function.comp_def])
        hle hpending (by simpa [Op.closes, Function.comp_def] using hcloses)
    | error error =>
      cases hperform
      exact h.replace rfl rfl hle hpending hcloses
  | push split | setError error =>
    cases hperform
    exact h.replace rfl rfl hle hpending hcloses
  | taskDone =>
    rw [perform] at hperform
    simp only [Op.slots] at hslots
    split at hperform
    next hnil =>
      cases hperform
      exact h.replace rfl (by simp [Op.slots]; omega) (by simp; omega) (absurd hnil) hcloses
    next work pending hcons =>
      cases hperform
      exact h.replace (by simp [Op.refs, hcons]; omega) rfl hle
        (fun _ => hpending (by simp [hcons])) hcloses
  | release =>
    cases hperform
    simp only [Op.refs] at hrefs
    rw [if_neg (by omega)] at hcloses
    simp only [Op.closes] at hcloses
    by_cases hlast : s.refs = 1
    · rw [if_pos hlast]
      exact h.replace (by simp [Op.refs]; omega) rfl hle hpending (by simp [Op.closes, hlast]; omega)
    · rw [if_neg hlast]
      refine h.replace (by simp [Op.refs]; omega) rfl hle hpending ?_
      rw [if_neg (by simp; omega)]
      simpa using hcloses
  | close =>
    cases hperform
    refine h.replace rfl rfl hle hpending ?_
    rw [← hcloses]
    simp [Op.closes]
    omega

end Counted

/-! ## Termination -/

def workEffort : Work S E → Nat
  | .ok splits => splits.length
  | .error _ => 1

/-- The steps that an operation leads to, at most. -/
def Op.effort : Op S E → Nat
  | enqueue w => workEffort w + 7
  | schedule w => workEffort w + 6
  | work w => workEffort w + 1
  | release => 2
  | claim | push _ | setError _ | taskDone | close => 1
  | take => 0

def effort (P : Multiset (Op S E)) (s : Shared S E) : Nat :=
  (P.map Op.effort).sum + (s.pending.map fun work => workEffort work + 6).sum +
    (s.queue.map fun work => workEffort work + 5).sum +
    (s.remaining.map fun work => workEffort work + 8).sum

theorem effort_perform {R : Multiset (Op S E)} (h : perform maxInflight s op = some (s', add)) :
    effort ((add : Multiset (Op S E)) + R) s' < effort (op ::ₘ R) s := by
  cases op with
  | claim | taskDone =>
    rw [perform] at h
    split at h
    · cases h
      simp [effort, Op.effort]
    next work works hworks =>
      cases h
      simp [effort, Op.effort, hworks]
      omega
  | enqueue work =>
    rw [perform] at h
    split at h
    · cases h
      simp [effort, Op.effort]
    · cases h
      simp [effort, Op.effort]
      omega
  | schedule work =>
    cases h
    simp [effort, Op.effort]
    omega
  | take =>
    rw [perform] at h
    split at h
    · cases h
    next work queue hqueue =>
      cases h
      simp [effort, Op.effort, hqueue]
      omega
  | work work =>
    cases work with
    | ok splits =>
      cases h
      simp [effort, Op.effort, workEffort, Function.comp_def]
    | error error =>
      cases h
      simp [effort, Op.effort, workEffort]
  | release =>
    cases h
    split <;> simp [effort, Op.effort]
  | push _ | setError _ | close =>
    cases h
    simp [effort, Op.effort]

/-- An operation other than `take` can always be performed. -/
theorem perform_isSome (maxInflight : Nat) (s : Shared S E) (h : op = .take → s.queue ≠ []) :
    ∃ r, perform maxInflight s op = some r := by
  cases op with
  | claim | enqueue _ | taskDone =>
    rw [perform]
    split <;> exact ⟨_, rfl⟩
  | take =>
    rw [perform]
    split
    next hqueue =>
      exact absurd hqueue (h rfl)
    · exact ⟨_, rfl⟩
  | work work => cases work <;> exact ⟨_, rfl⟩
  | schedule _ | push _ | setError _ | release | close => exact ⟨_, rfl⟩

theorem step_thread_eq {s : State S E} {shared : Shared S E}
    (hthread : s.threads[i]? = some (op :: rest))
    (hperform : perform maxInflight s.shared op = some (shared, add)) :
    step maxInflight s (.thread i) = some ⟨resume s.threads i (add ++ rest) [], shared⟩ := by
  simp only [step, hthread, hperform]
  rfl

end Sirius.Splits
