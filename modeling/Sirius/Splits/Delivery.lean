import Mathlib.Tactic.Abel
import Sirius.Splits.Workers

/-!
# Every split reaches the consumer

The consumer of a connector gets every split that the batches produce, once, and then the end of the
stream; if a batch throws it gets one of the exceptions, and never a plain end (`splits_delivered`). The
proof follows what is still to come: the splits and errors that batches, closures and operations carry
(`ahead`) go over into pushes and into the first error, and nothing else happens to them
(`ahead_perform`). When the last reference is gone nothing is ahead any more.
-/

namespace Sirius.Splits

open Lib Multiset Option

variable {S E : Type}

/-! ## What is still to come -/

section Ahead

variable {M : Type} [AddCommMonoid M] (onSplit : S → M) (onError : E → M)

def workTotal : Work S E → M
  | .ok splits => (splits.map onSplit).sum
  | .error error => onError error

def opTotal : Op S E → M
  | .enqueue work | .schedule work | .work work => workTotal onSplit onError work
  | .push split => onSplit split
  | .setError error => onError error
  | _ => 0

def worksTotal (works : List (Work S E)) : M := (works.map (workTotal onSplit onError)).sum

/-- What operations and closures bring. -/
def ahead (P : Multiset (Op S E)) (s : Shared S E) : M :=
  (P.map (opTotal onSplit onError)).sum + worksTotal onSplit onError s.pending +
    worksTotal onSplit onError s.queue + worksTotal onSplit onError s.remaining

/-- What leaves: a split with its push, an error when it is recorded. -/
def opOutput : Op S E → M
  | .push split => onSplit split
  | .setError error => onError error
  | _ => 0

variable {maxInflight : Nat} {R : Multiset (Op S E)} {s s' : Shared S E} {op : Op S E}
  {add : List (Op S E)}

/-- **Nothing is lost.** A step of a thread moves what is ahead around, apart from what it gives out. -/
theorem ahead_perform (h : perform maxInflight s op = some (s', add)) :
    ahead onSplit onError (op ::ₘ R) s =
      opOutput onSplit onError op + ahead onSplit onError ((add : Multiset (Op S E)) + R) s' := by
  cases op with
  | claim | taskDone =>
    rw [perform] at h
    split at h
    · cases h
      simp [ahead, opTotal, opOutput]
    next work works hworks =>
      cases h
      simp [ahead, opTotal, opOutput, worksTotal, hworks]
      abel
  | enqueue work =>
    rw [perform] at h
    split at h
    · cases h
      simp [ahead, opTotal, opOutput]
    · cases h
      simp [ahead, opTotal, opOutput, worksTotal]
      abel
  | schedule work =>
    cases h
    simp [ahead, opTotal, opOutput, worksTotal]
    abel
  | take =>
    rw [perform] at h
    split at h
    · cases h
    next work queue hqueue =>
      cases h
      simp [ahead, opTotal, opOutput, worksTotal, hqueue]
      abel
  | work work =>
    cases work with
    | ok splits =>
      cases h
      simp [ahead, opTotal, opOutput, workTotal, Function.comp_def]
    | error error =>
      cases h
      simp [ahead, opTotal, opOutput, workTotal]
  | push split | setError error =>
    cases h
    simp [ahead, opTotal, opOutput]
    abel
  | release =>
    cases h
    split <;> simp [ahead, opTotal, opOutput]
  | close =>
    cases h
    simp [ahead, opTotal, opOutput]

end Ahead

def produced (works : List (Work S E)) : List S :=
  works.flatMap fun
    | .ok splits => splits
    | .error _ => []

def thrown (works : List (Work S E)) : List E :=
  works.filterMap fun
    | .ok _ => none
    | .error error => some error

def splitsAhead (P : Multiset (Op S E)) (s : Shared S E) : Multiset S :=
  ahead (fun split => {split}) (fun _ => 0) P s

def errorsAhead (P : Multiset (Op S E)) (s : Shared S E) : Multiset E :=
  ahead (fun _ => 0) (fun error => {error}) P s

theorem worksTotal_splits (works : List (Work S E)) :
    worksTotal (fun split => ({split} : Multiset S)) (fun _ => 0) works = produced works := by
  induction works with
  | nil => rfl
  | cons work works ih =>
    rw [worksTotal] at ih
    cases work with
    | ok splits =>
      have hsplits : (splits.map fun split => ({split} : Multiset S)).sum = splits := by
        induction splits with
        | nil => rfl
        | cons split splits ih => simp [ih]
      simp [worksTotal, workTotal, produced, ih, hsplits]
    | error error => simp [worksTotal, workTotal, produced, ih]

theorem worksTotal_errors (works : List (Work S E)) :
    worksTotal (fun _ => 0) (fun error => ({error} : Multiset E)) works = thrown works := by
  induction works with
  | nil => rfl
  | cons work works ih =>
    rw [worksTotal] at ih
    cases work with
    | ok splits | error error => simp [worksTotal, workTotal, thrown, ih]

/-! ## The connector -/

def Shared.final (s : Shared S E) : Outcome S E :=
  match s.exception with
  | none => .ended
  | some error => .threw error

def Op.isQuiet : Op S E → Bool
  | push _ | setError _ | close => false
  | _ => true

/-- What the consumer has got: splits in the order of their pushes, and then always the same. -/
structure Connected (s : Shared S E) : Prop where
  late : s.late = false
  exception : s.exception = if s.closes = 0 then none else s.errorPtr
  returned : ∃ xs n, s.returned = xs.map .split ++ List.replicate n s.final ∧
    xs ++ s.splits = s.pushed ∧ (s.closes = 0 → n = 0) ∧
    (n ≠ 0 → s.exception = none → s.splits = [])

section Connected

variable {maxInflight : Nat} {s s' : Shared S E} {op : Op S E} {add : List (Op S E)}

theorem perform_connector (h : perform maxInflight s op = some (s', add)) :
    (∃ split, op = .push split) ∨ (∃ error, op = .setError error) ∨ op = .close ∨
      (op.isQuiet = true ∧ s'.late = s.late ∧ s'.exception = s.exception ∧ s'.closes = s.closes ∧
        s'.errorPtr = s.errorPtr ∧ s'.returned = s.returned ∧ s'.splits = s.splits ∧
        s'.pushed = s.pushed) := by
  cases op with
  | push split => exact .inl ⟨split, rfl⟩
  | setError error => exact .inr (.inl ⟨error, rfl⟩)
  | close => exact .inr (.inr (.inl rfl))
  | claim | enqueue _ | take | taskDone =>
    right; right; right
    rw [perform] at h
    split at h <;> cases h <;> exact ⟨rfl, rfl, rfl, rfl, rfl, rfl, rfl, rfl⟩
  | work work =>
    right; right; right
    cases work <;> cases h <;> exact ⟨rfl, rfl, rfl, rfl, rfl, rfl, rfl, rfl⟩
  | schedule _ | release =>
    right; right; right
    cases h
    exact ⟨rfl, rfl, rfl, rfl, rfl, rfl, rfl, rfl⟩

theorem opOutput_of_isQuiet {M : Type} [AddCommMonoid M] (onSplit : S → M) (onError : E → M)
    (h : op.isQuiet = true) : opOutput onSplit onError op = 0 := by
  cases op with
  | push _ | setError _ | close => cases h
  | claim | enqueue _ | schedule _ | take | work _ | taskDone | release => rfl

/-- Nothing is pushed, no error is recorded and nothing is closed on a closed connector. -/
theorem Connected.perform (h : Connected s) (hopen : op.holds = true ∨ op = .close → s.closes = 0)
    (hperform : perform maxInflight s op = some (s', add)) : Connected s' := by
  obtain ⟨hlate, hexception, xs, n, hreturned, hpushed, hn, hdrained⟩ := h
  rcases perform_connector hperform with
    ⟨split, rfl⟩ | ⟨error, rfl⟩ | rfl | ⟨-, hl, he, hc, hp, hr, hs, hq⟩
  · have hclosed := hopen (.inl rfl)
    cases hperform
    refine ⟨by simp [hlate, hclosed], hexception, xs, n, hreturned, ?_, hn, ?_⟩
    · simp [← hpushed]
    · exact fun hne => absurd (hn hclosed) hne
  · have hclosed := hopen (.inl rfl)
    cases hperform
    refine ⟨hlate, ?_, xs, n, hreturned, hpushed, hn, hdrained⟩
    simpa [hclosed] using hexception
  · have hclosed := hopen (.inr rfl)
    cases hperform
    rw [if_pos hclosed] at hexception
    have hzero := hn hclosed
    subst hzero
    refine ⟨hlate, ?_, xs, 0, hreturned, hpushed, fun _ => rfl, fun hne => absurd rfl hne⟩
    simp [hexception]
  · refine ⟨hl.trans hlate, ?_, xs, n, ?_, ?_, ?_, ?_⟩
    · rw [he, hc, hp, hexception]
    · rw [hr, hreturned, Shared.final, Shared.final, he]
    · rw [hs, hq, hpushed]
    · rw [hc]
      exact hn
    · rw [he, hs]
      exact hdrained

theorem Connected.getNextSplit (h : Connected s) (hget : getNextSplit s = some s') :
    Connected s' := by
  obtain ⟨hlate, hexception, xs, n, hreturned, hpushed, hn, hdrained⟩ := h
  rw [Splits.getNextSplit] at hget
  split at hget
  · cases hget
  next hwait =>
    split at hget
    next error herror =>
      cases hget
      -- Only a closed connector has an exception.
      have hclosed : s.closes ≠ 0 := by
        intro hzero
        rw [if_pos hzero, herror] at hexception
        cases hexception
      refine ⟨hlate, hexception, xs, n + 1, ?_, hpushed, fun hzero => absurd hzero hclosed, ?_⟩
      · have hfinal : s.final = .threw error := by simp [Shared.final, herror]
        rw [hfinal] at hreturned
        show s.returned ++ _ = _ ++ List.replicate (n + 1) s.final
        rw [hfinal, hreturned, List.replicate_succ', List.append_assoc]
      · intro _ hnone
        cases hnone.symm.trans herror
    next split splits hnone hsplits =>
      cases hget
      have hzero : n = 0 := by
        by_contra hne
        cases (hdrained hne hnone).symm.trans hsplits
      subst hzero
      refine ⟨hlate, hexception, xs ++ [split], 0, ?_, ?_, fun _ => rfl, fun hne => absurd rfl hne⟩
      · simp [hreturned]
      · rw [← hpushed, hsplits]
        simp
    next hnone hsplits =>
      cases hget
      refine ⟨hlate, hexception, xs, n + 1, ?_, hpushed, fun hzero => absurd ⟨hsplits, hzero⟩ hwait,
        fun _ _ => hsplits⟩
      have hfinal : s.final = .ended := by simp [Shared.final, hnone]
      rw [hfinal] at hreturned
      show s.returned ++ _ = _ ++ List.replicate (n + 1) s.final
      rw [hfinal, hreturned, List.replicate_succ', List.append_assoc]

end Connected

/-! ## Runs -/

/-- The splits and errors of the batches are pushed and recorded, or ahead. -/
structure Accounted (works : List (Work S E)) (P : Multiset (Op S E)) (s : Shared S E) : Prop where
  splits : (s.pushed : Multiset S) + splitsAhead P s = produced works
  errors : errorsAhead P s ≤ (thrown works : Multiset E)
  noError : s.errorPtr = none → errorsAhead P s = (thrown works : Multiset E)
  error : ∀ error, s.errorPtr = some error → error ∈ thrown works

variable {op : Op S E}

theorem Accounted.perform {maxInflight : Nat} {works : List (Work S E)} {R : Multiset (Op S E)}
    {s s' : Shared S E} {add : List (Op S E)} (h : Accounted works (op ::ₘ R) s)
    (hperform : perform maxInflight s op = some (s', add)) :
    Accounted works ((add : Multiset (Op S E)) + R) s' := by
  have hsplits := h.splits
  have herrors := h.errors
  have hnoError := h.noError
  rw [splitsAhead, ahead_perform _ _ hperform] at hsplits
  rw [errorsAhead, ahead_perform _ _ hperform] at herrors hnoError
  rcases perform_connector hperform with
    ⟨split, rfl⟩ | ⟨error, rfl⟩ | rfl | ⟨hquiet, -, -, -, hp, -, -, hq⟩
  · cases hperform
    refine ⟨?_, by simpa [opOutput, errorsAhead] using herrors,
      by simpa [opOutput, errorsAhead] using hnoError, h.error⟩
    rw [← hsplits]
    show ((s.pushed ++ [split] : List S) : Multiset S) + _ = _
    rw [← coe_add, add_assoc]
    rfl
  · cases hperform
    have hle := (le_add_left _ _).trans herrors
    refine ⟨by simpa [opOutput, splitsAhead] using hsplits, hle, ?_, ?_⟩
    · intro hnone
      simp at hnone
    · intro e he
      cases hptr : s.errorPtr with
      | some e' =>
        simp only [hptr, some_or, some.injEq] at he
        exact he ▸ h.error e' hptr
      | none =>
        simp only [hptr, none_or, some.injEq] at he
        subst he
        have hmem := mem_of_le herrors (mem_add.2 (.inl (mem_singleton_self _)))
        simpa using hmem
  · cases hperform
    exact ⟨by simpa [opOutput, splitsAhead] using hsplits,
      by simpa [opOutput, errorsAhead] using herrors,
      by simpa [opOutput, errorsAhead] using hnoError, h.error⟩
  · rw [opOutput_of_isQuiet _ _ hquiet, zero_add] at hsplits herrors hnoError
    refine ⟨?_, herrors, ?_, ?_⟩
    · rw [hq]
      exact hsplits
    · rw [hp]
      exact hnoError
    · rw [hp]
      exact h.error

structure Inv (maxInflight : Nat) (works : List (Work S E)) (s : State S E) : Prop where
  owned : ∀ t ∈ s.threads, Owned t
  /-- The pool has a thread. -/
  waits : Op.take ∈ pending s.threads
  /-- `run` has claimed all batches when it leaves its loop. -/
  claims : s.shared.remaining ≠ [] → Op.claim ∈ pending s.threads
  counted : Counted maxInflight (pending s.threads) s.shared
  connected : Connected s.shared
  accounted : Accounted works (pending s.threads) s.shared

section Runs

variable {limit numThreads : Nat} {works : List (Work S E)} {s s' : State S E} {max : Nat}

theorem pending_start (numThreads : Nat) (works : List (Work S E)) :
    pending (start numThreads works).threads =
      .claim ::ₘ .release ::ₘ replicate numThreads .take := by
  have htakes : (List.replicate numThreads [(Op.take : Op S E)]).flatten =
      List.replicate numThreads .take := by simp
  rw [start, pending_cons, pending, htakes]
  rfl

theorem Inv.start (maxInflight numThreads : Nat) (works : List (Work S E)) :
    Inv maxInflight works (start (numThreads + 1) works) where
  owned := by
    intro t ht
    rcases List.mem_cons.1 ht with rfl | ht
    · simp [Owned, Op.holds]
    · rw [List.eq_of_mem_replicate ht]
      simp [Owned, Op.holds]
  waits := by
    rw [pending_start]
    simp
  claims := by
    rw [pending_start]
    simp
  counted := by
    rw [pending_start]
    refine ⟨?_, ?_, Nat.zero_le _, fun hne => absurd rfl hne, ?_⟩
    · simp [Splits.start, Op.refs]
    · simp [Splits.start, Op.slots]
    · simp [Splits.start, Op.closes]
  connected := ⟨rfl, rfl, [], 0, rfl, rfl, fun _ => rfl, fun hne => absurd rfl hne⟩
  accounted := by
    have hsplits : splitsAhead (pending (Splits.start (numThreads + 1) works).threads)
        (Splits.start (numThreads + 1) works).shared = produced works := by
      rw [← worksTotal_splits, splitsAhead, pending_start]
      simp [ahead, opTotal, Splits.start, worksTotal]
    have herrors : errorsAhead (pending (Splits.start (numThreads + 1) works).threads)
        (Splits.start (numThreads + 1) works).shared = thrown works := by
      rw [← worksTotal_errors, errorsAhead, pending_start]
      simp [ahead, opTotal, Splits.start, worksTotal]
    exact ⟨by rw [hsplits]; rfl, herrors.le, fun _ => herrors, fun _ he => by cases he⟩

/-- An operation that holds a reference runs while the connector is open. -/
theorem refs_pos_of_holds {rest : List (Op S E)} {R : Multiset (Op S E)}
    (howned : Owned (op :: rest)) (hrest : (rest : Multiset (Op S E)) ≤ R) (hop : op.holds = true) :
    0 < (R.map Op.refs).sum := by
  obtain ⟨R', rfl⟩ := exists_cons_of_mem (mem_of_le hrest (howned.1 hop))
  rw [map_cons, sum_cons, Op.refs]
  omega

theorem getNextSplit_eq {s s' : Shared S E} (h : getNextSplit s = some s') :
    ∃ splits returned, s' = { s with splits, returned } := by
  rw [getNextSplit] at h
  split at h
  · cases h
  · split at h <;> cases h <;> exact ⟨_, _, rfl⟩

theorem claim_of_remaining {s s' : Shared S E} {add : List (Op S E)}
    (h : perform max s op = some (s', add)) (hremaining : s'.remaining ≠ []) :
    (op = .claim ∧ .claim ∈ add) ∨ (op ≠ .claim ∧ s'.remaining = s.remaining) := by
  cases op with
  | claim =>
    left
    rw [perform] at h
    split at h
    next hnil =>
      cases h
      exact absurd hnil hremaining
    · cases h
      simp
  | enqueue _ | take | taskDone =>
    right
    rw [perform] at h
    split at h <;> cases h <;> exact ⟨by simp, rfl⟩
  | work work => cases work <;> cases h <;> exact .inr ⟨by simp, rfl⟩
  | schedule _ | push _ | setError _ | release | close =>
    cases h
    exact .inr ⟨by simp, rfl⟩

theorem Inv.step {maxInflight : Nat} {l : Label} (h : Inv maxInflight works s)
    (hstep : step maxInflight s l = some s') : Inv maxInflight works s' := by
  cases l with
  | get =>
    obtain ⟨shared, hget, rfl⟩ := map_eq_some_iff.1 hstep
    have hconnected := h.connected.getNextSplit hget
    obtain ⟨splits, returned, rfl⟩ := getNextSplit_eq hget
    obtain ⟨hrefs, hslots, hle, hpending, hcloses⟩ := h.counted
    obtain ⟨hsplits, herrors, hnoError, herror⟩ := h.accounted
    exact ⟨h.owned, h.waits, h.claims, ⟨hrefs, hslots, hle, hpending, hcloses⟩, hconnected,
      ⟨hsplits, herrors, hnoError, herror⟩⟩
  | thread i =>
    obtain ⟨op, rest, add, R, hthread, hperform, -, hpending, hpending', hrest⟩ := step_thread hstep
    have howned := h.owned _ (List.mem_of_getElem? hthread)
    have hcounted := h.counted
    have haccounted := h.accounted
    rw [hpending] at hcounted haccounted
    have hrefs := refs_pos_of_holds howned hrest
    refine ⟨owned_step h.owned hstep, ?_, ?_, ?_, ?_, ?_⟩
    · have hwaits := h.waits
      rw [hpending, mem_cons] at hwaits
      rw [hpending', mem_add]
      rcases hwaits with rfl | hwaits
      · exact .inl (mem_coe.2 (take_mem_perform hperform))
      · exact .inr hwaits
    · intro hremaining
      rw [hpending', mem_add]
      rcases claim_of_remaining hperform hremaining with ⟨hop, hadd⟩ | ⟨hop, hsame⟩
      · exact .inl (mem_coe.2 hadd)
      · have hclaims := h.claims (hsame ▸ hremaining)
        rw [hpending, mem_cons] at hclaims
        exact .inr (hclaims.resolve_left (Ne.symm hop))
    · rw [hpending']
      exact hcounted.step hrefs hperform
    · apply h.connected.perform _ hperform
      intro hop
      rcases hop with hop | rfl
      · apply hcounted.open_of_refs
        have := hrefs hop
        rw [map_cons, sum_cons]
        omega
      · have hcloses := hcounted.closes
        rw [map_cons, sum_cons, Op.closes] at hcloses
        split at hcloses <;> omega
    · rw [hpending']
      exact haccounted.perform hperform

theorem inv_of_run (hrun : Run (step (maxInflight limit (numThreads + 1))) (fun _ _ => True)
    (start (numThreads + 1) works) s) : Inv (maxInflight limit (numThreads + 1)) works s :=
  hrun.invariant (Inv.start _ _ works) fun h _ hstep => h.step hstep

/-! ## Progress -/

theorem maxInflight_pos (limit numThreads : Nat) : 0 < maxInflight limit (numThreads + 1) := by
  unfold maxInflight
  split <;> omega

/-- **No deadlock.** While the connector is open, some thread can go on. -/
theorem Inv.exists_step (h : Inv max works s) (hmax : 0 < max) (hopen : s.shared.closes = 0) :
    ∃ i s', Splits.step max s (.thread i) = some s' := by
  by_contra hstuck
  -- Threads that cannot go on are finished or wait for a closure.
  have hwait (t) (ht : t ∈ s.threads) : t = [] ∨ (t = [.take] ∧ s.shared.queue = []) := by
    cases t with
    | nil => exact .inl rfl
    | cons op rest =>
      right
      obtain ⟨i, hi⟩ := List.getElem?_of_mem ht
      have hblocked : ¬ (op = .take → s.shared.queue ≠ []) := by
        intro hgo
        obtain ⟨⟨shared, add⟩, hperform⟩ := perform_isSome max s.shared hgo
        exact hstuck ⟨i, _, step_thread_eq hi hperform⟩
      push Not at hblocked
      obtain ⟨rfl, hqueue⟩ := hblocked
      exact ⟨by rw [(h.owned _ ht).2.1 rfl], hqueue⟩
  have hqueue : s.shared.queue = [] := by
    obtain ⟨t, ht, htake⟩ := List.mem_flatten.1 (mem_coe.1 h.waits)
    rcases hwait t ht with rfl | ⟨-, hqueue⟩
    · cases htake
    · exact hqueue
  have hzero (f : Op S E → Nat) (hf : f .take = 0) : ((pending s.threads).map f).sum = 0 := by
    apply sum_eq_zero
    intro n hn
    obtain ⟨op, hop, rfl⟩ := mem_map.1 hn
    obtain ⟨t, ht, hop⟩ := List.mem_flatten.1 (mem_coe.1 hop)
    rcases hwait t ht with rfl | ⟨rfl, -⟩
    · cases hop
    · rw [List.mem_singleton.1 hop, hf]
  obtain ⟨hrefs, hslots, -, hpending, hcloses⟩ := h.counted
  rw [hzero _ rfl, hqueue, List.length_nil] at hrefs hslots
  have hnil : s.shared.pending = [] := by
    by_contra hne
    have := hpending hne
    omega
  rw [hnil, List.length_nil] at hrefs
  rw [hzero _ rfl, if_pos hrefs] at hcloses
  omega

/-! ## After the end -/

theorem Inv.idle_of_closed (h : Inv max works s) (hclosed : s.shared.closes ≠ 0) :
    (∀ op ∈ pending s.threads, op.refs = 0 ∧ op.holds = false) ∧ s.shared.pending = [] ∧
      s.shared.queue = [] ∧ s.shared.remaining = [] := by
  obtain ⟨hrefs, -, -, -, hcloses⟩ := h.counted
  have hzero : s.shared.refs = 0 := by
    by_contra hne
    rw [if_neg hne] at hcloses
    omega
  have hnone (op) (hop : op ∈ pending s.threads) : op.refs = 0 := by
    obtain ⟨R, hR⟩ := exists_cons_of_mem hop
    rw [hR, map_cons, sum_cons] at hrefs
    omega
  have hholds (op) (hop : op ∈ pending s.threads) : op.holds = false := by
    by_contra hhold
    obtain ⟨t, ht, hmem⟩ := List.mem_flatten.1 (mem_coe.1 hop)
    have hrelease := (h.owned t ht).release_mem hmem (by simpa using hhold)
    cases hnone _ (mem_pending_of_mem ht hrelease)
  refine ⟨fun op hop => ⟨hnone op hop, hholds op hop⟩, ?_, ?_, ?_⟩
  · exact List.eq_nil_of_length_eq_zero (by omega)
  · exact List.eq_nil_of_length_eq_zero (by omega)
  · by_contra hne
    cases hholds _ (h.claims hne)

theorem Inv.ahead_of_closed {M : Type} [AddCommMonoid M] (onSplit : S → M) (onError : E → M)
    (h : Inv max works s) (hclosed : s.shared.closes ≠ 0) :
    ahead onSplit onError (pending s.threads) s.shared = 0 := by
  obtain ⟨hops, hpending, hqueue, hremaining⟩ := h.idle_of_closed hclosed
  have hzero : ((pending s.threads).map (opTotal onSplit onError)).sum = 0 := by
    apply sum_eq_zero
    intro m hm
    obtain ⟨op, hop, rfl⟩ := mem_map.1 hm
    obtain ⟨hrefs, hholds⟩ := hops op hop
    cases op with
    | enqueue _ | schedule _ => cases hrefs
    | work _ | push _ | setError _ => cases hholds
    | claim | take | taskDone | release | close => rfl
  simp [ahead, hzero, hpending, hqueue, hremaining, worksTotal]

theorem Inv.pushed_of_closed (h : Inv max works s) (hclosed : s.shared.closes ≠ 0) :
    s.shared.pushed.Perm (produced works) := by
  have hsplits := h.accounted.splits
  rw [splitsAhead, h.ahead_of_closed _ _ hclosed, add_zero] at hsplits
  exact coe_eq_coe.1 hsplits

theorem Inv.exception_of_closed (h : Inv max works s) (hclosed : s.shared.closes ≠ 0) :
    (s.shared.exception = none ∧ thrown works = []) ∨
      ∃ error ∈ thrown works, s.shared.exception = some error := by
  have hexception := h.connected.exception
  rw [if_neg hclosed] at hexception
  rw [hexception]
  cases hptr : s.shared.errorPtr with
  | none =>
    left
    have hthrown := h.accounted.noError hptr
    rw [errorsAhead, h.ahead_of_closed _ _ hclosed] at hthrown
    exact ⟨rfl, (coe_eq_zero _).1 hthrown.symm⟩
  | some error => exact .inr ⟨error, h.accounted.error error hptr, rfl⟩

/-- The consumer gets splits of the batches, none twice, and then what a closed connector answers. -/
theorem Inv.returned (h : Inv max works s) :
    ∃ (xs : List S) (n : Nat),
      s.shared.returned = xs.map .split ++ List.replicate n s.shared.final ∧
      xs.Subperm (produced works) ∧ (n ≠ 0 → s.shared.closes ≠ 0) ∧
      (n ≠ 0 → s.shared.exception = none → xs.Perm (produced works)) := by
  obtain ⟨xs, n, hreturned, hpushed, hopen, hdrained⟩ := h.connected.returned
  have hclosed (hn : n ≠ 0) : s.shared.closes ≠ 0 := fun hzero => hn (hopen hzero)
  refine ⟨xs, n, hreturned, ?_, hclosed, ?_⟩
  · have hle : (s.shared.pushed : Multiset S) ≤ (produced works : Multiset S) :=
      h.accounted.splits ▸ le_add_right _ _
    have hxs : xs.Sublist s.shared.pushed := hpushed ▸ List.sublist_append_left xs _
    exact hxs.subperm.trans (coe_le.1 hle)
  · intro hn hnone
    have hperm := h.pushed_of_closed (hclosed hn)
    rwa [← hpushed, hdrained hn hnone, List.append_nil] at hperm

theorem effort_step {i : Nat} (hstep : step max s (.thread i) = some s') :
    effort (pending s'.threads) s'.shared < effort (pending s.threads) s.shared := by
  obtain ⟨op, rest, add, R, -, hperform, -, hpending, hpending', -⟩ := step_thread hstep
  rw [hpending, hpending']
  exact effort_perform hperform

def Answered (s : State S E) : Prop := ∃ o ∈ s.shared.returned, ∀ split, o ≠ .split split

/-- A closed connector lets the consumer go on, with one split less or to an answer. -/
theorem exists_get (max : Nat) (hclosed : s.shared.closes ≠ 0) :
    ∃ s', step max s .get = some s' ∧ s'.shared.closes ≠ 0 ∧
      (Answered s' ∨ s'.shared.splits.length < s.shared.splits.length) := by
  obtain ⟨shared, hget⟩ : ∃ shared, getNextSplit s.shared = some shared := by
    rw [getNextSplit, if_neg fun h => hclosed h.2]
    split <;> exact ⟨_, rfl⟩
  refine ⟨{ s with shared }, by simp [step, hget], ?_⟩
  rw [getNextSplit, if_neg fun h => hclosed h.2] at hget
  split at hget
  · cases hget
    exact ⟨hclosed, .inl ⟨_, List.mem_append_right _ (.head _), by simp⟩⟩
  next split splits hnone hsplits =>
    cases hget
    exact ⟨hclosed, .inr (by simp [hsplits])⟩
  · cases hget
    exact ⟨hclosed, .inl ⟨_, List.mem_append_right _ (.head _), by simp⟩⟩

theorem Inv.exists_closed (h : Inv max works s) (hmax : 0 < max) :
    ∃ s', Run (Splits.step max) (fun _ _ => True) s s' ∧ s'.shared.closes ≠ 0 := by
  have hprogress (a : State S E) (ha : Inv max works a) : a.shared.closes ≠ 0 ∨
      ∃ b, Run (Splits.step max) (fun _ _ => True) a b ∧ Inv max works b ∧
        effort (pending b.threads) b.shared < effort (pending a.threads) a.shared := by
    by_cases hopen : a.shared.closes = 0
    · obtain ⟨i, b, hb⟩ := ha.exists_step hmax hopen
      exact .inr ⟨b, .single (.thread i) trivial hb, ha.step hb, effort_step hb⟩
    · exact .inl hopen
  obtain ⟨s', hrun, -, hclosed⟩ := Run.exists_of_measure _ _ _ hprogress h
  exact ⟨s', hrun, hclosed⟩

theorem Inv.exists_answered (h : Inv max works s) (hmax : 0 < max) :
    ∃ s', Run (Splits.step max) (fun _ _ => True) s s' ∧ Answered s' := by
  obtain ⟨closed, hrun, hclosed⟩ := h.exists_closed hmax
  have hprogress (a : State S E) (ha : a.shared.closes ≠ 0) :
      (∃ b, Splits.step max a .get = some b ∧ Answered b) ∨
      ∃ b, Run (Splits.step max) (fun _ _ => True) a b ∧ b.shared.closes ≠ 0 ∧
        b.shared.splits.length < a.shared.splits.length := by
    obtain ⟨b, hb, hclosed, hanswered | hlt⟩ := exists_get max ha
    · exact .inl ⟨b, hb, hanswered⟩
    · exact .inr ⟨b, .single .get trivial hb, hclosed, hlt⟩
  obtain ⟨drained, hrun', -, s', hget, hanswered⟩ := Run.exists_of_measure _ _ _ hprogress hclosed
  exact ⟨s', (hrun.trans hrun').tail .get trivial hget, hanswered⟩

/-- **Delivery.** For all batches, limits and interleavings. Nothing is pushed after `close`, which
happens once and after the last push. If no batch throws, the consumer gets every split once and then the
end; otherwise it gets splits and then one of the exceptions. The threads come to an end in every
schedule, they do not get stuck before the connector is closed, and the consumer gets its answer. -/
theorem splits_delivered (limit numThreads : Nat) (works : List (Work S E)) {s : State S E}
    (hrun : Run (step (maxInflight limit (numThreads + 1))) (fun _ _ => True)
      (start (numThreads + 1) works) s) :
    s.shared.late = false ∧ s.shared.closes ≤ 1 ∧
    (s.shared.closes = 1 → s.shared.pushed.Perm (produced works) ∧
      ∀ t ∈ s.threads, ∀ split, .push split ∉ t) ∧
    (thrown works = [] → ∃ (xs : List S) (n : Nat),
      s.shared.returned = xs.map .split ++ List.replicate n .ended ∧
      xs.Subperm (produced works) ∧ (n ≠ 0 → xs.Perm (produced works))) ∧
    (thrown works ≠ [] → ∃ (xs : List S) (n : Nat), ∃ error ∈ thrown works,
      s.shared.returned = xs.map .split ++ List.replicate n (.threw error) ∧
      xs.Subperm (produced works)) ∧
    (∀ i s', step (maxInflight limit (numThreads + 1)) s (.thread i) = some s' →
      effort (pending s'.threads) s'.shared < effort (pending s.threads) s.shared) ∧
    (s.shared.closes = 0 →
      ∃ i s', step (maxInflight limit (numThreads + 1)) s (.thread i) = some s') ∧
    ∃ s', Run (step (maxInflight limit (numThreads + 1))) (fun _ _ => True) s s' ∧ Answered s' := by
  have h := inv_of_run hrun
  have hmax := maxInflight_pos limit numThreads
  obtain ⟨xs, n, hreturned, hsub, hclosed, hall⟩ := h.returned
  refine ⟨h.connected.late, ?_, ?_, ?_, ?_, fun i s' => effort_step, h.exists_step hmax,
    h.exists_answered hmax⟩
  · have hcloses := h.counted.closes
    split at hcloses <;> omega
  · intro hone
    have hne : s.shared.closes ≠ 0 := by omega
    refine ⟨h.pushed_of_closed hne, ?_⟩
    intro t ht split hpush
    cases ((h.idle_of_closed hne).1 _ (mem_pending_of_mem ht hpush)).2
  · intro hthrown
    by_cases hn : n = 0
    · subst hn
      exact ⟨xs, 0, hreturned, hsub, fun hne => absurd rfl hne⟩
    · rcases h.exception_of_closed (hclosed hn) with ⟨hnone, -⟩ | ⟨error, herror, -⟩
      · have hfinal : s.shared.final = .ended := by simp [Shared.final, hnone]
        rw [hfinal] at hreturned
        exact ⟨xs, n, hreturned, hsub, fun hn => hall hn hnone⟩
      · rw [hthrown] at herror
        cases herror
  · intro hthrown
    by_cases hn : n = 0
    · subst hn
      obtain ⟨error, herror⟩ := List.exists_mem_of_ne_nil _ hthrown
      exact ⟨xs, 0, error, herror, hreturned, hsub⟩
    · rcases h.exception_of_closed (hclosed hn) with ⟨-, hnil⟩ | ⟨error, herror, hsome⟩
      · exact absurd hnil hthrown
      · have hfinal : s.shared.final = .threw error := by simp [Shared.final, hsome]
        rw [hfinal] at hreturned
        exact ⟨xs, n, error, herror, hreturned, hsub⟩

/-- One thread, one batch with two splits. -/
theorem splits_delivered_two : ∃ s : State Nat Nat,
    Run (step (maxInflight 0 1)) (fun _ _ => True) (start 1 [.ok [1, 2]]) s ∧
      s.shared.returned = [.split 1, .split 2, .ended] ∧ s.shared.late = false := by
  obtain ⟨s, hrun, hreturned⟩ : ∃ s : State Nat Nat,
      Run (step (maxInflight 0 1)) (fun _ _ => true = true) (start 1 [.ok [1, 2]]) s ∧
        s.shared.returned = [.split 1, .split 2, .ended] := by
    apply Run.exists_of_runLabels [Label.thread 0, Label.thread 0, Label.thread 0, Label.thread 1,
      Label.thread 1, Label.thread 1, Label.get, Label.thread 0, Label.thread 0, Label.thread 1,
      Label.thread 1, Label.thread 1, Label.thread 1, Label.get, Label.get]
    decide
  have hrun' := hrun.mono fun _ _ _ => trivial
  exact ⟨s, hrun', hreturned, (splits_delivered 0 0 [.ok [1, 2]] hrun').1⟩

/-- **Bounded and work-conserving.** Closures in the pool, queued or under way, hold the slots of the
dispatcher. There are never more than `maxInflight` of them, and no fewer while others have to wait. -/
theorem slots_bounded (hrun : Run (step (maxInflight limit (numThreads + 1))) (fun _ _ => True)
    (start (numThreads + 1) works) s) :
    ((pending s.threads).map Op.slots).sum + s.shared.queue.length ≤
        maxInflight limit (numThreads + 1) ∧
      (s.shared.pending ≠ [] → ((pending s.threads).map Op.slots).sum + s.shared.queue.length =
        maxInflight limit (numThreads + 1)) := by
  obtain ⟨-, hslots, hle, hpending, -⟩ := (inv_of_run hrun).counted
  exact hslots ▸ ⟨hle, hpending⟩

theorem slots_bounded_two : ∃ s : State Nat Nat,
    Run (step (maxInflight 0 1)) (fun _ _ => True) (start 1 [.ok [1], .ok [2]]) s ∧
      s.shared.pending.length = 1 ∧
      ((pending s.threads).map Op.slots).sum + s.shared.queue.length = 1 := by
  obtain ⟨s, hrun, hpending⟩ : ∃ s : State Nat Nat,
      Run (step (maxInflight 0 1)) (fun _ _ => true = true) (start 1 [.ok [1], .ok [2]]) s ∧
        s.shared.pending.length = 1 := by
    apply Run.exists_of_runLabels (List.replicate 5 (.thread 0))
    decide
  have hrun := hrun.mono fun _ _ _ => trivial
  exact ⟨s, hrun, hpending, (slots_bounded hrun).2 (List.ne_nil_of_length_pos (by omega))⟩

end Runs

end Sirius.Splits
