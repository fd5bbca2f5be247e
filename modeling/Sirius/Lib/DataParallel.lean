import Mathlib.Algebra.BigOperators.Group.Finset.Basic
import Mathlib.Algebra.Order.Ring.Nat
import Mathlib.Tactic.Abel

/-!
# Data-parallel kernels

What the threads of a kernel do together. A *strided* loop starts at the number of the thread and
advances by the number of threads, so that together the threads come to every index once. What they
write is a list of writes in some order; if all writes to one place agree, the order does not matter
(`WritesExactly.leaves`). A prefix sum can be computed tile by tile: each thread sums up its own values, a
warp the sums of its threads, and one thread the sums of the warps (`sum_blockScan`).
-/

namespace Sirius.Lib

open List

/-! ## Strided loops -/

/-- The indices of `for (i = start; i < bound; i += step)`. -/
def strided (start step bound : Nat) : List Nat :=
  (List.range ((bound - start + step - 1) / step)).map fun k => start + k * step

theorem mem_strided {start step bound i : Nat} (hstep : 0 < step) :
    i ∈ strided start step bound ↔ start ≤ i ∧ i < bound ∧ (i - start) % step = 0 := by
  simp only [strided, mem_map, mem_range]
  constructor
  · rintro ⟨k, hk, rfl⟩
    have hk := (Nat.le_div_iff_mul_le hstep).1 (Nat.succ_le_of_lt hk)
    rw [Nat.succ_mul] at hk
    refine ⟨Nat.le_add_right _ _, by omega, ?_⟩
    rw [Nat.add_sub_cancel_left, Nat.mul_mod_left]
  · rintro ⟨hstart, hbound, hmod⟩
    have hdiv := Nat.div_add_mod (i - start) step
    rw [hmod, Nat.add_zero, Nat.mul_comm] at hdiv
    refine ⟨(i - start) / step, ?_, by omega⟩
    apply (Nat.le_div_iff_mul_le hstep).2
    rw [Nat.succ_mul, hdiv]
    omega

/-- **Together the threads come to every index.** -/
theorem exists_mem_strided {start threads bound i : Nat} (h : 0 < threads) :
    (∃ t < threads, i ∈ strided (start + t) threads bound) ↔ start ≤ i ∧ i < bound := by
  simp only [mem_strided h]
  constructor
  · rintro ⟨t, _, hle, hlt, _⟩
    omega
  · rintro ⟨hle, hlt⟩
    refine ⟨(i - start) % threads, Nat.mod_lt _ h, ?_, hlt, ?_⟩
    · have hmod := Nat.mod_le (i - start) threads
      omega
    · have hdiv := Nat.div_add_mod (i - start) threads
      rw [show i - (start + (i - start) % threads) = threads * ((i - start) / threads) by omega,
        Nat.mul_mod_right]

/-- A loop that breaks in the first round without a result. -/
def untilBreak {ι α : Type*} (step : ι → Option α) : List ι → List α
  | [] => []
  | i :: is =>
    match step i with
    | none => []
    | some a => a :: untilBreak step is

theorem mem_untilBreak {ι α : Type*} {step : ι → Option α} {is : List ι}
    (h : is.Pairwise fun i j => step i = none → step j = none) {a : α} :
    a ∈ untilBreak step is ↔ ∃ i ∈ is, step i = some a := by
  induction is with
  | nil => simp [untilBreak]
  | cons i is ih =>
    rw [pairwise_cons] at h
    rw [untilBreak]
    cases hi : step i with
    | none =>
      constructor
      · intro ha
        cases ha
      · rintro ⟨j, hj, ha⟩
        rcases mem_cons.1 hj with rfl | hj
        · rw [hi] at ha
          cases ha
        · rw [h.1 j hj hi] at ha
          cases ha
    | some b =>
      dsimp only
      rw [mem_cons, ih h.2]
      constructor
      · rintro (rfl | ⟨j, hj, ha⟩)
        · exact ⟨i, .head _, hi⟩
        · exact ⟨j, .tail _ hj, ha⟩
      · rintro ⟨j, hj, ha⟩
        rcases mem_cons.1 hj with rfl | hj
        · rw [hi] at ha
          exact .inl (Option.some.inj ha).symm
        · exact .inr ⟨j, hj, ha⟩

/-! ## Writes -/

section Writes

variable {α : Type*}

/-- The places after some writes, in this order. -/
def applyWrites (out : Nat → α) (writes : List (Nat × α)) : Nat → α :=
  writes.foldl (fun out w => Function.update out w.1 w.2) out

theorem applyWrites_of_ne {out : Nat → α} {writes : List (Nat × α)} {i : Nat}
    (h : ∀ w ∈ writes, w.1 ≠ i) : applyWrites out writes i = out i := by
  induction writes generalizing out with
  | nil => rfl
  | cons w writes ih =>
    rw [forall_mem_cons] at h
    exact (ih h.2).trans (Function.update_of_ne h.1.symm _ _)

theorem applyWrites_of_mem {out : Nat → α} {writes : List (Nat × α)} {i : Nat} {a : α}
    (h : ∀ w ∈ writes, w.1 = i → w.2 = a) (hmem : (i, a) ∈ writes) :
    applyWrites out writes i = a := by
  induction writes generalizing out with
  | nil => cases hmem
  | cons w writes ih =>
    rw [forall_mem_cons] at h
    by_cases hlater : ∃ w' ∈ writes, w'.1 = i
    · obtain ⟨w', hw', rfl⟩ := hlater
      have hvalue := h.2 w' hw' rfl
      exact ih h.2 (hvalue ▸ hw')
    · -- this is the last write to the place
      have hother : ∀ w' ∈ writes, w'.1 ≠ i := fun w' hw' heq => hlater ⟨w', hw', heq⟩
      have hw : w = (i, a) := by
        rcases mem_cons.1 hmem with heq | hmem
        · exact heq.symm
        · exact absurd rfl (hother _ hmem)
      rw [hw]
      exact (applyWrites_of_ne hother).trans (Function.update_self _ _ _)

/-- In whatever order the writes are done, `value i` is then at place `first + i`, for each `i` below `n`,
and the other places are as before. -/
def Leaves (writes : List (Nat × α)) (first n : Nat) (value : Nat → α) : Prop :=
  ∀ (out : Nat → α) (order : List (Nat × α)), order.Perm writes →
    (∀ i < n, applyWrites out order (first + i) = value i) ∧
      ∀ place, (∀ i < n, place ≠ first + i) → applyWrites out order place = out place

/-- The writes put `value i` at place `first + i`, for each `i` below `n`, and do nothing else. -/
structure WritesExactly (writes : List (Nat × α)) (first n : Nat) (value : Nat → α) : Prop where
  only : ∀ place a, (place, a) ∈ writes → ∃ i < n, place = first + i ∧ a = value i
  all : ∀ i < n, (first + i, value i) ∈ writes

namespace WritesExactly

variable {writes : List (Nat × α)} {first n : Nat} {value : Nat → α}

/-- Writes from place `0` on. -/
theorem of_mem_iff (h : ∀ i a, (i, a) ∈ writes ↔ i < n ∧ a = value i) :
    WritesExactly writes 0 n value where
  only i a hmem := ⟨i, ((h i a).1 hmem).1, (Nat.zero_add i).symm, ((h i a).1 hmem).2⟩
  all i hi := (Nat.zero_add i).symm ▸ (h i (value i)).2 ⟨hi, rfl⟩

theorem shift (h : WritesExactly writes 0 n value) (first : Nat) :
    WritesExactly (writes.map fun w => (first + w.1, w.2)) first n value where
  only place a hmem := by
    obtain ⟨⟨j, b⟩, hw, heq⟩ := mem_map.1 hmem
    obtain ⟨rfl, rfl⟩ := Prod.mk.inj heq
    obtain ⟨i, hi, hplace, ha⟩ := h.only j b hw
    exact ⟨i, hi, by dsimp only; omega, ha⟩
  all i hi := by
    have hmem := h.all i hi
    rw [Nat.zero_add] at hmem
    exact mem_map.2 ⟨(i, value i), hmem, rfl⟩

theorem congr {value' : Nat → α} (h : WritesExactly writes first n value)
    (hvalue : ∀ i < n, value i = value' i) : WritesExactly writes first n value' where
  only place a hmem := by
    obtain ⟨i, hi, hplace, ha⟩ := h.only place a hmem
    exact ⟨i, hi, hplace, ha.trans (hvalue i hi)⟩
  all i hi := hvalue i hi ▸ h.all i hi

theorem tiles {writes : Nat → List (Nat × α)} (rows : Nat → Nat) {m : Nat} (tile : Nat)
    (h : ∀ t < m, WritesExactly (writes t) (first + t * tile) (rows t) fun i => value (t * tile + i))
    (hinside : ∀ t < m, t * tile + rows t ≤ n)
    (hcover : ∀ i < n, i / tile < m ∧ i % tile < rows (i / tile)) :
    WritesExactly ((range m).flatMap writes) first n value where
  only place a hmem := by
    obtain ⟨t, ht, hmem⟩ := mem_flatMap.1 hmem
    have ht := mem_range.1 ht
    obtain ⟨i, hi, hplace, ha⟩ := (h t ht).only place a hmem
    have hend := hinside t ht
    exact ⟨t * tile + i, by omega, by omega, ha⟩
  all i hi := by
    obtain ⟨htile, hrow⟩ := hcover i hi
    have hmem := (h _ htile).all _ hrow
    rw [Nat.add_assoc, Nat.div_add_mod'] at hmem
    exact mem_flatMap.2 ⟨i / tile, mem_range.2 htile, hmem⟩

/-- **In any order**, the writes put the values in their places and change no others. -/
theorem leaves (h : WritesExactly writes first n value) : Leaves writes first n value := by
  intro out order horder
  constructor
  · intro i hi
    apply applyWrites_of_mem
    · rintro ⟨place, a⟩ hmem heq
      obtain ⟨j, hj, hplace, ha⟩ := h.only place a (horder.mem_iff.1 hmem)
      obtain rfl : i = j := by
        dsimp only at heq
        omega
      exact ha
    · exact horder.mem_iff.2 (h.all i hi)
  · intro place hplace
    apply applyWrites_of_ne
    rintro ⟨place', a⟩ hmem heq
    obtain ⟨i, hi, hplace', _⟩ := h.only place' a (horder.mem_iff.1 hmem)
    exact hplace i hi (heq ▸ hplace')

end WritesExactly

theorem exists_mem_strided_zero {threads n i : Nat} (h : 0 < threads) :
    (∃ t < threads, i ∈ strided t threads n) ↔ i < n := by
  have hiff : (∃ t < threads, i ∈ strided (0 + t) threads n) ↔ 0 ≤ i ∧ i < n := exists_mem_strided h
  simpa only [Nat.zero_add, Nat.zero_le, true_and] using hiff

theorem writesExactly_strided {threads n : Nat} (h : 0 < threads) (value : Nat → α) :
    WritesExactly ((range threads).flatMap fun t =>
      (strided t threads n).map fun i => (i, value i)) 0 n value := by
  apply WritesExactly.of_mem_iff
  intro i a
  simp only [mem_flatMap, mem_range, mem_map, Prod.mk.injEq]
  constructor
  · rintro ⟨t, ht, j, hj, rfl, rfl⟩
    exact ⟨(exists_mem_strided_zero h).1 ⟨t, ht, hj⟩, rfl⟩
  · rintro ⟨hi, rfl⟩
    obtain ⟨t, ht, hmem⟩ := (exists_mem_strided_zero h).2 hi
    exact ⟨t, ht, i, hmem, rfl, rfl⟩

/-- The writes of threads that each go through every `threads`-th index and break behind the last one. -/
theorem writesExactly_striped {threads rounds n : Nat} (hn : n ≤ rounds * threads) (value : Nat → α) :
    WritesExactly ((range threads).flatMap fun t =>
      untilBreak (fun r => if r * threads + t < n then some (r * threads + t, value (r * threads + t))
        else none) (range rounds)) 0 n value := by
  apply WritesExactly.of_mem_iff
  intro i a
  have hbreak : ∀ t, (range rounds).Pairwise fun r r' =>
      (if r * threads + t < n then some (r * threads + t, value (r * threads + t)) else none) = none →
      (if r' * threads + t < n then some (r' * threads + t, value (r' * threads + t)) else none) = none := by
    intro t
    apply pairwise_lt_range.imp
    intro r r' hlt hnone
    have hle := Nat.mul_le_mul_right threads (Nat.le_of_lt hlt)
    split at hnone
    · cases hnone
    · rw [if_neg (by omega)]
  simp only [mem_flatMap, mem_range, mem_untilBreak (hbreak _)]
  constructor
  · rintro ⟨t, ht, r, hr, heq⟩
    split at heq
    next hlt =>
      cases heq
      exact ⟨hlt, rfl⟩
    · cases heq
  · rintro ⟨hi, rfl⟩
    have hpos : 0 < threads := by
      rcases Nat.eq_zero_or_pos threads with rfl | hpos
      · omega
      · exact hpos
    have hround : i / threads < rounds := Nat.div_lt_of_lt_mul (by rw [Nat.mul_comm]; omega)
    refine ⟨i % threads, Nat.mod_lt _ hpos, i / threads, hround, ?_⟩
    rw [Nat.div_add_mod', if_pos hi]

end Writes

/-! ## Prefix sums -/

section Scan

variable {α : Type*}

/-- The loop `x[i] = x[i] + x[i - 1]`. -/
def inclusiveScan [Add α] (f : Nat → α) : Nat → α
  | 0 => f 0
  | n + 1 => f (n + 1) + inclusiveScan f n

/-- A loop with a running sum, which is stored before each value is added. -/
def exclusiveScan [Zero α] [Add α] (f : Nat → α) : Nat → α
  | 0 => 0
  | n + 1 => exclusiveScan f n + f n

theorem inclusiveScan_eq_sum [AddCommMonoid α] (f : Nat → α) (n : Nat) :
    inclusiveScan f n = ∑ i ∈ Finset.range (n + 1), f i := by
  induction n with
  | zero => simp [inclusiveScan]
  | succ n ih => rw [inclusiveScan, ih, Finset.sum_range_succ _ (n + 1), add_comm]

theorem exclusiveScan_eq_sum [AddCommMonoid α] (f : Nat → α) (n : Nat) :
    exclusiveScan f n = ∑ i ∈ Finset.range n, f i := by
  induction n with
  | zero => rfl
  | succ n ih => rw [exclusiveScan, ih, Finset.sum_range_succ]

/-- A sum over tiles of size `k`. -/
theorem sum_range_tiles [AddCommMonoid α] (f : Nat → α) (t k : Nat) :
    ∑ i ∈ Finset.range (t * k), f i =
      ∑ s ∈ Finset.range t, ∑ u ∈ Finset.range k, f (s * k + u) := by
  induction t with
  | zero => simp
  | succ t ih => rw [Nat.succ_mul, Finset.sum_range_add, ih, Finset.sum_range_succ]

/-- **A prefix sum in three stages.** Each thread has `k` values, and each warp `lanes` threads: the sum
up to value `v` of thread `t` is that of the warps before, of the threads before in its warp (the
inclusive sum without the thread's own), and of its own values. -/
theorem sum_blockScan [AddCommGroup α] (f : Nat → α) (k lanes t v : Nat) :
    ∑ i ∈ Finset.range (t * k + v + 1), f i =
      (∑ w ∈ Finset.range (t / lanes), ∑ l ∈ Finset.range lanes,
        ∑ u ∈ Finset.range k, f ((w * lanes + l) * k + u)) +
      ((∑ l ∈ Finset.range (t % lanes + 1), ∑ u ∈ Finset.range k, f ((t / lanes * lanes + l) * k + u)) -
        ∑ u ∈ Finset.range k, f (t * k + u)) +
      ∑ u ∈ Finset.range (v + 1), f (t * k + u) := by
  have ht := Nat.div_add_mod' t lanes
  have hthreads : ∑ i ∈ Finset.range (t * k), f i =
      (∑ w ∈ Finset.range (t / lanes), ∑ l ∈ Finset.range lanes,
        ∑ u ∈ Finset.range k, f ((w * lanes + l) * k + u)) +
      ∑ l ∈ Finset.range (t % lanes), ∑ u ∈ Finset.range k, f ((t / lanes * lanes + l) * k + u) := by
    rw [sum_range_tiles, ← sum_range_tiles (fun s => ∑ u ∈ Finset.range k, f (s * k + u)),
      ← Finset.sum_range_add, ht]
  rw [Nat.add_assoc, Finset.sum_range_add, hthreads, Finset.sum_range_succ _ (t % lanes), ht]
  abel

end Scan

end Sirius.Lib
