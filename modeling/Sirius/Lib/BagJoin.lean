import Mathlib.Algebra.BigOperators.Fin
import Mathlib.Algebra.Order.Ring.Nat

/-!
# Joins of bags

The joins of two bags `A` and `B` over an arbitrary matching predicate `θ`, as bags. All of them
are built from three: the inner join and the split of `A` into the elements with and without a
match. The inner join is additive on both sides, the split is additive on the left, and both
decompose along any partitioning that puts matching elements into the same part.
-/

namespace Sirius.Lib

open Multiset

variable {α β : Type} (θ : α → β → Bool)

def hasMatch (B : Multiset β) (a : α) : Bool := decide (0 < B.countP fun b => θ a b = true)

def innerJoin (A : Multiset α) (B : Multiset β) : Multiset (α × β) :=
  (A ×ˢ B).filter fun x => θ x.1 x.2 = true

def semiJoin (A : Multiset α) (B : Multiset β) : Multiset α :=
  A.filter fun a => hasMatch θ B a = true

def antiJoin (A : Multiset α) (B : Multiset β) : Multiset α :=
  A.filter fun a => hasMatch θ B a = false

/-- Every element of `A`, with its matches or alone. -/
def leftJoin (A : Multiset α) (B : Multiset β) : Multiset (α × Option β) :=
  (innerJoin θ A B).map (fun x => (x.1, some x.2)) + (antiJoin θ A B).map fun a => (a, none)

/-- Every element of `A` and of `B`, with its matches or alone. -/
def fullJoin (A : Multiset α) (B : Multiset β) : Multiset (Option α × Option β) :=
  (innerJoin θ A B).map (fun x => (some x.1, some x.2)) +
    (antiJoin θ A B).map (fun a => (some a, none)) +
    (antiJoin (fun b a => θ a b) B A).map fun b => (none, some b)

variable {θ}

/-! ## Matches -/

@[simp] theorem hasMatch_iff {B : Multiset β} {a : α} :
    hasMatch θ B a = true ↔ ∃ b ∈ B, θ a b = true := by
  rw [hasMatch, decide_eq_true_iff, countP_pos]

variable (a : α) (B : Multiset β) (A : Multiset α)

@[simp] theorem hasMatch_zero : hasMatch θ 0 a = false := by
  simp [hasMatch]

/-! ## Additivity -/

@[simp] theorem innerJoin_zero_left : innerJoin θ 0 B = 0 := by
  simp [innerJoin]

@[simp] theorem innerJoin_zero_right : innerJoin θ A 0 = 0 := by
  simp [innerJoin]

theorem innerJoin_add_left (A' : Multiset α) (B : Multiset β) :
    innerJoin θ (A + A') B = innerJoin θ A B + innerJoin θ A' B := by
  simp [innerJoin, add_product]

theorem innerJoin_add_right (B B' : Multiset β) :
    innerJoin θ A (B + B') = innerJoin θ A B + innerJoin θ A B' := by
  simp [innerJoin, product_add]

theorem semiJoin_add_left (A' : Multiset α) (B : Multiset β) :
    semiJoin θ (A + A') B = semiJoin θ A B + semiJoin θ A' B := by
  simp [semiJoin]

theorem antiJoin_add_left (A' : Multiset α) (B : Multiset β) :
    antiJoin θ (A + A') B = antiJoin θ A B + antiJoin θ A' B := by
  simp [antiJoin]

@[simp] theorem semiJoin_zero_left : semiJoin θ 0 B = 0 := rfl

@[simp] theorem antiJoin_zero_left : antiJoin θ 0 B = 0 := rfl

@[simp] theorem semiJoin_zero_right : semiJoin θ A 0 = 0 := by
  simp [semiJoin]

@[simp] theorem antiJoin_zero_right : antiJoin θ A 0 = A := by
  simp [antiJoin]

theorem leftJoin_add_left (A' : Multiset α) (B : Multiset β) :
    leftJoin θ (A + A') B = leftJoin θ A B + leftJoin θ A' B := by
  simp only [leftJoin, innerJoin_add_left, antiJoin_add_left, map_add]
  exact add_add_add_comm _ _ _ _

@[simp] theorem leftJoin_zero_left : leftJoin θ 0 B = 0 := by
  simp [leftJoin]

@[simp] theorem leftJoin_zero_right : leftJoin θ A 0 = A.map fun a => (a, none) := by
  simp [leftJoin]

theorem mem_innerJoin {A : Multiset α} {B : Multiset β} {x : α × β} :
    x ∈ innerJoin θ A B ↔ x.1 ∈ A ∧ x.2 ∈ B ∧ θ x.1 x.2 = true := by
  simp [innerJoin, and_assoc]

theorem innerJoin_cons (A : Multiset α) (B : Multiset β) :
    innerJoin θ (a ::ₘ A) B = (B.filter fun b => θ a b = true).map (Prod.mk a) +
      innerJoin θ A B := by
  rw [innerJoin, cons_product, filter_add, filter_map]
  rfl

theorem innerJoin_singleton (b : β) :
    innerJoin θ {a} {b} = if θ a b = true then {(a, b)} else 0 := by
  rw [innerJoin, product_singleton, filter_singleton]
  rfl

theorem innerJoin_swap_singleton (B : Multiset β) :
    (innerJoin (fun b a => θ a b) B {a}).map Prod.swap = innerJoin θ {a} B := by
  induction B using Multiset.induction with
  | empty => simp
  | cons b B ih =>
    rw [← Multiset.singleton_add, innerJoin_add_left, innerJoin_add_right, Multiset.map_add, ih,
      innerJoin_singleton, innerJoin_singleton]
    congr 1
    split <;> simp

theorem innerJoin_swap (B : Multiset β) :
    (innerJoin (fun b a => θ a b) B A).map Prod.swap = innerJoin θ A B := by
  induction A using Multiset.induction with
  | empty => simp
  | cons a A ih =>
    rw [← Multiset.singleton_add, innerJoin_add_left, innerJoin_add_right, Multiset.map_add, ih,
      innerJoin_swap_singleton]

/-! ## Predicates that agree on the two bags -/

section Congr

variable {θ' : α → β → Bool} {A : Multiset α} {B : Multiset β}
  (h : ∀ a ∈ A, ∀ b ∈ B, θ a b = θ' a b)

include h

end Congr

/-! ## Sums -/

section Sums

variable {M : Type} [AddCommMonoid M] {f : Multiset α → M}

/-- An additive function of a bag commutes with finite sums. -/
theorem additive_sum {ι : Type} (hzero : f 0 = 0) (hadd : ∀ A A', f (A + A') = f A + f A')
    (s : Finset ι) (g : ι → Multiset α) : f (∑ i ∈ s, g i) = ∑ i ∈ s, f (g i) :=
  map_sum (⟨⟨f, hzero⟩, hadd⟩ : Multiset α →+ M) g s

theorem additive_list_sum (hzero : f 0 = 0) (hadd : ∀ A A', f (A + A') = f A + f A')
    (parts : List (Multiset α)) : f parts.sum = (parts.map f).sum :=
  map_list_sum (⟨⟨f, hzero⟩, hadd⟩ : Multiset α →+ M) parts

end Sums

theorem sum_map {ι γ : Type} (s : Finset ι) (g : ι → Multiset α) (f : α → γ) :
    ∑ i ∈ s, (g i).map f = (∑ i ∈ s, g i).map f :=
  (map_sum (mapAddMonoidHom f) g s).symm

theorem innerJoin_sum_left {ι : Type} (s : Finset ι) (g : ι → Multiset α) (B : Multiset β) :
    innerJoin θ (∑ i ∈ s, g i) B = ∑ i ∈ s, innerJoin θ (g i) B :=
  additive_sum (f := fun A => innerJoin θ A B) (innerJoin_zero_left B)
    (fun A A' => innerJoin_add_left A A' B) s g

/-! ## Partitioning -/

theorem sum_filter_key {n : Nat} (key : α → Fin n) (A : Multiset α) :
    ∑ i, A.filter (fun a => key a = i) = A := by
  induction A using Multiset.induction with
  | empty => simp
  | cons a A ih =>
    have hone : ∑ i, (if key a = i then ({a} : Multiset α) else 0) = {a} := by
      rw [Finset.sum_ite_eq]
      simp
    simp only [Multiset.filter_cons, Finset.sum_add_distrib, ih, hone, Multiset.singleton_add]

section Partitioned

variable {n : Nat} {keyA : α → Fin n} {keyB : β → Fin n}

section

variable (hco : ∀ a b, θ a b = true → keyA a = keyB b)

include hco

theorem hasMatch_part (B : Multiset β) (a : α) :
    hasMatch θ (B.filter fun b => keyB b = keyA a) a = hasMatch θ B a := by
  rw [Bool.eq_iff_iff, hasMatch_iff, hasMatch_iff]
  constructor
  · rintro ⟨b, hb, hθ⟩
    exact ⟨b, mem_of_mem_filter hb, hθ⟩
  · rintro ⟨b, hb, hθ⟩
    exact ⟨b, mem_filter.mpr ⟨hb, (hco a b hθ).symm⟩, hθ⟩

theorem filter_hasMatch_part (A : Multiset α) (B : Multiset β) (matched : Bool) :
    ∑ i, (A.filter fun a => keyA a = i).filter
        (fun a => hasMatch θ (B.filter fun b => keyB b = i) a = matched) =
      A.filter fun a => hasMatch θ B a = matched := by
  conv_rhs => rw [← sum_filter_key keyA A]
  rw [additive_sum (filter_zero _) fun A A' => filter_add _ A A']
  refine Finset.sum_congr rfl fun i _ => filter_congr fun a ha => ?_
  obtain rfl : keyA a = i := (mem_filter.mp ha).2
  rw [hasMatch_part hco]

theorem semiJoin_part (A : Multiset α) (B : Multiset β) :
    ∑ i, semiJoin θ (A.filter fun a => keyA a = i) (B.filter fun b => keyB b = i) = semiJoin θ A B :=
  filter_hasMatch_part hco A B true

theorem antiJoin_part (A : Multiset α) (B : Multiset β) :
    ∑ i, antiJoin θ (A.filter fun a => keyA a = i) (B.filter fun b => keyB b = i) = antiJoin θ A B :=
  filter_hasMatch_part hco A B false

theorem innerJoin_part (A : Multiset α) (B : Multiset β) :
    ∑ i, innerJoin θ (A.filter fun a => keyA a = i) (B.filter fun b => keyB b = i) =
      innerJoin θ A B := by
  conv_rhs => rw [← sum_filter_key keyA A]
  rw [innerJoin_sum_left]
  refine Finset.sum_congr rfl fun i _ => ?_
  conv_rhs => rw [← filter_add_not (fun b => keyB b = i) B, innerJoin_add_right]
  -- No element of part `i` matches outside of it.
  have hnone : innerJoin θ (A.filter fun a => keyA a = i) (B.filter fun b => ¬ keyB b = i) = 0 := by
    rw [eq_zero_iff_forall_notMem]
    rintro ⟨a, b⟩ hab
    obtain ⟨ha, hb, hθ⟩ := mem_innerJoin.mp hab
    exact (mem_filter.mp hb).2 ((hco a b hθ).symm.trans (mem_filter.mp ha).2)
  rw [hnone, add_zero]

theorem leftJoin_part (A : Multiset α) (B : Multiset β) :
    ∑ i, leftJoin θ (A.filter fun a => keyA a = i) (B.filter fun b => keyB b = i) =
      leftJoin θ A B := by
  simp only [leftJoin, Finset.sum_add_distrib, sum_map, innerJoin_part hco, antiJoin_part hco]

theorem fullJoin_part (A : Multiset α) (B : Multiset β) :
    ∑ i, fullJoin θ (A.filter fun a => keyA a = i) (B.filter fun b => keyB b = i) =
      fullJoin θ A B := by
  have hco' : ∀ b a, θ a b = true → keyB b = keyA a := fun b a h => (hco a b h).symm
  simp only [fullJoin, Finset.sum_add_distrib, sum_map, innerJoin_part hco, antiJoin_part hco,
    antiJoin_part hco']

end

end Partitioned

end Sirius.Lib
