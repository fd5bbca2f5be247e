import Mathlib.Data.List.Nodup
import Mathlib.Data.List.TakeWhile
import Sirius.Lib.Slices

/-!
# A linked list in consecutive buckets

A list of distinct nodes is cut into consecutive buckets by one iterator per bucket, which stands where
the bucket ends: at the first node of a later bucket, or at the end of the list. An iterator is the node
it stands at, `none` at the end.

Seen from above this is a list of nodes with their bucket numbers, which never fall (`Bucketed`).
-/

namespace Sirius.Lib

open List

variable {α : Type*}

/-! ## Iterators -/

section

variable [DecidableEq α]

def insertBefore (pos : Option α) (a : α) (l : List α) : List α :=
  l.takeWhile (fun x => some x ≠ pos) ++ a :: l.dropWhile (fun x => some x ≠ pos)

def nextOf (l : List α) (a : α) : Option α := (l.dropWhile (fun x => x ≠ a)).tail.head?

theorem insertBefore_append {l₁ l₂ : List α} (h : (l₁ ++ l₂).Nodup) (a : α) :
    insertBefore l₂.head? a (l₁ ++ l₂) = l₁ ++ a :: l₂ := by
  have hfront : ∀ x ∈ l₁, decide (some x ≠ l₂.head?) = true := by
    intro x hx
    rw [decide_eq_true_iff]
    intro heq
    exact (nodup_append.1 h).2.2 x hx x (mem_of_mem_head? heq.symm) rfl
  have hhead : l₂.takeWhile (fun x => some x ≠ l₂.head?) = [] ∧
      l₂.dropWhile (fun x => some x ≠ l₂.head?) = l₂ := by
    cases l₂ <;> simp
  rw [insertBefore, takeWhile_append_of_pos hfront, dropWhile_append_of_pos hfront,
    hhead.1, hhead.2, append_nil]

theorem nextOf_append {l₁ : List α} {a : α} (h : a ∉ l₁) (l₂ : List α) :
    nextOf (l₁ ++ a :: l₂) a = l₂.head? := by
  have hfront : ∀ x ∈ l₁, decide (x ≠ a) = true := by
    intro x hx
    rw [decide_eq_true_iff]
    rintro rfl
    exact h hx
  rw [nextOf, dropWhile_append_of_pos hfront]
  simp

end

/-! ## Buckets -/

/-- Distinct nodes with ascending bucket numbers below `n`. -/
structure Bucketed (n : Nat) (B : List (α × Nat)) : Prop where
  nodup : (B.map Prod.fst).Nodup
  sorted : B.Pairwise fun x y => x.2 ≤ y.2
  lt : ∀ x ∈ B, x.2 < n

def boundary (B : List (α × Nat)) (j : Nat) : Option α := (B.find? fun x => j < x.2).map Prod.fst

def boundaries (n : Nat) (B : List (α × Nat)) : List (Option α) := (List.range n).map (boundary B)

def insertTail (b : Nat) (a : α) (B : List (α × Nat)) : List (α × Nat) :=
  B.filter (fun x => x.2 ≤ b) ++ (a, b) :: B.filter (fun x => b < x.2)

theorem getElem?_boundaries {n j : Nat} (B : List (α × Nat)) (hj : j < n) :
    (boundaries n B)[j]? = some (boundary B j) := by
  simp [boundaries, hj]

theorem boundary_cons (x : α × Nat) (B : List (α × Nat)) (j : Nat) :
    boundary (x :: B) j = if j < x.2 then some x.1 else boundary B j := by
  by_cases h : j < x.2 <;> simp [boundary, h]

theorem boundary_append (B B' : List (α × Nat)) (j : Nat) :
    boundary (B ++ B') j = (boundary B j).or (boundary B' j) := by
  rw [boundary, find?_append, Option.map_or]
  rfl

theorem boundary_eq_none {B : List (α × Nat)} {j : Nat} :
    boundary B j = none ↔ ∀ x ∈ B, x.2 ≤ j := by
  rw [boundary, Option.map_eq_none_iff, find?_eq_none]
  simp

theorem boundary_eq_none_of_le {B : List (α × Nat)} {i j : Nat} (hij : i ≤ j)
    (hi : boundary B i = none) : boundary B j = none := by
  rw [boundary_eq_none] at hi ⊢
  exact fun x hx => (hi x hx).trans hij

/-- Behind bucket `j` stands the first node whose bucket is a later one. -/
theorem boundary_of_lt {B : List (α × Nat)} {j : Nat} (h : ∀ x ∈ B, j < x.2) :
    boundary B j = B.head?.map Prod.fst := by
  cases B with
  | nil => rfl
  | cons x B => simp [boundary, h x (.head _)]

theorem boundary_mem {B : List (α × Nat)} {j : Nat} {a : α} (h : boundary B j = some a) :
    ∃ x ∈ B, x.1 = a ∧ j < x.2 := by
  obtain ⟨x, hx, rfl⟩ := Option.map_eq_some_iff.1 h
  exact ⟨x, mem_of_find?_eq_some hx, rfl, by simpa using find?_some hx⟩

theorem filter_early {B : List (α × Nat)} {j : Nat} (h : ∀ x ∈ B, x.2 ≤ j) :
    B.filter (fun x => x.2 ≤ j) = B ∧ B.filter (fun x => j < x.2) = [] :=
  ⟨filter_eq_self.2 fun x hx => by simpa using h x hx,
    filter_eq_nil_iff.2 fun x hx => by simpa using h x hx⟩

theorem filter_late {B : List (α × Nat)} {j : Nat} (h : ∀ x ∈ B, j < x.2) :
    B.filter (fun x => x.2 ≤ j) = [] ∧ B.filter (fun x => j < x.2) = B :=
  ⟨filter_eq_nil_iff.2 fun x hx => by simpa using h x hx,
    filter_eq_self.2 fun x hx => by simpa using h x hx⟩

namespace Bucketed

variable {n : Nat} {B B' : List (α × Nat)}

theorem filter_append (h : B.Pairwise fun x y => x.2 ≤ y.2) (b : Nat) :
    B.filter (fun x => x.2 ≤ b) ++ B.filter (fun x => b < x.2) = B := by
  obtain ⟨htake, hdrop⟩ := takeWhile_dropWhile_eq_filter (p := fun x : α × Nat => x.2 ≤ b)
    (h.imp fun hxy hy => by simpa using hxy.trans (by simpa using hy))
  simp only [← decide_not, not_le] at hdrop
  rw [← htake, ← hdrop, takeWhile_append_dropWhile]

theorem insertTail_perm (h : B.Pairwise fun x y => x.2 ≤ y.2) (b : Nat) (a : α) :
    (Lib.insertTail b a B).Perm ((a, b) :: B) := by
  have hmiddle : (Lib.insertTail b a B).Perm
      ((a, b) :: (B.filter (fun x => x.2 ≤ b) ++ B.filter (fun x => b < x.2))) := perm_middle
  rwa [filter_append h] at hmiddle

theorem sublist (h : Bucketed n B) (hsub : B'.Sublist B) : Bucketed n B' where
  nodup := h.nodup.sublist (hsub.map _)
  sorted := h.sorted.sublist hsub
  lt x hx := h.lt x (hsub.subset hx)

theorem insertTail (h : Bucketed n B) {a : α} (ha : a ∉ B.map Prod.fst) {b : Nat} (hb : b < n) :
    Bucketed n (insertTail b a B) where
  nodup := by
    have hperm := (insertTail_perm h.sorted b a).map Prod.fst
    exact hperm.nodup_iff.2 (nodup_cons.2 ⟨ha, h.nodup⟩)
  sorted := by
    apply pairwise_append.2
    refine ⟨h.sorted.sublist filter_sublist, pairwise_cons.2
      ⟨?_, h.sorted.sublist filter_sublist⟩, ?_⟩
    · intro y hy
      have := of_mem_filter hy
      simp only [decide_eq_true_eq] at this
      exact this.le
    · intro x hx y hy
      have hx := of_mem_filter hx
      simp only [decide_eq_true_eq] at hx
      rcases mem_cons.1 hy with rfl | hy
      · exact hx
      · have hy := of_mem_filter hy
        simp only [decide_eq_true_eq] at hy
        exact hx.trans hy.le
  lt x hx := by
    rcases mem_append.1 hx with hx | hx
    · exact h.lt x (mem_of_mem_filter hx)
    · rcases mem_cons.1 hx with rfl | hx
      · exact hb
      · exact h.lt x (mem_of_mem_filter hx)

end Bucketed

end Sirius.Lib
