import Mathlib.Data.List.Sort

/-!
# The first elements of a sort

`FirstOf r k l kept` says that `kept` are the first `k` elements of some sort of `l` by a total
preorder `r`; which of several equal elements come first is left open. A list may be cut before the
first elements are taken: the first elements of the pieces together have the same first elements as
the whole list (`FirstOf.flatten`).
-/

namespace Sirius.Lib

open List

variable {α : Type*}

structure FirstOf (r : α → α → Prop) (k : Nat) (l kept : List α) : Prop where
  sorted : kept.Pairwise r
  length : kept.length = min k l.length
  rest : ∃ rest, (kept ++ rest).Perm l ∧ ∀ a ∈ kept, ∀ b ∈ rest, r a b

namespace FirstOf

variable {r : α → α → Prop} {k : Nat} {l kept : List α}

theorem of_perm_take {s : List α} (hs : s.Perm l) (hsorted : s.Pairwise r)
    (hkept : kept.Perm (s.take k)) (hkept' : kept.Pairwise r) : FirstOf r k l kept where
  sorted := hkept'
  length := by rw [hkept.length_eq, length_take, hs.length_eq]
  rest := by
    refine ⟨s.drop k, ?_, ?_⟩
    · exact (hkept.append_right _).trans (by rwa [take_append_drop])
    · intro a ha b hb
      rw [← take_append_drop k s, pairwise_append] at hsorted
      exact hsorted.2.2 a (hkept.subset ha) b hb

theorem of_sorted {s : List α} (hs : s.Perm l) (hsorted : s.Pairwise r) :
    FirstOf r k l (s.take k) :=
  of_perm_take hs hsorted .rfl (hsorted.sublist (take_sublist k s))

theorem of_min (h : FirstOf r (min l.length k) l kept) : FirstOf r k l kept where
  sorted := h.sorted
  length := by
    have := h.length
    omega
  rest := h.rest

/-- The first elements begin a sort of the whole list. -/
theorem exists_sort [Std.Total r] [IsTrans α r] (h : FirstOf r k l kept) :
    ∃ s : List α, s.Perm l ∧ s.Pairwise r ∧ s.take k = kept := by
  classical
  obtain ⟨rest, hperm, hle⟩ := h.rest
  have hrest := perm_insertionSort r rest
  refine ⟨kept ++ rest.insertionSort r, ?_, ?_, ?_⟩
  · exact (hrest.append_left kept).trans hperm
  · rw [pairwise_append]
    refine ⟨h.sorted, pairwise_insertionSort r rest, ?_⟩
    intro a ha b hb
    exact hle a ha b (hrest.subset hb)
  · have hlen := h.length
    rcases Nat.le_total k l.length with hk | hk
    · exact take_left' (by omega)
    · -- Nothing is left when fewer elements are there.
      have hnil : rest = [] := by
        have := hperm.length_eq
        rw [length_append] at this
        exact eq_nil_of_length_eq_zero (by omega)
      subst hnil
      rw [insertionSort_nil, append_nil]
      exact take_of_length_le (by omega)

/-- The first `k` elements are at most what `k` elements of the list are at most. -/
theorem le_of_subperm [Std.Total r] [IsTrans α r] (h : FirstOf r k l kept) {some : List α}
    (hsub : some.Subperm l) (hk : k ≤ some.length) {x : α} (hx : ∀ z ∈ some, r z x) :
    ∀ y ∈ kept, r y x := by
  classical
  intro y hy
  by_contra hyx
  obtain ⟨rest, hperm, hle⟩ := h.rest
  -- Count the elements that `y` is not at most: all of `some`, and not all of `kept`.
  let p : α → Bool := fun z => !decide (r y z)
  have hsome : some.countP p = some.length := by
    rw [countP_eq_length]
    intro z hz
    have hyz : ¬ r y z := fun hyz => hyx (trans_of r hyz (hx z hz))
    simp [p, hyz]
  have hrest : rest.countP p = 0 := by
    rw [countP_eq_zero]
    intro z hz
    simp [p, hle y hy z hz]
  have hkept : kept.countP p < kept.length := by
    apply Nat.lt_of_le_of_ne countP_le_length
    intro hall
    have hyy := countP_eq_length.1 hall y hy
    simp [p, refl_of r y] at hyy
  have hcount := hsub.countP_le p
  rw [← hperm.countP_eq p, countP_append] at hcount
  have hlen := h.length
  omega

/-- What a list of pieces leaves when the first elements of each are taken. -/
theorem exists_rests {ls kepts : List (List α)} (h : List.Forall₂ (FirstOf r k) ls kepts) :
    ∃ rests, (kepts.flatten ++ rests).Perm ls.flatten ∧ ∀ x ∈ rests, ∃ some : List α,
      some.Subperm kepts.flatten ∧ k ≤ some.length ∧ ∀ z ∈ some, r z x := by
  induction h with
  | nil => exact ⟨[], .rfl, by simp⟩
  | @cons l kept ls kepts h _ ih =>
    obtain ⟨rest, hperm, hle⟩ := h.rest
    obtain ⟨rests, hperms, hles⟩ := ih
    refine ⟨rest ++ rests, ?_, ?_⟩
    · calc (kept :: kepts).flatten ++ (rest ++ rests)
        _ = kept ++ (kepts.flatten ++ rest ++ rests) := by simp
        _ |>.Perm (kept ++ (rest ++ kepts.flatten ++ rests)) :=
            (perm_append_comm.append_right rests).append_left kept
        _ = (kept ++ rest) ++ (kepts.flatten ++ rests) := by simp
        _ |>.Perm (l ++ ls.flatten) := hperm.append hperms
    · intro x hx
      rcases mem_append.1 hx with hx | hx
      · refine ⟨kept, (sublist_append_left kept _).subperm, ?_, fun z hz => hle z hz x hx⟩
        have hlen := h.length
        have hpos := length_pos_of_mem hx
        have := hperm.length_eq
        rw [length_append] at this
        omega
      · obtain ⟨some, hsub, hk, hz⟩ := hles x hx
        exact ⟨some, hsub.trans (sublist_append_right kept _).subperm, hk, hz⟩

/-- **Cutting.** The first elements of the first elements of the pieces are those of the whole. -/
theorem flatten [Std.Total r] [IsTrans α r] {ls kepts : List (List α)}
    (h : List.Forall₂ (FirstOf r k) ls kepts) (hkept : FirstOf r k kepts.flatten kept) :
    FirstOf r k ls.flatten kept := by
  obtain ⟨rests, hperms, hles⟩ := exists_rests h
  obtain ⟨rest, hperm, hle⟩ := hkept.rest
  refine ⟨hkept.sorted, ?_, rest ++ rests, ?_, ?_⟩
  · have hlen := hperms.length_eq
    rw [length_append] at hlen
    rw [hkept.length, ← hlen]
    cases rests with
    | nil => simp
    | cons x rests =>
      obtain ⟨some, hsub, hk, -⟩ := hles x (.head _)
      have := hsub.length_le
      omega
  · rw [← append_assoc]
    exact (hperm.append_right rests).trans hperms
  · intro a ha b hb
    rcases mem_append.1 hb with hb | hb
    · exact hle a ha b hb
    · obtain ⟨some, hsub, hk, hz⟩ := hles b hb
      exact hkept.le_of_subperm hsub hk hz a ha

end FirstOf

end Sirius.Lib
