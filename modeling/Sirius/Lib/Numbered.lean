import Mathlib.Data.List.Basic

/-!
# Filtering a list by the numbers of its elements

`filterIdx p k l` keeps the elements of `l` whose number and value satisfy `p`, counting from `k`.
It is what remains of a sequence of numbered rows, whether the rows come at once or in consecutive
pieces (`filterIdx_append`). `applyMask` keeps the elements at which a list of flags is set.
-/

namespace Sirius.Lib

open List

variable {α β : Type*}

/-- The elements whose number and value satisfy `p`, counting from `k`. -/
def filterIdx (p : Nat → α → Bool) (k : Nat) (l : List α) : List α :=
  ((l.zipIdx k).filter fun x => p x.2 x.1).map Prod.fst

section FilterIdx

variable (p : Nat → α → Bool) (k : Nat)

@[simp]
theorem filterIdx_nil : filterIdx p k [] = [] := rfl

theorem filterIdx_cons (a : α) (l : List α) :
    filterIdx p k (a :: l) = (if p k a then [a] else []) ++ filterIdx p (k + 1) l := by
  simp only [filterIdx, zipIdx_cons, filter_cons]
  split <;> rfl

theorem filterIdx_append (l l' : List α) :
    filterIdx p k (l ++ l') = filterIdx p k l ++ filterIdx p (k + l.length) l' := by
  simp [filterIdx, zipIdx_append]

theorem filter_filterIdx (q : α → Bool) (l : List α) :
    (filterIdx p k l).filter q = filterIdx (fun i a => p i a && q a) k l := by
  induction l generalizing k with
  | nil => rfl
  | cons a l ih =>
    rw [filterIdx_cons, filterIdx_cons, filter_append, ih]
    by_cases hp : p k a <;> by_cases hq : q a <;> simp [hp, hq]

theorem filterIdx_map (f : β → α) (l : List β) :
    filterIdx p k (l.map f) = (filterIdx (fun i b => p i (f b)) k l).map f := by
  induction l generalizing k with
  | nil => rfl
  | cons b l ih =>
    rw [map_cons, filterIdx_cons, filterIdx_cons, map_append, ih]
    split <;> rfl

variable {p k}

theorem filterIdx_congr {q : Nat → α → Bool} {l : List α}
    (h : ∀ i a, k ≤ i → i < k + l.length → p i a = q i a) : filterIdx p k l = filterIdx q k l := by
  induction l generalizing k with
  | nil => rfl
  | cons a l ih =>
    rw [length_cons] at h
    rw [filterIdx_cons, filterIdx_cons, h k a (Nat.le_refl k) (by omega),
      ih fun i b hi hlt => h i b (by omega) (by omega)]

/-- The numbers do not matter. -/
theorem filterIdx_const (q : α → Bool) (l : List α) : filterIdx (fun _ a => q a) k l = l.filter q := by
  induction l generalizing k with
  | nil => rfl
  | cons a l ih =>
    rw [filterIdx_cons, ih, filter_cons]
    split <;> rfl

theorem filterIdx_eq_self {l : List α} (h : ∀ i a, k ≤ i → i < k + l.length → p i a = true) :
    filterIdx p k l = l := by
  rw [filterIdx_congr (q := fun _ _ => true) h, filterIdx_const]
  exact filter_eq_self.2 fun _ _ => rfl

end FilterIdx

/-- The elements at which `mask` is set. -/
def applyMask (l : List α) (mask : List Bool) : List α := ((l.zip mask).filter Prod.snd).map Prod.fst

/-- A mask over the numbers of the elements. -/
theorem applyMask_range (q : Nat → Bool) (l : List α) (k : Nat) :
    applyMask l ((range' k l.length).map q) = filterIdx (fun i _ => q i) k l := by
  induction l generalizing k with
  | nil => rfl
  | cons a l ih =>
    rw [filterIdx_cons, ← ih, length_cons, range'_succ, map_cons, applyMask,
      zip_cons_cons, filter_cons]
    split <;> simp_all [applyMask]

theorem applyMask_map (q : α → Bool) (l : List α) : applyMask l (l.map q) = l.filter q := by
  induction l with
  | nil => rfl
  | cons a l ih =>
    rw [filter_cons, ← ih, map_cons, applyMask, zip_cons_cons, filter_cons]
    split <;> simp_all [applyMask]

theorem mem_of_mem_applyMask {l : List α} {mask : List Bool} {a : α} (h : a ∈ applyMask l mask) :
    a ∈ l := by
  obtain ⟨⟨a', b⟩, hmem, rfl⟩ := mem_map.1 h
  exact (of_mem_zip (mem_filter.1 hmem).1).1

theorem foldl_set_cases (f : β → Nat) (g : β → α) (xs : List β) (l : List α) (i : Nat) :
    (∃ x ∈ xs, f x = i ∧
      (xs.foldl (fun l x => l.set (f x) (g x)) l)[i]? = l[i]?.map fun _ => g x) ∨
    (∀ x ∈ xs, f x ≠ i) ∧ (xs.foldl (fun l x => l.set (f x) (g x)) l)[i]? = l[i]? := by
  induction xs generalizing l with
  | nil => simp
  | cons x xs ih =>
    rw [foldl_cons]
    rcases ih (l.set (f x) (g x)) with ⟨y, hy, hi, h⟩ | ⟨hno, h⟩
    · refine .inl ⟨y, .tail _ hy, hi, h.trans ?_⟩
      by_cases hlt : i < l.length <;> simp [hlt]
    · by_cases hx : f x = i
      · refine .inl ⟨x, .head _, hx, h.trans ?_⟩
        by_cases hlt : i < l.length <;> simp [hx, hlt]
      · exact .inr ⟨forall_mem_cons.2 ⟨hx, hno⟩, h.trans (getElem?_set_ne hx)⟩

theorem getElem?_foldl_set (f : β → Nat) (a : α) (xs : List β) (l : List α) (i : Nat) :
    (xs.foldl (fun l x => l.set (f x) a) l)[i]? =
      if ∃ x ∈ xs, f x = i then l[i]?.map fun _ => a else l[i]? := by
  rcases foldl_set_cases f (fun _ => a) xs l i with ⟨x, hx, hi, h⟩ | ⟨hno, h⟩
  · rw [if_pos ⟨x, hx, hi⟩, h]
  · rw [if_neg (by simpa using hno), h]

end Sirius.Lib
