import Mathlib.Data.List.Infix

/-!
# Cutting a list into slices

`slices l from cuts` cuts a list at ascending positions and is undefined if they are not ascending or
lie outside of the list. The pieces are parts of the list and give it back together.
-/

namespace Sirius.Lib

open List

variable {α : Type*}

/-- The pieces of `l` from position `start` on, cut at `cuts`. -/
def slices (l : List α) (start : Nat) : List Nat → Option (List (List α))
  | [] => if start ≤ l.length then some [l.drop start] else none
  | cut :: cuts =>
    if start ≤ cut ∧ cut ≤ l.length then
      (slices l cut cuts).map fun pieces => (l.drop start).take (cut - start) :: pieces
    else none

/-- Ascending positions inside of the list can be cut. -/
theorem exists_slices {l : List α} {start : Nat} {cuts : List Nat}
    (hsorted : (start :: cuts).Pairwise (· ≤ ·)) (hle : ∀ cut ∈ start :: cuts, cut ≤ l.length) :
    ∃ pieces, slices l start cuts = some pieces ∧ pieces.flatten = l.drop start ∧
      ∀ piece ∈ pieces, piece.Sublist l := by
  induction cuts generalizing start with
  | nil =>
    refine ⟨[l.drop start], if_pos (hle start (by simp)), by simp, ?_⟩
    intro piece hpiece
    rw [mem_singleton] at hpiece
    exact hpiece ▸ drop_sublist start l
  | cons cut cuts ih =>
    obtain ⟨hstart, hsorted⟩ := pairwise_cons.1 hsorted
    have hcut : start ≤ cut := hstart cut (by simp)
    obtain ⟨pieces, hpieces, hflatten, hsub⟩ := ih hsorted fun c hc => hle c (.tail _ hc)
    refine ⟨(l.drop start).take (cut - start) :: pieces, ?_, ?_, ?_⟩
    · rw [slices, if_pos ⟨hcut, hle cut (by simp)⟩, hpieces, Option.map_some]
    · rw [flatten_cons, hflatten]
      conv_rhs => rw [← take_append_drop (cut - start) (l.drop start)]
      rw [drop_drop, Nat.add_sub_cancel' hcut]
    · intro piece hpiece
      rcases mem_cons.1 hpiece with rfl | hpiece
      · exact (take_sublist ..).trans (drop_sublist ..)
      · exact hsub piece hpiece

theorem takeWhile_dropWhile_eq_filter {p : α → Bool} {l : List α}
    (h : l.Pairwise fun a b => p b = true → p a = true) :
    l.takeWhile p = l.filter p ∧ l.dropWhile p = l.filter fun a => !p a := by
  induction l with
  | nil => exact ⟨rfl, rfl⟩
  | cons a l ih =>
    obtain ⟨ha, hl⟩ := pairwise_cons.1 h
    by_cases hp : p a = true
    · simp [hp, ih hl]
    · have hall : ∀ b ∈ l, p b = false :=
        fun b hb => Bool.eq_false_iff.2 fun hpb => hp (ha b hb hpb)
      have hself : (l.filter fun a => !p a) = l := filter_eq_self.2 fun b hb => by simp [hall b hb]
      simpa [hp, hself] using hall

theorem length_takeWhile_le {p q : α → Bool} (h : ∀ a, p a = true → q a = true) (l : List α) :
    (l.takeWhile p).length ≤ (l.takeWhile q).length := by
  induction l with
  | nil => exact Nat.le_refl 0
  | cons a l ih =>
    rw [takeWhile_cons, takeWhile_cons]
    split
    next hp =>
      rw [if_pos (h a hp)]
      exact Nat.succ_le_succ ih
    · exact Nat.zero_le _

end Sirius.Lib
