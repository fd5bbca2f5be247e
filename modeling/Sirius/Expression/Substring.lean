import Mathlib.Algebra.Order.Ring.Int

/-!
# `SUBSTRING`

The node narrows a start and a length of 64 bits to 32 bits, and makes of them the bounds of a
slice, of which a negative one is counted from the end of the string. In DuckDB a negative start is
counted from there, too. But the start 0 stands one place before the string, and a negative length
asks for the characters before the start.

`substring_agrees_iff` says for which starts and lengths the node returns what DuckDB returns of
every string. Either the two slices are the same because nothing is lost by the narrowing and both
arguments are positive, or both are empty whatever the string is.
-/

namespace Sirius.Expression.Substring

/-! ## The node -/

/-- The result of an operation on `int`, of which an overflow is undefined. -/
def inInt (n : Int) : Option Int :=
  if -2 ^ 31 ≤ n ∧ n < 2 ^ 31 then some n else none

/-- `start_val` and `stop_val`. -/
def bounds (startRaw lenRaw : Int) : Option (Int × Int) := do
  let startVal ← inInt (startRaw.bmod (2 ^ 32) - 1)
  let stopVal ← inInt (lenRaw.bmod (2 ^ 32) + startVal)
  return (startVal, stopVal)

def window (s : List Char) (lo hi : Int) : List Char :=
  (s.take hi.toNat).drop lo.toNat

/-- The place that a bound of a slice denotes in a string of `n` characters. -/
def place (n i : Int) : Int :=
  if i < 0 then max 0 (n + i) else min n i

/-- `cudf::strings::slice_strings` with step 1. -/
def sliceStrings (s : List Char) (start stop : Int) : List Char :=
  window s (place s.length start) (place s.length stop)

/-- The branch of `execute` for `function_id::substring`, for one string of its column. -/
def substring (s : List Char) (startRaw lenRaw : BitVec 64) : Option (List Char) :=
  (bounds startRaw.toInt lenRaw.toInt).map fun (start, stop) => sliceStrings s start stop

/-! ## DuckDB -/

def duckdbSubstring (s : List Char) (start length : Int) : List Char :=
  let n : Int := s.length
  let b := if 0 < start then min n (start - 1) else if start < 0 then max 0 (n + start) else 0
  let length' := if start = 0 then max 0 (length - 1) else length
  if 0 < length' then window s b (min n (b + length')) else window s (max 0 (b + length')) b

/-! ## Their windows

Two windows of a string are compared by the positions they contain. A string in which one character
is marked shows whether its position is among them. -/

theorem window_eq_nil (s : List Char) {lo hi : Int} (h : hi ≤ lo) : window s lo hi = [] := by
  rw [window, List.drop_eq_nil_iff, List.length_take]
  omega

/-- A string of `n` characters with a mark at position `p`. -/
def marked (n p : Nat) : List Char := .replicate p 'a' ++ 'b' :: .replicate (n - p - 1) 'a'

theorem length_marked {n p : Nat} (h : p < n) : (marked n p).length = n := by
  simp [marked]
  omega

/-- The mark is in a window if and only if its position is between the bounds. -/
theorem mark_mem_window {n p : Nat} {lo hi : Int} (hlo : 0 ≤ lo) :
    'b' ∈ window (marked n p) lo hi ↔ lo ≤ p ∧ p < hi := by
  rw [window, marked, List.take_append, List.drop_append]
  simp only [List.take_replicate, List.length_replicate, List.drop_replicate, List.mem_append,
    List.mem_replicate]
  cases hk : hi.toNat - p with
  | zero => simp; omega
  | succ k =>
    rw [List.take_succ_cons]
    cases hd : lo.toNat - min hi.toNat p with
    | zero => simp; omega
    | succ d => simp [List.drop_replicate]; omega

/-- Position `p` is in the window of a slice, in a string of `n` characters. -/
def Slices (start stop n p : Int) : Prop := place n start ≤ p ∧ p < place n stop

/-- Position `p` is in the window of DuckDB, in a string of `n` characters. -/
def DuckdbTakes (start length n p : Int) : Prop :=
  let b := if 0 < start then min n (start - 1) else if start < 0 then max 0 (n + start) else 0
  let length' := if start = 0 then max 0 (length - 1) else length
  if 0 < length' then b ≤ p ∧ p < min n (b + length') else max 0 (b + length') ≤ p ∧ p < b

theorem place_nonneg {n : Int} (h : 0 ≤ n) (i : Int) : 0 ≤ place n i := by
  rw [place]
  split <;> omega

/-- **Slices that agree on all strings** contain the same positions. -/
theorem slices_iff_duckdbTakes {start length a z : Int}
    (h : ∀ s, sliceStrings s a z = duckdbSubstring s start length) (n p : Nat) (hp : p < n) :
    Slices a z n p ↔ DuckdbTakes start length n p := by
  have hs := h (marked n p)
  have hmem : 'b' ∈ sliceStrings (marked n p) a z ↔ Slices a z n p := by
    rw [sliceStrings, length_marked hp, mark_mem_window (place_nonneg (by omega) a), Slices]
  have hduckdb : 'b' ∈ duckdbSubstring (marked n p) start length ↔
      DuckdbTakes start length n p := by
    rw [duckdbSubstring, length_marked hp, DuckdbTakes]
    split_ifs <;> exact mark_mem_window (by omega)
  rw [← hmem, hs, hduckdb]

theorem inInt_eq_some_iff {n i : Int} : inInt n = some i ↔ i = n ∧ -2 ^ 31 ≤ n ∧ n < 2 ^ 31 := by
  rw [inInt]
  split <;> simp <;> omega

/-- The bounds of the slice, and when the additions of the node do not overflow. -/
theorem bounds_eq_some_iff {start length a z : Int} :
    bounds start length = some (a, z) ↔
      a = start.bmod (2 ^ 32) - 1 ∧ z = length.bmod (2 ^ 32) + a ∧
        -2 ^ 31 ≤ a ∧ -2 ^ 31 ≤ z ∧ z < 2 ^ 31 := by
  have hmax : start.bmod (2 ^ 32) < 2 ^ 31 := Int.bmod_lt (by decide)
  rw [bounds]
  simp only [Option.bind_eq_bind, Option.bind_eq_some_iff, inInt_eq_some_iff, Option.pure_def,
    Option.some.injEq, Prod.mk.injEq]
  constructor
  · rintro ⟨_, ⟨rfl, ha, -⟩, _, ⟨rfl, hz⟩, rfl, rfl⟩
    exact ⟨rfl, rfl, ha, hz⟩
  · rintro ⟨rfl, rfl, ha, hz⟩
    exact ⟨_, ⟨rfl, ha, by omega⟩, _, ⟨rfl, hz⟩, rfl, rfl⟩

section Regions

variable {start length a z k m : Int} (hstart : start = a + 1 + 2 ^ 32 * k)
  (hlength : length = z - a + 2 ^ 32 * m) (ha : -2 ^ 31 ≤ a ∧ a < 2 ^ 31 - 1)
  (hz : -2 ^ 31 ≤ z ∧ z < 2 ^ 31) (hl : -2 ^ 31 ≤ z - a ∧ z - a < 2 ^ 31)
  (h : ∀ n p : Nat, p < n → (Slices a z n p ↔ DuckdbTakes start length n p))

include hstart hlength ha hz hl h

/-- A slice of a fixed place behind the start, which no string is too long for. -/
theorem lt_of_pos_of_pos (hs : 0 < start) (hpos : 0 < length) : start - 1 + length < 2 ^ 31 := by
  by_contra hlarge
  have hfirst := h (start + 2 ^ 34).toNat (start - 1).toNat (by omega)
  have hlast := h (start + length + 2 ^ 34).toNat (start + length - 2).toNat (by omega)
  have hbehind := h (start + length + 2 ^ 34).toNat (start + length - 1).toNat (by omega)
  simp only [Slices, place, DuckdbTakes, hs, hpos, hs.ne', if_true, if_false] at hfirst hlast hbehind
  omega

/-- The characters before the start, of which the node has none. -/
theorem eq_one_of_pos_of_neg (hs : 0 < start) (hneg : length < 0) : start = 1 ∧ z = a := by
  have hone := h 1 0 Nat.one_pos
  have hlong := h (2 ^ 31 + 1) (2 ^ 31) (by omega)
  have hfar := h (start + 2 ^ 34).toNat (start - 2).toNat (by omega)
  have hzero := h (1 - z).toNat 0
  simp only [Slices, place, DuckdbTakes, hs, hneg.not_gt, hs.ne', if_true, if_false]
    at hone hlong hfar hzero
  by_cases hz0 : z < 0
  · -- The slice ends before the end of the string.
    simp only [hz0, if_true] at hone hzero
    clear hlong hfar
    omega
  · simp only [hz0, if_false] at hone hlong hfar
    clear hzero
    by_cases ha0 : a < 0
    · simp only [ha0, if_true] at hfar hone
      clear hlong
      omega
    · simp only [ha0, if_false] at hone hlong
      clear hfar
      omega

theorem eq_zero_of_neg (hs : start < 0) : length = 0 := by
  by_contra hne
  rcases lt_or_gt_of_ne hne with hneg | hpos
  · have h1 := h (2 ^ 35 - start - length).toNat (2 ^ 35 - length).toNat (by omega)
    have h2 := h (2 ^ 35 - start - length).toNat (2 ^ 35 - length - 1).toNat (by omega)
    have h3 := h (2 ^ 35 - start - length).toNat (2 ^ 35 - start - length + a).toNat
    have h4 := h (2 ^ 35 - start - length).toNat (2 ^ 35) (by omega)
    have h5 := h (2 ^ 35 - start - length).toNat a.toNat
    simp only [Slices, place, DuckdbTakes, hs, hs.not_gt, hneg.not_gt, hs.ne, if_true, if_false]
      at h1 h2 h3 h4 h5
    omega
  · have h1 := h (2 ^ 35 - start).toNat (2 ^ 35) (by omega)
    have h2 := h (2 ^ 35 - start).toNat (2 ^ 35 - 1) (by omega)
    simp only [Slices, place, DuckdbTakes, hs, hs.not_gt, hpos, hs.ne, if_true, if_false] at h1 h2
    omega

/-- The first character of a string of two, and then no character at all. -/
theorem le_one_of_eq_zero (hs : start = 0) : length ≤ 1 ∧ z ≤ a + 1 := by
  have hone := h 1 0 Nat.one_pos
  have htwo := h 2 0 Nat.two_pos
  simp only [Slices, place, DuckdbTakes, hs, Int.lt_irrefl, if_true, if_false] at hone htwo
  by_cases hpos : 0 < max 0 (length - 1)
  · simp only [hpos, if_true] at htwo
    omega
  · simp only [hpos, if_false] at hone
    omega

end Regions

/-- Where the node and DuckDB ask for the same characters. -/
theorem sliceStrings_eq {start length a z : Int} (s : List Char)
    (h : 0 < start ∧ 0 < length ∧ a = start - 1 ∧ z = start - 1 + length ∨
      length = 0 ∧ z = a ∨ start = 0 ∧ length ≤ 1 ∧ a = -1 ∧ z ≤ 0 ∨
      start = 1 ∧ length < 0 ∧ a = 0 ∧ z = 0) :
    sliceStrings s a z = duckdbSubstring s start length := by
  unfold sliceStrings duckdbSubstring place
  by_cases hpos : 0 < start ∧ 0 < length
  · simp only [hpos.1, hpos.1.ne', hpos.2, if_true, if_false]
    congr 1 <;> omega
  · -- No character is asked for.
    rw [window_eq_nil s (by omega), if_neg (by omega), window_eq_nil s (by omega)]

theorem exists_bmod_add (n : Int) : ∃ k, n = n.bmod (2 ^ 32) + 2 ^ 32 * k :=
  ⟨n.bdiv (2 ^ 32), (Int.bmod_add_bdiv n (2 ^ 32)).symm⟩

/-- **`SUBSTRING` agrees with DuckDB on every string** if and only if one of four cases holds. Both
arguments are positive and the end of the slice is a number of 32 bits. The length is 0. The start
is 0 or 1, and neither the length nor what is left of it in 32 bits asks for a character. Besides,
the additions of the node must not overflow. -/
theorem substring_agrees_iff (start length : BitVec 64) :
    (∀ s, substring s start length = some (duckdbSubstring s start.toInt length.toInt)) ↔
      0 < start.toInt ∧ 0 < length.toInt ∧ start.toInt - 1 + length.toInt < 2 ^ 31 ∨
        length.toInt = 0 ∧ start.toInt.bmod (2 ^ 32) ≠ -2 ^ 31 ∨
        start.toInt = 0 ∧ length.toInt ≤ 1 ∧ length.toInt.bmod (2 ^ 32) ≤ 1 ∧
          length.toInt.bmod (2 ^ 32) ≠ -2 ^ 31 ∨
        start.toInt = 1 ∧ length.toInt < 0 ∧ length.toInt.bmod (2 ^ 32) = 0 := by
  simp only [substring]
  generalize start.toInt = start
  generalize length.toInt = length
  obtain ⟨k, hk⟩ := exists_bmod_add start
  obtain ⟨m, hm⟩ := exists_bmod_add length
  have hs : -2 ^ 31 ≤ start.bmod (2 ^ 32) ∧ start.bmod (2 ^ 32) < 2 ^ 31 :=
    ⟨Int.le_bmod (by decide), Int.bmod_lt (by decide)⟩
  have hl : -2 ^ 31 ≤ length.bmod (2 ^ 32) ∧ length.bmod (2 ^ 32) < 2 ^ 31 :=
    ⟨Int.le_bmod (by decide), Int.bmod_lt (by decide)⟩
  simp only [Option.map_eq_some_iff, Prod.exists, bounds_eq_some_iff]
  constructor
  · intro h
    obtain ⟨a, z, ⟨ha, hz, hbounds⟩, -⟩ := h []
    have hagree : ∀ s, sliceStrings s a z = duckdbSubstring s start length := by
      intro s
      obtain ⟨_, _, ⟨rfl, rfl, -⟩, heq⟩ := h s
      rw [← heq, ha, hz, ha]
    have hsame := slices_iff_duckdbTakes hagree
    have hstart : start = a + 1 + 2 ^ 32 * k := by omega
    have hlength : length = z - a + 2 ^ 32 * m := by omega
    have hrange : (-2 ^ 31 ≤ a ∧ a < 2 ^ 31 - 1) ∧ (-2 ^ 31 ≤ z ∧ z < 2 ^ 31) ∧
        -2 ^ 31 ≤ z - a ∧ z - a < 2 ^ 31 := by omega
    obtain ⟨hra, hrz, hrl⟩ := hrange
    rcases lt_trichotomy start 0 with hneg | hzero | hpos
    · have := eq_zero_of_neg hstart hlength hra hrz hrl hsame hneg
      omega
    · have := le_one_of_eq_zero hstart hlength hra hrz hrl hsame hzero
      omega
    · rcases lt_trichotomy length 0 with hlneg | hlzero | hlpos
      · have := eq_one_of_pos_of_neg hstart hlength hra hrz hrl hsame hpos hlneg
        omega
      · omega
      · have := lt_of_pos_of_pos hstart hlength hra hrz hrl hsame hpos hlpos
        omega
  · rintro (⟨hpos, hlpos, hlt⟩ | ⟨rfl, hne⟩ | ⟨rfl, hle, hmod, hne⟩ | ⟨rfl, hneg, hmod⟩) s
    · -- Nothing is lost by the narrowing.
      have hsame : start.bmod (2 ^ 32) = start ∧ length.bmod (2 ^ 32) = length := by omega
      exact ⟨_, _, ⟨rfl, rfl, by omega, by omega, by omega⟩,
        sliceStrings_eq s (.inl ⟨hpos, hlpos, by omega, by omega⟩)⟩
    · exact ⟨_, _, ⟨rfl, rfl, by omega, by omega, by omega⟩,
        sliceStrings_eq s (.inr (.inl ⟨rfl, by omega⟩))⟩
    · exact ⟨_, _, ⟨rfl, rfl, by omega, by omega, by omega⟩,
        sliceStrings_eq s (.inr (.inr (.inl ⟨rfl, hle, by omega, by omega⟩)))⟩
    · exact ⟨_, _, ⟨rfl, rfl, by omega, by omega, by omega⟩,
        sliceStrings_eq s (.inr (.inr (.inr ⟨rfl, hneg, by omega, by omega⟩)))⟩

/-- The second and third characters of five. -/
theorem substring_agrees_of_pos :
    substring ['h', 'e', 'l', 'l', 'o'] 2 3 = some ['e', 'l', 'l'] ∧
      duckdbSubstring ['h', 'e', 'l', 'l', 'o'] 2 3 = ['e', 'l', 'l'] :=
  ⟨(substring_agrees_iff 2 3).mpr (by decide) _, by decide⟩

/-- With start 0 and length 2, DuckDB returns the first character, and the node nothing. -/
theorem substring_differs_of_zero :
    substring ['h', 'e', 'l', 'l', 'o'] 0 2 = some [] ∧
      duckdbSubstring ['h', 'e', 'l', 'l', 'o'] 0 2 = ['h'] := by
  decide

end Sirius.Expression.Substring
