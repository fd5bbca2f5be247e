import Mathlib.Algebra.Order.Ring.Nat
import Mathlib.Data.List.Basic

/-!
# Byte memories

A memory is a function from addresses to bytes. `store` writes some bytes at an address, `load` reads
some, and a store is only seen by the loads that overlap it. Numbers are stored with their lowest byte
first (`encode`, `decode`), and `testBit` reads a memory as a sequence of bits.
-/

namespace Sirius.Lib

open List Option

abbrev Byte := BitVec 8

abbrev Memory := Nat → Byte

namespace Memory

variable {m : Memory} {p q n : Nat} {bytes : List Byte}

def store (m : Memory) (p : Nat) (bytes : List Byte) : Memory := fun a =>
  if p ≤ a then bytes[a - p]?.getD (m a) else m a

def load (m : Memory) (p n : Nat) : List Byte := (List.range n).map fun i => m (p + i)

@[simp]
theorem length_load : (load m p n).length = n := by simp [load]

variable {i : Nat}

theorem getElem?_load (h : i < n) : (load m p n)[i]? = some (m (p + i)) := by
  simp [load, h]

@[simp]
theorem store_nil : store m p [] = m := by
  funext a
  simp [store]

theorem store_of_lt {a : Nat} (h : a < p) : store m p bytes a = m a := by
  simp [store, Nat.not_le.2 h]

theorem store_of_le {a : Nat} (h : p + bytes.length ≤ a) : store m p bytes a = m a := by
  have hnone : bytes[a - p]? = none := getElem?_eq_none (by omega)
  simp [store, hnone]

theorem store_add (h : i < bytes.length) : store m p bytes (p + i) = bytes[i] := by
  simp [store, h]

theorem load_store_self : load (store m p bytes) p bytes.length = bytes := by
  refine ext_getElem (by simp) fun i hi _ => ?_
  simp only [length_load] at hi
  simp [load, store, hi]

theorem load_congr {m' : Memory} (h : ∀ i < n, m (p + i) = m' (p + i)) :
    load m p n = load m' p n :=
  map_congr_left fun i hi => h i (mem_range.1 hi)

theorem load_store_of_disjoint (h : q + n ≤ p ∨ p + bytes.length ≤ q) :
    load (store m p bytes) q n = load m q n := by
  refine load_congr fun i hi => ?_
  rcases h with h | h
  · exact store_of_lt (by omega)
  · exact store_of_le (by omega)

theorem load_add (k : Nat) : load m p (n + k) = load m p n ++ load m (p + n) k := by
  simp [load, range_add, Function.comp_def, Nat.add_assoc]

theorem store_store_byte (x y : Byte) : store (store m p [x]) p [y] = store m p [y] := by
  funext a
  rcases Nat.lt_trichotomy a p with hlt | rfl | hgt
  · rw [store_of_lt hlt, store_of_lt hlt, store_of_lt hlt]
  · simp [store]
  · rw [store_of_le (by simp; omega), store_of_le (by simp; omega), store_of_le (by simp; omega)]

theorem store_self : store m p [m p] = m := by
  funext a
  rcases Nat.lt_trichotomy a p with hlt | rfl | hgt
  · rw [store_of_lt hlt]
  · simp [store]
  · rw [store_of_le (by simp; omega)]

theorem store_append (bytes' : List Byte) :
    store (store m p bytes) (p + bytes.length) bytes' = store m p (bytes ++ bytes') := by
  funext a
  by_cases hlt : a < p
  · rw [store_of_lt (by omega), store_of_lt hlt, store_of_lt hlt]
  · obtain ⟨i, rfl⟩ := Nat.exists_eq_add_of_le (Nat.le_of_not_lt hlt)
    by_cases hi : i < bytes.length
    · rw [store_of_lt (by omega), store_add hi, store_add (by simp; omega),
        getElem_append_left hi]
    · obtain ⟨j, rfl⟩ := Nat.exists_eq_add_of_le (Nat.le_of_not_lt hi)
      by_cases hj : j < bytes'.length
      · rw [← Nat.add_assoc, store_add hj, Nat.add_assoc, store_add (by simpa using hj),
          getElem_append_right (by omega)]
        simp
      · rw [store_of_le (by omega), store_of_le (by omega), store_of_le (by simp; omega)]

variable {k : Nat}

theorem take_drop_load (h : i + k ≤ n) : ((load m p n).drop i).take k = load m (p + i) k := by
  have hsplit : load m p n = load m p i ++ (load m (p + i) k ++ load m (p + i + k) (n - (i + k))) := by
    rw [← load_add, ← load_add]
    congr 1
    omega
  rw [hsplit, drop_append_of_le_length (by simp), drop_of_length_le (by simp),
    nil_append, take_append_of_le_length (by simp), take_of_length_le (by simp)]

theorem load_middle {xs ys zs : List Byte} (h : load m p n = xs ++ (ys ++ zs)) :
    load m (p + xs.length) ys.length = ys := by
  have hlength : n = xs.length + (ys.length + zs.length) := by
    rw [← length_load (m := m) (p := p) (n := n), h, length_append, length_append]
  rw [← take_drop_load (n := n) (by omega), h, drop_left, take_left]

theorem load_append {xs ys : List Byte} (h : load m p n = xs ++ ys) :
    load m p xs.length = xs ∧ load m (p + xs.length) ys.length = ys := by
  have hnil : load m p n = [] ++ (xs ++ ys) := h
  refine ⟨load_middle hnil, ?_⟩
  rw [← append_nil ys] at h
  exact load_middle h

variable {α : Type} {size : Nat} {xs : List α}

theorem length_flatMap_of_size {f : α → List Byte} (hsize : ∀ x ∈ xs, (f x).length = size) :
    (xs.flatMap f).length = size * xs.length := by
  induction xs with
  | nil => rfl
  | cons x xs ih =>
    rw [flatMap_cons, length_append, hsize x (.head _), ih fun y hy => hsize y (.tail _ hy),
      length_cons, Nat.mul_succ, Nat.add_comm]

theorem load_flatMap {f : α → List Byte} (hsize : ∀ x ∈ xs, (f x).length = size)
    (h : load m p n = xs.flatMap f) {x : α} (hx : xs[k]? = some x) :
    load m (p + size * k) size = f x := by
  induction xs generalizing p n k with
  | nil => cases hx
  | cons y xs ih =>
    rw [flatMap_cons] at h
    obtain ⟨hy, hrest⟩ := load_append h
    have hlength := hsize y (.head _)
    rw [hlength] at hy hrest
    cases k with
    | zero =>
      rw [getElem?_cons_zero, some.injEq] at hx
      rw [← hx, Nat.mul_zero, Nat.add_zero, hy]
    | succ k =>
      rw [Nat.mul_succ, Nat.add_comm (size * k), ← Nat.add_assoc]
      exact ih (fun x hx => hsize x (.tail _ hx)) hrest hx

/-! ## Several stores -/

/-- Two regions of a memory have no common address. -/
def Apart (p n q k : Nat) : Prop := p + n ≤ q ∨ q + k ≤ p

instance Apart.decidable {p n q k : Nat} : Decidable (Apart p n q k) := inferInstanceAs (Decidable (_ ∨ _))

theorem Apart.symm (h : Apart p n q k) : Apart q k p n := Or.symm h

def storeAll (m : Memory) (stores : List (Nat × List Byte)) : Memory :=
  stores.foldl (fun m s => m.store s.1 s.2) m

theorem load_storeAll_of_apart {stores : List (Nat × List Byte)}
    (h : ∀ s ∈ stores, Apart q n s.1 s.2.length) : load (storeAll m stores) q n = load m q n := by
  induction stores generalizing m with
  | nil => rfl
  | cons s stores ih =>
    rw [storeAll, foldl_cons]
    exact (ih fun s' hs' => h s' (.tail _ hs')).trans (load_store_of_disjoint (h s (.head _)))

theorem load_storeAll {stores : List (Nat × List Byte)}
    (h : stores.Pairwise fun s s' => Apart s.1 s.2.length s'.1 s'.2.length)
    {s : Nat × List Byte} (hs : s ∈ stores) :
    load (storeAll m stores) s.1 s.2.length = s.2 := by
  induction stores generalizing m with
  | nil => cases hs
  | cons s' stores ih =>
    rw [pairwise_cons] at h
    rw [storeAll, foldl_cons]
    rcases mem_cons.1 hs with rfl | hs
    · exact (load_storeAll_of_apart h.1).trans load_store_self
    · exact ih h.2 hs

/-- If no two stores overlap, all of them are seen. -/
theorem load_storeAll_map {address : α → Nat} {bytes : α → List Byte}
    (h : xs.Pairwise fun x y => Apart (address x) (bytes x).length (address y) (bytes y).length)
    {x : α} (hx : x ∈ xs) :
    load (storeAll m (xs.map fun x => (address x, bytes x))) (address x) (bytes x).length = bytes x :=
  load_storeAll (s := (address x, bytes x)) (pairwise_map.2 h) (mem_map_of_mem hx)

/-! ## Bits -/

/-- Bit `i` of the memory from address `p` on. -/
def testBit (m : Memory) (p i : Nat) : Bool := (m (p + i / 8)).getLsbD (i % 8)

theorem testBit_congr {m' : Memory} (h : m (p + i / 8) = m' (p + i / 8)) :
    testBit m p i = testBit m' p i := by
  simp [testBit, h]

/-- Whole bytes may be counted as bits or as addresses. -/
theorem testBit_add (i : Nat) : testBit m (p + n) i = testBit m p (8 * n + i) := by
  rw [testBit, testBit, Nat.mul_add_div (by decide), Nat.mul_add_mod, Nat.add_assoc]

theorem testBit_of_lt (h : i < 8) : testBit m p i = (m p).getLsbD i := by
  rw [testBit, Nat.div_eq_of_lt h, Nat.mod_eq_of_lt h, Nat.add_zero]

theorem testBit_store (h : i / 8 < bytes.length) :
    testBit (store m p bytes) p i = bytes[i / 8].getLsbD (i % 8) := by
  rw [testBit, store_add h]

end Memory

/-! ## Numbers -/

/-- The lowest `size` bytes of a number. -/
def encode : Nat → Nat → List Byte
  | 0, _ => []
  | size + 1, n => BitVec.ofNat 8 n :: encode size (n / 256)

def decode : List Byte → Nat
  | [] => 0
  | b :: bytes => b.toNat + 256 * decode bytes

variable {size : Nat}

@[simp]
theorem length_encode {n : Nat} : (encode size n).length = size := by
  induction size generalizing n with
  | zero => rfl
  | succ size ih => simp [encode, ih]

theorem decode_encode {n : Nat} : decode (encode size n) = n % 256 ^ size := by
  induction size generalizing n with
  | zero => simp [encode, decode, Nat.mod_one]
  | succ size ih =>
    have hsplit : n % 256 ^ (size + 1) = n % 256 + 256 * (n / 256 % 256 ^ size) := by
      rw [Nat.pow_succ']
      exact Nat.mod_mul
    rw [encode, decode, ih, BitVec.toNat_ofNat, hsplit]

theorem decode_lt (bytes : List Byte) : decode bytes < 256 ^ bytes.length := by
  induction bytes with
  | nil => exact Nat.one_pos
  | cons b bytes ih =>
    have hb := b.isLt
    rw [decode, length_cons, Nat.pow_succ']
    omega

def bitOf (bytes : List Byte) (i : Nat) : Bool := (bytes[i / 8]?.getD 0).getLsbD (i % 8)

def byteOf (bit : Nat → Bool) : Byte :=
  BitVec.ofBoolListLE [bit 0, bit 1, bit 2, bit 3, bit 4, bit 5, bit 6, bit 7]

theorem getLsbD_byteOf {bit : Nat → Bool} {j : Nat} (hj : j < 8) : (byteOf bit).getLsbD j = bit j := by
  have hbits : [bit 0, bit 1, bit 2, bit 3, bit 4, bit 5, bit 6, bit 7] = (range 8).map bit := rfl
  rw [byteOf, BitVec.getLsbD_ofBoolListLE, hbits, getD_eq_getElem?_getD, getElem?_map,
    getElem?_range hj, map_some, getD_some]

variable {i : Nat}

theorem Memory.testBit_of_load {m : Memory} {p : Nat} {bytes : List Byte}
    (h : m.load p bytes.length = bytes) (hi : i < 8 * bytes.length) :
    m.testBit p i = bitOf bytes i := by
  have hget : bytes[i / 8]? = some (m (p + i / 8)) := by
    rw [← h]
    exact getElem?_load (by omega)
  rw [bitOf, hget, testBit, getD_some]

/-- The bits of a number are those of its bytes. -/
theorem testBit_decode (bytes : List Byte) (i : Nat) : (decode bytes).testBit i = bitOf bytes i := by
  induction bytes generalizing i with
  | nil => simp [decode, bitOf]
  | cons b bytes ih =>
    have hsum : decode (b :: bytes) = 2 ^ 8 * decode bytes + b.toNat := Nat.add_comm _ _
    rw [hsum, Nat.testBit_two_pow_mul_add _ b.isLt]
    split
    next hlt =>
      rw [bitOf, Nat.div_eq_of_lt hlt, Nat.mod_eq_of_lt hlt, getElem?_cons_zero, getD_some]
      exact BitVec.testBit_toNat b
    next hge =>
      rw [ih, bitOf, bitOf, show i / 8 = (i - 8) / 8 + 1 by omega, show i % 8 = (i - 8) % 8 by omega,
        getElem?_cons_succ]

end Sirius.Lib
