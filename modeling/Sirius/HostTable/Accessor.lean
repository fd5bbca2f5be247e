import Sirius.Lib.ByteMemory

/-!
# Cursors into a multi-block allocation

A host allocation consists of blocks of one size. `multiple_blocks_allocation_accessor`
(`src/include/memory/multiple_blocks_allocation_accessor.hpp`) is a cursor into it that goes on in the
next block where one ends, and copies in as many pieces as there are blocks.

The blocks are one memory, addressed by global byte offsets (`Allocation.contents`), in which a cursor
has a position. In these terms every operation is a store at the position: where the blocks end is not
visible (`contents_memcpyFrom`). The allocation also records the offsets of the bytes that were written.
-/

namespace Sirius.HostTable

open Lib List

/-! ## Allocations and cursors -/

/-- `multiple_blocks_allocation`: the bytes of each block, and the global offsets written so far. -/
structure Allocation (blockSize : Nat) where
  blocks : Nat → Memory
  written : List Nat := []

/-- `multiple_blocks_allocation_accessor`. The cursor is always inside a block. -/
structure Accessor (blockSize : Nat) where
  initialByteOffset : Nat
  blockIndex : Nat
  offsetInBlock : Nat
  offset_lt : offsetInBlock < blockSize

structure BlockWriter (blockSize : Nat) where
  accessor : Accessor blockSize
  allocation : Allocation blockSize

variable {blockSize : Nat}

def Allocation.contents (m : Allocation blockSize) : Memory := fun g =>
  m.blocks (g / blockSize) (g % blockSize)

def Allocation.write (m : Allocation blockSize) (block offset : Nat) (bytes : List Byte) :
    Allocation blockSize where
  blocks := Function.update m.blocks block ((m.blocks block).store offset bytes)
  written := m.written ++ List.range' (block * blockSize + offset) bytes.length

namespace Accessor

theorem blockSize_pos (a : Accessor blockSize) : 0 < blockSize := Nat.zero_lt_of_lt a.offset_lt

def position (a : Accessor blockSize) : Nat := a.blockIndex * blockSize + a.offsetInBlock

def initializeAt (h : 0 < blockSize) (byteOffset : Nat) : Accessor blockSize where
  initialByteOffset := byteOffset
  blockIndex := byteOffset / blockSize
  offsetInBlock := byteOffset % blockSize
  offset_lt := Nat.mod_lt byteOffset h

def advanceAs (a : Accessor blockSize) (size : Nat) : Accessor blockSize :=
  if h : a.offsetInBlock + size < blockSize then
    { a with offsetInBlock := a.offsetInBlock + size, offset_lt := h }
  else
    { a with blockIndex := a.blockIndex + 1, offsetInBlock := 0, offset_lt := a.blockSize_pos }

end Accessor

namespace BlockWriter

def position (w : BlockWriter blockSize) : Nat := w.accessor.position

def contents (w : BlockWriter blockSize) : Memory := w.allocation.contents

def written (w : BlockWriter blockSize) : List Nat := w.allocation.written

/-- `get_current_as`: the bytes of a value of the given size. -/
def getCurrentAs (w : BlockWriter blockSize) (size : Nat) : List Byte :=
  (w.allocation.blocks w.accessor.blockIndex).load w.accessor.offsetInBlock size

def getCurrent (w : BlockWriter blockSize) : Byte :=
  w.allocation.blocks w.accessor.blockIndex w.accessor.offsetInBlock

def setCurrent (w : BlockWriter blockSize) (value : List Byte) : BlockWriter blockSize :=
  { w with allocation := w.allocation.write w.accessor.blockIndex w.accessor.offsetInBlock value }

def advance (w : BlockWriter blockSize) (size : Nat) : BlockWriter blockSize :=
  { w with accessor := w.accessor.advanceAs size }

/-- The loop of `memcpy_from`: each round fills what is left of a block. -/
def memcpyLoop : Nat → BlockWriter blockSize → List Byte → BlockWriter blockSize
  | 0, w, _ => w
  | fuel + 1, w, src =>
    if src.isEmpty then w
    else
      let bytesToCopy := min src.length (blockSize - w.accessor.offsetInBlock)
      memcpyLoop fuel ((w.setCurrent (src.take bytesToCopy)).advance bytesToCopy)
        (src.drop bytesToCopy)

/-- `memcpy_from`. Every round copies a byte, so that there are no more rounds than bytes. -/
def memcpyFrom (w : BlockWriter blockSize) (src : List Byte) : BlockWriter blockSize :=
  memcpyLoop src.length w src

/-- `memset`, which has the loop of `memcpy_from`. -/
def memset (w : BlockWriter blockSize) (value : Byte) (bytes : Nat) : BlockWriter blockSize :=
  w.memcpyFrom (List.replicate bytes value)

end BlockWriter

/-! ## The blocks are one memory -/

@[simp]
theorem Accessor.position_initializeAt (h : 0 < blockSize) (byteOffset : Nat) :
    (initializeAt h byteOffset).position = byteOffset :=
  Nat.div_add_mod' byteOffset blockSize

/-- The cursor moves on by what fits into its block. -/
theorem Accessor.position_advanceAs (a : Accessor blockSize) {size : Nat}
    (h : a.offsetInBlock + size ≤ blockSize) : (a.advanceAs size).position = a.position + size := by
  rw [advanceAs]
  split
  · simp only [position]
    omega
  · simp only [position, Nat.succ_mul]
    omega

variable (m : Allocation blockSize) {block offset : Nat}

theorem Allocation.contents_block (h : offset < blockSize) :
    m.contents (block * blockSize + offset) = m.blocks block offset := by
  have hpos : 0 < blockSize := Nat.zero_lt_of_lt h
  rw [contents, Nat.mul_comm, Nat.mul_add_div hpos, Nat.mul_add_mod, Nat.div_eq_of_lt h,
    Nat.mod_eq_of_lt h, Nat.add_zero]

theorem Allocation.load_block {n : Nat} (h : offset + n ≤ blockSize) :
    (m.blocks block).load offset n = m.contents.load (block * blockSize + offset) n := by
  apply map_congr_left
  intro i hi
  have hlt : offset + i < blockSize := by
    have hi := mem_range.1 hi
    omega
  rw [Nat.add_assoc, m.contents_block hlt]

theorem Allocation.contents_write {bytes : List Byte} (h : offset + bytes.length ≤ blockSize)
    (hpos : 0 < blockSize) :
    (m.write block offset bytes).contents = m.contents.store (block * blockSize + offset) bytes := by
  funext g
  have hg := Nat.div_add_mod' g blockSize
  have hlt := Nat.mod_lt g hpos
  by_cases hblock : g / blockSize = block
  · -- the same block, where both are the store at the offset
    subst hblock
    simp only [contents, write, Function.update_self, Memory.store]
    have hcompare : offset ≤ g % blockSize ↔ g / blockSize * blockSize + offset ≤ g := by omega
    have hindex : g - (g / blockSize * blockSize + offset) = g % blockSize - offset := by omega
    rw [hindex]
    by_cases hle : offset ≤ g % blockSize
    · rw [if_pos hle, if_pos (hcompare.1 hle)]
    · rw [if_neg hle, if_neg fun hc => hle (hcompare.2 hc)]
  · simp only [contents, write, Function.update_of_ne hblock]
    -- the store does not reach into another block
    rcases Nat.lt_or_gt_of_ne hblock with hb | hb
    · have hmul := Nat.mul_le_mul_right blockSize hb
      rw [Nat.succ_mul] at hmul
      rw [Memory.store_of_lt (by omega)]
      rfl
    · have hmul := Nat.mul_le_mul_right blockSize hb
      rw [Nat.succ_mul] at hmul
      rw [Memory.store_of_le (by omega)]
      rfl

namespace BlockWriter

variable (w : BlockWriter blockSize)

theorem getCurrent_eq : w.getCurrent = w.contents w.position :=
  (w.allocation.contents_block w.accessor.offset_lt).symm

@[simp]
theorem position_setCurrent (value : List Byte) : (w.setCurrent value).position = w.position := rfl

@[simp]
theorem contents_advance (size : Nat) : (w.advance size).contents = w.contents := rfl

@[simp]
theorem written_advance (size : Nat) : (w.advance size).written = w.written := rfl

@[simp]
theorem written_setCurrent (value : List Byte) :
    (w.setCurrent value).written = w.written ++ range' w.position value.length := rfl

theorem contents_setCurrent {value : List Byte}
    (h : w.accessor.offsetInBlock + value.length ≤ blockSize) :
    (w.setCurrent value).contents = w.contents.store w.position value :=
  w.allocation.contents_write h w.accessor.blockSize_pos

@[simp]
theorem contents_setCurrent_byte (value : Byte) :
    (w.setCurrent [value]).contents = w.contents.store w.position [value] :=
  w.contents_setCurrent w.accessor.offset_lt

@[simp]
theorem position_advance_byte : (w.advance 1).position = w.position + 1 :=
  w.accessor.position_advanceAs w.accessor.offset_lt

theorem memcpyLoop_spec {fuel : Nat} {src : List Byte} (h : src.length ≤ fuel) :
    (memcpyLoop fuel w src).contents = w.contents.store w.position src ∧
      (memcpyLoop fuel w src).position = w.position + src.length ∧
      (memcpyLoop fuel w src).written = w.written ++ range' w.position src.length := by
  induction fuel generalizing w src with
  | zero =>
    obtain rfl := length_eq_zero_iff.1 (Nat.le_zero.1 h)
    simp [memcpyLoop]
  | succ fuel ih =>
    rw [memcpyLoop]
    split
    next hempty =>
      obtain rfl := isEmpty_iff.1 hempty
      simp
    next hne =>
      have hlength : 0 < src.length := length_pos_iff.2 fun hc => hne (isEmpty_iff.2 hc)
      have hoffset := w.accessor.offset_lt
      obtain ⟨n, hn⟩ : ∃ n, n = min src.length (blockSize - w.accessor.offsetInBlock) := ⟨_, rfl⟩
      have htake : (src.take n).length = n := by
        rw [length_take]
        omega
      have hcontents : (w.setCurrent (src.take n)).contents =
          w.contents.store w.position (src.take n) := w.contents_setCurrent (by omega)
      have hposition : ((w.setCurrent (src.take n)).advance n).position = w.position + n :=
        w.accessor.position_advanceAs (by omega)
      dsimp only
      rw [← hn]
      have hfuel : (src.drop n).length ≤ fuel := by
        rw [length_drop]
        omega
      obtain ⟨hc, hp, hw⟩ := ih ((w.setCurrent (src.take n)).advance n) hfuel
      rw [hc, hp, hw, contents_advance, hcontents, hposition, written_advance, written_setCurrent,
        htake]
      refine ⟨?_, ?_, ?_⟩
      · have happend : (w.contents.store w.position (src.take n)).store
            (w.position + (src.take n).length) (src.drop n) =
              w.contents.store w.position (src.take n ++ src.drop n) := Memory.store_append _
        rwa [htake, take_append_drop] at happend
      · rw [length_drop]
        omega
      · have hrange := range'_append_1 (s := w.position) (m := n) (n := src.length - n)
        rw [append_assoc, length_drop, hrange]
        congr 2
        omega

variable (src : List Byte)

theorem contents_memcpyFrom : (w.memcpyFrom src).contents = w.contents.store w.position src :=
  (w.memcpyLoop_spec (Nat.le_refl _)).1

@[simp]
theorem position_memcpyFrom : (w.memcpyFrom src).position = w.position + src.length :=
  (w.memcpyLoop_spec (Nat.le_refl _)).2.1

@[simp]
theorem written_memcpyFrom :
    (w.memcpyFrom src).written = w.written ++ range' w.position src.length :=
  (w.memcpyLoop_spec (Nat.le_refl _)).2.2

end BlockWriter

end Sirius.HostTable
