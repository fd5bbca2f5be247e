import Sirius.HostTable.ScanLayout

/-!
# The global offset of a cursor

`get_current_global_byte_offset` of `multiple_blocks_allocation_accessor` is meant to be the address of
the cursor in the allocation. The block and the offset in it make up this address already, and the
function adds the initial offset once more. So it is right for cursors that start at the beginning of the
allocation only (`global_offset_iff`), and `get_tail_byte_offset` of the scan task, whose masks do not
start there, is too large unless it is cut off at the size of the allocation.
-/

namespace Sirius.HostTable

open Lib

variable {blockSize : Nat}

namespace Accessor

def getCurrentGlobalByteOffset (a : Accessor blockSize) : Nat :=
  a.initialByteOffset + a.blockIndex * blockSize + a.offsetInBlock

def setCursor (a : Accessor blockSize) (byteOffset : Nat) : Accessor blockSize where
  initialByteOffset := a.initialByteOffset
  blockIndex := byteOffset / blockSize
  offsetInBlock := byteOffset % blockSize
  offset_lt := Nat.mod_lt byteOffset a.blockSize_pos

def resetCursor (a : Accessor blockSize) : Accessor blockSize := a.setCursor a.initialByteOffset

end Accessor

/-- The loop of `memcpy_to`: each round reads what is left of a block. -/
def BlockWriter.memcpyToLoop : Nat → BlockWriter blockSize → Nat → List Byte × BlockWriter blockSize
  | 0, w, _ => ([], w)
  | fuel + 1, w, bytes =>
    if bytes = 0 then ([], w)
    else
      let bytesToCopy := min bytes (blockSize - w.accessor.offsetInBlock)
      let (dest, w') := memcpyToLoop fuel (w.advance bytesToCopy) (bytes - bytesToCopy)
      (w.getCurrentAs bytesToCopy ++ dest, w')

def BlockWriter.memcpyTo (w : BlockWriter blockSize) (bytes : Nat) : List Byte × BlockWriter blockSize :=
  memcpyToLoop bytes w bytes

/-- The calls that move the cursor of an accessor. -/
inductive Call where
  | setCursor (byteOffset : Nat)
  | resetCursor
  | advance
  | memset (value : Byte) (bytes : Nat)
  | memcpyFrom (src : List Byte)
  | memcpyTo (bytes : Nat)

namespace Call

def run (size : Nat) (w : BlockWriter blockSize) : Call → BlockWriter blockSize
  | setCursor byteOffset => { w with accessor := w.accessor.setCursor byteOffset }
  | resetCursor => { w with accessor := w.accessor.resetCursor }
  | advance => w.advance size
  | memset value bytes => w.memset value bytes
  | memcpyFrom src => w.memcpyFrom src
  | memcpyTo bytes => (w.memcpyTo bytes).2

/-- Where a call leads from an address, for a cursor that starts at `b`. -/
def address (size b a : Nat) : Call → Nat
  | setCursor byteOffset => byteOffset
  | resetCursor => b
  | advance => a + size
  | memset _ bytes | memcpyTo bytes => a + bytes
  | memcpyFrom src => a + src.length

/-- The call leaves a cursor between two elements there. -/
def IsAligned (size : Nat) : Call → Prop
  | setCursor bytes | memset _ bytes | memcpyTo bytes => size ∣ bytes
  | memcpyFrom src => size ∣ src.length
  | resetCursor | advance => True

end Call

def ScanState.getTailByteOffset (s : ScanState blockSize) (sizeBytes : Nat) : Option Nat :=
  s.builders.getLast?.map fun last =>
    let lastByteOffset := last.mask.getCurrentGlobalByteOffset
    min (if s.rowOffset % 8 ≠ 0 then lastByteOffset + 1 else lastByteOffset) sizeBytes

/-- The end of the bytes of the mask that the rows so far have used. -/
def ScanState.maskEnd (s : ScanState blockSize) (mask : Accessor blockSize) : Nat :=
  mask.position + if s.rowOffset % 8 ≠ 0 then 1 else 0

/-! ## The cursor is where the calls have led it -/

theorem Accessor.getCurrentGlobalByteOffset_eq (a : Accessor blockSize) :
    a.getCurrentGlobalByteOffset = a.initialByteOffset + a.position := Nat.add_assoc ..

@[simp]
theorem Accessor.initialByteOffset_advanceAs (a : Accessor blockSize) (size : Nat) :
    (a.advanceAs size).initialByteOffset = a.initialByteOffset := by
  rw [advanceAs]
  split <;> rfl

theorem BlockWriter.initial_memcpyLoop (fuel : Nat) (w : BlockWriter blockSize) (src : List Byte) :
    (memcpyLoop fuel w src).accessor.initialByteOffset = w.accessor.initialByteOffset := by
  induction fuel generalizing w src with
  | zero => rfl
  | succ fuel ih =>
    rw [memcpyLoop]
    split
    · rfl
    · exact (ih _ _).trans (w.accessor.initialByteOffset_advanceAs _)

theorem BlockWriter.memcpyToLoop_spec {fuel bytes : Nat} (w : BlockWriter blockSize)
    (h : bytes ≤ fuel) : (memcpyToLoop fuel w bytes).2.position = w.position + bytes ∧
      (memcpyToLoop fuel w bytes).2.accessor.initialByteOffset = w.accessor.initialByteOffset := by
  induction fuel generalizing w bytes with
  | zero =>
    obtain rfl := Nat.le_zero.1 h
    exact ⟨rfl, rfl⟩
  | succ fuel ih =>
    rw [memcpyToLoop]
    split
    next hzero =>
      subst hzero
      exact ⟨rfl, rfl⟩
    · have hoffset := w.accessor.offset_lt
      obtain ⟨n, hn⟩ : ∃ n, n = min bytes (blockSize - w.accessor.offsetInBlock) := ⟨_, rfl⟩
      have hposition : (w.advance n).position = w.position + n :=
        w.accessor.position_advanceAs (by omega)
      have hfuel : bytes - n ≤ fuel := by omega
      obtain ⟨hp, hi⟩ := ih (w.advance n) hfuel
      dsimp only
      rw [← hn]
      refine ⟨?_, hi.trans (w.accessor.initialByteOffset_advanceAs n)⟩
      rw [hp, hposition]
      omega

variable {size : Nat}

theorem Accessor.room_of_dvd (a : Accessor blockSize) (hsize : size ∣ blockSize)
    (h : size ∣ a.position) : a.offsetInBlock + size ≤ blockSize := by
  have hdvd : size ∣ a.offsetInBlock := (Nat.dvd_add_right (hsize.mul_left _)).1 h
  obtain ⟨k, hk⟩ := hdvd
  obtain ⟨n, hn⟩ := hsize
  have hlt : size * k < size * n := hk ▸ hn ▸ a.offset_lt
  rw [hk, hn, ← Nat.mul_succ]
  exact Nat.mul_le_mul_left _ (Nat.lt_of_mul_lt_mul_left hlt)

variable {b a : Nat} {c : Call} {w : BlockWriter blockSize}

theorem Call.dvd_address (hc : c.IsAligned size) (hb : size ∣ b) (ha : size ∣ a) :
    size ∣ c.address size b a := by
  cases c with
  | setCursor _ => exact hc
  | resetCursor => exact hb
  | advance => exact Nat.dvd_add ha (Nat.dvd_refl size)
  | memset _ _ | memcpyFrom _ | memcpyTo _ => exact Nat.dvd_add ha hc

theorem Call.run_spec (hsize : size ∣ blockSize) (hw : size ∣ w.position) :
    (c.run size w).position = c.address size w.accessor.initialByteOffset w.position ∧
      (c.run size w).accessor.initialByteOffset = w.accessor.initialByteOffset := by
  cases c with
  | setCursor _ | resetCursor => exact ⟨Nat.div_add_mod' .., rfl⟩
  | advance =>
    exact ⟨w.accessor.position_advanceAs (w.accessor.room_of_dvd hsize hw),
      w.accessor.initialByteOffset_advanceAs size⟩
  | memset value bytes =>
    exact ⟨by simp [run, address, BlockWriter.memset], w.initial_memcpyLoop ..⟩
  | memcpyFrom src => exact ⟨w.position_memcpyFrom src, w.initial_memcpyLoop ..⟩
  | memcpyTo bytes => exact w.memcpyToLoop_spec (Nat.le_refl bytes)

theorem run_calls (hsize : size ∣ blockSize) {calls : List Call} (hcalls : ∀ c ∈ calls, c.IsAligned size)
    (hb : size ∣ b) (ha : size ∣ a) (hinitial : w.accessor.initialByteOffset = b)
    (hposition : w.position = a) :
    (calls.foldl (Call.run size) w).position = calls.foldl (Call.address size b) a ∧
      (calls.foldl (Call.run size) w).accessor.initialByteOffset = b := by
  induction calls generalizing w a with
  | nil => exact ⟨hposition, hinitial⟩
  | cons c calls ih =>
    obtain ⟨hc, hcalls⟩ := List.forall_mem_cons.1 hcalls
    obtain ⟨hp, hi⟩ := Call.run_spec (c := c) hsize (hposition ▸ ha)
    rw [hinitial, hposition] at hp
    exact ih hcalls (Call.dvd_address hc hb ha) (hi.trans hinitial) hp

/-- **The law of the position**, for every block size, initial offset and sequence of calls that
keeps the cursor between two elements: the cursor is where the calls have led it, but the function
returns this address for cursors from 0 only. -/
theorem global_offset_iff (hpos : 0 < blockSize) (hsize : size ∣ blockSize) (hb : size ∣ b)
    (m : Allocation blockSize) (calls : List Call) (hcalls : ∀ c ∈ calls, c.IsAligned size) :
    (calls.foldl (Call.run size) ⟨.initializeAt hpos b, m⟩).position =
        calls.foldl (Call.address size b) b ∧
      ((calls.foldl (Call.run size) ⟨.initializeAt hpos b, m⟩).accessor.getCurrentGlobalByteOffset =
        calls.foldl (Call.address size b) b ↔ b = 0) ∧
      ∀ (s : ScanState blockSize) last sizeBytes, s.builders.getLast? = some last →
        s.maskEnd last.mask ≤ sizeBytes →
        (s.getTailByteOffset sizeBytes = some (s.maskEnd last.mask) ↔
          last.mask.initialByteOffset = 0 ∨ s.maskEnd last.mask = sizeBytes) := by
  have hstart : (⟨.initializeAt hpos b, m⟩ : BlockWriter blockSize).position = b :=
    Accessor.position_initializeAt hpos b
  obtain ⟨hposition, hinitial⟩ := run_calls hsize hcalls hb hb rfl hstart
  refine ⟨hposition, ?_, fun s last sizeBytes hlast hend => ?_⟩
  · rw [Accessor.getCurrentGlobalByteOffset_eq, hinitial, ← hposition]
    exact Nat.add_eq_right
  · rw [ScanState.getTailByteOffset, hlast, Option.map_some, Option.some.injEq,
      Accessor.getCurrentGlobalByteOffset_eq]
    unfold ScanState.maskEnd at hend ⊢
    by_cases hbits : s.rowOffset % 8 ≠ 0
    · simp only [if_pos hbits] at hend ⊢
      omega
    · simp only [if_neg hbits] at hend ⊢
      omega

theorem global_offset_of_zero :
    ([Call.memset 0 10].foldl (Call.run 2) (⟨.initializeAt (by decide) 0, ⟨fun _ _ => 0, []⟩⟩ :
      BlockWriter 8)).accessor.getCurrentGlobalByteOffset = 10 :=
  (global_offset_iff (by decide) (by decide) (Nat.dvd_zero 2) _ _
    (by simp [Call.IsAligned])).2.1.2 rfl

/-- In blocks of 8 bytes, a cursor at byte 3 that writes a byte is at byte 4, and is said to be at 7. -/
theorem global_offset_of_three :
    ([Call.memset 0 1].foldl (Call.run 1) (⟨.initializeAt (by decide) 3, ⟨fun _ _ => 0, []⟩⟩ :
      BlockWriter 8)).accessor.getCurrentGlobalByteOffset = 7 ∧
    [Call.memset 0 1].foldl (Call.address 1 3) 3 = 4 := by decide

end Sirius.HostTable
