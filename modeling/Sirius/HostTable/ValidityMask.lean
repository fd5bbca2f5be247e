import Sirius.HostTable.Accessor

/-!
# The validity masks of a scan

`column_builder::process_mask_for_column` (`src/op/scan/duckdb_scan_task.cpp`) appends the validity of the
rows of a chunk to the mask of its column, one bit per row. The chunk either has no mask or a bitmap, and
the rows before it may have filled a part of a byte: then every byte of the bitmap is spread over two
bytes of the mask, and its upper bits are carried over to the next one.

A call from a bit `c` of the current byte adds rows (`Appends`) unless it loses a carry: with a bitmap
whose rows fill whole bytes, the bits carried out of the last byte are not written. These calls are
exactly the ones that spoil a mask (`mask_accumulated_iff`).
-/

namespace Sirius.HostTable

open Lib List

variable {blockSize : Nat}

/-! ## Masks of chunks -/

/-- The rows of a chunk with `validity.GetData()`, which is null if all of them are valid. -/
structure MaskChunk where
  numRows : Nat
  mask : Option Memory

def MaskChunk.rowIsValid (chunk : MaskChunk) (row : Nat) : Bool :=
  match chunk.mask with
  | none => true
  | some src => src.testBit 0 row

def MaskChunk.countValid (chunk : MaskChunk) : Nat :=
  (List.range chunk.numRows).countP chunk.rowIsValid

def makeMask (numBits : Nat) : Byte := (1#8 <<< numBits) - 1#8

def fullMask : Byte := 0xFF#8

def setValid (w : BlockWriter blockSize) (fullBytes tailBits : Nat) : BlockWriter blockSize :=
  let w := if fullBytes ≠ 0 then w.memset fullMask fullBytes else w
  if tailBits ≠ 0 then w.setCurrent [makeMask tailBits] else w

/-- No mask: all rows are valid. The minimum is taken of 32-bit numbers. -/
def appendValid (w : BlockWriter blockSize) (numBits curBit : Nat) : BlockWriter blockSize :=
  if curBit ≠ 0 then
    let bitsInCurrentByte := min (8 - curBit) (numBits % 2 ^ 32)
    let remainingBits := numBits - bitsInCurrentByte
    let w := w.setCurrent [w.getCurrent ||| (makeMask bitsInCurrentByte <<< curBit)]
    let w := if bitsInCurrentByte + curBit = 8 then w.advance 1 else w
    setValid w (remainingBits / 8) (remainingBits % 8)
  else setValid w (numBits / 8) (numBits % 8)

def copyAligned (w : BlockWriter blockSize) (src : Memory) (numBits : Nat) : BlockWriter blockSize :=
  let fullBytes := numBits / 8
  let tailBits := numBits % 8
  let w := w.memcpyFrom (src.load 0 fullBytes)
  if 0 < tailBits then w.setCurrent [src fullBytes &&& makeMask tailBits] else w

def lowerBits (curBit : Nat) (srcByte : Byte) : Byte := (srcByte &&& makeMask (8 - curBit)) <<< curBit

def upperBits (curBit : Nat) (srcByte : Byte) : Byte := (srcByte >>> (8 - curBit)) &&& makeMask curBit

/-- The loop over the whole bytes of a mask, with `current_byte`. -/
def shiftLoop (curBit : Nat) : List Byte → Byte → BlockWriter blockSize → Byte × BlockWriter blockSize
  | [], current, w => (current, w)
  | srcByte :: src, current, w =>
    shiftLoop curBit src (upperBits curBit srcByte)
      ((w.setCurrent [current ||| lowerBits curBit srcByte]).advance 1)

def copyShifted (w : BlockWriter blockSize) (src : Memory) (numBits curBit : Nat) :
    BlockWriter blockSize :=
  let fullBytes := numBits / 8
  let tailBits := numBits % 8
  let (current, w) := shiftLoop curBit (src.load 0 fullBytes) w.getCurrent w
  if tailBits ≠ 0 then
    let srcByte := src fullBytes &&& makeMask tailBits
    let w := w.setCurrent [current ||| lowerBits curBit srcByte]
    if 8 - curBit ≤ tailBits then (w.advance 1).setCurrent [upperBits curBit srcByte] else w
  else w

/-- The mask of a column that is being built, and its `null_count`. -/
structure MaskBuilder (blockSize : Nat) where
  writer : BlockWriter blockSize
  nullCount : Nat

def MaskBuilder.processMaskForColumn (b : MaskBuilder blockSize) (chunk : MaskChunk)
    (rowOffset : Nat) : MaskBuilder blockSize :=
  let curBit := rowOffset % 8
  match chunk.mask with
  | none => { b with writer := appendValid b.writer chunk.numRows curBit }
  | some src =>
    { nullCount := b.nullCount + (chunk.numRows - chunk.countValid)
      writer :=
        if curBit = 0 then copyAligned b.writer src chunk.numRows
        else copyShifted b.writer src chunk.numRows curBit }

def MaskBuilder.processChunks (b : MaskBuilder blockSize) (rowOffset : Nat) :
    List MaskChunk → MaskBuilder blockSize
  | [] => b
  | chunk :: chunks =>
    (b.processMaskForColumn chunk rowOffset).processChunks (rowOffset + chunk.numRows) chunks

/-! ## Bits -/

theorem getLsbD_makeMask {numBits j : Nat} (hn : numBits ≤ 8) (hj : j < 8) :
    (makeMask numBits).getLsbD j = decide (j < numBits) := by
  have hall : ∀ (n : Fin 9) (j : Fin 8), (makeMask n.1).getLsbD j.1 = decide (j.1 < n.1) := by
    decide
  exact hall ⟨numBits, by omega⟩ ⟨j, hj⟩

theorem getLsbD_fullMask {j : Nat} (hj : j < 8) : fullMask.getLsbD j = true := by
  have hall : ∀ j : Fin 8, fullMask.getLsbD j.1 = true := by decide
  exact hall ⟨j, hj⟩

theorem getLsbD_lowerBits {curBit j : Nat} (hc : curBit < 8) (hj : j < 8) (srcByte : Byte) :
    (lowerBits curBit srcByte).getLsbD j = (decide (curBit ≤ j) && srcByte.getLsbD (j - curBit)) := by
  rw [lowerBits, BitVec.getLsbD_shiftLeft, BitVec.getLsbD_and, getLsbD_makeMask (by omega) (by omega)]
  by_cases hle : curBit ≤ j
  · simp [hj, hle, Nat.not_lt.2 hle, show j - curBit < 8 - curBit by omega]
  · simp [hle, Nat.lt_of_not_le hle]

theorem getLsbD_upperBits {curBit j : Nat} (hc : curBit < 8) (hj : j < 8) (srcByte : Byte) :
    (upperBits curBit srcByte).getLsbD j =
      (decide (j < curBit) && srcByte.getLsbD (8 - curBit + j)) := by
  rw [upperBits, BitVec.getLsbD_and, BitVec.getLsbD_ushiftRight, getLsbD_makeMask (by omega) hj,
    Bool.and_comm]

/-! ## Appending rows -/

/-- Nothing is set behind bit `c` of the byte at `p`, if it is a started one. -/
def Clean (memory : Memory) (p c : Nat) : Prop :=
  c ≠ 0 → ∀ j, c ≤ j → j < 8 → memory.testBit p j = false

/-- `n` rows come behind the first `c` bits of the byte at `p`. They are right if nothing was set there
before; the bits of the earlier rows are kept in any case. -/
structure Appends (memory memory' : Memory) (p c n : Nat) (valid : Nat → Bool) : Prop where
  keeps : ∀ j < c, memory'.testBit p j = memory.testBit p j
  rows : Clean memory p c → ∀ i < n, memory'.testBit p (c + i) = valid i
  clean : Clean memory p c → Clean memory' (p + (c + n) / 8) ((c + n) % 8)
  below : ∀ a < p, memory' a = memory a
  beyond : ∀ a, p + (c + n) / 8 < a → memory' a = memory a

namespace Appends

variable {memory memory₁ memory₂ : Memory} {p c n k : Nat} {valid : Nat → Bool}

/-- Rows that come behind others do not change them. -/
theorem keeps_before (h : Appends memory memory₁ (p + k / 8) (k % 8) n valid) {j : Nat} (hj : j < k) :
    memory₁.testBit p j = memory.testBit p j := by
  rcases Nat.lt_or_ge (j / 8) (k / 8) with hlt | hge
  · exact Memory.testBit_congr (h.below _ (by omega))
  · have hkeeps := h.keeps (j % 8) (by omega)
    rw [Memory.testBit_add, Memory.testBit_add] at hkeeps
    rwa [show 8 * (k / 8) + j % 8 = j by omega] at hkeeps

/-- **Rows behind rows.** -/
theorem trans (h₁ : Appends memory memory₁ p c k valid)
    (h₂ : Appends memory₁ memory₂ (p + (c + k) / 8) ((c + k) % 8) n fun i => valid (k + i)) :
    Appends memory memory₂ p c (k + n) valid where
  keeps j hj := (h₂.keeps_before (by omega)).trans (h₁.keeps j hj)
  rows hclean i hi := by
    rcases Nat.lt_or_ge i k with hlt | hge
    · exact (h₂.keeps_before (by omega)).trans (h₁.rows hclean i hlt)
    · have hrow := h₂.rows (h₁.clean hclean) (i - k) (by omega)
      rw [Memory.testBit_add] at hrow
      rwa [show 8 * ((c + k) / 8) + ((c + k) % 8 + (i - k)) = c + i by omega,
        show k + (i - k) = i by omega] at hrow
  clean hclean := by
    have hclean₂ := h₂.clean (h₁.clean hclean)
    rwa [show p + (c + k) / 8 + ((c + k) % 8 + n) / 8 = p + (c + (k + n)) / 8 by omega,
      show ((c + k) % 8 + n) % 8 = (c + (k + n)) % 8 by omega] at hclean₂
  below a ha := (h₂.below a (by omega)).trans (h₁.below a ha)
  beyond a ha := by
    rw [h₂.beyond a (by omega), h₁.beyond a (by omega)]

theorem congr {valid' : Nat → Bool} (h : Appends memory memory₁ p c n valid)
    (hvalid : ∀ i < n, valid i = valid' i) : Appends memory memory₁ p c n valid' :=
  { h with rows := fun hclean i hi => (h.rows hclean i hi).trans (hvalid i hi) }

theorem refl (memory : Memory) (p : Nat) (hc : c < 8) (valid : Nat → Bool) :
    Appends memory memory p c 0 valid where
  keeps _ _ := rfl
  rows _ _ hi := absurd hi (Nat.not_lt_zero _)
  clean hclean := by
    rwa [Nat.add_zero, Nat.div_eq_of_lt hc, Nat.mod_eq_of_lt hc, Nat.add_zero]
  below _ _ := rfl
  beyond _ _ := rfl

/-- One byte is written: the bits of earlier rows are in it, and then those of the rows. -/
theorem store_byte (hn : c + n ≤ 8) {x : Byte} (hkeeps : ∀ j < c, x.getLsbD j = memory.testBit p j)
    (hrows : Clean memory p c → ∀ j, c ≤ j → j < 8 →
      x.getLsbD j = (decide (j < c + n) && valid (j - c))) (hc : c < 8) :
    Appends memory (memory.store p [x]) p c n valid := by
  have hbit : ∀ j < 8, (memory.store p [x]).testBit p j = x.getLsbD j := by
    intro j hj
    rw [Memory.testBit_store (by simp; omega)]
    simp [Nat.div_eq_of_lt hj, Nat.mod_eq_of_lt hj]
  have hother : ∀ a, a ≠ p → memory.store p [x] a = memory a := by
    intro a ha
    rcases Nat.lt_or_gt_of_ne ha with hlt | hgt
    · exact Memory.store_of_lt hlt
    · exact Memory.store_of_le (by simp; omega)
  refine ⟨?_, ?_, ?_, ?_, ?_⟩
  · intro j hj
    rw [hbit j (by omega), hkeeps j hj]
  · intro hclean i hi
    rw [hbit (c + i) (by omega), hrows hclean (c + i) (by omega) (by omega)]
    simp [hi]
  · intro hclean hne j hj hj8
    have hlt : c + n < 8 := by omega
    rw [Nat.div_eq_of_lt hlt, Nat.add_zero, hbit j hj8, hrows hclean j (by omega) hj8]
    simp [show ¬ j < c + n by omega]
  · exact fun a ha => hother a (by omega)
  · exact fun a ha => hother a (by omega)

theorem store_bytes {bytes : List Byte}
    (hrows : ∀ b (hb : b < bytes.length) (j : Nat), j < 8 → bytes[b].getLsbD j = valid (8 * b + j)) :
    Appends memory (memory.store p bytes) p 0 (8 * bytes.length) valid where
  keeps _ hj := absurd hj (Nat.not_lt_zero _)
  rows _ i hi := by
    have hb : i / 8 < bytes.length := by omega
    rw [Nat.zero_add, Memory.testBit_store hb, hrows _ hb _ (by omega), Nat.div_add_mod]
  clean _ hne := absurd (by omega) hne
  below a ha := Memory.store_of_lt ha
  beyond a ha := Memory.store_of_le (by omega)

end Appends

/-! ## What the calls append -/

section Calls

variable (w : BlockWriter blockSize) {c n : Nat}

theorem setValid_spec (fullBytes : Nat) {tailBits : Nat} (htail : tailBits < 8) :
    (setValid w fullBytes tailBits).position = w.position + fullBytes ∧
      Appends w.contents (setValid w fullBytes tailBits).contents w.position 0
        (8 * fullBytes + tailBits) fun _ => true := by
  obtain ⟨w₁, hw₁⟩ : ∃ w₁, w₁ = if fullBytes ≠ 0 then w.memset fullMask fullBytes else w := ⟨_, rfl⟩
  have hcontents : w₁.contents = w.contents.store w.position (replicate fullBytes fullMask) ∧
      w₁.position = w.position + fullBytes := by
    by_cases hfull : fullBytes = 0
    · subst hfull
      simp [hw₁]
    · rw [hw₁, if_pos hfull, BlockWriter.memset, BlockWriter.contents_memcpyFrom,
        BlockWriter.position_memcpyFrom, length_replicate]
      exact ⟨rfl, rfl⟩
  have hbytes : Appends w.contents w₁.contents w.position 0 (8 * fullBytes) fun _ => true := by
    have hstore : Appends w.contents
        (w.contents.store w.position (replicate fullBytes fullMask)) w.position 0
        (8 * (replicate fullBytes fullMask).length) fun _ => true := by
      apply Appends.store_bytes
      intro b hb j hj
      rw [getElem_replicate, getLsbD_fullMask hj]
    rw [length_replicate] at hstore
    rw [hcontents.1]
    exact hstore
  rw [setValid, ← hw₁]
  split
  · rw [BlockWriter.position_setCurrent, BlockWriter.contents_setCurrent_byte, hcontents.2]
    refine ⟨rfl, hbytes.trans ?_⟩
    rw [show (0 + 8 * fullBytes) / 8 = fullBytes by omega, show (0 + 8 * fullBytes) % 8 = 0 by omega]
    apply Appends.store_byte (by omega) (by simp) _ (by decide)
    intro _ j _ hj
    rw [getLsbD_makeMask htail.le hj]
    simp
  next hzero =>
    obtain rfl : tailBits = 0 := by omega
    exact ⟨hcontents.2, hbytes⟩

theorem setValid_zero : setValid w 0 0 = w := rfl

/-- The number of rows is not cut off by the 32-bit minimum where this matters. -/
def FitsMinimum (c n : Nat) : Prop := min (8 - c) (n % 2 ^ 32) = min (8 - c) n

instance (c n : Nat) : Decidable (FitsMinimum c n) := inferInstanceAs (Decidable (_ = _))

theorem position_appendValid (hc : c < 8) :
    (appendValid w n c).position = w.position + (c + n) / 8 := by
  rw [appendValid]
  split
  · obtain ⟨bits, hbits⟩ : ∃ bits, bits = min (8 - c) (n % 2 ^ 32) := ⟨_, rfl⟩
    have hle : n % 2 ^ 32 ≤ n := Nat.mod_le ..
    dsimp only
    rw [← hbits, (setValid_spec _ _ (Nat.mod_lt _ (by decide))).1]
    split
    · rw [BlockWriter.position_advance_byte, BlockWriter.position_setCurrent]
      omega
    · rw [BlockWriter.position_setCurrent]
      omega
  · rw [(setValid_spec _ _ (Nat.mod_lt _ (by decide))).1]
    omega

theorem appendValid_appends (hc : c < 8) (hfits : c ≠ 0 → FitsMinimum c n) :
    Appends w.contents (appendValid w n c).contents w.position c n fun _ => true := by
  rw [appendValid]
  split
  next hne =>
    obtain ⟨bits, hbits⟩ : ∃ bits, bits = min (8 - c) n := ⟨_, rfl⟩
    have hcut : min (8 - c) (n % 2 ^ 32) = bits := (hfits hne).trans hbits.symm
    dsimp only
    rw [hcut]
    -- the current byte takes the first rows
    have hfirst : Appends w.contents
        (w.contents.store w.position [w.getCurrent ||| (makeMask bits <<< c)]) w.position c bits
        fun _ => true := by
      have hcurrent : ∀ j < 8, w.getCurrent.getLsbD j = w.contents.testBit w.position j := by
        intro j hj
        rw [Memory.testBit_of_lt hj, w.getCurrent_eq]
      apply Appends.store_byte (by omega) _ _ hc
      · intro j hj
        rw [BitVec.getLsbD_or, BitVec.getLsbD_shiftLeft, hcurrent j (by omega)]
        simp [hj]
      · intro hclean j hcj hj
        rw [BitVec.getLsbD_or, BitVec.getLsbD_shiftLeft, hcurrent j hj, hclean hne j hcj hj,
          getLsbD_makeMask (by omega) (by omega)]
        simp only [Bool.false_or, hj, Nat.not_lt.2 hcj, decide_true, decide_false, Bool.not_false,
          Bool.true_and, Bool.and_true, decide_eq_decide]
        omega
    split
    next hfull =>
      have hrest := (setValid_spec ((w.setCurrent [w.getCurrent ||| (makeMask bits <<< c)]).advance 1)
        ((n - bits) / 8) (Nat.mod_lt (n - bits) (by decide))).2
      rw [BlockWriter.contents_advance, BlockWriter.contents_setCurrent_byte,
        BlockWriter.position_advance_byte, BlockWriter.position_setCurrent, Nat.div_add_mod] at hrest
      have hsum : bits + (n - bits) = n := by omega
      rw [← hsum]
      apply hfirst.trans
      rw [show (c + bits) / 8 = 1 by omega, show (c + bits) % 8 = 0 by omega,
        Nat.add_sub_cancel_left]
      exact hrest
    · -- all rows fit into the current byte
      rename_i hpart
      obtain rfl : bits = n := by omega
      rw [Nat.sub_self, Nat.zero_div, Nat.zero_mod, setValid_zero, BlockWriter.contents_setCurrent_byte]
      exact hfirst
  next hzero =>
    obtain rfl : c = 0 := by omega
    have hall := (setValid_spec w (n / 8) (Nat.mod_lt n (by decide))).2
    rwa [Nat.div_add_mod] at hall

/-- With a minimum that is too small, the whole bytes overwrite the current one and end too early. -/
theorem appendValid_lost (hc : c < 8) (hne : c ≠ 0) (hcut : ¬ FitsMinimum c n) {a : Nat}
    (ha : w.position + (c + n) / 8 ≤ a) : (appendValid w n c).contents a = w.contents a := by
  have hdiv := Nat.div_add_mod n (2 ^ 32)
  have hbits : min (8 - c) (n % 2 ^ 32) = n % 2 ^ 32 ∧ n % 2 ^ 32 + c < 8 ∧ 0 < n / 2 ^ 32 := by
    rw [FitsMinimum] at hcut
    omega
  rw [appendValid, if_pos hne]
  dsimp only
  rw [hbits.1, if_neg (show ¬ n % 2 ^ 32 + c = 8 by omega), show (n - n % 2 ^ 32) % 8 = 0 by omega,
    setValid, if_neg (fun hc : 0 ≠ 0 => hc rfl), if_pos (show (n - n % 2 ^ 32) / 8 ≠ 0 by omega),
    BlockWriter.memset, BlockWriter.contents_memcpyFrom, BlockWriter.contents_setCurrent_byte,
    BlockWriter.position_setCurrent]
  rw [Memory.store_of_le (by rw [length_replicate]; omega),
    Memory.store_of_le (by rw [length_singleton]; omega)]

theorem copyAligned_spec (src : Memory) :
    (copyAligned w src n).position = w.position + n / 8 ∧
      Appends w.contents (copyAligned w src n).contents w.position 0 n (src.testBit 0) := by
  obtain ⟨w₁, hw₁⟩ : ∃ w₁, w₁ = w.memcpyFrom (src.load 0 (n / 8)) := ⟨_, rfl⟩
  have hposition : w₁.position = w.position + n / 8 := by
    rw [hw₁, BlockWriter.position_memcpyFrom, Memory.length_load]
  have hbytes : Appends w.contents w₁.contents w.position 0 (8 * (n / 8)) (src.testBit 0) := by
    have hstore : Appends w.contents (w.contents.store w.position (src.load 0 (n / 8))) w.position 0
        (8 * (src.load 0 (n / 8)).length) (src.testBit 0) := by
      apply Appends.store_bytes
      intro b hb j hj
      rw [Memory.testBit, Nat.mul_add_div (by decide), Nat.mul_add_mod, Nat.div_eq_of_lt hj,
        Nat.mod_eq_of_lt hj]
      simp [Memory.load]
    rwa [Memory.length_load, ← BlockWriter.contents_memcpyFrom, ← hw₁] at hstore
  rw [copyAligned, ← hw₁]
  split
  · rw [BlockWriter.position_setCurrent, BlockWriter.contents_setCurrent_byte, hposition]
    refine ⟨rfl, ?_⟩
    have hsum := Nat.div_add_mod n 8
    conv => arg 5; rw [← hsum]
    apply hbytes.trans
    rw [show (0 + 8 * (n / 8)) / 8 = n / 8 by omega, show (0 + 8 * (n / 8)) % 8 = 0 by omega]
    apply Appends.store_byte (by omega) (by simp) _ (by decide)
    intro _ j _ hj
    rw [BitVec.getLsbD_and, getLsbD_makeMask (by omega) hj, Memory.testBit, Nat.sub_zero,
      Nat.mul_add_div (by decide), Nat.mul_add_mod, Nat.div_eq_of_lt hj, Nat.mod_eq_of_lt hj,
      Bool.and_comm]
    simp
  next hzero =>
    refine ⟨hposition, ?_⟩
    rwa [show 8 * (n / 8) = n by omega] at hbytes

section Shift

variable {memory : Memory} {p k : Nat} {current srcByte : Byte} {valid : Nat → Bool}

/-- The first `k` bits of a byte, as far as they fit into the current one. -/
theorem lowerBits_appends (hc : c < 8) (hne : c ≠ 0)
    (hbyte : ∀ j < 8, srcByte.getLsbD j = (decide (j < k) && valid j)) :
    Appends (memory.store p [current]) (memory.store p [current ||| lowerBits c srcByte]) p c
      (min k (8 - c)) valid := by
  have hover : memory.store p [current ||| lowerBits c srcByte] =
      (memory.store p [current]).store p [current ||| lowerBits c srcByte] :=
    (Memory.store_store_byte ..).symm
  have hcurrent : ∀ j < 8, (memory.store p [current]).testBit p j = current.getLsbD j := by
    intro j hj
    rw [Memory.testBit_of_lt hj]
    simp [Memory.store]
  rw [hover]
  apply Appends.store_byte (by omega) _ _ hc
  · intro j hj
    rw [hcurrent j (by omega), BitVec.getLsbD_or, getLsbD_lowerBits hc (by omega)]
    simp [Nat.not_le.2 hj]
  · intro hclean j hcj hj
    have hzero := hclean hne j hcj hj
    rw [hcurrent j hj] at hzero
    rw [BitVec.getLsbD_or, getLsbD_lowerBits hc hj, hzero, hbyte _ (by omega)]
    simp only [hcj, decide_true, Bool.true_and, Bool.false_or]
    congr 1
    rw [decide_eq_decide]
    omega

theorem upperBits_appends (hc : c < 8) (hne : c ≠ 0) (hk : 8 - c ≤ k) (hk8 : k ≤ 8)
    (hbyte : ∀ j < 8, srcByte.getLsbD j = (decide (j < k) && valid j)) :
    Appends (memory.store p [current])
      ((memory.store p [current ||| lowerBits c srcByte]).store (p + 1) [upperBits c srcByte]) p c k
      valid := by
  have hlower : Appends (memory.store p [current])
      (memory.store p [current ||| lowerBits c srcByte]) p c (min k (8 - c)) valid :=
    lowerBits_appends hc hne hbyte
  rw [Nat.min_eq_right hk] at hlower
  have hsum : 8 - c + (k - (8 - c)) = k := by omega
  rw [← hsum]
  apply hlower.trans
  rw [show (c + (8 - c)) / 8 = 1 by omega, show (c + (8 - c)) % 8 = 0 by omega]
  apply Appends.store_byte (by omega) (by simp) _ (by decide)
  intro _ j _ hj
  rw [getLsbD_upperBits hc hj, Nat.zero_add, Nat.sub_zero]
  by_cases hlt : j < c
  · rw [hbyte _ (by omega)]
    simp only [hlt, decide_true, Bool.true_and]
    congr 1
    rw [decide_eq_decide]
    omega
  · simp [hlt, show ¬ j < k - (8 - c) by omega]

/-- **The loop over whole bytes.** With the carry in the current byte, the rows are appended. The bytes
from there on have not been written. -/
theorem shiftLoop_spec (hc : c < 8) (hne : c ≠ 0) {src : List Byte} (valid : Nat → Bool)
    (hsrc : ∀ b (hb : b < src.length) (j : Nat), j < 8 → src[b].getLsbD j = valid (8 * b + j))
    (current : Byte) :
    (shiftLoop c src current w).2.position = w.position + src.length ∧
      (∀ a, w.position + src.length ≤ a → (shiftLoop c src current w).2.contents a = w.contents a) ∧
      Appends (w.contents.store w.position [current])
        ((shiftLoop c src current w).2.contents.store (w.position + src.length)
          [(shiftLoop c src current w).1]) w.position c (8 * src.length) valid := by
  induction src generalizing w valid current with
  | nil => exact ⟨rfl, fun _ _ => rfl, .refl _ _ hc _⟩
  | cons srcByte src ih =>
    have hbyte : ∀ j < 8, srcByte.getLsbD j = (decide (j < 8) && valid j) := by
      intro j hj
      have hj' := hsrc 0 (Nat.succ_pos _) j hj
      rw [getElem_cons_zero, Nat.mul_zero, Nat.zero_add] at hj'
      rw [hj', decide_eq_true hj, Bool.true_and]
    have hrest : ∀ b (hb : b < src.length) (j : Nat), j < 8 →
        src[b].getLsbD j = valid (8 + (8 * b + j)) := by
      intro b hb j hj
      have hj' := hsrc (b + 1) (Nat.succ_lt_succ hb) j hj
      rwa [getElem_cons_succ, show 8 * (b + 1) + j = 8 + (8 * b + j) by omega] at hj'
    obtain ⟨hposition, hframe, happends⟩ :=
      ih ((w.setCurrent [current ||| lowerBits c srcByte]).advance 1) (fun i => valid (8 + i)) hrest
        (upperBits c srcByte)
    rw [BlockWriter.position_advance_byte, BlockWriter.position_setCurrent] at hposition hframe happends
    rw [BlockWriter.contents_advance, BlockWriter.contents_setCurrent_byte] at hframe happends
    have hlength : w.position + (srcByte :: src).length = w.position + 1 + src.length := by
      rw [length_cons]
      omega
    rw [hlength]
    refine ⟨hposition, ?_, ?_⟩
    · intro a ha
      rw [shiftLoop, hframe a ha]
      exact Memory.store_of_le (by rw [length_singleton]; omega)
    · have hfirst : Appends (w.contents.store w.position [current])
          ((w.contents.store w.position [current ||| lowerBits c srcByte]).store (w.position + 1)
            [upperBits c srcByte]) w.position c 8 valid :=
        upperBits_appends hc hne (by omega) (Nat.le_refl 8) hbyte
      rw [length_cons, show 8 * (src.length + 1) = 8 + 8 * src.length by omega]
      apply hfirst.trans
      rw [show (c + 8) / 8 = 1 by omega, show (c + 8) % 8 = c by omega]
      exact happends

end Shift

/-- Rows are lost where the bits carried out of the last byte of a mask are not written, or where the
minimum of `appendValid` is too small. -/
def MaskChunk.LosesRows (chunk : MaskChunk) (rowOffset : Nat) : Prop :=
  rowOffset % 8 ≠ 0 ∧
    match chunk.mask with
    | none => ¬ FitsMinimum (rowOffset % 8) chunk.numRows
    | some _ => chunk.numRows % 8 = 0 ∧ chunk.numRows ≠ 0

theorem copyShifted_spec (src : Memory) (hc : c < 8) (hne : c ≠ 0) :
    (copyShifted w src n c).position = w.position + (c + n) / 8 ∧
      (n % 8 ≠ 0 ∨ n = 0 →
        Appends w.contents (copyShifted w src n c).contents w.position c n (src.testBit 0)) ∧
      (n % 8 = 0 → n ≠ 0 → ∀ a, w.position + n / 8 ≤ a →
        (copyShifted w src n c).contents a = w.contents a) := by
  have hsrc : ∀ b (hb : b < (src.load 0 (n / 8)).length) (j : Nat), j < 8 →
      (src.load 0 (n / 8))[b].getLsbD j = src.testBit 0 (8 * b + j) := by
    intro b hb j hj
    rw [Memory.testBit, Nat.mul_add_div (by decide), Nat.mul_add_mod, Nat.div_eq_of_lt hj,
      Nat.mod_eq_of_lt hj]
    simp [Memory.load]
  rcases Nat.eq_zero_or_pos n with rfl | hpos
  · exact ⟨by rw [Nat.add_zero, Nat.div_eq_of_lt hc]; rfl, fun _ => .refl _ _ hc _,
      fun _ hne' => absurd rfl hne'⟩
  obtain ⟨hposition, hframe, hloop⟩ := shiftLoop_spec w hc hne (src.testBit 0) hsrc w.getCurrent
  rw [Memory.length_load] at hposition hframe hloop
  rw [w.getCurrent_eq, Memory.store_self, ← w.getCurrent_eq] at hloop
  rw [copyShifted]
  generalize shiftLoop c (src.load 0 (n / 8)) w.getCurrent w = result at hposition hframe hloop
  obtain ⟨current, w₁⟩ := result
  dsimp only at hposition hframe hloop ⊢
  have hsum := Nat.div_add_mod n 8
  split
  next htail =>
    -- the last bits of the mask
    have hbyte : ∀ j < 8, (src (n / 8) &&& makeMask (n % 8)).getLsbD j =
        (decide (j < n % 8) && src.testBit 0 (8 * (n / 8) + j)) := by
      intro j hj
      rw [BitVec.getLsbD_and, getLsbD_makeMask (by omega) hj, Memory.testBit,
        Nat.mul_add_div (by decide), Nat.mul_add_mod, Nat.div_eq_of_lt hj, Nat.mod_eq_of_lt hj,
        Bool.and_comm, Nat.add_zero, Nat.zero_add]
    have hnext : ∀ {memory' : Memory},
        Appends (w₁.contents.store (w.position + n / 8) [current]) memory' (w.position + n / 8) c (n % 8)
          (fun i => src.testBit 0 (8 * (n / 8) + i)) →
        Appends w.contents memory' w.position c n (src.testBit 0) := by
      intro memory' hlast
      have hall : Appends w.contents memory' w.position c (8 * (n / 8) + n % 8) (src.testBit 0) := by
        apply hloop.trans
        rw [show (c + 8 * (n / 8)) / 8 = n / 8 by omega, show (c + 8 * (n / 8)) % 8 = c by omega]
        exact hlast
      rwa [hsum] at hall
    split
    next hcarry =>
      rw [BlockWriter.position_setCurrent, BlockWriter.position_advance_byte,
        BlockWriter.position_setCurrent, BlockWriter.contents_setCurrent_byte,
        BlockWriter.position_advance_byte, BlockWriter.position_setCurrent,
        BlockWriter.contents_advance, BlockWriter.contents_setCurrent_byte, hposition]
      refine ⟨by omega, fun _ => ?_, fun hzero => absurd hzero htail⟩
      exact hnext (upperBits_appends hc hne hcarry (by omega) hbyte)
    next hcarry =>
      rw [BlockWriter.position_setCurrent, BlockWriter.contents_setCurrent_byte, hposition]
      refine ⟨by omega, fun _ => ?_, fun hzero => absurd hzero htail⟩
      apply hnext
      have hlower : Appends (w₁.contents.store (w.position + n / 8) [current])
          (w₁.contents.store (w.position + n / 8)
            [current ||| lowerBits c (src (n / 8) &&& makeMask (n % 8))]) (w.position + n / 8) c
          (min (n % 8) (8 - c)) fun i => src.testBit 0 (8 * (n / 8) + i) :=
        lowerBits_appends hc hne hbyte
      rwa [Nat.min_eq_left (by omega)] at hlower
  next htail =>
    refine ⟨by omega, fun hkeep => absurd hkeep (by omega), fun _ _ => hframe⟩

end Calls

/-! ## One chunk -/

section Chunk

variable (b : MaskBuilder blockSize) (chunk : MaskChunk) {g rowOffset : Nat}

section

variable (h : b.writer.position = g + rowOffset / 8)

include h

theorem position_processMask :
    (b.processMaskForColumn chunk rowOffset).writer.position = g + (rowOffset + chunk.numRows) / 8 := by
  have hlt : rowOffset % 8 < 8 := Nat.mod_lt _ (by decide)
  rw [MaskBuilder.processMaskForColumn]
  split
  · rw [position_appendValid _ hlt, h]
    omega
  · dsimp only
    split
    · rw [(copyAligned_spec ..).1, h]
      omega
    next hne =>
      rw [(copyShifted_spec _ _ hlt hne).1, h]
      omega

/-- **A chunk that loses no rows is appended.** -/
theorem processMask_appends (hkeeps : ¬ chunk.LosesRows rowOffset) :
    Appends b.writer.contents (b.processMaskForColumn chunk rowOffset).writer.contents
      (g + rowOffset / 8) (rowOffset % 8) chunk.numRows chunk.rowIsValid := by
  have hlt : rowOffset % 8 < 8 := Nat.mod_lt _ (by decide)
  rw [← h, MaskBuilder.processMaskForColumn]
  split
  next hmask =>
    have hvalid : chunk.rowIsValid = fun _ => true := by
      funext row
      rw [MaskChunk.rowIsValid, hmask]
    rw [hvalid]
    apply appendValid_appends _ hlt
    intro hne
    by_contra hcut
    exact hkeeps ⟨hne, by rw [hmask]; exact hcut⟩
  next src hmask =>
    have hvalid : chunk.rowIsValid = src.testBit 0 := by
      funext row
      rw [MaskChunk.rowIsValid, hmask]
    rw [hvalid]
    dsimp only
    split
    next hzero =>
      rw [hzero]
      exact (copyAligned_spec ..).2
    next hne =>
      apply (copyShifted_spec _ _ hlt hne).2.1
      by_contra hlost
      exact hkeeps ⟨hne, by rw [hmask]; exact ⟨by omega, by omega⟩⟩

/-- A chunk that loses rows does not write the byte that the cursor is left at. -/
theorem processMask_lost (hlost : chunk.LosesRows rowOffset) {a : Nat}
    (ha : g + (rowOffset + chunk.numRows) / 8 ≤ a) :
    (b.processMaskForColumn chunk rowOffset).writer.contents a = b.writer.contents a := by
  have hlt : rowOffset % 8 < 8 := Nat.mod_lt _ (by decide)
  obtain ⟨hne, hlost⟩ := hlost
  rw [MaskBuilder.processMaskForColumn]
  split
  next hmask =>
    rw [hmask] at hlost
    apply appendValid_lost _ hlt hne hlost
    omega
  next src hmask =>
    rw [hmask] at hlost
    dsimp only
    rw [if_neg hne]
    apply (copyShifted_spec _ _ hlt hne).2.2 hlost.1 hlost.2
    omega

end

theorem nullCount_processMask (rowOffset : Nat) :
    (b.processMaskForColumn chunk rowOffset).nullCount =
      b.nullCount + (range chunk.numRows).countP fun row => !chunk.rowIsValid row := by
  rw [MaskBuilder.processMaskForColumn]
  split
  next hmask =>
    simp [MaskChunk.rowIsValid, hmask]
  · have hsplit := (range chunk.numRows).length_eq_countP_add_countP chunk.rowIsValid
    rw [length_range] at hsplit
    have hnot : (range chunk.numRows).countP (fun row => !chunk.rowIsValid row) =
        (range chunk.numRows).countP fun row => decide ¬ chunk.rowIsValid row = true :=
      countP_congr (by simp)
    dsimp only
    rw [MaskChunk.countValid, hnot]
    omega

end Chunk

/-! ## All chunks -/

def totalRows (chunks : List MaskChunk) : Nat := (chunks.map MaskChunk.numRows).sum

theorem totalRows_cons (chunk : MaskChunk) (chunks : List MaskChunk) :
    totalRows (chunk :: chunks) = chunk.numRows + totalRows chunks := by
  rw [totalRows, map_cons, sum_cons, totalRows]

theorem totalRows_append (chunks chunks' : List MaskChunk) :
    totalRows (chunks ++ chunks') = totalRows chunks + totalRows chunks' := by
  rw [totalRows, map_append, sum_append, totalRows, totalRows]

def rowsValid : List MaskChunk → Nat → Bool
  | [], _ => true
  | chunk :: chunks, row =>
    if row < chunk.numRows then chunk.rowIsValid row else rowsValid chunks (row - chunk.numRows)

def KeepsRows : Nat → List MaskChunk → Prop
  | _, [] => True
  | rowOffset, chunk :: chunks =>
    ¬ chunk.LosesRows rowOffset ∧ KeepsRows (rowOffset + chunk.numRows) chunks

/-- The mask of a column at a byte offset of an allocation, after all chunks. -/
def buildMask (h : 0 < blockSize) (byteOffset : Nat) (blocks : Nat → Memory) (chunks : List MaskChunk) :
    MaskBuilder blockSize :=
  MaskBuilder.processChunks ⟨⟨.initializeAt h byteOffset, ⟨blocks, []⟩⟩, 0⟩ 0 chunks

section Chunks

variable {b : MaskBuilder blockSize} {g rowOffset : Nat} {chunks : List MaskChunk}

theorem processChunks_append (b : MaskBuilder blockSize) (rowOffset : Nat)
    (chunks chunks' : List MaskChunk) :
    b.processChunks rowOffset (chunks ++ chunks') =
      (b.processChunks rowOffset chunks).processChunks (rowOffset + totalRows chunks) chunks' := by
  induction chunks generalizing b rowOffset with
  | nil => rfl
  | cons chunk chunks ih =>
    rw [cons_append, MaskBuilder.processChunks, ih, MaskBuilder.processChunks]
    congr 1
    rw [totalRows_cons]
    omega

section

variable (h : b.writer.position = g + rowOffset / 8)

include h

theorem position_processChunks :
    (b.processChunks rowOffset chunks).writer.position = g + (rowOffset + totalRows chunks) / 8 := by
  induction chunks generalizing b rowOffset with
  | nil => exact h
  | cons chunk chunks ih =>
    rw [MaskBuilder.processChunks, ih (position_processMask b chunk h), totalRows_cons]
    omega

/-- The bytes behind the cursor are as they were. -/
theorem processChunks_beyond {a : Nat} (ha : g + (rowOffset + totalRows chunks) / 8 < a) :
    (b.processChunks rowOffset chunks).writer.contents a = b.writer.contents a := by
  induction chunks generalizing b rowOffset with
  | nil => rfl
  | cons chunk chunks ih =>
    rw [totalRows_cons] at ha
    rw [MaskBuilder.processChunks, ih (position_processMask b chunk h) (by omega)]
    by_cases hlost : chunk.LosesRows rowOffset
    · exact processMask_lost b chunk h hlost (by omega)
    · exact (processMask_appends b chunk h hlost).beyond a (by omega)

/-- **Chunks that lose no rows** are appended, one after the other. -/
theorem processChunks_appends (hkeeps : KeepsRows rowOffset chunks) :
    Appends b.writer.contents (b.processChunks rowOffset chunks).writer.contents
      (g + rowOffset / 8) (rowOffset % 8) (totalRows chunks) (rowsValid chunks) := by
  induction chunks generalizing b rowOffset with
  | nil => exact .refl _ _ (Nat.mod_lt _ (by decide)) _
  | cons chunk chunks ih =>
    have hfirst := processMask_appends b chunk h hkeeps.1
    have hrest := ih (position_processMask b chunk h) hkeeps.2
    have hvalid : (fun i => rowsValid (chunk :: chunks) (chunk.numRows + i)) = rowsValid chunks := by
      funext i
      rw [rowsValid, if_neg (by omega), Nat.add_sub_cancel_left]
    rw [totalRows_cons]
    apply (hfirst.congr fun i hi => ?_).trans
    · rw [hvalid, show g + rowOffset / 8 + (rowOffset % 8 + chunk.numRows) / 8 =
          g + (rowOffset + chunk.numRows) / 8 by omega,
        show (rowOffset % 8 + chunk.numRows) % 8 = (rowOffset + chunk.numRows) % 8 by omega]
      exact hrest
    · rw [rowsValid, if_pos hi]

end

theorem nullCount_processChunks (b : MaskBuilder blockSize) (rowOffset : Nat)
    (chunks : List MaskChunk) :
    (b.processChunks rowOffset chunks).nullCount =
      b.nullCount + (range (totalRows chunks)).countP fun row => !rowsValid chunks row := by
  induction chunks generalizing b rowOffset with
  | nil => rfl
  | cons chunk chunks ih =>
    have hvalid : ∀ i, rowsValid (chunk :: chunks) (chunk.numRows + i) = rowsValid chunks i := by
      intro i
      rw [rowsValid, if_neg (by omega), Nat.add_sub_cancel_left]
    have hfirst : (range chunk.numRows).countP (fun row => !rowsValid (chunk :: chunks) row) =
        (range chunk.numRows).countP fun row => !chunk.rowIsValid row := by
      apply countP_congr
      intro row hrow
      rw [rowsValid, if_pos (mem_range.1 hrow)]
    rw [MaskBuilder.processChunks, ih, nullCount_processMask, totalRows_cons, range_add,
      countP_append, countP_map, hfirst, Nat.add_assoc]
    simp only [Function.comp_def, hvalid]

theorem exists_last_loss (h : ¬ KeepsRows rowOffset chunks) :
    ∃ before chunk after, chunks = before ++ chunk :: after ∧
      chunk.LosesRows (rowOffset + totalRows before) ∧
      KeepsRows (rowOffset + totalRows before + chunk.numRows) after := by
  induction chunks generalizing rowOffset with
  | nil => exact absurd trivial h
  | cons chunk chunks ih =>
    by_cases hrest : KeepsRows (rowOffset + chunk.numRows) chunks
    · refine ⟨[], chunk, chunks, rfl, ?_, hrest⟩
      by_contra hkeeps
      exact h ⟨hkeeps, hrest⟩
    · obtain ⟨before, lost, after, rfl, hlost, hafter⟩ := ih hrest
      have hsum : rowOffset + totalRows (chunk :: before) =
          rowOffset + chunk.numRows + totalRows before := by
        rw [totalRows_cons]
        omega
      exact ⟨chunk :: before, lost, after, rfl, hsum ▸ hlost, hsum ▸ hafter⟩

/-- A chunk that loses rows ends inside a byte, and not the one it starts in. -/
theorem MaskChunk.LosesRows.ends_inside {chunk : MaskChunk} (h : chunk.LosesRows rowOffset) :
    (rowOffset + chunk.numRows) % 8 ≠ 0 ∧ rowOffset / 8 < (rowOffset + chunk.numRows) / 8 := by
  obtain ⟨hne, hcase⟩ := h
  split at hcase
  · rw [FitsMinimum] at hcase
    have hdiv := Nat.div_add_mod chunk.numRows (2 ^ 32)
    omega
  · omega

/-- **A lost row.** If a chunk loses rows and no later one does, the first bit of the byte where its
rows end is what the allocation held before. -/
theorem lost_bit {before after : List MaskChunk} {chunk : MaskChunk} {r : Nat}
    (h : b.writer.position = g) (hr : r = totalRows before + chunk.numRows)
    (hlost : chunk.LosesRows (totalRows before)) (hafter : KeepsRows r after) :
    (b.processChunks 0 (before ++ chunk :: after)).writer.contents.testBit g (8 * (r / 8)) =
      b.writer.contents.testBit g (8 * (r / 8)) := by
  obtain ⟨hinside, hlt⟩ := hlost.ends_inside
  rw [← hr] at hinside hlt
  have hbefore : (b.processChunks 0 before).writer.position = g + totalRows before / 8 := by
    rw [position_processChunks (show b.writer.position = g + 0 / 8 from h), Nat.zero_add]
  have hchunk := position_processMask _ chunk hbefore
  rw [← hr] at hchunk
  rw [processChunks_append, MaskBuilder.processChunks, Nat.zero_add, ← hr,
    (processChunks_appends hchunk hafter).keeps_before (by omega)]
  -- neither the chunk nor an earlier one reaches that byte
  apply Memory.testBit_congr
  rw [processMask_lost _ chunk hbefore hlost (by omega)]
  apply processChunks_beyond (show b.writer.position = g + 0 / 8 from h)
  omega

end Chunks

/-- **Validity masks.** Whatever the allocation held before, the mask of a column has the validity of
every row, and `null_count` is the number of the invalid ones, if and only if no call loses rows. -/
theorem mask_accumulated_iff (h : 0 < blockSize) (byteOffset : Nat) (chunks : List MaskChunk) :
    (∀ blocks : Nat → Memory,
      (∀ row < totalRows chunks,
        (buildMask h byteOffset blocks chunks).writer.contents.testBit byteOffset row =
          rowsValid chunks row) ∧
      (buildMask h byteOffset blocks chunks).nullCount =
        (List.range (totalRows chunks)).countP fun row => !rowsValid chunks row) ↔
    KeepsRows 0 chunks := by
  constructor
  · intro hright
    by_contra hloses
    obtain ⟨before, chunk, after, rfl, hlost, hafter⟩ := exists_last_loss hloses
    rw [Nat.zero_add] at hlost hafter
    obtain ⟨r, hr⟩ : ∃ r, r = totalRows before + chunk.numRows := ⟨_, rfl⟩
    have hinside := hlost.ends_inside
    rw [← hr] at hafter hinside
    have hrows : totalRows (before ++ chunk :: after) = r + totalRows after := by
      rw [totalRows_append, totalRows_cons, hr, Nat.add_assoc]
    -- the bytes of the allocation can be such that the lost row has the other validity
    obtain ⟨byte, hbyte⟩ : ∃ byte : Byte, ∀ j < 8,
        byte.getLsbD j = !rowsValid (before ++ chunk :: after) (8 * (r / 8)) := by
      cases rowsValid (before ++ chunk :: after) (8 * (r / 8)) with
      | false => exact ⟨fullMask, fun j hj => getLsbD_fullMask hj⟩
      | true => exact ⟨0, fun j _ => BitVec.getLsbD_zero⟩
    have hstart : (⟨⟨.initializeAt h byteOffset, ⟨fun _ _ => byte, []⟩⟩, 0⟩ :
        MaskBuilder blockSize).writer.position = byteOffset :=
      Accessor.position_initializeAt h byteOffset
    have hrow := (hright fun _ _ => byte).1 (8 * (r / 8)) (by omega)
    rw [buildMask, lost_bit hstart hr hlost hafter] at hrow
    have hstale := (hbyte (8 * (r / 8) % 8) (Nat.mod_lt _ (by decide))).symm.trans hrow
    exact Bool.not_ne_self _ hstale
  · intro hkeeps blocks
    have hstart : (⟨⟨.initializeAt h byteOffset, ⟨blocks, []⟩⟩, 0⟩ : MaskBuilder blockSize).writer.position =
        byteOffset + 0 / 8 := Accessor.position_initializeAt h byteOffset
    refine ⟨?_, ?_⟩
    · intro row hrow
      have happends := processChunks_appends hstart hkeeps
      have hbit := happends.rows (fun hne => absurd rfl hne) row hrow
      rwa [Nat.zero_mod, Nat.zero_add, Nat.zero_div, Nat.add_zero] at hbit
    · rw [buildMask, nullCount_processChunks, Nat.zero_add]

/-- Three rows, and then five with a bitmap that says that the third is invalid: the mask is right. -/
theorem mask_accumulated_of_tail :
    (∀ row < 8, (@buildMask 16 (by decide) 12 (fun _ _ => 0)
      [⟨3, none⟩, ⟨5, some fun _ => 0xfb⟩]).writer.contents.testBit 12 row = (row != 5)) ∧
    (@buildMask 16 (by decide) 12 (fun _ _ => 0)
      [⟨3, none⟩, ⟨5, some fun _ => 0xfb⟩]).nullCount = 1 := by
  have hkeeps : KeepsRows 0 [⟨3, none⟩, ⟨5, some fun _ => 0xfb⟩] :=
    ⟨fun h => h.1 rfl, fun h => absurd h.2.1 (by decide), trivial⟩
  have hmask := (@mask_accumulated_iff 16 (by decide) 12 _).2 hkeeps fun _ _ => 0
  refine ⟨fun row hrow => (hmask.1 row hrow).trans ?_, hmask.2⟩
  have hall : ∀ row : Fin 8, rowsValid [⟨3, none⟩, ⟨5, some fun _ => 0xfb⟩] row.1 = (row.1 != 5) := by
    decide
  exact hall ⟨row, hrow⟩

/-- Three rows, and then eight with a bitmap, all of them valid: the last three rows are never written,
and in an allocation of zeros they are invalid. -/
theorem mask_accumulated_lost :
    let chunks : List MaskChunk := [⟨3, none⟩, ⟨8, some fun _ => 0xff⟩]
    let b := @buildMask 16 (by decide) 0 (fun _ _ => 0) chunks
    totalRows chunks = 11 ∧
      (∀ row < 11, rowsValid chunks row = true) ∧
      (∀ row < 11, b.writer.contents.testBit 0 row = decide (row < 8)) ∧
      b.nullCount = 0 := by
  decide

end Sirius.HostTable
