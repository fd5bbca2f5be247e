import Mathlib.Tactic.IntervalCases
import Sirius.Lib.ByteMemory
import Sirius.Lib.Fallible

/-!
# Deletion vectors

`read_deletion_vector` (`src/op/scan/puffin_reader.cpp`) checks the length, the magic bytes and the
checksum of a blob and decodes the Roaring bitmaps in it. All lengths come from the blob. A pointer is an
offset, and a read outside of the blob is undefined: there is none (`deletion_vector_stays_in_blob`).

With a `combined_length` below 4 the length of the bitmaps would wrap. The stored checksum then overlaps
the magic bytes, which are not the checksum of what precedes them (`storedCrc_ne`).
-/

namespace Sirius.Iceberg.Puffin

open Lib List

/-! ## Reading -/

def readBytes (blob : List Byte) (p n : Nat) : Except Failure (List Byte) :=
  if p + n ≤ blob.length then .ok ((blob.drop p).take n) else .error .undefined

/-- `read_u16_le`, `read_u32_le` and the like. -/
def readLe (blob : List Byte) (p n : Nat) : Except Failure Nat := do
  return decode (← readBytes blob p n)

def readU32Be (blob : List Byte) (p : Nat) : Except Failure Nat := do
  return decode (← readBytes blob p 4).reverse

def throwIf (condition : Prop) [Decidable condition] (message : String) : Except Failure Unit :=
  if condition then .error (.exception message) else .ok ()

/-- The check `p + n > p_end`. Addresses are 64 bits wide, so that a length from `2 ^ 63` on leads
backwards. -/
def throwIfPast (p n pEnd : Nat) (message : String) : Except Failure Unit :=
  throwIf ((pEnd : Int) < p + (n : Int).bmod (2 ^ 64)) message

/-- The conversion to `size_t`. -/
def sizeT (n : Int) : Nat := (n % 2 ^ 64).toNat

/-! ## Bitmaps -/

def serialCookieNoRuncontainer : Nat := 12346

def serialCookie : Nat := 12347

inductive ContainerType where
  | array | bitmap | run

structure ContainerDesc where
  key : Nat
  cardinality : Nat
  type : ContainerType

/-- The number of containers, the run bitmap, and where the descriptors start. -/
def readCookie (blob : List Byte) (data pEnd cookie : Nat) :
    Except Failure (Int × Option Nat × Nat) :=
  let p := data + 4
  if cookie % 2 ^ 16 = serialCookie then do
    let numContainers : Nat := cookie / 2 ^ 16 + 1
    let runBitmapBytes := (numContainers + 7) / 8
    throwIfPast p runBitmapBytes pEnd "roaring: truncated run bitmap"
    return (numContainers, some p, p + runBitmapBytes)
  else if cookie = serialCookieNoRuncontainer then do
    throwIfPast p 4 pEnd "roaring: truncated container count"
    return (((← readLe blob p 4) : Int).bmod (2 ^ 32), none, p + 4)
  else .error (.exception s!"roaring: unknown cookie {cookie}")

/-- The bit of a container in the run bitmap. -/
def isRun (blob : List Byte) (runBitmap : Option Nat) (i : Nat) : Except Failure Bool :=
  match runBitmap with
  | none => .ok false
  | some runBitmap => do return (← readLe blob (runBitmap + i / 8) 1).testBit (i % 8)

/-- A descriptor with its type. -/
def readDescriptor (blob : List Byte) (runBitmap : Option Nat) (p i : Nat) :
    Except Failure ContainerDesc := do
  let key ← readLe blob (p + 4 * i) 2
  let cardinality := (← readLe blob (p + 4 * i + 2) 2) + 1
  let run ← isRun blob runBitmap i
  return ⟨key, cardinality, if run then .run else if cardinality ≤ 4096 then .array else .bitmap⟩

/-- `__builtin_ctzll` of a number that is not 0. -/
def ctz (n : Nat) : Nat := (List.range 64).findIdx n.testBit

/-- The loop that clears the lowest bit. -/
def bitsOf (word : Nat) : List Nat :=
  if h : word = 0 then [] else
    have : word &&& (word - 1) < word := by
      have := Nat.and_le_right (n := word) (m := word - 1)
      omega
    ctz word :: bitsOf (word &&& (word - 1))

/-- The values of one container, and the pointer behind it. -/
def readContainer (blob : List Byte) (pEnd : Nat) (c : ContainerDesc) (p : Nat) :
    Except Failure (List Nat × Nat) :=
  let high := c.key <<< 16
  match c.type with
  | .array => do
    throwIfPast p (c.cardinality * 2) pEnd "roaring: truncated array container"
    let values ← (List.range c.cardinality).mapM fun j => readLe blob (p + 2 * j) 2
    return (values.map (high ||| ·), p + 2 * c.cardinality)
  | .bitmap => do
    throwIfPast p 8192 pEnd "roaring: truncated bitmap container"
    let words ← (List.range 1024).mapM fun w => readLe blob (p + w * 8) 8
    return (words.zipIdx.flatMap fun (word, w) =>
      (bitsOf word).map fun bit => high ||| (w * 64 + bit), p + 8192)
  | .run => do
    throwIfPast p 2 pEnd "roaring: truncated run container header"
    let numRuns ← readLe blob p 2
    throwIfPast (p + 2) (numRuns * 4) pEnd "roaring: truncated run container"
    let runs ← (List.range numRuns).mapM fun r => do
      let start ← readLe blob (p + 2 + 4 * r) 2
      let length ← readLe blob (p + 2 + 4 * r + 2) 2
      return (List.range' start (length + 1)).map (high ||| ·)
    return (runs.flatten, p + 2 + 4 * numRuns)

def readContainers (blob : List Byte) (pEnd : Nat) :
    List ContainerDesc → Nat → Except Failure (List Nat × Nat)
  | [], p => .ok ([], p)
  | c :: cs, p => do
    let (out, p) ← readContainer blob pEnd c p
    let (rest, p) ← readContainers blob pEnd cs p
    return (out ++ rest, p)

/-- The largest vector of descriptors, which have 12 bytes. -/
def maxSize : Nat := (2 ^ 63 - 1) / 12

/-- `deserialize_roaring32`: the members, and the number of bytes consumed. -/
def deserializeRoaring32 (blob : List Byte) (data dataLen : Nat) : Except Failure (List Nat × Nat) := do
  throwIf (dataLen < 4) "roaring: buffer too small for cookie"
  let pEnd := data + dataLen
  let cookie ← readLe blob data 4
  let (numContainers, runBitmap, p) ← readCookie blob data pEnd cookie
  if numContainers = 0 then return ([], p - data)
  else
    let bytes := sizeT numContainers * 4 % 2 ^ 64
    throwIfPast p bytes pEnd "roaring: truncated descriptors"
    throwIf (maxSize < sizeT numContainers) "cannot create std::vector larger than max_size()"
    let n := numContainers.toNat
    let containers ← (List.range n).mapM (readDescriptor blob runBitmap p)
    let offsets := if runBitmap.isNone ∨ 4 ≤ n then bytes else 0
    throwIfPast (p + 4 * n) offsets pEnd "roaring: truncated offset header"
    let (out, p) ← readContainers blob pEnd containers (p + 4 * n + offsets)
    return (out, p - data)

/-! ## The blob -/

/-- An entry of the table, from eight rounds. -/
def crc32Table (i : BitVec 32) : BitVec 32 :=
  Nat.repeat (fun c => if c.getLsbD 0 then 0xEDB88320 ^^^ c >>> 1 else c >>> 1) 8 i

def computeCrc32 (data : List Byte) : BitVec 32 :=
  data.foldl (fun crc b => crc32Table ((crc ^^^ b.setWidth 32) &&& 0xFF) ^^^ crc >>> 8) 0xFFFFFFFF ^^^
    0xFFFFFFFF

def dvMagic : List Byte := [0xD1, 0xD3, 0x39, 0x64]

/-- The loop over the bitmaps. -/
def readBitmaps (blob : List Byte) : Nat → Nat → Nat → Except Failure (List Int)
  | 0, _, _ => .ok []
  | n + 1, p, roaringLen => do
    throwIf (roaringLen < 4) "[puffin] Truncated bitmap key"
    let key ← readLe blob p 4
    let (lows, consumed) ← deserializeRoaring32 blob (p + 4) (roaringLen - 4)
    let rest ← readBitmaps blob n (p + 4 + consumed) (sizeT ((roaringLen - 4 : Nat) - consumed))
    return lows.map (fun low => ((key <<< 32 ||| low : Nat) : Int).bmod (2 ^ 64)) ++ rest

/-- `read_deletion_vector`, from the blob on. -/
def readDeletionVector (puffinPath : String) (blob : List Byte) : Except Failure (List Int) := do
  let blobSize := blob.length
  throwIf (blobSize < 12) s!"[puffin] Blob too small ({blobSize} bytes) to be a deletion-vector-v1"
  let combinedLength ← readU32Be blob 0
  throwIf ((← readBytes blob 4 4) ≠ dvMagic)
    s!"[puffin] Deletion vector magic mismatch in {puffinPath}"
  throwIf (blobSize < 4 + combinedLength + 4)
    s!"[puffin] Blob size mismatch: combined_length={combinedLength} blob_size={blobSize}"
  let storedCrc ← readU32Be blob (4 + combinedLength)
  let computedCrc := (computeCrc32 (← readBytes blob 4 combinedLength)).toNat
  throwIf (storedCrc ≠ computedCrc)
    s!"[puffin] CRC-32 mismatch in {puffinPath}: stored={storedCrc} computed={computedCrc}"
  let roaringLen := sizeT ((combinedLength : Int) - 4)
  throwIf (roaringLen < 8) "[puffin] Roaring vector too small"
  let numBitmaps := ((← readLe blob 8 8) : Int).bmod (2 ^ 64)
  let positions ← readBitmaps blob numBitmaps.toNat 16 (roaringLen - 8)
  return positions.mergeSort (· ≤ ·)

/-! ## No read leaves the blob -/

variable {blob : List Byte} {p n pEnd : Nat} {message : String}

theorem ensures_readBytes (h : p + n ≤ blob.length) :
    Ensures (readBytes blob p n) (· = (blob.drop p).take n) := by
  rw [readBytes, if_pos h]
  exact ensures_ok rfl

theorem ensures_readLe (h : p + n ≤ blob.length) : Ensures (readLe blob p n) (· < 256 ^ n) := by
  refine (ensures_readBytes h).bind fun bytes hbytes => ensures_ok ?_
  have hlt := decode_lt bytes
  rwa [hbytes, length_take_of_le (by rw [length_drop]; omega), ← hbytes] at hlt

theorem ensures_readU32Be (h : p + 4 ≤ blob.length) : Ensures (readU32Be blob p) fun n =>
    n = decode ((blob.drop p).take 4).reverse ∧ n < 2 ^ 32 := by
  refine (ensures_readBytes h).bind fun bytes hbytes => ensures_ok ⟨by rw [hbytes], ?_⟩
  have hlt := decode_lt bytes.reverse
  rwa [length_reverse, hbytes, length_take_of_le (by rw [length_drop]; omega), ← hbytes] at hlt

theorem ensures_throwIf {condition : Prop} [Decidable condition] :
    Ensures (throwIf condition message) fun _ => ¬condition := by
  rw [throwIf]
  split
  · exact ensures_exception
  · exact ensures_ok ‹_›

theorem ensures_throwIfPast (hn : n < 2 ^ 63) :
    Ensures (throwIfPast p n pEnd message) fun _ => p + n ≤ pEnd := by
  refine ensures_throwIf.mono fun _ h => ?_
  rw [Int.bmod_eq_of_le (by omega) (by omega)] at h
  omega

section Roaring

variable (hend : pEnd ≤ blob.length)

include hend

theorem ensures_readContainer {c : ContainerDesc} (hc : c.cardinality ≤ 2 ^ 16) :
    Ensures (readContainer blob pEnd c p) fun r => p ≤ r.2 ∧ r.2 ≤ pEnd := by
  unfold readContainer
  cases c.type with
  | array =>
    refine (ensures_throwIfPast (by omega)).bind fun _ hroom =>
      (ensures_mapM (R := fun _ => True) fun j hj => ?_).bind fun _ _ => ensures_ok ?_
    · have := mem_range.1 hj
      exact (ensures_readLe (by omega)).mono fun _ _ => trivial
    · dsimp only
      omega
  | bitmap =>
    refine (ensures_throwIfPast (by decide)).bind fun _ hroom =>
      (ensures_mapM (R := fun _ => True) fun w hw => ?_).bind fun _ _ => ensures_ok ?_
    · have := mem_range.1 hw
      exact (ensures_readLe (by omega)).mono fun _ _ => trivial
    · dsimp only
      omega
  | run =>
    refine (ensures_throwIfPast (by decide)).bind fun _ hheader =>
      (ensures_readLe (by omega)).bind fun numRuns hruns =>
        (ensures_throwIfPast (by omega)).bind fun _ hroom =>
          (ensures_mapM (R := fun _ => True) fun r hr => ?_).bind fun _ _ => ensures_ok ?_
    · have := mem_range.1 hr
      exact (ensures_readLe (by omega)).bind fun _ _ =>
        (ensures_readLe (by omega)).bind fun _ _ => ensures_ok trivial
    · dsimp only
      omega

theorem ensures_readContainers {cs : List ContainerDesc} (hp : p ≤ pEnd)
    (hcs : ∀ c ∈ cs, c.cardinality ≤ 2 ^ 16) :
    Ensures (readContainers blob pEnd cs p) fun r => p ≤ r.2 ∧ r.2 ≤ pEnd := by
  induction cs generalizing p with
  | nil => exact ensures_ok ⟨le_rfl, hp⟩
  | cons c cs ih =>
    rw [forall_mem_cons] at hcs
    refine (ensures_readContainer hend hcs.1).bind fun r hr =>
      (ih hr.2 hcs.2).bind fun r' hr' => ensures_ok ?_
    exact ⟨hr.1.trans hr'.1, hr'.2⟩

/-- The run bitmap, if there is one, has a bit for every container. -/
theorem ensures_readCookie {data cookie : Nat} (hcookie : cookie < 2 ^ 32) :
    Ensures (readCookie blob data pEnd cookie) fun r =>
      data ≤ r.2.2 ∧ r.2.2 ≤ pEnd ∧ -2 ^ 31 ≤ r.1 ∧ r.1 < 2 ^ 31 ∧
        ∀ q, r.2.1 = some q → q + (r.1.toNat + 7) / 8 ≤ pEnd := by
  unfold readCookie
  split
  · refine (ensures_throwIfPast (by omega)).bind fun _ hroom => ensures_ok ?_
    refine ⟨by dsimp only; omega, hroom, by dsimp only; omega, by dsimp only; omega, ?_⟩
    rintro q ⟨⟩
    exact hroom
  split
  · refine (ensures_throwIfPast (by decide)).bind fun _ hroom =>
      (ensures_readLe (by omega)).bind fun count _ => ensures_ok ?_
    have hlo := Int.le_bmod (x := count) (m := 2 ^ 32) (by decide)
    have hhi := Int.bmod_lt (x := count) (m := 2 ^ 32) (by decide)
    exact ⟨by dsimp only; omega, hroom, by dsimp only; omega, by dsimp only; omega, nofun⟩
  · exact ensures_exception

theorem ensures_readDescriptor {runBitmap : Option Nat} {i : Nat} (hp : p + 4 * n ≤ pEnd) (hi : i < n)
    (hrun : ∀ q, runBitmap = some q → q + (n + 7) / 8 ≤ pEnd) :
    Ensures (readDescriptor blob runBitmap p i) fun c => c.cardinality ≤ 2 ^ 16 := by
  have hisRun : Ensures (isRun blob runBitmap i) fun _ => True := by
    unfold isRun
    cases runBitmap with
    | none => exact ensures_ok trivial
    | some q =>
      have := hrun q rfl
      exact (ensures_readLe (by omega)).bind fun _ _ => ensures_ok trivial
  refine (ensures_readLe (by omega)).bind fun _ _ => (ensures_readLe (by omega)).bind fun _ hcard =>
    hisRun.bind fun _ _ => ensures_ok ?_
  dsimp only
  omega

end Roaring

theorem ensures_deserializeRoaring32 {data dataLen : Nat} (h : data + dataLen ≤ blob.length) :
    Ensures (deserializeRoaring32 blob data dataLen) fun r => r.2 ≤ dataLen := by
  refine ensures_throwIf.bind fun _ hlen => (ensures_readLe (by omega)).bind fun cookie hcookie =>
    (ensures_readCookie h hcookie).bind fun ⟨num, runBitmap, p⟩ ⟨hdata, hp, hlo, hhi, hrun⟩ => ?_
  dsimp only at hdata hp hlo hhi hrun ⊢
  split
  · exact ensures_ok (by dsimp only; omega)
  -- a negative number of containers is too large for a vector
  by_cases hneg : num < 0
  · refine (ensures_throwIf.mono fun _ _ => trivial).bind fun _ _ =>
      (ensures_throwIf.bind fun _ hsize => absurd ?_ hsize)
    unfold maxSize sizeT
    omega
  obtain ⟨n, rfl⟩ := Int.eq_ofNat_of_zero_le (Int.not_lt.1 hneg)
  have hbytes : sizeT n * 4 % 2 ^ 64 = 4 * n := by
    unfold sizeT
    omega
  rw [hbytes, Int.toNat_natCast]
  refine (ensures_throwIfPast (by omega)).bind fun _ hroom => ensures_throwIf.bind fun _ _ =>
    (ensures_mapM fun i hi =>
      ensures_readDescriptor h (by omega) (mem_range.1 hi) hrun).bind fun cs hcs => ?_
  have hoffsets : (if runBitmap.isNone ∨ 4 ≤ n then 4 * n else 0) < 2 ^ 63 := by
    split <;> omega
  refine (ensures_throwIfPast hoffsets).bind fun _ hroom' =>
    (ensures_readContainers h hroom' hcs).bind fun r hr => ensures_ok ?_
  dsimp only
  omega

theorem ensures_readBitmaps {count roaringLen : Nat} (h : p + roaringLen ≤ blob.length)
    (hlen : roaringLen < 2 ^ 32) :
    Ensures (readBitmaps blob count p roaringLen) fun _ => True := by
  induction count generalizing p roaringLen with
  | zero => exact ensures_ok trivial
  | succ count ih =>
    refine ensures_throwIf.bind fun _ hkey => (ensures_readLe (by omega)).bind fun _ _ =>
      (ensures_deserializeRoaring32 (by omega)).bind fun ⟨lows, consumed⟩ hconsumed => ?_
    dsimp only at hconsumed ⊢
    have hrest : sizeT ((roaringLen - 4 : Nat) - consumed) = roaringLen - 4 - consumed := by
      unfold sizeT
      omega
    rw [hrest]
    exact (ih (by omega) (by omega)).bind fun _ _ => ensures_ok trivial

theorem computeCrc32_magic : (List.range 4).map (fun k => computeCrc32 (dvMagic.take k)) =
    [0, 0x23D60DCF, 0xC62065CF, 0x861A98C1] := by
  rfl

/-- A checksum that begins in the magic bytes is not the one of the bytes before it. -/
theorem storedCrc_ne {k : Nat} {tail : List Byte} (hk : k < 4) (htail : 4 ≤ tail.length) :
    decode (((dvMagic ++ tail).drop k).take 4).reverse ≠
      (computeCrc32 ((dvMagic ++ tail).take k)).toNat := by
  have hcrc := congrArg (·[k]?) computeCrc32_magic
  simp only [getElem?_map, getElem?_range hk, Option.map_some] at hcrc
  rw [take_append_of_le_length (Nat.le_of_lt hk)]
  match tail, htail with
  | a :: b :: c :: d :: _, _ =>
    have ha := a.isLt
    have hb := b.isLt
    have hc := c.isLt
    interval_cases k
    all_goals
      rw [Option.some.inj hcrc]
      simp [dvMagic, decode] <;> omega

/-- **The parser throws or returns, and reads nothing outside of the blob.** -/
theorem deletion_vector_stays_in_blob (puffinPath : String) (blob : List Byte) :
    (∃ positions, readDeletionVector puffinPath blob = .ok positions) ∨
      Throws (readDeletionVector puffinPath blob) := by
  have hall : Ensures (readDeletionVector puffinPath blob) fun _ => True := by
    refine ensures_throwIf.bind fun _ hsize => ?_
    refine (ensures_readU32Be (by omega)).bind fun combinedLength ⟨_, hlt⟩ => ?_
    refine (ensures_readBytes (by omega)).bind fun _ hmagic => ensures_throwIf.bind fun _ hm => ?_
    refine ensures_throwIf.bind fun _ hfits => ?_
    refine (ensures_readU32Be (by omega)).bind fun stored ⟨hstored, _⟩ => ?_
    refine (ensures_readBytes (by omega)).bind fun _ hdata => ensures_throwIf.bind fun _ hcrc => ?_
    -- the checksum would not match
    have hlen : 4 ≤ combinedLength := by
      by_contra hlt
      have hsplit : blob.drop 4 = dvMagic ++ blob.drop 8 := by
        rw [← not_not.1 hm, hmagic]
        conv_lhs => rw [← take_append_drop 4 (blob.drop 4), drop_drop]
      apply hcrc
      rw [hstored, hdata, ← drop_drop, hsplit]
      exact storedCrc_ne (by omega) (by rw [length_drop]; omega)
    have hroaring : sizeT ((combinedLength : Int) - 4) = combinedLength - 4 := by
      unfold sizeT
      omega
    rw [hroaring]
    refine ensures_throwIf.bind fun _ h8 => (ensures_readLe (by omega)).bind fun _ _ => ?_
    exact (ensures_readBitmaps (by omega) (by omega)).bind fun _ _ => ensures_ok trivial
  by_cases hok : ∃ positions, readDeletionVector puffinPath blob = .ok positions
  · exact .inl hok
  · exact .inr (hall.1.throws_iff.2 hok)

end Sirius.Iceberg.Puffin
