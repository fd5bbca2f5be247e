import Sirius.Native.Bitpacking

/-!
# Safety of the bitpacking decoder

What `kernel_decode_bitpacking` accesses while it decodes a group, whatever bytes it finds: the reads of
the segment (`groupReads`) and the words of the shared buffer (`sharedWords`). The end of the metadata,
the offset of the data, the mode and the width all come from the segment and are checked one after the
other; together the checks cover every access (`bitpacking_safe`).
-/

namespace Sirius.Native

open Lib List

/-! ## Accesses -/

/-- What thread 0 reads of the segment, as addresses with numbers of bytes. -/
def parseReads (size : Nat) (d : BpGroupDesc) : List (Nat × Nat) :=
  let header := if 8 ≤ d.segmentBytes then [(0, 8)] else []
  let metadataEnd := if 8 ≤ d.segmentBytes then decode (d.segment.load 0 8) else 0
  if 8 + (d.groupIdx + 1) * 4 ≤ metadataEnd ∧ metadataEnd ≤ d.segmentBytes then
    let entry := metadataEnd - (d.groupIdx + 1) * 4
    let encoded := decode (d.segment.load entry 4)
    let dataOff := encoded % 2 ^ 24
    header ++ (entry, 4) ::
      if dataOff + 2 * size ≤ metadataEnd then
        (dataOff, size) :: (dataOff + size, size) ::
          -- the third element is only read in this mode
          if BitpackingMode.ofCode (encoded / 2 ^ 24) = .deltaFor ∧ dataOff + 3 * size ≤ metadataEnd then
            [(dataOff + 2 * size, size)]
          else []
      else []
  else header

def GroupMeta.nPackedWords {size : Nat} (s : GroupMeta size) : Nat := (s.rowCount * s.width + 31) / 32

def GroupMeta.isPacked {size : Nat} (s : GroupMeta size) : Bool := s.mode = .plainFor ∨ s.mode = .deltaFor

def groupReads (size : Nat) (d : BpGroupDesc) : List (Nat × Nat) :=
  let s := parseGroup size d
  parseReads size d ++ if s.isPacked then [(s.dataOffset, s.nPackedWords * 4)] else []

/-- `MAX_PACKED_WORDS`, the size of the shared buffer, with one guard word. -/
def maxPackedWords (size : Nat) : Nat := (2048 * (8 * size) + 31) / 32 + 1

def unpackedWords (size idx width : Nat) : List Nat :=
  if width = 0 then []
  else
    let wordIdx := idx * width / 32
    let bitOff := idx * width % 32
    wordIdx :: (if 32 < bitOff + width then [wordIdx + 1] else []) ++
      if 4 < size ∧ 0 < bitOff ∧ 64 < bitOff + width then [wordIdx + 2] else []

/-- The words of the shared buffer that the block accesses: those it copies and the guard word, those it
unpacks, and for `DELTA_FOR` those through which the elements are exchanged. -/
def sharedWords (size : Nat) (d : BpGroupDesc) : List Nat :=
  let s := parseGroup size d
  if s.isPacked then
    List.range (s.nPackedWords + 1) ++ (List.range s.rowCount).flatMap (unpackedWords size · s.width) ++
      if s.mode = .deltaFor then
        (List.range s.rowCount).flatMap fun idx => (List.range size).map fun b => (idx * size + b) / 4
      else []
  else []

def GroupMeta.isRejected {size : Nat} (s : GroupMeta size) : Bool :=
  !s.isPacked && s.mode ≠ .constant && s.mode ≠ .constantDelta

/-! ## The checks -/

section Checks

variable {size : Nat} {d : BpGroupDesc}

theorem GroupMeta.check_spec (s : GroupMeta size) (metadataEnd : Nat) :
    (s.check metadataEnd).rowCount = s.rowCount ∧ ((s.check metadataEnd).isPacked = true →
      (s.check metadataEnd).width ≤ 8 * size ∧
        (s.check metadataEnd).dataOffset + (s.check metadataEnd).nPackedWords * 4 ≤ metadataEnd) := by
  simp only [GroupMeta.check, GroupMeta.isPacked, GroupMeta.nPackedWords, decide_eq_true_eq]
  grind

theorem GroupMeta.rowCount_ofMode (segment : Memory) (metadataEnd dataOff rowCount : Nat)
    (mode : BitpackingMode) :
    (GroupMeta.ofMode size segment metadataEnd dataOff rowCount mode).rowCount = rowCount := by
  cases mode <;> grind [GroupMeta.ofMode]

/-- What the checks of the metadata come to. -/
theorem parseGroup_spec : (parseGroup size d).isRejected = true ∨
    (parseGroup size d).rowCount = d.groupRowCount ∧ ((parseGroup size d).isPacked = true →
      (parseGroup size d).width ≤ 8 * size ∧
        (parseGroup size d).dataOffset + (parseGroup size d).nPackedWords * 4 ≤ d.segmentBytes) := by
  obtain ⟨metadataEnd, hend⟩ : ∃ metadataEnd, metadataEnd =
    (if 8 ≤ d.segmentBytes then decode (d.segment.load 0 8) else 0) := ⟨_, rfl⟩
  rw [parseGroup, ← hend]
  dsimp only
  split
  next hok =>
    split
    · obtain ⟨hrows, hpacked⟩ := GroupMeta.check_spec (GroupMeta.ofMode size d.segment metadataEnd
        (decode (d.segment.load (metadataEnd - (d.groupIdx + 1) * 4) 4) % 2 ^ 24) d.groupRowCount
        (BitpackingMode.ofCode (decode (d.segment.load (metadataEnd - (d.groupIdx + 1) * 4) 4) / 2 ^ 24)))
        metadataEnd
      refine .inr ⟨hrows.trans (GroupMeta.rowCount_ofMode ..), fun hp => ?_⟩
      obtain ⟨hwidth, hle⟩ := hpacked hp
      exact ⟨hwidth, hle.trans hok.2⟩
    · exact .inl rfl
  · exact .inl rfl

theorem parseReads_le {r : Nat × Nat} (hr : r ∈ parseReads size d) : r.1 + r.2 ≤ d.segmentBytes := by
  obtain ⟨metadataEnd, hend⟩ : ∃ metadataEnd, metadataEnd =
    (if 8 ≤ d.segmentBytes then decode (d.segment.load 0 8) else 0) := ⟨_, rfl⟩
  have hheader : r ∈ (if 8 ≤ d.segmentBytes then [(0, 8)] else []) → r.1 + r.2 ≤ d.segmentBytes := by
    grind
  rw [parseReads, ← hend] at hr
  dsimp only at hr
  split at hr
  next hok =>
    rcases mem_append.1 hr with hr | hr
    · exact hheader hr
    · obtain ⟨dataOff, hoff⟩ : ∃ dataOff, dataOff =
        decode (d.segment.load (metadataEnd - (d.groupIdx + 1) * 4) 4) % 2 ^ 24 := ⟨_, rfl⟩
      rw [← hoff] at hr
      grind
  · exact hheader hr

theorem GroupMeta.ofMode_congr {segment segment' : Memory} {metadataEnd dataOff rowCount : Nat}
    {mode : BitpackingMode} (hfirst : segment.load dataOff size = segment'.load dataOff size)
    (hsecond : segment.load (dataOff + size) size = segment'.load (dataOff + size) size)
    (hthird : mode = .deltaFor → dataOff + 3 * size ≤ metadataEnd →
      segment.load (dataOff + 2 * size) size = segment'.load (dataOff + 2 * size) size) :
    GroupMeta.ofMode size segment metadataEnd dataOff rowCount mode =
      GroupMeta.ofMode size segment' metadataEnd dataOff rowCount mode := by
  cases mode
  case deltaFor => grind [GroupMeta.ofMode, readElement]
  all_goals simp only [GroupMeta.ofMode, readElement, hfirst, hsecond]

/-- The metadata of a group depends on the listed bytes of the segment alone. -/
theorem parseGroup_congr {segment : Memory}
    (h : ∀ r ∈ parseReads size d, segment.load r.1 r.2 = d.segment.load r.1 r.2) :
    parseGroup size { d with segment } = parseGroup size d := by
  obtain ⟨metadataEnd, hend⟩ : ∃ metadataEnd, metadataEnd =
    (if 8 ≤ d.segmentBytes then decode (d.segment.load 0 8) else 0) := ⟨_, rfl⟩
  have hheader : 8 ≤ d.segmentBytes → segment.load 0 8 = d.segment.load 0 8 := by
    intro hsize
    refine h (0, 8) ?_
    rw [parseReads, if_pos hsize]
    grind
  have hend' : metadataEnd = (if 8 ≤ d.segmentBytes then decode (segment.load 0 8) else 0) := by
    grind
  rw [parseGroup, parseGroup, ← hend, ← hend']
  rw [parseReads, ← hend] at h
  dsimp only at h ⊢
  split
  next hok =>
    rw [if_pos hok, forall_mem_append, forall_mem_cons] at h
    obtain ⟨-, hentry, hdata⟩ := h
    rw [hentry]
    split
    next hle =>
      rw [if_pos hle, forall_mem_cons, forall_mem_cons] at hdata
      obtain ⟨hfirst, hsecond, hthird⟩ := hdata
      rw [GroupMeta.ofMode_congr hfirst hsecond]
      intro hmode hthree
      exact hthird _ (by rw [if_pos ⟨hmode, hthree⟩]; exact mem_singleton_self _)
    · rfl
  · rfl

theorem packedWords_congr {segment segment' : Memory} {dataOffset words : Nat} {stale : Nat → BitVec 32}
    (h : segment.load dataOffset (words * 4) = segment'.load dataOffset (words * 4)) :
    packedWords segment dataOffset words stale = packedWords segment' dataOffset words stale := by
  funext k
  rw [packedWords, packedWords]
  by_cases hk : k < words
  · have hfit : 4 * k + 4 ≤ words * 4 := by omega
    rw [if_pos hk, if_pos hk, ← Memory.take_drop_load hfit, h, Memory.take_drop_load hfit]
  · rw [if_neg hk, if_neg hk]

/-- **The listed reads are all reads**: what a block writes depends on no other byte of the segment. -/
theorem groupWrites_congr {segment : Memory} {outAddress : Nat} {stale : Nat → BitVec 32}
    (h : ∀ r ∈ groupReads size d, segment.load r.1 r.2 = d.segment.load r.1 r.2) :
    groupWrites size outAddress stale { d with segment } = groupWrites size outAddress stale d := by
  rw [groupReads, forall_mem_append] at h
  obtain ⟨hmeta, hdata⟩ := h
  rw [groupWrites, groupWrites, parseGroup_congr hmeta]
  cases hmode : (parseGroup size d).mode
  case deltaFor | plainFor =>
    rw [if_pos (by simp [GroupMeta.isPacked, hmode])] at hdata
    have hwords := hdata _ (mem_singleton_self _)
    rw [GroupMeta.nPackedWords] at hwords
    dsimp only
    rw [packedWords_congr hwords]
  all_goals rfl

/-- A value depends on the listed words of the buffer alone. -/
theorem unpackValue_congr {packed packed' : Nat → BitVec 32} {idx width : Nat}
    (h : ∀ k ∈ unpackedWords size idx width, packed k = packed' k) :
    unpackValue size packed idx width = unpackValue size packed' idx width := by
  unfold unpackedWords at h
  unfold unpackValue
  grind

theorem unpackedWords_lt {rows idx width k : Nat} (hidx : idx < rows) (hk : k ∈ unpackedWords size idx width) :
    k < (rows * width + 31) / 32 := by
  have hrow := Nat.mul_le_mul_right width (Nat.succ_le_of_lt hidx)
  rw [Nat.succ_mul] at hrow
  rw [unpackedWords] at hk
  split at hk
  · cases hk
  · dsimp only at hk
    obtain ⟨bits, hbits⟩ : ∃ bits, bits = idx * width := ⟨_, rfl⟩
    rw [← hbits] at hk hrow
    grind

theorem nPackedWords_lt {rows width : Nat} (hrows : rows ≤ 2048) (hwidth : width ≤ 8 * size) :
    (rows * width + 31) / 32 < maxPackedWords size := by
  have hle : rows * width ≤ 2048 * (8 * size) := Nat.mul_le_mul hrows hwidth
  rw [maxPackedWords]
  omega

theorem sharedWords_lt (hsize : IsElementSize size) (hrows : d.groupRowCount ≤ 2048) {k : Nat}
    (hk : k ∈ sharedWords size d) : k < maxPackedWords size := by
  rw [sharedWords] at hk
  split at hk
  next hpacked =>
    rcases parseGroup_spec with hrejected | ⟨hcount, hspec⟩
    · rw [GroupMeta.isRejected, hpacked] at hrejected
      cases hrejected
    · obtain ⟨hwidth, -⟩ := hspec hpacked
      rw [GroupMeta.nPackedWords, hcount] at hk
      have hwords := nPackedWords_lt hrows hwidth
      rcases mem_append.1 hk with hk | hk
      · rcases mem_append.1 hk with hk | hk
        · have hk := mem_range.1 hk
          omega
        · obtain ⟨idx, hidx, hk⟩ := mem_flatMap.1 hk
          have hlt := unpackedWords_lt (mem_range.1 hidx) hk
          omega
      · -- the elements of a whole group take as much space as its widest rows
        split at hk
        · obtain ⟨idx, hidx, hk⟩ := mem_flatMap.1 hk
          obtain ⟨b, hb, rfl⟩ := mem_map.1 hk
          have hidx := mem_range.1 hidx
          have hb := mem_range.1 hb
          rw [maxPackedWords]
          rcases hsize with rfl | rfl | rfl | rfl
          all_goals omega
        · cases hk
  · cases hk

theorem groupWrites_rows (hsize : IsElementSize size) (hrows : d.groupRowCount ≤ 2048) (outAddress : Nat)
    (stale : Nat → BitVec 32) :
    ∃ value, WritesExactly (groupWrites size outAddress stale d) 0 d.groupRowCount value ∧
      ((parseGroup size d).isRejected = true → ∀ i, value i = 0) := by
  have hvector : 0 < 16 / size := by
    rcases hsize with rfl | rfl | rfl | rfl
    all_goals decide
  have hcount : (parseGroup size d).isRejected = false → (parseGroup size d).rowCount = d.groupRowCount := by
    intro hfine
    rcases parseGroup_spec with hrejected | ⟨hcount, -⟩
    · rw [hfine] at hrejected
      cases hrejected
    · exact hcount
  rw [groupWrites]
  split
  case h_1 hmode | h_2 hmode | h_3 hmode | h_4 hmode =>
    have hfine : (parseGroup size d).isRejected = false := by
      simp [GroupMeta.isRejected, GroupMeta.isPacked, hmode]
    rw [hcount hfine, hfine]
    first
      | exact ⟨_, fillWrites_exact hvector _, fun h => Bool.noConfusion h⟩
      | exact ⟨_, forWrites_exact hrows, fun h => Bool.noConfusion h⟩
      | exact ⟨_, deltaForWrites_exact hrows, fun h => Bool.noConfusion h⟩
  case h_5 => exact ⟨_, zeroWrites_exact size d.groupRowCount, fun _ _ => rfl⟩

end Checks

/-- **Whatever the bytes of a segment are**, the block of a group reads only inside of the segment,
accesses only words of its shared buffer and writes the rows of the group and nothing else. If the
metadata is rejected, all rows are zero. -/
theorem bitpacking_safe {size : Nat} (hsize : IsElementSize size) (d : BpGroupDesc)
    (hrows : d.groupRowCount ≤ 2048) (outAddress : Nat) (stale : Nat → BitVec 32) :
    (∀ r ∈ groupReads size d, r.1 + r.2 ≤ d.segmentBytes) ∧
      (∀ k ∈ sharedWords size d, k < maxPackedWords size) ∧
      ∃ value, WritesExactly (groupWrites size outAddress stale d) 0 d.groupRowCount value ∧
        ((parseGroup size d).isRejected = true → ∀ i, value i = 0) := by
  refine ⟨fun r hr => ?_, fun k hk => sharedWords_lt hsize hrows hk, groupWrites_rows hsize hrows _ _⟩
  rcases mem_append.1 hr with hr | hr
  · exact parseReads_le hr
  · split at hr
    next hpacked =>
      obtain rfl := mem_singleton.1 hr
      rcases parseGroup_spec with hrejected | ⟨-, hspec⟩
      · rw [GroupMeta.isRejected, hpacked] at hrejected
        cases hrejected
      · exact (hspec hpacked).2
    · cases hr

/-- A group of eight rows in mode `FOR`: the end of the metadata, the frame 3, the width 4, a packed word,
padding and the entry of the group. -/
def forGroup : BpGroupDesc :=
  let bytes : List Byte := [24, 0, 0, 0, 0, 0, 0, 0, 3, 4, 0x21, 0x43, 0x65, 0x87, 0, 0, 0, 0, 0, 0, 8, 0, 0, 5]
  ⟨fun p => bytes.getD p 0, 24, 0, 8, 0⟩

/-- Twenty bytes of ones: the end of the metadata is far behind the segment. -/
def onesGroup : BpGroupDesc := ⟨fun _ => 255, 20, 3, 100, 0⟩

theorem bitpacking_safe_for_and_ones :
    (groupReads 1 forGroup = [(0, 8), (20, 4), (8, 1), (9, 1), (10, 4)] ∧
      (∀ k ∈ sharedWords 1 forGroup, k < maxPackedWords 1) ∧
      ∃ value, WritesExactly (groupWrites 1 0 (fun _ => 0) forGroup) 0 8 value) ∧
    (parseGroup 8 onesGroup).isRejected = true ∧
      ∃ value, WritesExactly (groupWrites 8 0 (fun _ => 0) onesGroup) 0 100 value ∧
        ∀ i, value i = 0 := by
  have hrejected : (parseGroup 8 onesGroup).isRejected = true := by decide
  obtain ⟨-, hwords, value, hwrites, -⟩ := bitpacking_safe (.inl rfl) forGroup
    (Nat.le_of_ble_eq_true rfl) 0 fun _ => 0
  obtain ⟨-, -, zeros, hzeros, hzero⟩ := bitpacking_safe (.inr (.inr (.inr rfl))) onesGroup
    (Nat.le_of_ble_eq_true rfl) 0 fun _ => 0
  exact ⟨⟨by decide, hwords, value, hwrites⟩, hrejected, zeros, hzeros, hzero hrejected⟩

end Sirius.Native
