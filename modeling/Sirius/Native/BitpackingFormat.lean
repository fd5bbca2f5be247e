import Sirius.Native.Bitpacking

/-!
# The bitpacking format

A segment begins with the end of its metadata (8 bytes). The data of the groups follows back to back,
and then one entry of 4 bytes per group, the first group's entry last: the mode of the group and the
offset of its data. The data of a group is one to three elements and, for `FOR` and `DELTA_FOR`, the
packed rows.

The decoder reads two elements of each group before it looks at the mode, and takes a group that has
not got them for an invalid one. A `CONSTANT` group of 8-byte elements has only one, and if it is the
only group of its segment, what is behind it is too short. All other segments are decoded to what they
hold (`bitpacking_decode_iff`).
-/

namespace Sirius.Native

open Lib List Option

variable {size : Nat}

/-! ## Segments -/

/-- Bit `p` of some rows that are packed with `width` bits each. -/
def packedBit (width : Nat) (value : Nat → Element size) (p : Nat) : Bool :=
  (value (p / width)).getLsbD (p % width)

def packValues (rows width : Nat) (value : Nat → Element size) : List Byte :=
  (List.range ((rows * width + 31) / 32 * 4)).map fun k =>
    byteOf fun j => packedBit width value (8 * k + j)

variable {rows width : Nat}

theorem length_packValues {value : Nat → Element size} :
    rows * width ≤ 8 * (packValues rows width value).length := by
  rw [packValues, length_map, length_range]
  omega

theorem bitOf_packValues {p : Nat} {value : Nat → Element size} (hp : p < rows * width) :
    bitOf (packValues rows width value) p = packedBit width value p := by
  have hget : (packValues rows width value)[p / 8]? =
      some (byteOf fun j => packedBit width value (8 * (p / 8) + j)) := by
    rw [packValues, getElem?_map, getElem?_range (by omega), map_some]
  rw [bitOf, hget, getD_some, getLsbD_byteOf (Nat.mod_lt p (by decide)), Nat.div_add_mod]

theorem getLsbD_row {i j : Nat} {value : Nat → Element size}
    (hvalue : ∀ i < rows, (value i).toNat < 2 ^ width) (hi : i < rows) :
    (value i).getLsbD j = (decide (j < width) && bitOf (packValues rows width value) (i * width + j)) := by
  by_cases hj : j < width
  · have hrow := Nat.mul_le_mul_right width (Nat.succ_le_of_lt hi)
    rw [Nat.succ_mul] at hrow
    have hdiv : (i * width + j) / width = i := by
      rw [Nat.mul_comm, Nat.mul_add_div (by omega), Nat.div_eq_of_lt hj, Nat.add_zero]
    rw [bitOf_packValues (by omega), packedBit, Nat.mul_add_mod_of_lt hj, hdiv, decide_eq_true hj,
      Bool.true_and]
  · rw [decide_eq_false hj, Bool.false_and, ← BitVec.testBit_toNat]
    apply Nat.testBit_lt_two_pow
    exact Nat.lt_of_lt_of_le (hvalue i hi) (Nat.pow_le_pow_right (by decide) (Nat.le_of_not_lt hj))

/-- Rows that are packed with `width` bits each. The bytes may be more than the rows need. -/
structure PackedStream (size rows : Nat) where
  width : Nat
  value : Nat → Element size
  bytes : List Byte
  width_le : width ≤ 8 * size
  rows_le : rows * width ≤ 8 * bytes.length
  bits : ∀ i < rows, ∀ j < 8 * size,
    (value i).getLsbD j = (decide (j < width) && bitOf bytes (i * width + j))

def PackedStream.pack {rows : Nat} (width : Nat) (hwidth : width ≤ 8 * size) (value : Nat → Element size)
    (hvalue : ∀ i < rows, (value i).toNat < 2 ^ width) : PackedStream size rows where
  width
  value
  bytes := packValues rows width value
  width_le := hwidth
  rows_le := length_packValues
  bits _ hi _ _ := getLsbD_row hvalue hi

inductive GroupData (size rows : Nat) where
  | constant (value : Element size)
  | constantDelta (frame delta : Element size)
  | plainFor (frame : Element size) (stream : PackedStream size rows)
  | deltaFor (frame deltaOffset : Element size) (stream : PackedStream size rows)

namespace GroupData

variable {rows : Nat}

def mode : GroupData size rows → BitpackingMode
  | constant _ => .constant
  | constantDelta _ _ => .constantDelta
  | plainFor _ _ => .plainFor
  | deltaFor _ _ _ => .deltaFor

def bytes : GroupData size rows → List Byte
  | constant value => elementBytes value
  | constantDelta frame delta => elementBytes frame ++ elementBytes delta
  | plainFor frame stream => elementBytes frame ++ (encode size stream.width ++ stream.bytes)
  | deltaFor frame deltaOffset stream =>
    elementBytes frame ++ (encode size stream.width ++ (elementBytes deltaOffset ++ stream.bytes))

def value : GroupData size rows → Nat → Element size
  | constant value, _ => value
  | constantDelta frame delta, i => frame + BitVec.ofNat _ i * delta
  | plainFor frame stream, i => frame + stream.value i
  | deltaFor frame deltaOffset stream, i =>
    deltaOffset + ∑ j ∈ Finset.range (i + 1), (frame + stream.value j)

end GroupData

structure MetadataGroup (size : Nat) where
  rows : Nat
  rows_le : rows ≤ 2048
  data : GroupData size rows

def MetadataGroup.entry (g : MetadataGroup size) (offset : Nat) : List Byte :=
  encode 4 (g.data.mode.code * 2 ^ 24 + offset)

def dataBytes (groups : List (MetadataGroup size)) : List Byte := groups.flatMap fun g => g.data.bytes

def trailer : Nat → List (MetadataGroup size) → List Byte
  | _, [] => []
  | offset, g :: groups => trailer (offset + g.data.bytes.length) groups ++ g.entry offset

def metadataEnd (groups : List (MetadataGroup size)) : Nat := 8 + (dataBytes groups).length + 4 * groups.length

def segmentLayout (groups : List (MetadataGroup size)) : List Byte :=
  encode 8 (metadataEnd groups) ++ (dataBytes groups ++ trailer 8 groups)

/-- A memory holds a segment of the given size. Offsets have 24 bits. -/
structure HoldsSegment (segment : Memory) (segmentBytes : Nat) (groups : List (MetadataGroup size)) : Prop where
  bytes : segment.load 0 (metadataEnd groups) = segmentLayout groups
  inside : metadataEnd groups ≤ segmentBytes
  segmentBytes_lt : segmentBytes < 2 ^ 32
  offset_lt : 8 + (dataBytes groups).length < 2 ^ 24

/-! ## The metadata of a group -/

/-- A group whose metadata and data are where the decoder looks for them. -/
structure GroupAt (d : BpGroupDesc) (g : MetadataGroup size) (metadataEnd offset : Nat) : Prop where
  header : decode (d.segment.load 0 8) = metadataEnd
  inside : metadataEnd ≤ d.segmentBytes
  trailer : 8 + (d.groupIdx + 1) * 4 ≤ metadataEnd
  entry : decode (d.segment.load (metadataEnd - (d.groupIdx + 1) * 4) 4) =
    g.data.mode.code * 2 ^ 24 + offset
  offset_lt : offset < 2 ^ 24
  data : d.segment.load offset g.data.bytes.length = g.data.bytes
  behind : offset + g.data.bytes.length + 4 ≤ metadataEnd
  rows : d.groupRowCount = g.rows

def MetadataGroup.parsed (g : MetadataGroup size) (offset : Nat) : GroupMeta size :=
  match g.data with
  | .constant value => { mode := .constant, rowCount := g.rows, aux := value }
  | .constantDelta frame delta =>
    { mode := .constantDelta, rowCount := g.rows, frame, aux := delta }
  | .plainFor frame stream =>
    { mode := .plainFor, rowCount := g.rows, frame, width := stream.width,
      dataOffset := offset + 2 * size }
  | .deltaFor frame deltaOffset stream =>
    { mode := .deltaFor, rowCount := g.rows, frame, width := stream.width, aux := deltaOffset,
      dataOffset := offset + 3 * size }

theorem width_of_load {m : Memory} {p : Nat} (hsize : IsElementSize size)
    (stream : PackedStream size rows) (h : m.load p size = encode size stream.width) :
    (readElement size m p).toNat % 2 ^ 32 = stream.width := by
  have hwidth := stream.width_le
  have hpow : 256 ^ size = 2 ^ (8 * size) := by
    rw [Nat.pow_mul]
  have hlt : stream.width < 2 ^ (8 * size) := Nat.lt_of_le_of_lt hwidth Nat.lt_two_pow_self
  rw [readElement, h, decode_encode, hpow, Nat.mod_eq_of_lt hlt, BitVec.toNat_ofNat,
    Nat.mod_eq_of_lt hlt, Nat.mod_eq_of_lt]
  rw [IsElementSize] at hsize
  omega

/-- The checks accept packed words that end before the metadata. -/
theorem check_of_fits {s : GroupMeta size} {metadataEnd : Nat} (hwidth : s.width ≤ 8 * size)
    (hend : s.dataOffset + (s.rowCount * s.width + 31) / 32 * 4 ≤ metadataEnd) :
    s.check metadataEnd = s := by
  have hvalid : (if size * 8 < s.width then { s with mode := .invalid, width := 0 } else s) = s :=
    if_neg (by omega)
  rw [GroupMeta.check]
  dsimp only
  rw [hvalid]
  split
  · exact if_neg (Nat.not_lt.2 hend)
  · rfl

section Parse

variable {d : BpGroupDesc} {g : MetadataGroup size} {metadataEnd offset : Nat}

theorem parseGroup_of_at (h : GroupAt d g metadataEnd offset) :
    parseGroup size d =
      if offset + 2 * size ≤ metadataEnd then
        (GroupMeta.ofMode size d.segment metadataEnd offset g.rows g.data.mode).check metadataEnd
      else { rowCount := g.rows } := by
  have htrailer := h.trailer
  have hinside := h.inside
  have hmod : (g.data.mode.code * 2 ^ 24 + offset) % 2 ^ 24 = offset := by
    rw [Nat.mul_add_mod', Nat.mod_eq_of_lt h.offset_lt]
  have hdiv : (g.data.mode.code * 2 ^ 24 + offset) / 2 ^ 24 = g.data.mode.code := by
    rw [Nat.mul_comm, Nat.mul_add_div (by decide), Nat.div_eq_of_lt h.offset_lt, Nat.add_zero]
  have hend : (if 8 ≤ d.segmentBytes then decode (d.segment.load 0 8) else 0) = metadataEnd := by
    rw [if_pos (by omega), h.header]
  rw [parseGroup]
  dsimp only
  rw [hend, if_pos ⟨htrailer, hinside⟩, h.entry, hmod, hdiv, BitpackingMode.ofCode_code, h.rows]

theorem parseGroup_eq (h : GroupAt d g metadataEnd offset) (hsize : IsElementSize size)
    (hfits : offset + 2 * size ≤ metadataEnd) : parseGroup size d = g.parsed offset := by
  have hdata := h.data
  have hbehind := h.behind
  rw [parseGroup_of_at h, if_pos hfits]
  obtain ⟨rows, hrows, data⟩ := g
  cases data with
  | constant value =>
    have hvalue : d.segment.load offset size = elementBytes value := by
      simpa only [GroupData.bytes, elementBytes, length_encode] using hdata
    rw [GroupData.mode, GroupMeta.ofMode, readElement_of_load hvalue]
    exact check_of_fits (Nat.zero_le _) (by dsimp only; omega)
  | constantDelta frame delta =>
    obtain ⟨hframe, hdelta⟩ := Memory.load_append hdata
    rw [length_elementBytes] at hframe hdelta
    rw [length_elementBytes] at hdelta
    rw [GroupData.mode, GroupMeta.ofMode, readElement_of_load hframe, readElement_of_load hdelta]
    exact check_of_fits (Nat.zero_le _) (by dsimp only; omega)
  | plainFor frame stream =>
    obtain ⟨hframe, hrest⟩ := Memory.load_append hdata
    obtain ⟨hwidth, -⟩ := Memory.load_append hrest
    rw [length_elementBytes] at hframe hwidth
    rw [length_encode] at hwidth
    rw [GroupData.mode, GroupMeta.ofMode, readElement_of_load hframe, width_of_load hsize stream hwidth]
    apply check_of_fits stream.width_le
    have hstream := stream.rows_le
    simp only [GroupData.bytes, length_append, length_elementBytes, length_encode] at hbehind
    dsimp only
    omega
  | deltaFor frame deltaOffset stream =>
    obtain ⟨hframe, hrest⟩ := Memory.load_append hdata
    obtain ⟨hwidth, hrest⟩ := Memory.load_append hrest
    obtain ⟨hoffset, -⟩ := Memory.load_append hrest
    rw [length_elementBytes] at hframe hwidth hoffset
    rw [length_encode] at hwidth hoffset
    rw [length_elementBytes, Nat.add_assoc, ← Nat.two_mul] at hoffset
    have hstream := stream.rows_le
    simp only [GroupData.bytes, length_append, length_elementBytes, length_encode] at hbehind
    rw [GroupData.mode, GroupMeta.ofMode, readElement_of_load hframe, width_of_load hsize stream hwidth,
      readElement_of_load hoffset, if_neg (by omega)]
    apply check_of_fits stream.width_le
    dsimp only
    omega

end Parse

/-! ## The rows of a group -/

theorem unpackValue_stream {segment : Memory} {dataOffset : Nat} (hsize : IsElementSize size)
    (stream : PackedStream size rows) (stale : Nat → BitVec 32)
    (h : segment.load dataOffset stream.bytes.length = stream.bytes) {i : Nat} (hi : i < rows) :
    unpackValue size (packedWords segment dataOffset ((rows * stream.width + 31) / 32) stale) i stream.width =
      stream.value i := by
  have hrows := stream.rows_le
  have hrow := Nat.mul_le_mul_right stream.width (Nat.succ_le_of_lt hi)
  rw [Nat.succ_mul] at hrow
  apply BitVec.eq_of_getLsbD_eq
  intro j hj
  rw [getLsbD_unpackValue hsize stream.width_le i hj, stream.bits i hi j hj]
  by_cases hwidth : j < stream.width
  · rw [getLsbD_packedWords stale (by omega), Memory.testBit_of_load h (by omega)]
  · rw [decide_eq_false hwidth, Bool.false_and, Bool.false_and]

section Group

variable {d : BpGroupDesc} {g : MetadataGroup size} {metadataEnd offset : Nat}

/-- **A group that the decoder can read** is decoded to its values. -/
theorem groupWrites_exact (h : GroupAt d g metadataEnd offset) (hsize : IsElementSize size)
    (hfits : offset + 2 * size ≤ metadataEnd) (outAddress : Nat) (stale : Nat → BitVec 32) :
    WritesExactly (groupWrites size outAddress stale d) 0 g.rows g.data.value := by
  have hparsed := parseGroup_eq h hsize hfits
  have hdata := h.data
  have hvector : 0 < 16 / size := by
    rcases hsize with rfl | rfl | rfl | rfl <;> decide
  obtain ⟨rows, hrows, data⟩ := g
  rw [groupWrites, hparsed]
  cases data with
  | constant value | constantDelta frame delta => exact fillWrites_exact hvector _
  | plainFor frame stream =>
    obtain ⟨-, hrest⟩ := Memory.load_append hdata
    obtain ⟨-, hstream⟩ := Memory.load_append hrest
    rw [length_elementBytes, length_encode, Nat.add_assoc, ← Nat.two_mul] at hstream
    apply (forWrites_exact hrows).congr
    intro i hi
    dsimp only [MetadataGroup.parsed]
    rw [unpackValue_stream hsize stream stale hstream hi, GroupData.value]
  | deltaFor frame deltaOffset stream =>
    obtain ⟨-, hrest⟩ := Memory.load_append hdata
    obtain ⟨-, hrest⟩ := Memory.load_append hrest
    obtain ⟨-, hstream⟩ := Memory.load_append hrest
    rw [length_elementBytes, length_encode, length_elementBytes,
      show offset + size + size + size = offset + 3 * size by omega] at hstream
    apply (deltaForWrites_exact hrows).congr
    intro i hi
    rw [GroupData.value]
    congr 1
    apply Finset.sum_congr rfl
    intro j hj
    have hj := Finset.mem_range.1 hj
    dsimp only [MetadataGroup.parsed]
    rw [unpackValue_stream hsize stream stale hstream (by omega)]

/-- A group that the decoder takes for an invalid one is filled with zeros. -/
theorem groupWrites_unreadable (h : GroupAt d g metadataEnd offset)
    (hfits : ¬ offset + 2 * size ≤ metadataEnd) (outAddress : Nat) (stale : Nat → BitVec 32) :
    WritesExactly (groupWrites size outAddress stale d) 0 g.rows fun _ => 0 := by
  rw [groupWrites, parseGroup_of_at h, if_neg hfits, ← h.rows]
  exact zeroWrites_exact size d.groupRowCount

end Group

/-! ## The groups of a segment -/

/-- All groups but the last one are full, and the last one is not empty. -/
def Filled : List (MetadataGroup size) → Prop
  | [] => True
  | [g] => 0 < g.rows
  | g :: g' :: groups => g.rows = 2048 ∧ Filled (g' :: groups)

def rowCount (groups : List (MetadataGroup size)) : Nat := (groups.map fun g => g.rows).sum

def rowValue (groups : List (MetadataGroup size)) (i : Nat) : Element size :=
  match groups[i / 2048]? with
  | some g => g.data.value (i % 2048)
  | none => 0

section Filled

variable {groups pre post : List (MetadataGroup size)} {g : MetadataGroup size}

theorem rowCount_cons : rowCount (g :: groups) = g.rows + rowCount groups := by
  simp [rowCount]

/-- The segment has as many groups as the decoder expects. -/
theorem Filled.length_eq (h : Filled groups) : groups.length = (rowCount groups + 2047) / 2048 := by
  have hnil : rowCount ([] : List (MetadataGroup size)) = 0 := rfl
  induction groups with
  | nil =>
    rw [hnil, length_nil]
  | cons g groups ih =>
    have hrows := g.rows_le
    rw [rowCount_cons]
    cases groups with
    | nil =>
      have hpos : 0 < g.rows := h
      rw [hnil, length_singleton]
      omega
    | cons g' groups =>
      obtain ⟨hfull, hrest⟩ := h
      rw [length_cons, ih hrest, hfull]
      omega

theorem Filled.rows_eq (h : Filled (pre ++ g :: post)) :
    g.rows = if pre.length + 1 < (pre ++ g :: post).length then 2048
      else rowCount (pre ++ g :: post) - pre.length * 2048 := by
  induction pre with
  | nil =>
    cases post with
    | nil => simp [rowCount]
    | cons g' post =>
      rw [if_pos (by simp)]
      exact h.1
  | cons g' pre ih =>
    have hcons : g'.rows = 2048 ∧ Filled (pre ++ g :: post) := by
      cases pre with
      | nil => exact h
      | cons g'' pre => exact h
    rw [cons_append, rowCount_cons, hcons.1, length_cons, length_cons]
    have hrest := ih hcons.2
    split at hrest
    · rw [if_pos (by omega)]
      exact hrest
    · rw [if_neg (by omega)]
      omega

end Filled

section Layout

variable {segment : Memory} {segmentBytes : Nat} {groups pre post : List (MetadataGroup size)}
  {g : MetadataGroup size}

theorem dataBytes_append : dataBytes (pre ++ post) = dataBytes pre ++ dataBytes post :=
  flatMap_append

theorem dataBytes_cons : dataBytes (g :: post) = g.data.bytes ++ dataBytes post := rfl

theorem length_trailer {offset : Nat} : (trailer offset groups).length = 4 * groups.length := by
  induction groups generalizing offset with
  | nil => rfl
  | cons g groups ih =>
    rw [trailer, length_append, ih, MetadataGroup.entry, length_encode, length_cons]
    omega

theorem trailer_append {offset : Nat} :
    trailer offset (pre ++ post) =
      trailer (offset + (dataBytes pre).length) post ++ trailer offset pre := by
  induction pre generalizing offset with
  | nil => simp [trailer, dataBytes]
  | cons g pre ih =>
    rw [cons_append, trailer, ih, trailer, dataBytes_cons, length_append, append_assoc,
      Nat.add_assoc]

/-- The data and the entry of a group are where the decoder looks for them. -/
theorem HoldsSegment.groupAt (h : HoldsSegment segment segmentBytes (pre ++ g :: post)) (rowOffset : Nat) :
    GroupAt
      { segment, segmentBytes, groupIdx := pre.length, groupRowCount := g.rows,
        globalRowOffset := rowOffset : BpGroupDesc }
      g (metadataEnd (pre ++ g :: post)) (8 + (dataBytes pre).length) := by
  have hbytes := h.bytes
  have hinside := h.inside
  have hsegment := h.segmentBytes_lt
  have hoffset := h.offset_lt
  have hdata : dataBytes (pre ++ g :: post) = dataBytes pre ++ (g.data.bytes ++ dataBytes post) := by
    rw [dataBytes_append, dataBytes_cons]
  have hlength : (dataBytes (pre ++ g :: post)).length =
      (dataBytes pre).length + (g.data.bytes.length + (dataBytes post).length) := by
    rw [hdata, length_append, length_append]
  have hend : metadataEnd (pre ++ g :: post) =
      8 + (dataBytes (pre ++ g :: post)).length + 4 * (pre.length + (post.length + 1)) := by
    rw [metadataEnd, length_append, length_cons]
  obtain ⟨hheader, hbody⟩ := Memory.load_append hbytes
  rw [length_encode, Nat.zero_add] at hbody
  rw [length_encode] at hheader
  refine
    { header := ?_, inside := hinside, trailer := by dsimp only; omega, entry := ?_,
      offset_lt := by omega, data := ?_, behind := by omega, rows := rfl }
  · show decode (segment.load 0 8) = _
    rw [hheader, decode_encode]
    apply Nat.mod_eq_of_lt
    have hpow : 256 ^ 8 = 2 ^ 64 := by decide
    omega
  · -- the entry is behind those of the later groups
    have htrailer : trailer 8 (pre ++ g :: post) =
        trailer (8 + (dataBytes pre).length + g.data.bytes.length) post ++
          (g.entry (8 + (dataBytes pre).length) ++ trailer 8 pre) := by
      rw [trailer_append, trailer, append_assoc]
    rw [htrailer, ← append_assoc] at hbody
    have hentry := Memory.load_middle hbody
    rw [length_append, length_trailer, MetadataGroup.entry, length_encode] at hentry
    show decode (segment.load (metadataEnd (pre ++ g :: post) - (pre.length + 1) * 4) 4) = _
    rw [hend, show 8 + (dataBytes (pre ++ g :: post)).length + 4 * (pre.length + (post.length + 1)) -
      (pre.length + 1) * 4 = 8 + ((dataBytes (pre ++ g :: post)).length + 4 * post.length) by omega,
      hentry, decode_encode]
    apply Nat.mod_eq_of_lt
    have hcode := g.data.mode.code_lt
    have hpow : 256 ^ 4 = 2 ^ 32 := by decide
    omega
  · rw [hdata, append_assoc, append_assoc] at hbody
    exact Memory.load_middle hbody

/-- There are two elements from the beginning of a group's data to the end of the metadata. -/
def Readable (groups : List (MetadataGroup size)) (k : Nat) : Prop :=
  8 + (dataBytes (groups.take k)).length + 2 * size ≤ metadataEnd groups

instance Readable.decidable {k : Nat} : Decidable (Readable groups k) := inferInstanceAs (Decidable (_ ≤ _))

def IsConstant (groups : List (MetadataGroup size)) (value : Element size) : Prop :=
  ∃ g : MetadataGroup size, groups = [g] ∧ g.data = .constant value

/-- Only a `CONSTANT` group has less than two elements. -/
theorem GroupData.length_bytes (data : GroupData size rows) :
    2 * size ≤ data.bytes.length ∨ ∃ value, data = .constant value := by
  cases data with
  | constant value => exact .inr ⟨value, rfl⟩
  | constantDelta frame delta =>
    left
    simp only [GroupData.bytes, length_append, length_elementBytes]
    omega
  | plainFor frame stream | deltaFor frame deltaOffset stream =>
    left
    simp only [GroupData.bytes, length_append, length_elementBytes, length_encode]
    omega

/-- **What cannot be read**: the entries behind a `CONSTANT` group make up for the second element, but
one entry not for one of 8 bytes. -/
theorem not_readable_iff (hsize : IsElementSize size) :
    ¬ Readable (pre ++ g :: post) pre.length ↔ size = 8 ∧ ∃ value, IsConstant (pre ++ g :: post) value := by
  have hdata : (dataBytes (pre ++ g :: post)).length =
      (dataBytes pre).length + (g.data.bytes.length + (dataBytes post).length) := by
    rw [dataBytes_append, dataBytes_cons, length_append, length_append]
  rw [Readable, take_left, metadataEnd, hdata, length_append, length_cons]
  rw [IsElementSize] at hsize
  constructor
  · intro h
    rcases g.data.length_bytes with hlong | ⟨value, hvalue⟩
    · omega
    · have hlength : g.data.bytes.length = size := by
        rw [hvalue]
        exact length_encode
      have hpre : pre.length = 0 := by omega
      have hpost : post.length = 0 := by omega
      rw [length_eq_zero_iff] at hpre hpost
      refine ⟨by omega, value, g, ?_, hvalue⟩
      rw [hpre, hpost, nil_append]
  · rintro ⟨h8, value, g', hgroups, hvalue⟩
    have hlength := congrArg length hgroups
    rw [length_append, length_cons, length_singleton] at hlength
    have hpre : pre = [] := length_eq_zero_iff.1 (by omega)
    have hpost : post = [] := length_eq_zero_iff.1 (by omega)
    rw [hpre, hpost] at hgroups ⊢
    obtain rfl : g = g' := by
      simpa only [nil_append, cons.injEq, and_true] using hgroups
    have hbytes : g.data.bytes.length = size := by
      rw [hvalue]
      exact length_encode
    have hnil : (dataBytes ([] : List (MetadataGroup size))).length = 0 := rfl
    rw [hbytes, hnil, length_nil]
    omega

theorem holdsSegment_store {m : Memory} (hinside : metadataEnd groups ≤ segmentBytes)
    (hsegment : segmentBytes < 2 ^ 32) (hoffset : 8 + (dataBytes groups).length < 2 ^ 24) :
    HoldsSegment (m.store 0 (segmentLayout groups)) segmentBytes groups where
  bytes := by
    have hlength : (segmentLayout groups).length = metadataEnd groups := by
      rw [segmentLayout, length_append, length_append, length_encode, length_trailer,
        metadataEnd, Nat.add_assoc]
    rw [← hlength, Memory.load_store_self]
  inside := hinside
  segmentBytes_lt := hsegment
  offset_lt := hoffset

end Layout

/-! ## The rows of a segment -/

section Segment

variable {segment : Memory} {segmentBytes : Nat} {groups : List (MetadataGroup size)}

theorem eq_append_of_getElem? {k : Nat} {g : MetadataGroup size} (hg : groups[k]? = some g) :
    groups = groups.take k ++ g :: groups.drop (k + 1) ∧ (groups.take k).length = k := by
  obtain ⟨hk, rfl⟩ := List.getElem?_eq_some_iff.1 hg
  refine ⟨?_, List.length_take_of_le (Nat.le_of_lt hk)⟩
  rw [List.getElem_cons_drop, List.take_append_drop]

/-- Group `k` of a segment is decoded to its values, or to zeros if it cannot be read. -/
theorem groupWrites_of_holds (hsize : IsElementSize size) (hfilled : Filled groups)
    (h : HoldsSegment segment segmentBytes groups) {k : Nat} {g : MetadataGroup size}
    (hg : groups[k]? = some g) (rowOffset outAddress : Nat) (stale : Nat → BitVec 32) :
    WritesExactly
      (groupWrites size outAddress stale
        { segment, segmentBytes, groupIdx := k,
          groupRowCount := if k + 1 < groups.length then 2048 else rowCount groups - k * 2048,
          globalRowOffset := rowOffset })
      0 g.rows fun i => if Readable groups k then g.data.value i else 0 := by
  obtain ⟨hgroups, hk⟩ := eq_append_of_getElem? hg
  have hrows := hgroups ▸ hfilled
  have hrows := hrows.rows_eq
  rw [← hgroups, hk] at hrows
  have hholds := hgroups ▸ h
  have hat := hholds.groupAt rowOffset
  rw [← hgroups, hk] at hat
  rw [← hrows]
  split
  next hreadable =>
    exact groupWrites_exact hat hsize hreadable outAddress stale
  next hreadable =>
    exact groupWrites_unreadable hat hreadable outAddress stale

theorem decodeWrites_exact (hsize : IsElementSize size) (hfilled : Filled groups)
    (h : HoldsSegment segment segmentBytes groups) (rowOffset outAddress : Nat) (stale : Nat → BitVec 32) :
    WritesExactly
      (decodeWrites size outAddress stale
        (buildGroupDescs segment segmentBytes (rowCount groups) rowOffset))
      rowOffset (rowCount groups)
      fun i => if Readable groups (i / 2048) then rowValue groups i else 0 := by
  have hlength := hfilled.length_eq
  rw [decodeWrites, buildGroupDescs, flatMap_map, ← hlength]
  have hrows : ∀ k g, groups[k]? = some g →
      g.rows = if k + 1 < groups.length then 2048 else rowCount groups - k * 2048 := by
    intro k g hg
    obtain ⟨hgroups, hk⟩ := eq_append_of_getElem? hg
    have hrows := hgroups ▸ hfilled
    have hrows := hrows.rows_eq
    rwa [← hgroups, hk] at hrows
  apply WritesExactly.tiles (fun k => ((groups[k]?).map fun g => g.rows).getD 0) 2048
  · intro k hk
    have hg := getElem?_eq_getElem hk
    rw [hg]
    apply ((groupWrites_of_holds hsize hfilled h hg (rowOffset + k * 2048) outAddress stale).shift _).congr
    intro i hi
    have hle := (groups[k]).rows_le
    rw [show (k * 2048 + i) / 2048 = k by omega, rowValue, show (k * 2048 + i) / 2048 = k by omega,
      show (k * 2048 + i) % 2048 = i by omega, hg]
  · intro k hk
    have hg := getElem?_eq_getElem hk
    rw [hg, map_some, getD_some, hrows k _ hg]
    split <;> omega
  · intro i hi
    have hk : i / 2048 < groups.length := by omega
    have hg := getElem?_eq_getElem hk
    refine ⟨hk, ?_⟩
    rw [hg, map_some, getD_some, hrows _ _ hg]
    split <;> omega

/-- The decoder recovers the rows of a segment at its rows of the output, whatever the order of the
threads, and changes no other rows. -/
def DecodesTo (size outAddress : Nat) (stale : Nat → BitVec 32) (segment : Memory)
    (segmentBytes rowOffset : Nat) (groups : List (MetadataGroup size)) : Prop :=
  Leaves
    (decodeWrites size outAddress stale (buildGroupDescs segment segmentBytes (rowCount groups) rowOffset))
    rowOffset (rowCount groups) (rowValue groups)

/-- **A segment is decoded to what it holds** unless it is a single constant group of 8-byte elements
other than zero. -/
theorem bitpacking_decode_iff (hsize : IsElementSize size) (hfilled : Filled groups)
    (h : HoldsSegment segment segmentBytes groups) (rowOffset outAddress : Nat) (stale : Nat → BitVec 32) :
    DecodesTo size outAddress stale segment segmentBytes rowOffset groups ↔
      (size = 8 → ∀ value, IsConstant groups value → value = 0) := by
  have hwrites := decodeWrites_exact hsize hfilled h rowOffset outAddress stale
  constructor
  · intro hdecodes h8 value hconstant
    obtain ⟨g, rfl, hvalue⟩ := hconstant
    have hpos : 0 < rowCount [g] := by
      rw [rowCount_cons]
      exact Nat.lt_of_lt_of_le hfilled (Nat.le_add_right _ _)
    have hunreadable : ¬ Readable ([] ++ g :: []) 0 :=
      (not_readable_iff hsize).2 ⟨h8, value, g, rfl, hvalue⟩
    rw [nil_append] at hunreadable
    -- the first row is the constant, and the decoder writes zero
    have hright := (hdecodes (fun _ => 0) _ (List.Perm.refl _)).1 0 hpos
    rw [(hwrites.leaves (fun _ => 0) _ (List.Perm.refl _)).1 0 hpos, Nat.zero_div, if_neg hunreadable] at hright
    have hrow : rowValue [g] 0 = value := by
      show g.data.value 0 = value
      rw [hvalue, GroupData.value]
    rw [← hrow, ← hright]
  · intro hzero
    apply (hwrites.congr ?_).leaves
    intro i hi
    have hlength := hfilled.length_eq
    have hk : i / 2048 < groups.length := by omega
    obtain ⟨hgroups, htake⟩ := eq_append_of_getElem? (getElem?_eq_getElem hk)
    by_cases hreadable : Readable groups (i / 2048)
    · rw [if_pos hreadable]
    · rw [if_neg hreadable]
      have hconstant : size = 8 ∧ ∃ value, IsConstant groups value := by
        rw [hgroups]
        apply (not_readable_iff hsize).1
        rw [← hgroups, htake]
        exact hreadable
      obtain ⟨h8, value, hconstant⟩ := hconstant
      have hvalue := hzero h8 value hconstant
      obtain ⟨g, rfl, hdata⟩ := hconstant
      have hindex : i / 2048 = 0 := by
        rw [length_singleton] at hk
        omega
      rw [rowValue, hindex]
      show 0 = g.data.value (i % 2048)
      rw [hdata, GroupData.value, hvalue]

theorem twoRows_lt : ∀ i < 2, (BitVec.ofNat (8 * 1) (3 + 2 * i)).toNat < 2 ^ 4 := by
  decide

/-- A group of the rows `4` and `6`, packed over the frame `1`. -/
def twoRows : MetadataGroup 1 where
  rows := 2
  rows_le := Nat.le_of_ble_eq_true rfl
  data := .plainFor 1 (PackedStream.pack 4 (Nat.le_of_ble_eq_true rfl)
    (fun i => BitVec.ofNat _ (3 + 2 * i)) twoRows_lt)

theorem bitpacking_decode_twoRows :
    DecodesTo 1 0 (fun _ => 0) (Memory.store (fun _ => 0) 0 (segmentLayout [twoRows])) 32 7 [twoRows] :=
  (bitpacking_decode_iff (.inl rfl) (by show 0 < 2; decide) (holdsSegment_store (by decide) (by decide)
    (by decide)) 7 0 fun _ => 0).2 fun h => absurd h (by decide)

def constantRow : MetadataGroup 8 where
  rows := 1
  rows_le := Nat.le_of_ble_eq_true rfl
  data := .constant 5

/-- The constant is lost: the segment has 20 bytes, and the decoder wants 24. -/
theorem bitpacking_decode_constant :
    HoldsSegment (Memory.store (fun _ => 0) 0 (segmentLayout [constantRow])) 20 [constantRow] ∧
      rowValue [constantRow] 0 = 5 ∧
      decodeWrites 8 0 (fun _ => 0)
        (buildGroupDescs (Memory.store (fun _ => 0) 0 (segmentLayout [constantRow])) 20 1 0) = [(0, 0)] :=
  ⟨holdsSegment_store (by decide) (by decide) (by decide), rfl, by decide +kernel⟩

end Segment

end Sirius.Native
