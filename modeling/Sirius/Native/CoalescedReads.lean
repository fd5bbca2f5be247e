import Mathlib.Data.List.Forall2
import Mathlib.Data.List.Induction
import Sirius.HostTable.Accessor

/-!
# Coalesced reads of a native scan

The segments of a split are read into pinned host blocks and copied from there to the device buffer.
`submit_and_await` (`src/op/scan/duckdb_native_decoder.cpp`) sorts the reads by their offset in the file
and packs them into *pieces*: a read that is near the end of the last piece extends it, if the piece then
still fits into its host block, and otherwise starts a new one at the cursor.

All offsets are unsigned numbers of 64 bits. The gap to the last piece wraps around for a read that
overlaps the piece, and is then larger than any gap that is allowed, unless that is nearly `2 ^ 64`. The
end of a piece in its host block can wrap around only for a read that is as far from the piece. Up to
there, the plan delivers the bytes of the file (`coalesced_reads`). The only caller allows the gap
between two blocks of a database file, which is the size of a block header.
-/

namespace Sirius.Native

open Lib HostTable List

/-! ## The plan -/

structure DeviceReadJob where
  fileOffset : Nat
  size : Nat
  deviceOffset : Nat
  deriving DecidableEq, Repr

/-- `piece`: a range of the file and where it goes. -/
structure Piece where
  fileOff : Nat
  fileEnd : Nat
  hostBlock : Nat
  hostOff : Nat
  deriving DecidableEq, Repr

/-- `seg_copy`: a range of a host block and where it goes. -/
structure SegCopy where
  hostBlock : Nat
  hostOff : Nat
  deviceOff : Nat
  size : Nat
  deriving DecidableEq, Repr

structure ReadPlan where
  pieces : List Piece := []
  segCopies : List SegCopy := []
  curBlock : Nat := 0
  curOff : Nat := 0
  deriving DecidableEq, Repr

/-- The difference of two `size_t`. -/
def sizeSub (a b : Nat) : Nat := (a + (2 ^ 64 - b % 2 ^ 64)) % 2 ^ 64

/-- The sum of two `size_t`. -/
def sizeAdd (a b : Nat) : Nat := (a + b) % 2 ^ 64

namespace ReadPlan

variable (bsz coalesceMaxGap : Nat)

/-- A piece of its own, in the next block if the current one has no room for it. -/
def newPiece (s : ReadPlan) (r : DeviceReadJob) : Piece :=
  if bsz < sizeAdd s.curOff r.size then
    ⟨r.fileOffset, sizeAdd r.fileOffset r.size, s.curBlock + 1, 0⟩
  else ⟨r.fileOffset, sizeAdd r.fileOffset r.size, s.curBlock, s.curOff⟩

/-- The piece of a read, and the pieces before it. -/
def pieceFor (s : ReadPlan) (r : DeviceReadJob) : Piece × List Piece :=
  match s.pieces with
  | [] => (s.newPiece bsz r, [])
  | p :: pieces =>
    let gap := sizeSub r.fileOffset p.fileEnd
    let prospective := sizeSub (sizeAdd r.fileOffset r.size) p.fileOff
    if coalesceMaxGap < gap ∨ bsz < sizeAdd p.hostOff prospective then
      (s.newPiece bsz r, p :: pieces)
    else ({ p with fileEnd := sizeAdd r.fileOffset r.size }, pieces)

/-- The end of the loop's body: the read is copied from its piece, and the cursor is behind the piece.
`cur_block` is always the block of the last piece. -/
def serve (s : ReadPlan) (p : Piece) (before : List Piece) (r : DeviceReadJob) : ReadPlan where
  pieces := p :: before
  segCopies := s.segCopies ++
    [⟨p.hostBlock, sizeAdd p.hostOff (sizeSub r.fileOffset p.fileOff), r.deviceOffset, r.size⟩]
  curBlock := p.hostBlock
  curOff := sizeAdd p.hostOff (sizeSub p.fileEnd p.fileOff)

def addRead (s : ReadPlan) (r : DeviceReadJob) : ReadPlan :=
  if r.size = 0 then s
  else
    let (p, before) := s.pieceFor bsz coalesceMaxGap r
    s.serve p before r

def make (reads : List DeviceReadJob) : ReadPlan := reads.foldl (addRead bsz coalesceMaxGap) {}

end ReadPlan

def hostReads {bsz : Nat} (file : Memory) (pieces : List Piece) (host : Allocation bsz) :
    Allocation bsz :=
  pieces.foldl (fun host p =>
    host.write p.hostBlock p.hostOff (file.load p.fileOff (sizeSub p.fileEnd p.fileOff))) host

def deviceCopies {bsz : Nat} (host : Allocation bsz) (copies : List SegCopy) (device : Memory) :
    Memory :=
  device.storeAll (copies.map fun c => (c.deviceOff, (host.blocks c.hostBlock).load c.hostOff c.size))

/-! ## The pieces -/

namespace Piece

variable {p p' : Piece} {r : DeviceReadJob} {c : SegCopy}

def length (p : Piece) : Nat := p.fileEnd - p.fileOff

def Before (p p' : Piece) : Prop :=
  p.hostBlock < p'.hostBlock ∨ p.hostBlock = p'.hostBlock ∧ p.hostOff + p.length ≤ p'.hostOff

/-- The bytes of a read are in a piece, and a copy takes them from there. -/
structure Serves (p : Piece) (r : DeviceReadJob) (c : SegCopy) : Prop where
  from_le : p.fileOff ≤ r.fileOffset
  le_end : r.fileOffset + r.size ≤ p.fileEnd
  copy : c = ⟨p.hostBlock, p.hostOff + (r.fileOffset - p.fileOff), r.deviceOffset, r.size⟩

/-- What extends a piece still serves its reads. -/
theorem Serves.extend {fileEnd : Nat} (h : p.Serves r c) (hle : p.fileEnd ≤ fileEnd) :
    Serves { p with fileEnd } r c :=
  { h with le_end := Nat.le_trans h.le_end hle }

end Piece

namespace ReadPlan

structure Inv (bsz : Nat) (reads : List DeviceReadJob) (s : ReadPlan) : Prop where
  fits : ∀ p ∈ s.pieces, p.hostOff + p.length ≤ bsz
  forward : ∀ p ∈ s.pieces, p.fileOff ≤ p.fileEnd
  starts : ∀ p ∈ s.pieces, ∃ r ∈ reads, p.fileOff = r.fileOffset
  ends : ∀ p ∈ s.pieces, ∃ r ∈ reads, p.fileEnd = r.fileOffset + r.size
  ordered : s.pieces.Pairwise fun later earlier => earlier.Before later
  cursor_le : s.curOff ≤ bsz
  cursor : ∀ p ∈ s.pieces, p.hostBlock < s.curBlock ∨
    p.hostBlock = s.curBlock ∧ p.hostOff + p.length ≤ s.curOff
  served : List.Forall₂ (fun r c => ∃ p ∈ s.pieces, p.Serves r c)
    (reads.filter fun r => r.size ≠ 0) s.segCopies

variable {bsz coalesceMaxGap : Nat} {reads : List DeviceReadJob} {s : ReadPlan} {r : DeviceReadJob}

theorem inv_nil : Inv bsz [] {} :=
  ⟨by simp, by simp, by simp, by simp, .nil, Nat.zero_le _, by simp, .nil⟩

theorem sizeAdd_eq {a b : Nat} (h : a + b < 2 ^ 64) : sizeAdd a b = a + b := Nat.mod_eq_of_lt h

theorem sizeSub_eq {a b : Nat} (hle : b ≤ a) (h : a < 2 ^ 64) : sizeSub a b = a - b := by
  rw [sizeSub]
  omega

/-- A gap that is allowed does not wrap around. -/
theorem le_of_sizeSub_le {a b : Nat} (h : sizeSub a b ≤ coalesceMaxGap)
    (hgap : coalesceMaxGap + 2 * bsz < 2 ^ 64) (hle : b ≤ a + bsz) : b ≤ a := by
  rw [sizeSub] at h
  omega

theorem newPiece_spec (hgap : coalesceMaxGap + 2 * bsz < 2 ^ 64) (h : r.size ≤ bsz)
    (hcursor : s.curOff ≤ bsz) (hfile : r.fileOffset + r.size < 2 ^ 64) :
    (s.newPiece bsz r).fileOff = r.fileOffset ∧
      (s.newPiece bsz r).fileEnd = r.fileOffset + r.size ∧
      (s.newPiece bsz r).hostOff + r.size ≤ bsz ∧
      ((s.newPiece bsz r).hostBlock = s.curBlock ∧ (s.newPiece bsz r).hostOff = s.curOff ∨
        s.curBlock < (s.newPiece bsz r).hostBlock) := by
  rw [newPiece, sizeAdd_eq hfile, sizeAdd_eq (by omega)]
  split
  · exact ⟨rfl, rfl, by rwa [Nat.zero_add], .inr (Nat.lt_succ_self _)⟩
  next hfits =>
    exact ⟨rfl, rfl, Nat.le_of_not_lt hfits, .inl ⟨rfl, rfl⟩⟩

theorem pieceFor_cases (bsz coalesceMaxGap : Nat) (s : ReadPlan) (r : DeviceReadJob) :
    s.pieceFor bsz coalesceMaxGap r = (s.newPiece bsz r, s.pieces) ∨
      ∃ p before, s.pieces = p :: before ∧ sizeSub r.fileOffset p.fileEnd ≤ coalesceMaxGap ∧
        sizeAdd p.hostOff (sizeSub (sizeAdd r.fileOffset r.size) p.fileOff) ≤ bsz ∧
        s.pieceFor bsz coalesceMaxGap r =
          ({ p with fileEnd := sizeAdd r.fileOffset r.size }, before) := by
  rw [pieceFor]
  split
  next hnil =>
    rw [hnil]
    exact .inl rfl
  next p before hcons =>
    dsimp only
    split
    · rw [hcons]
      exact .inl rfl
    next hnear =>
      rw [not_or, Nat.not_lt, Nat.not_lt] at hnear
      exact .inr ⟨p, before, hcons, hnear.1, hnear.2, rfl⟩

theorem exists_append {P : DeviceReadJob → Prop} (h : ∃ r' ∈ reads, P r') : ∃ r' ∈ reads ++ [r], P r' := by
  obtain ⟨r', hr', hp⟩ := h
  exact ⟨r', mem_append_left _ hr', hp⟩

/-- What both ways to serve a read have to show: the last piece is well placed, and all reads so far
are still served. -/
theorem inv_serve {q : Piece} {before : List Piece} (hbsz : bsz < 2 ^ 64) (hne : r.size ≠ 0)
    (hfits : ∀ p ∈ q :: before, p.hostOff + p.length ≤ bsz)
    (hforward : ∀ p ∈ q :: before, p.fileOff ≤ p.fileEnd)
    (hstarts : ∀ p ∈ q :: before, ∃ r' ∈ reads ++ [r], p.fileOff = r'.fileOffset)
    (hends : ∀ p ∈ q :: before, ∃ r' ∈ reads ++ [r], p.fileEnd = r'.fileOffset + r'.size)
    (hbefore : ∀ p ∈ before, p.Before q) (hordered : before.Pairwise fun later earlier => earlier.Before later)
    (hserved : List.Forall₂ (fun r c => ∃ p ∈ q :: before, p.Serves r c)
      (reads.filter fun r => r.size ≠ 0) s.segCopies)
    (hfrom : q.fileOff ≤ r.fileOffset) (hend : r.fileOffset + r.size ≤ q.fileEnd)
    (hfile : q.fileEnd < 2 ^ 64) :
    (s.serve q before r).Inv bsz (reads ++ [r]) := by
  have hfit := hfits q mem_cons_self
  have hlength : sizeSub q.fileEnd q.fileOff = q.length := sizeSub_eq (by omega) hfile
  have hcursor : (s.serve q before r).curOff = q.hostOff + q.length := by
    show sizeAdd q.hostOff (sizeSub q.fileEnd q.fileOff) = _
    rw [hlength, sizeAdd_eq (by omega)]
  refine ⟨hfits, hforward, hstarts, hends, .cons hbefore hordered, hcursor ▸ hfit, ?_, ?_⟩
  · intro p hp
    rw [hcursor]
    rcases mem_cons.1 hp with rfl | hp
    · exact .inr ⟨rfl, Nat.le_refl _⟩
    · rcases hbefore p hp with hlt | ⟨heq, hle⟩
      · exact .inl hlt
      · exact .inr ⟨heq, Nat.le_trans hle (Nat.le_add_right _ _)⟩
  · have hlast : [r].filter (fun r => r.size ≠ 0) = [r] := by simp [hne]
    have hcopy : sizeAdd q.hostOff (sizeSub r.fileOffset q.fileOff) =
        q.hostOff + (r.fileOffset - q.fileOff) := by
      rw [Piece.length] at hfit
      rw [sizeSub_eq hfrom (by omega), sizeAdd_eq (by omega)]
    rw [filter_append, hlast]
    apply rel_append hserved
    exact .cons ⟨q, mem_cons_self, hfrom, hend, by rw [hcopy]⟩ .nil

section

variable (h : s.Inv bsz reads) (hgap : coalesceMaxGap + 2 * bsz < 2 ^ 64)
  (hfile : r.fileOffset + r.size < 2 ^ 64)

include h hgap hfile

theorem Inv.push (hsize : r.size ≤ bsz) (hne : r.size ≠ 0) :
    (s.serve (s.newPiece bsz r) s.pieces r).Inv bsz (reads ++ [r]) := by
  obtain ⟨hoff, hend, hfits, hplace⟩ := newPiece_spec hgap hsize h.cursor_le hfile
  obtain ⟨q, hq⟩ : ∃ q, q = s.newPiece bsz r := ⟨_, rfl⟩
  rw [← hq] at hoff hend hfits hplace ⊢
  have hlength : q.length = r.size := by
    rw [Piece.length, hoff, hend, Nat.add_sub_cancel_left]
  apply inv_serve (by omega) hne _ _ _ _ _ h.ordered _ (by omega) (by omega) (by omega)
  · exact forall_mem_cons.2 ⟨by omega, h.fits⟩
  · exact forall_mem_cons.2 ⟨by omega, h.forward⟩
  · exact forall_mem_cons.2 ⟨⟨r, by simp, hoff⟩, fun p hp => exists_append (h.starts p hp)⟩
  · exact forall_mem_cons.2 ⟨⟨r, by simp, hend⟩, fun p hp => exists_append (h.ends p hp)⟩
  · intro p hp
    have hcursor := h.cursor p hp
    rw [Piece.Before]
    omega
  · apply h.served.imp
    rintro r c ⟨p, hp, hserves⟩
    exact ⟨p, mem_cons_of_mem _ hp, hserves⟩

theorem Inv.extend {p : Piece} {before : List Piece} (hpieces : s.pieces = p :: before)
    (hne : r.size ≠ 0) (hnext : p.fileEnd ≤ r.fileOffset)
    (hfits : p.hostOff + (r.fileOffset + r.size - p.fileOff) ≤ bsz) :
    (s.serve { p with fileEnd := r.fileOffset + r.size } before r).Inv bsz (reads ++ [r]) := by
  obtain ⟨hfit, hforward, hstarts, hends, hordered, -, -, hserved⟩ := h
  rw [hpieces] at hfit hforward hstarts hends hordered
  rw [forall_mem_cons] at hfit hforward hstarts hends
  rw [pairwise_cons] at hordered
  refine inv_serve (by omega) hne ?_ ?_ ?_ ?_ (fun p' hp' => hordered.1 p' hp') hordered.2 ?_ ?_
    (Nat.le_refl _) hfile
  · exact forall_mem_cons.2 ⟨hfits, hfit.2⟩
  · exact forall_mem_cons.2 ⟨by dsimp only; omega, hforward.2⟩
  · exact forall_mem_cons.2
      ⟨exists_append hstarts.1, fun p' hp' => exists_append (hstarts.2 p' hp')⟩
  · exact forall_mem_cons.2
      ⟨⟨r, by simp, rfl⟩, fun p' hp' => exists_append (hends.2 p' hp')⟩
  · -- the piece only grows at its end
    apply hserved.imp
    rintro r' c ⟨p', hp', hserves⟩
    rw [hpieces] at hp'
    rcases mem_cons.1 hp' with rfl | hp'
    · exact ⟨_, mem_cons_self, hserves.extend (by omega)⟩
    · exact ⟨p', mem_cons_of_mem _ hp', hserves⟩
  · exact Nat.le_trans hforward.1 hnext

/-- **One read.** It extends the last piece only if it starts behind it and the block has room for
it. -/
theorem Inv.addRead (hsize : r.size ≤ bsz)
    (hsorted : ∀ r' ∈ reads, r'.fileOffset ≤ r.fileOffset) :
    (s.addRead bsz coalesceMaxGap r).Inv bsz (reads ++ [r]) := by
  rw [ReadPlan.addRead]
  split
  next hzero =>
    have hfilter : (reads ++ [r]).filter (fun r => r.size ≠ 0) = reads.filter fun r => r.size ≠ 0 := by
      simp [hzero]
    exact ⟨h.fits, h.forward, fun p hp => exists_append (h.starts p hp),
      fun p hp => exists_append (h.ends p hp), h.ordered, h.cursor_le, h.cursor, hfilter ▸ h.served⟩
  next hne =>
    rcases pieceFor_cases bsz coalesceMaxGap s r with hnew | ⟨p, before, hcons, hnear, hfits, hextended⟩
    · rw [hnew]
      exact h.push hgap hfile hsize hne
    · have hp : p ∈ s.pieces := by
        rw [hcons]
        exact mem_cons_self
      obtain ⟨r', hr', heq⟩ := h.starts p hp
      have hle := hsorted r' hr'
      have hlength := h.fits p hp
      have hforward := h.forward p hp
      rw [Piece.length] at hlength
      have hnext : p.fileEnd ≤ r.fileOffset := le_of_sizeSub_le hnear hgap (by omega)
      -- the room that is left does not wrap around either
      rw [sizeSub_eq hnext (by omega)] at hnear
      rw [sizeAdd_eq hfile, sizeSub_eq (by omega) hfile, sizeAdd_eq (by omega)] at hfits
      rw [hextended, sizeAdd_eq hfile]
      exact h.extend hgap hfile hcons hne hnext hfits

omit hgap hfile in
theorem Inv.exists_copy (hr : r ∈ reads) (hne : r.size ≠ 0) :
    ∃ c ∈ s.segCopies, ∃ p ∈ s.pieces, p.Serves r c := by
  have hmem : r ∈ reads.filter fun r => r.size ≠ 0 := mem_filter.2 ⟨hr, decide_eq_true hne⟩
  obtain ⟨i, hget⟩ := mem_iff_get.1 hmem
  have hi' : i.1 < s.segCopies.length := h.served.length_eq ▸ i.2
  have hserved := h.served.get i.2 hi'
  exact ⟨_, get_mem s.segCopies ⟨i.1, hi'⟩, hget ▸ hserved⟩

omit hgap hfile in
theorem Inv.map_segCopies :
    s.segCopies.map (fun c => (c.deviceOff, c.size)) =
      (reads.filter fun r => r.size ≠ 0).map fun r => (r.deviceOffset, r.size) := by
  have hsame : List.Forall₂ Eq
      ((reads.filter fun r => r.size ≠ 0).map fun r => (r.deviceOffset, r.size))
      (s.segCopies.map fun c => (c.deviceOff, c.size)) := by
    rw [forall₂_map_left_iff, forall₂_map_right_iff]
    apply h.served.imp
    rintro r c ⟨p, _, hserves⟩
    rw [hserves.copy]
  rw [forall₂_eq_eq_eq] at hsame
  exact hsame.symm

end

theorem inv_make (hgap : coalesceMaxGap + 2 * bsz < 2 ^ 64) (hsize : ∀ r ∈ reads, r.size ≤ bsz)
    (hfile : ∀ r ∈ reads, r.fileOffset + r.size < 2 ^ 64)
    (hsorted : reads.Pairwise fun r r' => r.fileOffset ≤ r'.fileOffset) :
    (make bsz coalesceMaxGap reads).Inv bsz reads := by
  induction reads using reverseRecOn with
  | nil => exact inv_nil
  | append_singleton reads r ih =>
    rw [make, foldl_append]
    rw [pairwise_append] at hsorted
    have hinv := ih (fun r' hr' => hsize r' (mem_append_left _ hr'))
      (fun r' hr' => hfile r' (mem_append_left _ hr')) hsorted.1
    exact hinv.addRead hgap (hfile r (by simp)) (hsize r (by simp))
      fun r' hr' => hsorted.2.2 r' hr' r (mem_singleton_self r)

end ReadPlan

/-! ## The bytes -/

section Bytes

variable {bsz : Nat} {file : Memory} {host : Allocation bsz} {pieces : List Piece} {p p' : Piece}

def Piece.address (bsz : Nat) (p : Piece) : Nat := p.hostBlock * bsz + p.hostOff

theorem Piece.Before.apart (h : p.Before p') (hfits : p.hostOff + p.length ≤ bsz) :
    Memory.Apart (p.address bsz) p.length (p'.address bsz) p'.length := by
  left
  rw [address, address]
  rcases h with hlt | ⟨heq, hle⟩
  · have hmul := Nat.mul_le_mul_right bsz hlt
    rw [Nat.succ_mul] at hmul
    omega
  · rw [heq]
    omega

/-- The number of bytes that are read for a piece. -/
theorem ReadPlan.Inv.sizeSub_eq_length {s : ReadPlan} {reads : List DeviceReadJob}
    (h : s.Inv bsz reads) (hfile : ∀ r ∈ reads, r.fileOffset + r.size < 2 ^ 64) (hp : p ∈ s.pieces) :
    sizeSub p.fileEnd p.fileOff = p.length := by
  obtain ⟨r, hr, heq⟩ := h.ends p hp
  exact sizeSub_eq (h.forward p hp) (heq ▸ hfile r hr)

theorem contents_hostReads (hpos : 0 < bsz) (hfits : ∀ p ∈ pieces, p.hostOff + p.length ≤ bsz)
    (hlengths : ∀ p ∈ pieces, sizeSub p.fileEnd p.fileOff = p.length) :
    (hostReads file pieces host).contents =
      host.contents.storeAll (pieces.map fun p => (p.address bsz, file.load p.fileOff p.length)) := by
  induction pieces generalizing host with
  | nil => rfl
  | cons p pieces ih =>
    rw [forall_mem_cons] at hfits hlengths
    have hwrite : (host.write p.hostBlock p.hostOff (file.load p.fileOff p.length)).contents =
        host.contents.store (p.address bsz) (file.load p.fileOff p.length) :=
      host.contents_write (by rw [Memory.length_load]; exact hfits.1) hpos
    have hcons : hostReads file (p :: pieces) host = hostReads file pieces
        (host.write p.hostBlock p.hostOff (file.load p.fileOff p.length)) := by
      rw [← hlengths.1]
      rfl
    rw [hcons, ih hfits.2 hlengths.2, hwrite]
    rfl

/-- **A read is in its piece.** After all reads, a copy finds the bytes of the file. -/
theorem load_hostReads (hpos : 0 < bsz) (hfits : ∀ p ∈ pieces, p.hostOff + p.length ≤ bsz)
    (hlengths : ∀ p ∈ pieces, sizeSub p.fileEnd p.fileOff = p.length)
    (hapart : pieces.Pairwise fun p p' =>
      Memory.Apart (p.address bsz) p.length (p'.address bsz) p'.length)
    (hp : p ∈ pieces) {r : DeviceReadJob} {c : SegCopy} (hserves : p.Serves r c) :
    ((hostReads file pieces host).blocks c.hostBlock).load c.hostOff c.size =
      file.load r.fileOffset r.size := by
  have hfrom := hserves.from_le
  have hend := hserves.le_end
  have hfit := hfits p hp
  have hlength : p.length = p.fileEnd - p.fileOff := rfl
  have hpiece : (hostReads file pieces host).contents.load (p.address bsz) p.length =
      file.load p.fileOff p.length := by
    have hbytes : pieces.Pairwise fun p p' =>
        Memory.Apart (p.address bsz) (file.load p.fileOff p.length).length (p'.address bsz)
          (file.load p'.fileOff p'.length).length := by
      simpa only [Memory.length_load] using hapart
    have hload := Memory.load_storeAll_map (m := host.contents) hbytes hp
    rwa [← contents_hostReads hpos hfits hlengths, Memory.length_load] at hload
  -- the copy takes a slice of the piece
  rw [hserves.copy]
  dsimp only
  rw [Allocation.load_block _ (by omega), ← Nat.add_assoc]
  have hslice := Memory.take_drop_load (m := (hostReads file pieces host).contents) (p := p.address bsz)
    (n := p.length) (i := r.fileOffset - p.fileOff) (k := r.size) (by omega)
  rw [hpiece, Memory.take_drop_load (by omega), Nat.add_sub_cancel' hfrom] at hslice
  exact hslice.symm

end Bytes

/-- **Coalesced reads deliver the bytes of the file.** If the allowed gap and two host blocks together
are less than `2 ^ 64`, the pieces lie in the allocated blocks and do not overlap there, and in whatever
order the reads and then the copies are done, each job finds its bytes on the device. The jobs may
overlap in the file. -/
theorem coalesced_reads {bsz coalesceMaxGap : Nat} {jobs reads : List DeviceReadJob}
    (hgap : coalesceMaxGap + 2 * bsz < 2 ^ 64)
    (hfile : ∀ job ∈ jobs, job.fileOffset + job.size < 2 ^ 64)
    (hsize : ∀ job ∈ jobs, job.size ≤ bsz)
    (hdisjoint : jobs.Pairwise fun job job' =>
      Memory.Apart job.deviceOffset job.size job'.deviceOffset job'.size)
    (hreads : reads.Perm jobs)
    (hsorted : reads.Pairwise fun r r' => r.fileOffset ≤ r'.fileOffset) :
    let plan := ReadPlan.make bsz coalesceMaxGap reads
    (∀ p ∈ plan.pieces, p.hostBlock ≤ plan.curBlock ∧ p.hostOff + p.length ≤ bsz) ∧
    (plan.pieces.Pairwise fun p p' => p.hostBlock = p'.hostBlock →
      Memory.Apart p.hostOff p.length p'.hostOff p'.length) ∧
    ∀ (file : Memory) (host : Allocation bsz) (device : Memory) (pieces : List Piece)
      (copies : List SegCopy), pieces.Perm plan.pieces → copies.Perm plan.segCopies →
      ∀ job ∈ jobs,
        (deviceCopies (hostReads file pieces host) copies device).load job.deviceOffset job.size =
          file.load job.fileOffset job.size := by
  intro plan
  have hends : ∀ r ∈ reads, r.fileOffset + r.size < 2 ^ 64 :=
    fun r hr => hfile r (hreads.mem_iff.1 hr)
  have hinv : plan.Inv bsz reads :=
    ReadPlan.inv_make hgap (fun r hr => hsize r (hreads.mem_iff.1 hr)) hends hsorted
  refine ⟨fun p hp => ⟨?_, hinv.fits p hp⟩, hinv.ordered.imp ?_, ?_⟩
  · have hcursor := hinv.cursor p hp
    omega
  · intro p p' hbefore hsame
    right
    rcases hbefore with hlt | hle
    · omega
    · exact hle.2
  · intro file host device pieces copies hpieces hcopies job hjob
    by_cases hzero : job.size = 0
    · rw [hzero]
      rfl
    have hpos : 0 < bsz := Nat.lt_of_lt_of_le (Nat.pos_of_ne_zero hzero) (hsize job hjob)
    obtain ⟨c, hc, p, hp, hserves⟩ := hinv.exists_copy (hreads.mem_iff.2 hjob) hzero
    have hfits : ∀ p ∈ pieces, p.hostOff + p.length ≤ bsz :=
      fun p hp => hinv.fits p (hpieces.mem_iff.1 hp)
    have hlengths : ∀ p ∈ pieces, sizeSub p.fileEnd p.fileOff = p.length :=
      fun p hp => hinv.sizeSub_eq_length hends (hpieces.mem_iff.1 hp)
    have hapart : pieces.Pairwise fun p p' =>
        Memory.Apart (p.address bsz) p.length (p'.address bsz) p'.length := by
      apply (hpieces.pairwise_iff Memory.Apart.symm).2
      apply hinv.ordered.imp_of_mem
      intro p p' _ hp' hbefore
      exact (hbefore.apart (hinv.fits p' hp')).symm
    have hdevice : copies.Pairwise fun c c' =>
        Memory.Apart c.deviceOff c.size c'.deviceOff c'.size := by
      apply (hcopies.pairwise_iff Memory.Apart.symm).2
      have hjobs := ((hreads.pairwise_iff Memory.Apart.symm).2 hdisjoint).filter fun r => r.size ≠ 0
      have hpairs := pairwise_map (f := fun r : DeviceReadJob => (r.deviceOffset, r.size))
        (R := fun x y => Memory.Apart x.1 x.2 y.1 y.2) |>.2 hjobs
      rw [← hinv.map_segCopies] at hpairs
      exact pairwise_map.1 hpairs
    have hbytes : copies.Pairwise fun c c' => Memory.Apart c.deviceOff
        (((hostReads file pieces host).blocks c.hostBlock).load c.hostOff c.size).length c'.deviceOff
        (((hostReads file pieces host).blocks c'.hostBlock).load c'.hostOff c'.size).length := by
      simpa only [Memory.length_load] using hdevice
    have hload := Memory.load_storeAll_map (m := device) hbytes (hcopies.mem_iff.2 hc)
    rw [Memory.length_load, load_hostReads hpos hfits hlengths hapart (hpieces.mem_iff.2 hp) hserves,
      hserves.copy] at hload
    exact hload

/-- Four reads with the gap of a block header. Two are near to each other and in one piece; the third
overlaps them and gets a piece of its own, and so does the last one, which is far behind. -/
theorem coalesced_reads_four :
    let jobs : List DeviceReadJob := [⟨40, 4, 32⟩, ⟨0, 4, 0⟩, ⟨6, 3, 48⟩, ⟨5, 2, 16⟩]
    let plan := ReadPlan.make 16 8 [⟨0, 4, 0⟩, ⟨5, 2, 16⟩, ⟨6, 3, 48⟩, ⟨40, 4, 32⟩]
    plan.pieces = [⟨40, 44, 0, 10⟩, ⟨6, 9, 0, 7⟩, ⟨0, 7, 0, 0⟩] ∧
    ∀ (file : Memory) (host : Allocation 16) (device : Memory), ∀ job ∈ jobs,
      (deviceCopies (hostReads file plan.pieces host) plan.segCopies device).load job.deviceOffset
        job.size = file.load job.fileOffset job.size := by
  refine ⟨by decide, fun file host device => ?_⟩
  exact (coalesced_reads (by decide) (by decide) (by decide) (by decide) (by decide) (by decide)).2.2
    file host device _ _ (.refl _) (.refl _)

/-- With the largest gap, a read inside another one shortens their piece: the bytes behind it are not
read from the file. -/
theorem coalesced_reads_shortened :
    let reads : List DeviceReadJob := [⟨0, 4, 0⟩, ⟨1, 1, 16⟩]
    let plan := ReadPlan.make 8 (2 ^ 64 - 1) reads
    plan.pieces = [⟨0, 2, 0, 0⟩] ∧
      (deviceCopies (hostReads (fun _ => 1) plan.pieces ⟨fun _ _ => 0, []⟩ : Allocation 8)
        plan.segCopies fun _ => 0).load 0 4 = [1, 1, 0, 0] := by
  decide

end Sirius.Native
