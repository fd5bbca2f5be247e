import Sirius.Cache.Insert
import Sirius.Lib.ByteMemory

/-!
# Reading a cached range

A cache entry keeps the bytes of its physical range in chunks at arbitrary addresses. The worker reads
the file into them, one IO per chunk with a short last one (phase 5 of `worker_loop` in
`src/io/prefetching_cache.cpp`). A reader gets a part of the logical range as a list of buffers:
`pinned_view::slice` walks through the chunks, and a chunk that happens to follow the last buffer in
memory extends it.

Together the buffers hold the bytes of the file (`slice_bytes`), however the chunks lie in memory.
-/

namespace Sirius.Cache

open Lib List

/-! ## The worker and the reader -/

/-- A `cache_entry` with its chunks. Its physical range is the logical one up to alignment, and the
worker has given it as many chunks as the physical range takes. -/
structure PinnedEntry where
  logicalRange : ByteRange
  physicalRange : ByteRange
  chunkBytes : Nat
  /-- The addresses of the chunks. -/
  chunks : List Nat
  chunkBytes_pos : 0 < chunkBytes
  offset_le : physicalRange.offset ≤ logicalRange.offset
  stop_le : logicalRange.stop ≤ physicalRange.stop
  length_chunks : chunks.length = (physicalRange.size + chunkBytes - 1) / chunkBytes

structure ChunkRead where
  offset : Nat
  size : Nat
  dst : Nat
  deriving DecidableEq, Repr

def PinnedEntry.chunkReads (e : PinnedEntry) : List ChunkRead :=
  e.chunks.zipIdx.map fun (chunk, i) =>
    { offset := e.physicalRange.offset + i * e.chunkBytes
      size := min e.chunkBytes (e.physicalRange.size - i * e.chunkBytes)
      dst := chunk }

def performReads (file : Memory) (reads : List ChunkRead) (memory : Memory) : Memory :=
  memory.storeAll (reads.map fun r => (r.dst, file.load r.offset r.size))

structure Buffer where
  data : Nat
  size : Nat
  deriving DecidableEq, Repr

/-- `n` bytes at `p` come behind the buffers. If the last one ends at `p`, it is extended. -/
def pushBuffer (result : List Buffer) (p n : Nat) : List Buffer :=
  match result.getLast? with
  | none => [⟨p, n⟩]
  | some last =>
    if last.data + last.size = p then result.dropLast ++ [⟨last.data, last.size + n⟩]
    else result ++ [⟨p, n⟩]

/-- The loop of `slice` over the chunks from number `chunkIdx` on. -/
def sliceLoop (physSize chunkBytes : Nat) :
    List Nat → (chunkIdx offInChunk remaining : Nat) → List Buffer → List Buffer
  | [], _, _, _, result => result
  | chunk :: chunks, chunkIdx, offInChunk, remaining, result =>
    if remaining = 0 then result
    else
      let chunkAvail :=
        min (chunkBytes - offInChunk) (physSize - chunkIdx * chunkBytes - offInChunk)
      let n := min remaining chunkAvail
      sliceLoop physSize chunkBytes chunks (chunkIdx + 1) 0 (remaining - n)
        (pushBuffer result (chunk + offInChunk) n)

def PinnedEntry.slice (e : PinnedEntry) (offset size : Nat) : List Buffer :=
  if size = 0 then []
  else
    let physOff := e.physicalRange.offset
    let logicalOff := e.logicalRange.offset
    let physStart := (offset - logicalOff) + (logicalOff - physOff)
    let chunkIdx := physStart / e.chunkBytes
    sliceLoop e.physicalRange.size e.chunkBytes (e.chunks.drop chunkIdx) chunkIdx
      (physStart % e.chunkBytes) size []

def bytesOf (memory : Memory) (buffers : List Buffer) : List Byte :=
  buffers.flatMap fun b => memory.load b.data b.size

/-! ## The bytes -/

theorem bytesOf_pushBuffer (memory : Memory) (result : List Buffer) (p n : Nat) :
    bytesOf memory (pushBuffer result p n) = bytesOf memory result ++ memory.load p n := by
  rcases eq_nil_or_concat result with rfl | ⟨front, last, rfl⟩
  · simp [pushBuffer, bytesOf]
  · rw [pushBuffer, concat_eq_append, getLast?_concat]
    dsimp only
    split
    next hcontiguous =>
      rw [dropLast_concat, bytesOf, bytesOf, flatMap_append, flatMap_append,
        append_assoc, flatMap_singleton, flatMap_singleton, Memory.load_add,
        hcontiguous]
    · simp [bytesOf]

theorem sliceLoop_zero (physSize chunkBytes : Nat) (chunks : List Nat) (chunkIdx offInChunk : Nat)
    (result : List Buffer) :
    sliceLoop physSize chunkBytes chunks chunkIdx offInChunk 0 result = result := by
  cases chunks with
  | nil => rfl
  | cons chunk chunks => rw [sliceLoop, if_pos rfl]

def PinnedEntry.Filled (e : PinnedEntry) (file memory : Memory) : Prop :=
  ∀ r ∈ e.chunkReads, memory.load r.dst r.size = file.load r.offset r.size

namespace PinnedEntry

variable {e : PinnedEntry} {file memory : Memory}

theorem mem_chunkReads {i chunk : Nat} (h : e.chunks[i]? = some chunk) :
    { offset := e.physicalRange.offset + i * e.chunkBytes
      size := min e.chunkBytes (e.physicalRange.size - i * e.chunkBytes)
      dst := chunk : ChunkRead } ∈ e.chunkReads := by
  apply mem_map.2
  exact ⟨(chunk, i), mk_mem_zipIdx_iff_getElem?.2 h, rfl⟩

/-- A part of a chunk. -/
theorem Filled.load_chunk (h : e.Filled file memory) {i chunk off n : Nat}
    (hchunk : e.chunks[i]? = some chunk) (hsize : off + n ≤ e.chunkBytes)
    (hphys : i * e.chunkBytes + off + n ≤ e.physicalRange.size) :
    memory.load (chunk + off) n = file.load (e.physicalRange.offset + i * e.chunkBytes + off) n := by
  have hread := h _ (mem_chunkReads hchunk)
  have hle : off + n ≤ min e.chunkBytes (e.physicalRange.size - i * e.chunkBytes) := by
    apply Nat.le_min.2
    omega
  rw [← Memory.take_drop_load hle, ← Memory.take_drop_load hle, hread]

theorem physSize_le : e.physicalRange.size ≤ e.chunks.length * e.chunkBytes := by
  have hpos := e.chunkBytes_pos
  have hdiv := Nat.div_add_mod (e.physicalRange.size + e.chunkBytes - 1) e.chunkBytes
  have hmod := Nat.mod_lt (e.physicalRange.size + e.chunkBytes - 1) hpos
  rw [e.length_chunks, Nat.mul_comm]
  omega

/-- **The loop.** The buffers get the bytes from the current position on. -/
theorem Filled.sliceLoop (h : e.Filled file memory) {chunks : List Nat} {chunkIdx offInChunk remaining : Nat}
    (hchunks : e.chunks.drop chunkIdx = chunks) (hoff : offInChunk < e.chunkBytes)
    (hfits : chunkIdx * e.chunkBytes + offInChunk + remaining ≤ e.physicalRange.size)
    (result : List Buffer) :
    bytesOf memory
        (sliceLoop e.physicalRange.size e.chunkBytes chunks chunkIdx offInChunk remaining result) =
      bytesOf memory result ++
        file.load (e.physicalRange.offset + chunkIdx * e.chunkBytes + offInChunk) remaining := by
  induction chunks generalizing chunkIdx offInChunk remaining result with
  | nil =>
    have hall : e.chunks.length ≤ chunkIdx := drop_eq_nil_iff.1 hchunks
    have hmul := Nat.mul_le_mul_right e.chunkBytes hall
    have hphys := e.physSize_le
    obtain rfl : remaining = 0 := by omega
    simp [Cache.sliceLoop, Memory.load]
  | cons chunk chunks ih =>
    rw [Cache.sliceLoop]
    split
    next hdone =>
      subst hdone
      simp [Memory.load]
    · obtain ⟨n, hn⟩ : ∃ n, n = min remaining (min (e.chunkBytes - offInChunk)
          (e.physicalRange.size - chunkIdx * e.chunkBytes - offInChunk)) := ⟨_, rfl⟩
      have hsucc : (chunkIdx + 1) * e.chunkBytes = chunkIdx * e.chunkBytes + e.chunkBytes :=
        Nat.succ_mul ..
      have hget : e.chunks[chunkIdx]? = some chunk := by
        rw [← head?_drop, hchunks, head?_cons]
      have hrest : e.chunks.drop (chunkIdx + 1) = chunks := by
        rw [← tail_drop, hchunks, tail_cons]
      have hload : memory.load (chunk + offInChunk) n =
          file.load (e.physicalRange.offset + chunkIdx * e.chunkBytes + offInChunk) n :=
        h.load_chunk hget (by omega) (by omega)
      dsimp only
      rw [← hn]
      -- either the rest of the chunk is taken, or nothing remains
      rcases Nat.eq_or_lt_of_le (show n ≤ remaining by omega) with hlast | hmore
      · rw [hlast, Nat.sub_self, sliceLoop_zero, bytesOf_pushBuffer, ← hlast, hload]
      · have hfull : n = e.chunkBytes - offInChunk := by omega
        rw [ih hrest e.chunkBytes_pos (by omega), bytesOf_pushBuffer, hload, append_assoc]
        have hsplit : remaining = n + (remaining - n) := by omega
        conv_rhs => rw [hsplit, Memory.load_add]
        congr 3
        omega

/-- **The worker fills the chunks**, in whatever order its reads are done, as no two chunks overlap. -/
theorem filled_performReads {reads : List ChunkRead} (hreads : reads.Perm e.chunkReads)
    (hdisjoint : e.chunks.Pairwise fun a b => a + e.chunkBytes ≤ b ∨ b + e.chunkBytes ≤ a) :
    e.Filled file (performReads file reads memory) := by
  have hpairs : e.chunkReads.Pairwise fun r r' => Memory.Apart r.dst r.size r'.dst r'.size := by
    apply pairwise_map.2
    rw [← zipIdx_map_fst 0 e.chunks, pairwise_map] at hdisjoint
    apply hdisjoint.imp
    intro x y hxy
    simp only [Memory.Apart]
    omega
  have hsymm : ∀ {r r' : ChunkRead}, Memory.Apart r.dst r.size r'.dst r'.size →
      Memory.Apart r'.dst r'.size r.dst r.size := fun h => h.symm
  intro r hr
  have hstores : (reads.map fun r => (r.dst, file.load r.offset r.size)).Pairwise
      fun s s' => Memory.Apart s.1 s.2.length s'.1 s'.2.length := by
    apply pairwise_map.2
    simpa using (hreads.pairwise_iff hsymm).2 hpairs
  have hload := Memory.load_storeAll (m := memory) hstores (mem_map_of_mem (hreads.mem_iff.2 hr))
  rw [Memory.length_load] at hload
  exact hload

end PinnedEntry

/-- **A slice has the bytes of the file.** Whatever the chunk size and the addresses of the chunks, the
buffers of a part of the logical range hold that part of the file, in order. -/
theorem slice_bytes (e : PinnedEntry) (file memory : Memory) (hfilled : e.Filled file memory)
    (offset size : Nat) (hstart : e.logicalRange.offset ≤ offset)
    (hstop : offset + size ≤ e.logicalRange.stop) :
    bytesOf memory (e.slice offset size) = file.load offset size := by
  rw [PinnedEntry.slice]
  split
  next hsize =>
    subst hsize
    rfl
  · have hcontained := e.stop_le
    have hphys := e.offset_le
    simp only [ByteRange.stop] at hstop hcontained
    obtain ⟨physStart, hphysStart⟩ : ∃ physStart, physStart = (offset - e.logicalRange.offset) +
      (e.logicalRange.offset - e.physicalRange.offset) := ⟨_, rfl⟩
    have hdiv := Nat.div_add_mod' physStart e.chunkBytes
    dsimp only
    rw [← hphysStart, hfilled.sliceLoop rfl (Nat.mod_lt _ e.chunkBytes_pos) (by omega), bytesOf,
      flatMap_nil, nil_append]
    congr 1
    omega

/-- Four bytes per chunk. The first two of the three chunks are neighbours in memory. -/
def threeChunks : PinnedEntry where
  logicalRange := ⟨9, 8⟩
  physicalRange := ⟨8, 10⟩
  chunkBytes := 4
  chunks := [100, 104, 50]
  chunkBytes_pos := Nat.succ_pos 3
  offset_le := Nat.le_succ 8
  stop_le := Nat.le_succ 17
  length_chunks := rfl

/-- The bytes of the file are their own positions. -/
theorem slice_bytes_threeChunks :
    threeChunks.slice 10 7 = [⟨102, 6⟩, ⟨50, 1⟩] ∧
      bytesOf (performReads (BitVec.ofNat 8) threeChunks.chunkReads fun _ => 0)
          (threeChunks.slice 10 7) = Memory.load (BitVec.ofNat 8) 10 7 := by
  refine ⟨rfl, ?_⟩
  apply slice_bytes
  · exact PinnedEntry.filled_performReads (.refl _) (by decide)
  · decide
  · decide

end Sirius.Cache
