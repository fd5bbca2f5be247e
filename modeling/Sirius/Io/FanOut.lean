import Mathlib.Algebra.Order.Ring.Nat
import Mathlib.Data.List.Nodup
import Mathlib.Data.List.Perm.Subperm
import Mathlib.Data.Nat.ModEq

/-!
# Fan-out of reads

`templated_ioctx` cuts a read into sub-requests, hands each of its reactors a slice of them and counts
them down in one `request_context`. A device read becomes chunks of the aligned range around it. A list
of byte ranges becomes one sub-request a range, but a range that is longer than its span becomes none,
and the handler never hears of it (`fan_out_iff`).

File sizes come from `off_t`, so no sum below wraps at 64 bits.
-/

namespace Sirius.Io

def chunkSize : Nat := 2 ^ 20

def ioBlockSize : Nat := 4096

/-! ## The completion state -/

inductive Reported where
  | read (bytes : Nat)
  | failed

/-- `request_context`; `fired` is what the handler has been called with. -/
structure RequestContext where
  pending : Nat
  totalBytes : Nat
  failed : Bool := false
  fired : Option Reported := none

namespace RequestContext

/-- Without chunks the handler is called at once. -/
def create (nChunks totalBytes : Nat) : RequestContext :=
  if nChunks = 0 then { pending := 0, totalBytes, fired := some (.read 0) }
  else { pending := nChunks, totalBytes }

theorem pending_create (nChunks totalBytes : Nat) : (create nChunks totalBytes).pending = nChunks := by
  rw [create]
  split <;> simp_all

def chunkDone (ctx : RequestContext) : RequestContext :=
  if ctx.pending = 1 ∧ ctx.fired = none then
    { ctx with
      pending := 0
      fired := some (if ctx.failed then .failed else .read ctx.totalBytes) }
  else { ctx with pending := ctx.pending - 1 }

def chunkFailed (ctx : RequestContext) : RequestContext :=
  chunkDone { ctx with failed := true }

/-- The sub-requests end one after the other, `true` for one that was read completely. That a reactor
calls `chunk_done` for no other one is assumed: it also does after an early end of the file, and without
a free entry of its submission queue (`src/io/uring/uring_reactor.cpp`). -/
def run : RequestContext → List Bool → RequestContext
  | ctx, [] => ctx
  | ctx, ok :: oks => (if ok then ctx.chunkDone else ctx.chunkFailed).run oks

/-- Success is reported by the last sub-request, and only if none failed. -/
theorem run_eq_read_iff {oks : List Bool} {b : Nat} {ctx : RequestContext} (hfired : ctx.fired = none)
    (hpos : 0 < ctx.pending) (hle : oks.length ≤ ctx.pending) :
    (ctx.run oks).fired = some (.read b) ↔
      b = ctx.totalBytes ∧ ctx.failed = false ∧ oks.length = ctx.pending ∧ ∀ ok ∈ oks, ok = true := by
  induction oks generalizing ctx with
  | nil => simp [run, hfired]; omega
  | cons ok oks ih =>
    rw [List.length_cons] at hle
    by_cases hlast : ctx.pending = 1
    · obtain rfl : oks = [] := List.eq_nil_of_length_eq_zero (by omega)
      cases ok <;> cases hf : ctx.failed <;> simp [run, chunkDone, chunkFailed, hlast, hfired, hf, eq_comm]
    · have hstep : ∀ f, { ctx with failed := f }.chunkDone =
          { ctx with failed := f, pending := ctx.pending - 1 } := fun f => if_neg fun h => hlast h.1
      cases ok with
      | true =>
        rw [run, if_pos rfl, hstep ctx.failed]
        refine (ih ?_ ?_ ?_).trans ?_ <;> grind
      | false =>
        rw [run, if_neg Bool.false_ne_true, chunkFailed, hstep]
        refine (ih ?_ ?_ ?_).trans (by simp) <;> grind

end RequestContext

open RequestContext List

/-! ## Slices for the reactors -/

/-- How many of `count` sub-requests the `k`-th of `m` reactors gets. -/
def groupSize (count m k : Nat) : Nat :=
  count / m + if k < count % m then 1 else 0

section Slices

variable {α : Type} (reqs : List α) (m start : Nat)

/-- The loop over the reactors: the `k`-th slice begins at `off`. -/
def enqueueSlices : List Nat → Nat → List (Nat × List α)
  | [], _ => []
  | k :: ks, off =>
    let size := groupSize reqs.length m k
    if size = 0 then enqueueSlices ks off
    else ((start + k) % m, (reqs.drop off).take size) :: enqueueSlices ks (off + size)

/-- The slices that the reactors get, with the rotating start. -/
def enqueueBulk (next : Nat) : List (Nat × List α) :=
  enqueueSlices reqs m (next % m) (List.range m) 0

theorem flatMap_enqueueSlices (hm : 0 < m) {n k : Nat} (hk : k + n = m) {off : Nat}
    (hoff : off = k * (reqs.length / m) + min k (reqs.length % m)) :
    (enqueueSlices reqs m start (range' k n) off).flatMap Prod.snd = reqs.drop off := by
  induction n generalizing k off with
  | zero =>
    have hall := Nat.div_add_mod reqs.length m
    have hmod := Nat.mod_lt reqs.length hm
    obtain rfl : k = m := hk
    rw [drop_eq_nil_of_le (by omega)]
    rfl
  | succ n ih =>
    have hsucc : (k + 1) * (reqs.length / m) = k * (reqs.length / m) + reqs.length / m := Nat.succ_mul ..
    have hnext : off + groupSize reqs.length m k =
        (k + 1) * (reqs.length / m) + min (k + 1) (reqs.length % m) := by
      rw [groupSize, hoff, hsucc]
      split <;> omega
    rw [range'_succ, enqueueSlices]
    split
    next hzero =>
      exact ih (by omega) (by rw [← hnext, hzero, Nat.add_zero])
    · rw [flatMap_cons, ih (by omega) hnext, ← drop_drop, take_append_drop]

theorem map_enqueueSlices_sublist (ks : List Nat) (off : Nat) :
    ((enqueueSlices reqs m start ks off).map Prod.fst).Sublist (ks.map fun k => (start + k) % m) := by
  induction ks generalizing off with
  | nil => exact .slnil
  | cons k ks ih =>
    rw [enqueueSlices]
    split
    · exact (ih off).cons _
    · exact (ih _).cons_cons _

/-- Each sub-request of a call is enqueued on one reactor, and the context counts them. -/
structure Dispatched (next : Nat) (call : RequestContext × List α) : Prop where
  joined : (enqueueBulk call.2 m next).flatMap Prod.snd = call.2
  reactors : ((enqueueBulk call.2 m next).map Prod.fst).Nodup
  lt : ∀ slice ∈ enqueueBulk call.2 m next, slice.1 < m
  pending : call.1.pending = call.2.length

theorem dispatched_of_pending (hm : 0 < m) (next : Nat) {call : RequestContext × List α}
    (hpending : call.1.pending = call.2.length) : Dispatched m next call := by
  have hsub := map_enqueueSlices_sublist call.2 m (next % m) (range m) 0
  refine ⟨?_, hsub.nodup ?_, fun slice hslice => ?_, hpending⟩
  · rw [enqueueBulk, range_eq_range', flatMap_enqueueSlices _ m _ hm (by omega) (by simp)]
    rfl
  · refine nodup_range.map_on fun k hk k' hk' heq => ?_
    have hmod := Nat.ModEq.add_left_cancel' _ heq
    rwa [Nat.ModEq, Nat.mod_eq_of_lt (mem_range.1 hk), Nat.mod_eq_of_lt (mem_range.1 hk')] at hmod
  · obtain ⟨k, -, hk⟩ := mem_map.1 (hsub.subset (mem_map_of_mem hslice))
    exact hk ▸ Nat.mod_lt _ hm

end Slices

def clip (fileSize offset size : Nat) : Nat :=
  min size (if offset < fileSize then fileSize - offset else 0)

/-! ## Device reads -/

/-- A chunk; `dst` counts from the start of the destination. -/
structure DeviceReadReq where
  fileOff : Nat
  ioSize : Nat
  dataOff : Nat
  dataSize : Nat
  dst : Nat

/-- `align_to_physical`, as the start and the end of the aligned range. -/
def alignToPhysical (offset size fileSize : Nat) : Nat × Nat :=
  (offset / ioBlockSize * ioBlockSize,
    min ((offset + size + ioBlockSize - 1) / ioBlockSize * ioBlockSize)
      ((fileSize + ioBlockSize - 1) / ioBlockSize * ioBlockSize))

/-- The loop of `enqueue_device_read`, from `cur` on. -/
def deviceChunks (offset size aStart aEnd cur produced : Nat) : List DeviceReadReq :=
  if cur < aEnd then
    let ioSize := min chunkSize (aEnd - cur)
    let dataOff := if cur = aStart then offset - aStart else 0
    let dataSize := min (ioSize - dataOff) (size - produced)
    ⟨cur, ioSize, dataOff, dataSize, produced⟩ ::
      deviceChunks offset size aStart aEnd (cur + chunkSize) (produced + dataSize)
  else []
termination_by aEnd - cur
decreasing_by
  have : chunkSize = 2 ^ 20 := rfl
  omega

/-- `enqueue_device_read`: the context and the chunks. -/
def enqueueDeviceRead (fileSize offset size : Nat) : RequestContext × List DeviceReadReq :=
  if size = 0 ∨ fileSize ≤ offset then (.create 0 0, [])
  else
    let size := min size (fileSize - offset)
    let (aStart, aEnd) := alignToPhysical offset size fileSize
    (.create ((aEnd - aStart + chunkSize - 1) / chunkSize) size,
      deviceChunks offset size aStart aEnd aStart 0)

/-- The data parts fill the destination from `n` to `stop`, each from the bytes of the file that belong
there, inside a chunk read of bounded size. -/
inductive Tiles (offset : Nat) : Nat → List DeviceReadReq → Nat → Prop
  | nil {n} : Tiles offset n [] n
  | cons {n stop req reqs} : req.dst = n → req.ioSize ≤ chunkSize →
      req.dataOff + req.dataSize ≤ req.ioSize →
      (req.dataSize ≠ 0 → req.fileOff + req.dataOff = offset + n) →
      Tiles offset (n + req.dataSize) reqs stop → Tiles offset n (req :: reqs) stop

section Chunks

variable {offset size aStart aEnd : Nat}

theorem tiles_deviceChunks (hstart : aStart ≤ offset) (hfirst : offset < aStart + ioBlockSize)
    (hlt : offset < aEnd) (hend : offset + size ≤ aEnd) {cur produced : Nat}
    (hcur : cur = aStart ∨ aStart < cur ∧ offset ≤ cur) (hproduced : produced = min size (cur - offset)) :
    Tiles offset produced (deviceChunks offset size aStart aEnd cur produced) size := by
  have hchunk : chunkSize = 2 ^ 20 := rfl
  have hblock : ioBlockSize = 4096 := rfl
  fun_induction deviceChunks offset size aStart aEnd cur produced with
  | case1 cur produced hmore ioSize dataOff dataSize ih =>
    -- The first chunk alone begins before the data.
    have hoff : dataOff = offset - cur := by grind
    exact .cons rfl (by grind) (by grind) (by grind) (ih (by grind) (by grind))
  | case2 cur produced hdone =>
    obtain rfl : produced = size := by omega
    exact .nil

theorem length_deviceChunks (cur produced : Nat) :
    (deviceChunks offset size aStart aEnd cur produced).length =
      (aEnd - cur + chunkSize - 1) / chunkSize := by
  have hchunk : chunkSize = 2 ^ 20 := rfl
  fun_induction deviceChunks offset size aStart aEnd cur produced with
  | case1 cur produced hmore ioSize dataOff dataSize ih => rw [length_cons, ih, hchunk]; omega
  | case2 cur produced hdone => rw [length_nil, hchunk]; omega

end Chunks

theorem enqueueDeviceRead_spec (fileSize offset size : Nat) :
    (enqueueDeviceRead fileSize offset size).1.pending =
        (enqueueDeviceRead fileSize offset size).2.length ∧
      Tiles offset 0 (enqueueDeviceRead fileSize offset size).2 (clip fileSize offset size) := by
  have hblock : ioBlockSize = 4096 := rfl
  rw [enqueueDeviceRead, clip]
  split
  next hnone =>
    have hzero : min size (if offset < fileSize then fileSize - offset else 0) = 0 := by grind
    rw [hzero]
    exact ⟨rfl, .nil⟩
  next hsome =>
    rw [if_pos (by omega)]
    refine ⟨?_, tiles_deviceChunks ?_ ?_ ?_ ?_ (.inl rfl) ?_⟩
    · rw [length_deviceChunks, pending_create]
    all_goals simp only [alignToPhysical, hblock]; omega

/-! ## Lists of ranges -/

structure RangeRead where
  offset : Nat
  size : Nat
  span : Nat

def RangeRead.clipped (r : RangeRead) (fileSize : Nat) : Nat :=
  clip fileSize r.offset r.size

/-- A sub-request into the span with number `dst`. -/
structure HostReadReq where
  offset : Nat
  size : Nat
  dst : Nat

/-- The sub-request of range `i`, if the loop does not leave it out. -/
def hostRequest (fileSize : Nat) (r : RangeRead) (i : Nat) : Option HostReadReq :=
  let sz := r.clipped fileSize
  if sz = 0 ∨ r.span < sz then none else some ⟨r.offset, sz, i⟩

def hostRequests (fileSize : Nat) (ranges : List RangeRead) : List HostReadReq :=
  ranges.zipIdx.filterMap fun (r, i) => hostRequest fileSize r i

/-- `host_read_ranges_async_io`: the context and the sub-requests. -/
def enqueueHostRanges (fileSize : Nat) (ranges : List RangeRead) : RequestContext × List HostReadReq :=
  let reqs := hostRequests fileSize ranges
  (.create reqs.length (reqs.map HostReadReq.size).sum, reqs)

/-- Whenever the handler reports success, each range was read into its span up to the end of the file.
The sub-requests may end in any order. -/
def SuccessMeansRead (fileSize : Nat) (ranges : List RangeRead) : Prop :=
  ∀ results : List (HostReadReq × Bool),
    (results.map Prod.fst).Subperm (enqueueHostRanges fileSize ranges).2 →
    ∀ b, ((enqueueHostRanges fileSize ranges).1.run (results.map Prod.snd)).fired = some (.read b) →
    ∀ i r, ranges[i]? = some r → r.clipped fileSize ≠ 0 →
      (⟨r.offset, r.clipped fileSize, i⟩, true) ∈ results

section Ranges

variable {fileSize : Nat} {ranges : List RangeRead}

theorem mem_hostRequests {req : HostReadReq} :
    req ∈ hostRequests fileSize ranges ↔
      ∃ r i, ranges[i]? = some r ∧ hostRequest fileSize r i = some req := by
  simp only [hostRequests, mem_filterMap, Prod.exists, mem_zipIdx_iff_getElem?]

/-- If each range fits its span, no sub-request is missing. -/
theorem successMeansRead_of_fits (hfits : ∀ r ∈ ranges, r.clipped fileSize ≤ r.span) :
    SuccessMeansRead fileSize ranges := by
  intro results hsub b hread i r hi hne
  have hreq : ⟨r.offset, r.clipped fileSize, i⟩ ∈ hostRequests fileSize ranges :=
    mem_hostRequests.2 ⟨r, i, hi, if_neg (by grind [mem_of_getElem? hi])⟩
  have hpos := length_pos_of_mem hreq
  have hlength := hsub.length_le
  rw [enqueueHostRanges, length_map] at hlength
  rw [enqueueHostRanges, create, if_neg (Nat.ne_of_gt hpos), run_eq_read_iff rfl
    hpos (by rw [length_map]; exact hlength), length_map] at hread
  obtain ⟨-, -, hall, hok⟩ := hread
  have hperm := hsub.perm_of_length_le (by rw [length_map]; exact Nat.le_of_eq hall.symm)
  obtain ⟨⟨req, ok⟩, hmem, rfl⟩ := mem_map.1 (hperm.mem_iff.2 hreq)
  obtain rfl : ok = true := hok ok (mem_map_of_mem hmem)
  exact hmem

/-- A range that is longer than its span is missing when all sub-requests have succeeded. -/
theorem fits_of_successMeansRead (h : SuccessMeansRead fileSize ranges) {r : RangeRead}
    (hr : r ∈ ranges) : r.clipped fileSize ≤ r.span := by
  obtain ⟨i, hi⟩ := getElem?_of_mem hr
  by_cases hzero : r.clipped fileSize = 0
  · exact hzero ▸ Nat.zero_le _
  obtain ⟨b, hb⟩ : ∃ b, ((enqueueHostRanges fileSize ranges).1.run
      ((hostRequests fileSize ranges).map fun _ => true)).fired = some (.read b) := by
    rw [enqueueHostRanges, create]
    split
    next hnone =>
      exact ⟨0, by rw [eq_nil_of_length_eq_zero hnone]; rfl⟩
    · exact ⟨_, (run_eq_read_iff rfl (by grind) (by simp)).2 ⟨rfl, rfl, by simp, by simp⟩⟩
  have hmem := h ((hostRequests fileSize ranges).map (·, true))
    (by simpa [enqueueHostRanges, Function.comp_def] using Subperm.refl _) b
    (by simpa [Function.comp_def] using hb) i r hi hzero
  obtain ⟨req, hreq, heq⟩ := mem_map.1 hmem
  obtain ⟨r', k, hk, hsome⟩ := mem_hostRequests.1 hreq
  grind [hostRequest]

end Ranges

/-- The fan-out of a list of ranges and of a device read over `m` reactors is complete. -/
structure FanOutComplete (fileSize : Nat) (ranges : List RangeRead) (offset size m next : Nat) : Prop where
  host : Dispatched m next (enqueueHostRanges fileSize ranges)
  success : SuccessMeansRead fileSize ranges
  device : Dispatched m next (enqueueDeviceRead fileSize offset size)
  tiles : Tiles offset 0 (enqueueDeviceRead fileSize offset size).2 (clip fileSize offset size)

/-- The fan-out is complete if and only if each range, clipped at the end of the file, fits its span. -/
theorem fan_out_iff (fileSize : Nat) (ranges : List RangeRead) (offset size m next : Nat) (hm : 0 < m) :
    FanOutComplete fileSize ranges offset size m next ↔
      ∀ r ∈ ranges, r.clipped fileSize ≤ r.span := by
  constructor
  · intro h r hr
    exact fits_of_successMeansRead h.success hr
  · intro hfits
    obtain ⟨hpending, htiles⟩ := enqueueDeviceRead_spec fileSize offset size
    exact ⟨dispatched_of_pending m hm next (pending_create ..), successMeansRead_of_fits hfits,
      dispatched_of_pending m hm next hpending, htiles⟩

/-- Three ranges, the last of them clipped at the end of the file, and a device read of three chunks. -/
theorem fan_out_two_reactors :
    let ranges : List RangeRead := [⟨0, 4096, 4096⟩, ⟨8192, 100, 200⟩, ⟨2 ^ 22 - 10, 20, 10⟩]
    (enqueueHostRanges (2 ^ 22) ranges).1.pending = 3 ∧
      (enqueueDeviceRead (2 ^ 22) 5000 3000000).1.pending = 3 ∧
      FanOutComplete (2 ^ 22) ranges 5000 3000000 2 1 :=
  ⟨by decide, by decide, (fan_out_iff (2 ^ 22) _ 5000 3000000 2 1 (by decide)).2 (by decide)⟩

/-- The only range is dropped, and the handler is called with success at once. -/
theorem short_span_not_read : ¬FanOutComplete 8 [⟨0, 8, 4⟩] 0 8 2 0 := by
  intro h
  have hmem := h.success [] (nil_subperm) 0 rfl 0 ⟨0, 8, 4⟩ rfl (by decide)
  exact not_mem_nil hmem

end Sirius.Io
