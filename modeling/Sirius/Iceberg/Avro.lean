import Sirius.Lib.ByteMemory
import Sirius.Lib.Fallible

/-!
# Skipping Avro values

The manifest reader (`src/op/scan/iceberg_avro_reader.cpp`) finds its fields by skipping those in front
of them. `skipAvroValue` follows the schema through the bytes. `Encodes` says, from the Avro
specification, which bytes are a value of a type: numbers are zigzag varints, arrays and maps come in
blocks, and a block may state its size in bytes after a negative count. Skipping ends exactly behind such
bytes (`skip_consumes_one_value`).

The pointer into the buffer is the list of the bytes from there to the end.
-/

namespace Sirius.Iceberg.Avro

open Lib List

abbrev Bytes := List Byte

/-- A function that moves the pointer. -/
abbrev Skip := Bytes → Except Failure Bytes

/-! ## Numbers -/

/-- The loop of `read_vlong`. A shift of a 64-bit number by 64 or more is undefined. -/
def readVlongLoop : Bytes → Nat → Nat → Except Failure (Nat × Bytes)
  | [], _, _ => .error (.exception "avro: truncated variable-length integer")
  | b :: p, n, shift =>
    if 64 ≤ shift then .error .undefined
    else if 0x80 ≤ b.toNat then
      readVlongLoop p (n ||| (b.toNat % 0x80) <<< shift % 2 ^ 64) (shift + 7)
    else .ok (n ||| b.toNat <<< shift % 2 ^ 64, p)

/-- `int64_t((n >> 1) ^ -(n & 1))`. -/
def unzigzag (n : BitVec 64) : Int := ((n >>> 1) ^^^ -(n &&& 1)).toInt

def readVlong (p : Bytes) : Except Failure (Int × Bytes) := do
  let (n, p) ← readVlongLoop p 0 0
  return (unzigzag (.ofNat 64 n), p)

/-- The conversion to `int32_t` wraps. -/
def readVint (p : Bytes) : Except Failure (Int × Bytes) := do
  let (n, p) ← readVlong p
  return (n.bmod (2 ^ 32), p)

/-! ## Skipping -/

/-- `AvroType`, without the names of the fields. -/
inductive AvroType where
  | null | boolean | int | long | float | double | bytes | string
  | union (branches : List AvroType)
  | array (item : AvroType)
  | map (item : AvroType)
  | record (fields : List AvroType)

def skipFixed (size : Nat) (message : String) (p : Bytes) : Except Failure Bytes :=
  if p.length < size then .error (.exception message) else .ok (p.drop size)

/-- A length is read, checked against what is left, and skipped. -/
def skipSized (message : String) (p : Bytes) : Except Failure Bytes := do
  let (len, p) ← readVlong p
  if len < 0 ∨ (p.length : Int) < len then .error (.exception message)
  else return p.drop len.toNat

def skipBytesVal : Skip :=
  skipSized "avro: invalid bytes/string length during skip"

section

variable (item : Skip)

def skipItems : Nat → Skip
  | 0, p => .ok p
  | count + 1, p => item p >>= skipItems count

/-- The loop over the blocks of an array or a map. Every round reads at least the byte of a count, so
there are never more rounds than bytes. -/
def skipBlocks (message : String) : Nat → Skip
  | 0, _ => .error .undefined
  | rounds + 1, p => do
    let (count, p) ← readVlong p
    if count = 0 then return p
    else if count < 0 then skipSized message p >>= skipBlocks message rounds
    else skipItems item count.toNat p >>= skipBlocks message rounds

end

mutual

def skipAvroValue : AvroType → Skip
  | .null, p => .ok p
  | .boolean, p => skipFixed 1 "avro: truncated boolean" p
  | .int, p => do return (← readVint p).2
  | .long, p => do return (← readVlong p).2
  | .float, p => skipFixed 4 "avro: truncated float" p
  | .double, p => skipFixed 8 "avro: truncated double" p
  | .bytes, p | .string, p => skipBytesVal p
  | .union branches, p => do
    let (idx, p) ← readVint p
    if idx < 0 ∨ branches.length ≤ idx.toNat then
      .error (.exception "avro: union index out of range")
    else skipBranch branches idx.toNat p
  | .record fields, p => skipFields fields p
  | .array item, p =>
    skipBlocks (skipAvroValue item) "avro: invalid array block byte count" (p.length + 1) p
  | .map item, p =>
    skipBlocks (fun p => skipBytesVal p >>= skipAvroValue item)
      "avro: invalid map block byte count" (p.length + 1) p

def skipBranch : List AvroType → Nat → Skip
  | [], _, _ => .error .undefined
  | t :: _, 0, p => skipAvroValue t p
  | _ :: ts, i + 1, p => skipBranch ts i p

def skipFields : List AvroType → Skip
  | [], p => .ok p
  | t :: ts, p => skipAvroValue t p >>= skipFields ts

end

/-! ## Encodings -/

/-- The bytes are a base-128 number, lowest digits first, all but the last byte marked. -/
inductive IsVarint : Nat → Bytes → Prop
  | last (b : Byte) (h : b.toNat < 128) : IsVarint b.toNat [b]
  | more (b : Byte) (h : 128 ≤ b.toNat) {n : Nat} {bs : Bytes} (hbs : IsVarint n bs) :
      IsVarint (b.toNat % 128 + 128 * n) (b :: bs)

/-- Numbers of small absolute value are small. -/
def zigzag (n : Int) : Nat := if 0 ≤ n then 2 * n.toNat else 2 * (-n).toNat - 1

/-- A 64-bit number is encoded in at most ten bytes. -/
structure EncodesLong (n : Int) (bs : Bytes) : Prop where
  lower : -2 ^ 63 ≤ n
  upper : n < 2 ^ 63
  varint : IsVarint (zigzag n) bs
  length : bs.length ≤ 10

def Seq (P Q : Bytes → Prop) (bs : Bytes) : Prop := ∃ ps qs, P ps ∧ Q qs ∧ bs = ps ++ qs

def EncodesBytes (bs : Bytes) : Prop := ∃ ns data, EncodesLong data.length ns ∧ bs = ns ++ data

section

variable (Item : Bytes → Prop)

def EncodesItems : Nat → Bytes → Prop
  | 0 => (· = [])
  | n + 1 => Seq Item (EncodesItems n)

inductive EncodesBlocks : Bytes → Prop
  | nil {ns : Bytes} (h : EncodesLong 0 ns) : EncodesBlocks ns
  | counted {n : Nat} {ns is bs : Bytes} (hn : 0 < n) (h : EncodesLong n ns)
      (hitems : EncodesItems Item n is) (hbs : EncodesBlocks bs) : EncodesBlocks (ns ++ (is ++ bs))
  | sized {n : Nat} {ns ss is bs : Bytes} (hn : 0 < n) (h : EncodesLong (-n) ns)
      (hsize : EncodesLong is.length ss) (hitems : EncodesItems Item n is) (hbs : EncodesBlocks bs) :
      EncodesBlocks (ns ++ (ss ++ (is ++ bs)))

end

mutual

def Encodes : AvroType → Bytes → Prop
  | .null => (· = [])
  | .boolean => fun bs => bs = [0] ∨ bs = [1]
  | .int => fun bs => ∃ n, -2 ^ 31 ≤ n ∧ n < 2 ^ 31 ∧ EncodesLong n bs
  | .long => fun bs => ∃ n, EncodesLong n bs
  | .float => (·.length = 4)
  | .double => (·.length = 8)
  | .bytes | .string => EncodesBytes
  | .union branches => fun bs => ∃ i : Nat, i < 2 ^ 31 ∧
      Seq (EncodesLong i) (EncodesBranch branches i) bs
  | .record fields => EncodesFields fields
  | .array item => EncodesBlocks (Encodes item)
  | .map item => EncodesBlocks (Seq EncodesBytes (Encodes item))

def EncodesBranch : List AvroType → Nat → Bytes → Prop
  | [], _ => fun _ => False
  | t :: _, 0 => Encodes t
  | _ :: ts, i + 1 => EncodesBranch ts i

def EncodesFields : List AvroType → Bytes → Prop
  | [] => (· = [])
  | t :: ts => Seq (Encodes t) (EncodesFields ts)

end

/-! ## Skipping ends behind the value -/

variable {n : Int} {bs ns rest : Bytes}

theorem IsVarint.length_pos {u : Nat} (h : IsVarint u bs) : 0 < bs.length := by
  cases h <;> simp

/-- A digit that fits goes to bits that are still free. -/
theorem or_digit {acc shift d : Nat} (hacc : acc < 2 ^ shift) (hd : acc + d * 2 ^ shift < 2 ^ 64) :
    acc ||| d <<< shift % 2 ^ 64 = acc + d * 2 ^ shift := by
  rw [Nat.shiftLeft_eq, Nat.mod_eq_of_lt (by omega), Nat.or_comm, Nat.mul_comm d,
    ← Nat.two_pow_add_eq_or_of_lt hacc, Nat.add_comm]

theorem readVlongLoop_varint {u : Nat} (h : IsVarint u bs) {acc shift : Nat} (hacc : acc < 2 ^ shift)
    (hfits : acc + u * 2 ^ shift < 2 ^ 64) (hshift : shift + 7 * bs.length ≤ 70) (rest : Bytes) :
    readVlongLoop (bs ++ rest) acc shift = .ok (acc + u * 2 ^ shift, rest) := by
  induction h generalizing acc shift with
  | last b hb =>
    rw [length_singleton] at hshift
    rw [singleton_append, readVlongLoop, if_neg (by omega), if_neg (by omega), or_digit hacc hfits]
  | @more b hb u bs hbs ih =>
    have hlen := hbs.length_pos
    rw [length_cons] at hshift
    have hpow : 2 ^ (shift + 7) = 128 * 2 ^ shift := by rw [Nat.pow_add, Nat.mul_comm]
    have hsum : acc + (b.toNat % 128 + 128 * u) * 2 ^ shift =
        acc + b.toNat % 128 * 2 ^ shift + u * 2 ^ (shift + 7) := by
      rw [hpow, Nat.add_mul, Nat.mul_right_comm, Nat.mul_comm _ u, Nat.add_assoc]
    have hlow : b.toNat % 128 * 2 ^ shift ≤ 127 * 2 ^ shift := Nat.mul_le_mul_right _ (by omega)
    rw [hsum] at hfits ⊢
    rw [cons_append, readVlongLoop, if_neg (by omega), if_pos hb, or_digit hacc (by omega)]
    exact ih (by omega) hfits (by omega)

theorem unzigzag_ofNat {u : Nat} (hu : u < 2 ^ 64) :
    unzigzag (.ofNat 64 u) = if u % 2 = 0 then (u / 2 : Int) else -(u / 2) - 1 := by
  have hbit : BitVec.ofNat 64 u &&& 1 = BitVec.ofNat 64 (u % 2) := by
    apply BitVec.eq_of_toNat_eq
    simp [Nat.and_one_is_mod]
    omega
  have hhalf : BitVec.ofNat 64 u >>> 1 = BitVec.ofNat 64 (u / 2) := by
    apply BitVec.eq_of_toNat_eq
    simp [Nat.shiftRight_eq_div_pow]
    omega
  rw [unzigzag, hbit, hhalf]
  rcases Nat.mod_two_eq_zero_or_one u with h | h
  · rw [h, if_pos rfl, BitVec.toInt_eq_toNat_of_lt] <;> simp <;> omega
  · have hones : -BitVec.ofNat 64 1 = BitVec.allOnes 64 := rfl
    rw [h, if_neg (by decide), hones, BitVec.xor_allOnes, BitVec.toInt_not, BitVec.toNat_ofNat,
      Int.bmod]
    split <;> omega

theorem readVlong_encoding (h : EncodesLong n bs) (rest : Bytes) :
    readVlong (bs ++ rest) = .ok (n, rest) := by
  obtain ⟨hlo, hhi, hvarint, hlength⟩ := h
  have hz : zigzag n < 2 ^ 64 ∧ unzigzag (.ofNat 64 (zigzag n)) = n := by
    have hfits : zigzag n < 2 ^ 64 := by
      unfold zigzag
      split <;> omega
    refine ⟨hfits, ?_⟩
    rw [unzigzag_ofNat hfits]
    unfold zigzag
    split <;> split <;> omega
  rw [readVlong, readVlongLoop_varint hvarint (by simp) (by simpa using hz.1) (by omega), Nat.pow_zero,
    Nat.mul_one, Nat.zero_add]
  exact congrArg (fun n => Except.ok (n, rest)) hz.2

theorem readVint_encoding (h : EncodesLong n bs) (rest : Bytes) :
    readVint (bs ++ rest) = .ok (n.bmod (2 ^ 32), rest) := by
  rw [readVint, readVlong_encoding h]
  rfl

def SkipsExactly (skip : Skip) (P : Bytes → Prop) : Prop :=
  ∀ bs rest, P bs → skip (bs ++ rest) = .ok rest

theorem SkipsExactly.seq {skip skip' : Skip} {P Q : Bytes → Prop} (h : SkipsExactly skip P)
    (h' : SkipsExactly skip' Q) : SkipsExactly (fun p => skip p >>= skip') (Seq P Q) := by
  rintro _ rest ⟨ps, qs, hp, hq, rfl⟩
  show skip (ps ++ qs ++ rest) >>= skip' = _
  rw [append_assoc, h ps _ hp]
  exact h' qs rest hq

theorem skipSized_encoding {data : Bytes} (h : EncodesLong data.length bs) (message : String)
    (rest : Bytes) : skipSized message (bs ++ (data ++ rest)) = .ok rest := by
  rw [skipSized, readVlong_encoding h]
  show (if _ then _ else _) = _
  rw [if_neg (by simp), Int.toNat_natCast, drop_left]
  rfl

theorem skipBytesVal_exact : SkipsExactly skipBytesVal EncodesBytes := by
  rintro _ rest ⟨ns, data, hlen, rfl⟩
  rw [append_assoc]
  exact skipSized_encoding hlen _ rest

section

variable {item : Skip} {Item : Bytes → Prop} (hitem : SkipsExactly item Item)

include hitem

theorem skipItems_exact (n : Nat) : SkipsExactly (skipItems item n) (EncodesItems Item n) := by
  induction n with
  | zero =>
    rintro _ rest rfl
    rfl
  | succ n ih => exact hitem.seq ih

theorem skipBlocks_exact (h : EncodesBlocks Item bs) (message : String) {rounds : Nat}
    (hrounds : bs.length ≤ rounds) (rest : Bytes) :
    skipBlocks item message rounds (bs ++ rest) = .ok rest := by
  induction h generalizing rounds with
  | nil h =>
    obtain ⟨rounds, rfl⟩ := Nat.exists_eq_succ_of_ne_zero (h.varint.length_pos.trans_le hrounds).ne'
    rw [skipBlocks, readVlong_encoding h]
    rfl
  | @counted n ns is bs hn h hitems _ ih =>
    have hpos := h.varint.length_pos
    simp only [length_append] at hrounds
    obtain ⟨rounds, rfl⟩ := Nat.exists_eq_succ_of_ne_zero (show rounds ≠ 0 by omega)
    rw [skipBlocks, append_assoc, readVlong_encoding h]
    show (if _ then _ else if _ then _ else _) = _
    rw [if_neg (by omega), if_neg (by omega), Int.toNat_natCast, append_assoc,
      skipItems_exact hitem n is _ hitems]
    exact ih (by omega)
  | @sized n ns ss is bs hn h hsize _ _ ih =>
    have hpos := h.varint.length_pos
    simp only [length_append] at hrounds
    obtain ⟨rounds, rfl⟩ := Nat.exists_eq_succ_of_ne_zero (show rounds ≠ 0 by omega)
    rw [skipBlocks, append_assoc, readVlong_encoding h]
    show (if _ then _ else if _ then _ else _) = _
    rw [if_neg (by omega), if_pos (by omega), append_assoc, append_assoc, skipSized_encoding hsize]
    exact ih (by omega)

end

mutual

theorem skipAvroValue_exact : ∀ t, SkipsExactly (skipAvroValue t) (Encodes t)
  | .null => by
    rintro _ rest rfl
    rfl
  | .boolean => by rintro _ rest (rfl | rfl) <;> rfl
  | .int => by
    rintro bs rest ⟨n, -, -, h⟩
    rw [skipAvroValue, readVint_encoding h]
    rfl
  | .long => by
    rintro bs rest ⟨n, h⟩
    rw [skipAvroValue, readVlong_encoding h]
    rfl
  | .float | .double => by
    intro bs rest h
    replace h : bs.length = _ := h
    rw [skipAvroValue, skipFixed, if_neg (by simp [h]), ← h, drop_left]
  | .bytes | .string => skipBytesVal_exact
  | .union branches => by
    rintro _ rest ⟨i, hi, ns, vs, hns, hvs, rfl⟩
    obtain ⟨hlt, hbranch⟩ := skipBranch_exact branches i vs rest hvs
    have hread := readVint_encoding hns (vs ++ rest)
    rw [Int.bmod_eq_of_le (by omega) (by omega)] at hread
    rw [skipAvroValue, append_assoc, hread]
    show (if _ then _ else _) = _
    rw [if_neg (by simp; omega), Int.toNat_natCast, hbranch]
  | .record fields => skipFields_exact fields
  | .array item => fun bs rest h =>
    skipBlocks_exact (skipAvroValue_exact item) h _ (by simp; omega) rest
  | .map item => fun bs rest h =>
    skipBlocks_exact (skipBytesVal_exact.seq (skipAvroValue_exact item)) h _ (by simp; omega) rest

theorem skipBranch_exact : ∀ ts i bs rest, EncodesBranch ts i bs →
    i < ts.length ∧ skipBranch ts i (bs ++ rest) = .ok rest
  | [], _, _, _, h => h.elim
  | t :: _, 0, bs, rest, h => ⟨Nat.succ_pos _, skipAvroValue_exact t bs rest h⟩
  | _ :: ts, i + 1, bs, rest, h => by
    obtain ⟨hlt, hskip⟩ := skipBranch_exact ts i bs rest h
    exact ⟨Nat.succ_lt_succ hlt, hskip⟩

theorem skipFields_exact : ∀ ts, SkipsExactly (skipFields ts) (EncodesFields ts)
  | [] => by
    rintro _ rest rfl
    rfl
  | t :: ts => (skipAvroValue_exact t).seq (skipFields_exact ts)

end

/-- **Skipping consumes exactly one value**, and a number is read back from any of its encodings. -/
theorem skip_consumes_one_value :
    (∀ t bs rest, Encodes t bs → skipAvroValue t (bs ++ rest) = .ok rest) ∧
    ∀ n bs rest, EncodesLong n bs → readVlong (bs ++ rest) = .ok (n, rest) :=
  ⟨skipAvroValue_exact, fun _ _ rest h => readVlong_encoding h rest⟩

/-- An array of one `long` in a block of two bytes, and the number 64, with a byte left over. -/
theorem skip_consumes_array :
    skipAvroValue (.array .long) [0x01, 0x04, 0x80, 0x01, 0x00, 0x07] = .ok [0x07] ∧
      readVlong [0x80, 0x01, 0x07] = .ok (64, [0x07]) := by
  have hlong : EncodesLong 64 [0x80, 0x01] :=
    ⟨by decide, by decide, .more 0x80 (by decide) (.last 0x01 (by decide)), by decide⟩
  have harray : Encodes (.array .long) ([0x01] ++ ([0x04] ++ ([0x80, 0x01] ++ [0x00]))) :=
    .sized Nat.one_pos ⟨by decide, by decide, .last 0x01 (by decide), by decide⟩
      ⟨by decide, by decide, .last 0x04 (by decide), by decide⟩ ⟨_, [], ⟨64, hlong⟩, rfl, rfl⟩
      (.nil ⟨by decide, by decide, .last 0x00 (by decide), by decide⟩)
  exact ⟨skip_consumes_one_value.1 _ _ [0x07] harray, skip_consumes_one_value.2 _ _ [0x07] hlong⟩

end Sirius.Iceberg.Avro
