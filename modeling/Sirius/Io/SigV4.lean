import Mathlib.Data.List.DropRight
import Mathlib.Data.List.Nodup
import Mathlib.Data.String.Basic
import Sirius.Lib.ByteMemory
import Sirius.Lib.Fallible

/-!
# Signed requests

`sign_request` (`src/io/s3/sigv4.cpp`) signs its headers under lower-case names, with trimmed values, in
the order of the names. A character stands for a byte, and the library functions are arbitrary ones. As
`std::sort` is not stable, the sort is any that orders the names. Paths are lists of bytes.
-/

namespace Sirius.SigV4

open Lib List

abbrev Header := String × String

structure Library where
  sha256 : String → String
  hmac : String → String → Option String
  /-- The text of `strftime` for a time that `gmtime_r` breaks down. -/
  strftime : String → Int → String
  sort : List Header → List Header
  sort_perm : ∀ headers, (sort headers).Perm headers
  sort_sorted : ∀ headers, (sort headers).Pairwise fun a b => a.1 ≤ b.1

structure SignerConfig where
  accessKey : String
  secretKey : String
  region : String
  service : String := "s3"
  sessionToken : String := ""

/-- The arguments of `sign_request` other than the extra headers. -/
structure Request where
  method : String
  host : String
  canonicalUri : String
  canonicalQuery : String
  payloadSha256Hex : String
  creds : SignerConfig
  timestampUtc : Int

def hexEncode (data : String) : String :=
  .ofList (data.toList.flatMap fun c => [Nat.digitChar (c.toNat / 16), Nat.digitChar (c.toNat % 16)])

def isBlank (c : Char) : Bool := c == ' ' || c == '\t'

def trimHeaderValue (v : String) : String :=
  .ofList ((v.toList.dropWhile isBlank).rdropWhile isBlank)

def toLower (s : String) : String := .ofList (s.toList.map Char.toLower)

/-- An extra header as it is signed. -/
def canonical (header : Header) : Header := (toLower header.1, trimHeaderValue header.2)

section

variable (lib : Library) (req : Request)

def hmacSha256 (key msg : String) : Except Failure String :=
  (lib.hmac key msg).elim (.error (.exception "sigv4: HMAC-SHA256 failed")) .ok

/-- The text and a final NUL have to fit into the array, or it is left indeterminate. -/
def formatTime (size : Nat) (format : String) : Except Failure String :=
  let text := lib.strftime format req.timestampUtc
  if text.length < size then .ok text else .error .undefined

def tokenHeader : List Header :=
  if req.creds.sessionToken = "" then [] else [("x-amz-security-token", req.creds.sessionToken)]

/-- The header set that is signed. -/
def allHeaders (amzDate : String) (extraHeaders : List Header) : List Header :=
  [("host", req.host), ("x-amz-content-sha256", req.payloadSha256Hex), ("x-amz-date", amzDate)] ++
    tokenHeader req ++ extraHeaders.map canonical

/-- The time and the value of the `Authorization` header. -/
def authorize (extraHeaders : List Header) : Except Failure (String × String) := do
  let creds := req.creds
  if creds.accessKey = "" ∨ creds.secretKey = "" ∨ creds.region = "" ∨ creds.service = "" then
    throw (.exception "sigv4: empty credentials/region/service")
  let amzDate ← formatTime lib req 17 "%Y%m%dT%H%M%SZ"
  let dateStamp ← formatTime lib req 9 "%Y%m%d"
  let headers := lib.sort (allHeaders req amzDate extraHeaders)
  let canonicalHeaders := String.join (headers.map fun h => h.1 ++ ":" ++ h.2 ++ "\n")
  let signedHeaders := ";".intercalate (headers.map Prod.fst)
  let canonicalRequest := "\n".intercalate [req.method, req.canonicalUri, req.canonicalQuery,
    canonicalHeaders, signedHeaders, req.payloadSha256Hex]
  let credentialScope := "/".intercalate [dateStamp, creds.region, creds.service, "aws4_request"]
  let stringToSign := "\n".intercalate ["AWS4-HMAC-SHA256", amzDate, credentialScope,
    hexEncode (lib.sha256 canonicalRequest)]
  let kDate ← hmacSha256 lib ("AWS4" ++ creds.secretKey) dateStamp
  let kRegion ← hmacSha256 lib kDate creds.region
  let kService ← hmacSha256 lib kRegion creds.service
  let kSigning ← hmacSha256 lib kService "aws4_request"
  let sig ← hmacSha256 lib kSigning stringToSign
  return (amzDate, "AWS4-HMAC-SHA256 Credential=" ++ creds.accessKey ++ "/" ++ credentialScope ++
    ", SignedHeaders=" ++ signedHeaders ++ ", Signature=" ++ hexEncode sig)

def signRequest (extraHeaders : List Header) : Except Failure (List Header) := do
  let (amzDate, authorization) ← authorize lib req extraHeaders
  return [("Host", req.host), ("x-amz-date", amzDate),
    ("x-amz-content-sha256", req.payloadSha256Hex)] ++ tokenHeader req ++ extraHeaders ++
    [("Authorization", authorization)]

def signedNames (extraHeaders : List Header) : List String :=
  ["host", "x-amz-content-sha256", "x-amz-date"] ++ (tokenHeader req).map Prod.fst ++
    extraHeaders.map fun h => toLower h.1

end

/-- The name in another letter case, the value between further blanks. -/
def Respelled (h h' : Header) : Prop :=
  toLower h'.1 = toLower h.1 ∧
  ∃ front back, (∀ c ∈ front ++ back, isBlank c = true) ∧ h'.2.toList = front ++ h.2.toList ++ back

theorem Respelled.canonical_eq {h h' : Header} (hspelled : Respelled h h') :
    canonical h' = canonical h := by
  obtain ⟨hname, front, back, hblank, hvalue⟩ := hspelled
  have hback : ∀ c ∈ back, isBlank c = true := fun c hc => hblank c (mem_append_right _ hc)
  have htrim : trimHeaderValue h'.2 = trimHeaderValue h.2 := by
    rw [trimHeaderValue, trimHeaderValue, hvalue, append_assoc,
      dropWhile_append_of_pos fun c hc => hblank c (mem_append_left _ hc), dropWhile_append]
    split
    · -- nothing is left of the value
      rename_i hempty
      rw [isEmpty_iff.1 hempty, dropWhile_eq_nil_iff.2 hback]
    · rw [rdropWhile, rdropWhile, reverse_append,
        dropWhile_append_of_pos fun c hc => hback c (mem_reverse.1 hc)]
  rw [canonical, canonical, hname, htrim]

section

variable {lib : Library} {req : Request} {headers headers' : List Header}

/-- Distinct names leave the sort no choice. -/
theorem Library.sort_eq (hnames : (headers.map Prod.fst).Nodup) (hperm : headers'.Perm headers) :
    lib.sort headers' = lib.sort headers := by
  have hsorted : (lib.sort headers').Perm (lib.sort headers) :=
    ((lib.sort_perm _).trans hperm).trans (lib.sort_perm _).symm
  refine hsorted.eq_of_pairwise (fun a b ha hb hab hba => ?_) (lib.sort_sorted _) (lib.sort_sorted _)
  have ha' : a ∈ headers := hperm.mem_iff.1 ((lib.sort_perm _).mem_iff.1 ha)
  exact inj_on_of_nodup_map hnames ha' ((lib.sort_perm _).mem_iff.1 hb) (le_antisymm hab hba)

theorem Library.names_sort (hnames : (headers.map Prod.fst).Nodup) :
    ((lib.sort headers).map Prod.fst).Pairwise (· < ·) := by
  have hnodup := ((lib.sort_perm headers).map Prod.fst).nodup_iff.2 hnames
  have hsorted : ((lib.sort headers).map Prod.fst).Pairwise (· ≤ ·) :=
    pairwise_map.2 (lib.sort_sorted headers)
  exact hsorted.imp₂ (fun _ _ => lt_of_le_of_ne) hnodup

theorem names_allHeaders (amzDate : String) (extra : List Header) :
    (allHeaders req amzDate extra).map Prod.fst = signedNames req extra := by
  simp [allHeaders, signedNames, canonical, Function.comp_def]

theorem map_canonical {extra spelled : List Header} (h : Forall₂ Respelled extra spelled) :
    spelled.map canonical = extra.map canonical := by
  induction h with
  | nil => rfl
  | cons h _ ih => rw [map_cons, map_cons, h.canonical_eq, ih]

end

/-- **The `Authorization` header depends neither on the order nor on the spelling of the extra headers,
and lists each signed name once, in increasing order.** -/
theorem authorization_canonical (lib : Library) (req : Request) {extra spelled extra' : List Header}
    (hnames : (signedNames req extra).Nodup) (hspelled : Forall₂ Respelled extra spelled)
    (hperm : extra'.Perm spelled) :
    (signRequest lib req extra').map getLast? = (signRequest lib req extra).map getLast? ∧
    ∀ response, signRequest lib req extra = .ok response → ∃ names scope signature,
      response.getLast? = some ("Authorization", "AWS4-HMAC-SHA256 Credential=" ++
        req.creds.accessKey ++ "/" ++ scope ++ ", SignedHeaders=" ++ ";".intercalate names ++
        ", Signature=" ++ signature) ∧
      names.Pairwise (· < ·) ∧ names.Perm (signedNames req extra) := by
  have hdistinct (amzDate : String) : ((allHeaders req amzDate extra).map Prod.fst).Nodup := by
    rwa [names_allHeaders]
  have hcanonical : (extra'.map canonical).Perm (extra.map canonical) :=
    map_canonical hspelled ▸ hperm.map canonical
  constructor
  · have hsort (amzDate : String) : lib.sort (allHeaders req amzDate extra') =
        lib.sort (allHeaders req amzDate extra) :=
      lib.sort_eq (hdistinct amzDate) (hcanonical.append_left _)
    have hauthorize : authorize lib req extra' = authorize lib req extra := by
      simp only [authorize, hsort]
    rw [signRequest, signRequest, hauthorize]
    cases authorize lib req extra with
    | error e => rfl
    | ok value => exact congrArg Except.ok ((getLast?_concat ..).trans (getLast?_concat ..).symm)
  · intro response hresponse
    obtain ⟨⟨amzDate, value⟩, hvalue, hresponse⟩ := bind_eq_ok_iff.1 hresponse
    cases hresponse
    rw [authorize] at hvalue
    split at hvalue
    · cases hvalue
    obtain ⟨_, -, hvalue⟩ := bind_eq_ok_iff.1 hvalue
    simp only [bind_eq_ok_iff] at hvalue
    obtain ⟨dateStamp, -, _, -, _, -, _, -, _, -, sig, -, hvalue⟩ := hvalue
    cases hvalue
    refine ⟨_, _, _, getLast?_concat .., lib.names_sort (hdistinct amzDate), ?_⟩
    rw [← names_allHeaders amzDate]
    exact (lib.sort_perm _).map _

def plainLibrary : Library where
  sha256 _ := ""
  hmac _ _ := some ""
  strftime format _ := format
  sort headers := headers.mergeSort fun a b => a.1 ≤ b.1
  sort_perm headers := mergeSort_perm headers _
  sort_sorted headers :=
    (pairwise_mergeSort (fun a b c => by simpa using le_trans)
      (fun a b => by simpa using le_total a.1 b.1) headers).imp of_decide_eq_true

def rangeRequest : Request where
  method := "GET"
  host := "minio.local:9000"
  canonicalUri := "/bucket/key"
  canonicalQuery := ""
  payloadSha256Hex := "UNSIGNED-PAYLOAD"
  creds := { accessKey := "access", secretKey := "secret", region := "us-west-2" }
  timestampUtc := 0

abbrev rangeHeader : List Header := [("Range", "bytes=0-3")]

abbrev respelledHeader : List Header := [("RANGE", " bytes=0-3")]

/-- The range of a read is respelled. The request is signed, with the four names in their order. -/
theorem authorization_canonical_range :
    (signedNames rangeRequest rangeHeader).Nodup ∧
    Forall₂ Respelled rangeHeader respelledHeader ∧
    (signRequest plainLibrary rangeRequest respelledHeader).map getLast? =
      (signRequest plainLibrary rangeRequest rangeHeader).map getLast? ∧
    ∃ response names scope signature,
      signRequest plainLibrary rangeRequest rangeHeader = .ok response ∧
      response.getLast? = some ("Authorization", "AWS4-HMAC-SHA256 Credential=" ++ "access" ++ "/" ++ scope ++
        ", SignedHeaders=" ++ ";".intercalate names ++ ", Signature=" ++ signature) ∧
      names.Pairwise (· < ·) ∧ names.Perm ["host", "x-amz-content-sha256", "x-amz-date", "range"] := by
  have hnames : (signedNames rangeRequest rangeHeader).Nodup := by decide
  have hspelled : Forall₂ Respelled rangeHeader respelledHeader :=
    .cons ⟨by decide, [' '], [], by simp [isBlank], by decide⟩ .nil
  obtain ⟨hsame, hsigned⟩ :=
    authorization_canonical plainLibrary rangeRequest hnames hspelled (.refl _)
  have hok : signRequest plainLibrary rangeRequest rangeHeader = .ok _ := rfl
  obtain ⟨names, scope, signature, hlast, hsorted, hperm⟩ := hsigned _ hok
  exact ⟨hnames, hspelled, hsame, _, names, scope, signature, hok, hlast, hsorted, hperm⟩

/-! ## The path of an object -/

def byte (c : Char) : Byte := .ofNat 8 c.toNat

def unreserved (c : Byte) : Bool :=
  byte 'A' ≤ c && c ≤ byte 'Z' || byte 'a' ≤ c && c ≤ byte 'z' || byte '0' ≤ c && c ≤ byte '9' ||
    c == byte '-' || c == byte '_' || c == byte '.' || c == byte '~'

def kHexUpper (n : Byte) : Byte := if n < 10 then byte '0' + n else byte 'A' + (n - 10)

def uriEncode (encodeSlash : Bool) (s : List Byte) : List Byte :=
  s.flatMap fun c =>
    if unreserved c || c == byte '/' && !encodeSlash then [c]
    else [byte '%', kHexUpper (c >>> 4 &&& 0xF), kHexUpper (c &&& 0xF)]

def makeCanonicalUri (bucket key : List Byte) : Except Failure (List Byte) :=
  if bucket = [] then .error (.exception "sirius_sigv4_authorizer: empty bucket")
  else if key = [] then .error (.exception "sirius_sigv4_authorizer: empty key")
  else .ok (byte '/' :: uriEncode true bucket ++ byte '/' :: uriEncode false key)

def hexValue (c : Byte) : Option Byte :=
  if byte '0' ≤ c ∧ c ≤ byte '9' then some (c - byte '0')
  else if byte 'a' ≤ c ∧ c ≤ byte 'f' then some (10 + (c - byte 'a'))
  else if byte 'A' ≤ c ∧ c ≤ byte 'F' then some (10 + (c - byte 'A'))
  else none

def fail {α : Type} (reason uri : String) : Except Failure α :=
  .error (.exception ("uri_parser: " ++ reason ++ " (uri=" ++ uri ++ ")"))

/-- `percent_decode` (`src/io/uri_parser.cpp`). -/
def percentDecode (uri : String) : List Byte → Except Failure (List Byte)
  | [] => .ok []
  | c :: rest =>
    if c ≠ byte '%' then (c :: ·) <$> percentDecode uri rest
    else match rest with
      | hi :: lo :: rest =>
        match hexValue hi, hexValue lo with
        | some hi, some lo => ((hi <<< 4 ||| lo) :: ·) <$> percentDecode uri rest
        | _, _ => fail "malformed percent-encoding" uri
      | _ => fail "truncated percent-encoding" uri

theorem hexValue_kHexUpper : ∀ c : Byte,
    hexValue (kHexUpper (c >>> 4 &&& 0xF)) = some (c >>> 4) ∧
      hexValue (kHexUpper (c &&& 0xF)) = some (c &&& 0xF) ∧ (c >>> 4) <<< 4 ||| c &&& 0xF = c := by
  decide +kernel

/-- Every text that `uri_encode` writes is read back by `percent_decode`. -/
theorem percentDecode_uriEncode (uri : String) (encodeSlash : Bool) (s : List Byte) :
    percentDecode uri (uriEncode encodeSlash s) = .ok s := by
  induction s with
  | nil => rfl
  | cons c s ih =>
    rw [uriEncode, flatMap_cons, ← uriEncode]
    split
    next hplain =>
      have hne : c ≠ byte '%' := by
        rintro rfl
        cases encodeSlash <;> exact absurd hplain (by decide)
      rw [singleton_append, percentDecode.eq_def]
      simp only [ne_eq, hne, not_false_eq_true, if_true, ih]
      rfl
    next =>
      obtain ⟨hhi, hlo, hc⟩ := hexValue_kHexUpper c
      rw [percentDecode.eq_def]
      simp only [cons_append, ne_eq, not_true_eq_false, if_false, hhi, hlo, hc, nil_append, ih]
      rfl

/-- **A signed path names its object.** Its two parts decode to the bucket and the key. -/
theorem object_of_makeCanonicalUri {bucket key path : List Byte} (uri : String)
    (h : makeCanonicalUri bucket key = .ok path) :
    percentDecode uri (path.tail.takeWhile (· != byte '/')) = .ok bucket ∧
      percentDecode uri (path.tail.dropWhile (· != byte '/')).tail = .ok key := by
  have hbyte : ∀ c : Byte, (uriEncode true [c]).all (· != byte '/') = true := by decide +kernel
  have hbucket : ∀ x ∈ uriEncode true bucket, (x != byte '/') = true := by
    intro x hx
    obtain ⟨c, -, hc⟩ := mem_flatMap.1 hx
    exact all_eq_true.1 (hbyte c) x (mem_flatMap.2 ⟨c, mem_singleton_self c, hc⟩)
  unfold makeCanonicalUri at h
  split at h
  · cases h
  · split at h <;> cases h
    rw [cons_append, tail_cons, takeWhile_append_of_pos hbucket, dropWhile_append_of_pos hbucket]
    simp [percentDecode_uriEncode]

theorem object_of_makeCanonicalUri_slash :
    ∃ path, makeCanonicalUri [byte '/'] [byte '?'] = .ok path ∧
      percentDecode "" (path.tail.takeWhile (· != byte '/')) = .ok [byte '/'] :=
  have h : makeCanonicalUri [byte '/'] [byte '?'] = .ok _ := rfl
  ⟨_, h, (object_of_makeCanonicalUri "" h).1⟩

end Sirius.SigV4
