import Mathlib.Data.List.Infix
import SpineFormal.Base.IsoFormat
import SpineFormal.Base.UrlSafe
import SpineFormal.Json.Loads

/-!
# Phase-gate approval tokens

`orchestrator/lib/approval.py`: a token is a JSON payload in URL-safe base64 and,
after a dot, the HMAC of that text. What is signed is the payload's text, not
its meaning; the signature's own text is only decoded, and leniently.
-/

namespace SpineFormal.Orchestrator.ApprovalToken

open Json Numerals
set_option autoImplicit false

/-! ## The key -/

/-- What comes of `get_secret`. -/
inductive SecretLookup where
  | found (value : List Char)
  | notFound
  | accessDenied
  | backendError
  | noAdapter

def hexSpace (c : Char) : Bool := decide (c.toNat = 32 ∨ (9 ≤ c.toNat ∧ c.toNat ≤ 13))

/-- `bytes.fromhex`; `none` is `ValueError`. -/
def fromHex : List Char → Option Bytes
  | [] => some []
  | [c] => if hexSpace c then some [] else none
  | c :: d :: s =>
    if hexSpace c then fromHex (d :: s)
    else do
      let high ← hexVal c
      let low ← hexVal d
      let rest ← fromHex s
      return UInt8.ofNat (high * 16 + low) :: rest

/-- `_load_key`, or the code of its error. -/
def loadKey : SecretLookup → Except String Bytes
  | .found value =>
    match fromHex (trimBy pySpace value) with
    | some key => .ok key
    | none => .error "key_malformed"
  | .notFound => .error "key_missing"
  | .accessDenied => .error "key_access_denied"
  | .backendError => .error "key_backend_error"
  | .noAdapter => .error "key_no_adapter"

/-! ## Signing -/

/-- `_b64url`. -/
def b64url (raw : Bytes) : List Char := (Base64.urlsafeEncode raw).rdropWhile (· == '=')

/-- `_b64url_decode`; `none` is an error of any kind. -/
def b64urlDecode (s : List Char) : Option Bytes :=
  Base64.urlsafeDecode (s ++ List.replicate ((4 - s.length % 4) % 4) '=')

/-- `replace(microsecond=0)`. -/
def wholeSecond (clock : Wall) : Wall :=
  ⟨clock.micros / 1000000 * 1000000, Nat.lt_of_le_of_lt (Nat.div_mul_le_self _ _) clock.micros_lt⟩

/-- `now + timedelta(hours=hours)`; `none` is `OverflowError`. -/
def plusHours (now : Wall) (hours : Int) : Option Wall :=
  let micros := now.micros + hours * 3600000000
  if h : 0 ≤ micros ∧ micros.toNat < maxWall then some ⟨micros.toNat, h.2⟩ else none

/-- `isoformat().replace("+00:00", "Z")` of a reading of the UTC clock. -/
def zulu (w : Wall) : List Char := replaceText "+00:00".toList "Z".toList w.isoformatUtc

def payloadFields : List String := ["project_id", "phase", "approver", "issued_at", "expires_at"]

def signedPayload (projectId phase approver : String) (now expires : Wall) : Members :=
  [("project_id", .str projectId), ("phase", .str phase), ("approver", .str approver),
    ("issued_at", .str (String.ofList (zulu now))),
    ("expires_at", .str (String.ofList (zulu expires)))]

/-- The payload's text and, after a dot, its signature. -/
def tokenOf (key : Bytes) (payload : Members) : List Char :=
  let payloadB64 := b64url (encodeUtf8 (dumps (.obj payload)))
  payloadB64 ++ '.' :: b64url (hmacSha256 key (encodeUtf8 payloadB64))

inductive SignError where
  | approvalError (code : String)
  | overflowError

def signToken (secret : SecretLookup) (clock : Wall) (projectId phase approver : String)
    (ttlHours : Int) : Except SignError (List Char × Members) :=
  match loadKey secret with
  | .error code => .error (.approvalError code)
  | .ok key =>
    match plusHours (wholeSecond clock) ttlHours with
    | none => .error .overflowError
    | some expires =>
      let payload := signedPayload projectId phase approver (wholeSecond clock) expires
      .ok (tokenOf key payload, payload)

/-! ## `str` of what a payload holds -/

section
-- `str.isprintable` of one character beyond ASCII: Python's table
variable (isPrintable : Char → Bool)

def reprChar (quote c : Char) : List Char :=
  if c = quote ∨ c = '\\' then ['\\', c]
  else if c = '\t' then ['\\', 't']
  else if c = '\n' then ['\\', 'n']
  else if c = '\r' then ['\\', 'r']
  else if c.toNat < 32 ∨ c.toNat = 127 then '\\' :: 'x' :: fixed 16 2 c.toNat
  else if c.toNat < 127 ∨ isPrintable c then [c]
  else if c.toNat < 0x100 then '\\' :: 'x' :: fixed 16 2 c.toNat
  else if c.toNat < 0x10000 then '\\' :: 'u' :: fixed 16 4 c.toNat
  else '\\' :: 'U' :: fixed 16 8 c.toNat

def reprStr (s : String) : List Char :=
  let quote := if '\'' ∈ s.toList ∧ '"' ∉ s.toList then '"' else '\''
  quote :: (s.toList.flatMap (reprChar isPrintable quote) ++ [quote])

def reprFloat : PyFloat → List Char
  | .nan => "nan".toList
  | .inf neg => signText neg ++ "inf".toList
  | x => x.floatstr

/-- The items of a container, set apart by a comma and a blank. -/
def commaSep (items : List (List Char)) : List Char := ", ".toList.intercalate items

mutual
def repr : Value → List Char
  | .null => "None".toList
  | .bool b => if b then "True".toList else "False".toList
  | .int n => decimal n
  | .float x => reprFloat x
  | .str s => reprStr isPrintable s
  | .arr xs => '[' :: (commaSep (reprElems xs) ++ [']'])
  | .obj ms => '{' :: (commaSep (reprMembers ms) ++ ['}'])
def reprElems : List Value → List (List Char)
  | [] => []
  | v :: vs => repr v :: reprElems vs
def reprMembers : Members → List (List Char)
  | [] => []
  | (k, v) :: ms => (reprStr isPrintable k ++ ": ".toList ++ repr v) :: reprMembers ms
end

def pyStr : Value → List Char
  | .str s => s.toList
  | v => repr isPrintable v

end

/-! ## Verifying -/

structure Verdict where
  valid : Bool
  payload : Value
  errors : List String

def refused (errors : List String) : Verdict := ⟨false, .obj [], errors⟩

/-- What `verify_token` may raise on a payload that is no object. -/
inductive Raised where
  | typeError
  | attributeError

/-- `token.rsplit(".", 1)`. -/
def rsplitDot (token : List Char) : List Char × List Char :=
  let r := token.reverse
  ((r.dropWhile (· != '.')).tail.reverse, (r.takeWhile (· != '.')).reverse)

/-- `field in payload`. -/
def hasField (payload : Value) (field : String) : Except Raised Bool :=
  match payload with
  | .obj ms => .ok (lookup ms field).isSome
  | .arr xs => .ok (xs.any fun v => match v with
    | .str s => s == field
    | _ => false)
  | .str s => .ok (decide (field.toList <:+: s.toList))
  | _ => .error .typeError

/-- `payload.get(field)`. -/
def getField (payload : Value) (field : String) : Except Raised Value :=
  match payload with
  | .obj ms => .ok (nullable (lookup ms field))
  | _ => .error .attributeError

/-- `datetime.fromisoformat(payload["expires_at"].replace("Z", "+00:00"))`. -/
def expiresAt (payload : Value) : Option DateTime :=
  match payload with
  | .obj ms =>
    match lookup ms "expires_at" with
    | some (.str s) => fromisoformat (replaceText "Z".toList "+00:00".toList s.toList)
    | _ => none
  | _ => none

/-- An expiry without a timezone cannot be compared with the present. -/
def expiryErrors (payload : Value) (now : Wall) : List String :=
  match expiresAt payload with
  | some (.aware a) => if a.utc ≤ now.micros then ["expired"] else []
  | _ => ["bad_expires_at"]

/-- The signature's errors; `none` where comparing it fails. -/
def signatureErrors (key : Bytes) (payloadB64 sigB64 : List Char) : Option (List String) := do
  let text ← encodeAscii payloadB64
  let sig ← b64urlDecode sigB64
  return if hmacSha256 key text = sig then [] else ["signature_mismatch"]

def readPayload (payloadB64 : List Char) : Option Value :=
  (b64urlDecode payloadB64).bind fun bs => (decodeUtf8 bs).bind loadsText

def missingErrors (payload : Value) : Except Raised (List String) :=
  payloadFields.foldlM (fun errors field => do
    let there ← hasField payload field
    return if there then errors else errors ++ ["missing_field:" ++ field]) []

section
variable (isPrintable : Char → Bool)

def projectErrors (payload : Value) (expected : Option String) : Except Raised (List String) :=
  match expected with
  | none => .ok []
  | some projectId => do
    let v ← getField payload "project_id"
    return if pyStr isPrintable v = projectId.toList then [] else ["project_id_mismatch"]

def phaseErrors (payload : Value) (expected : Option String) : Except Raised (List String) :=
  match expected with
  | none => .ok []
  | some phase => do
    let v ← getField payload "phase"
    return match v with
      | .str s => if s = phase then [] else ["phase_mismatch"]
      | _ => ["phase_mismatch"]

/-- The checks on a payload that could be read. -/
def payloadErrors (payload : Value) (now : Wall) (expectedProjectId expectedPhase : Option String) :
    Except Raised (List String) := do
  let missing ← missingErrors payload
  let dated ← hasField payload "expires_at"
  let project ← projectErrors isPrintable payload expectedProjectId
  let phase ← phaseErrors payload expectedPhase
  return missing ++ (if dated then expiryErrors payload now else []) ++ project ++ phase

/-- `verify_token` once the key is there. -/
def verifyWith (key : Bytes) (payloadB64 sigB64 : List Char) (now : Wall)
    (expectedProjectId expectedPhase : Option String) : Except Raised Verdict :=
  match signatureErrors key payloadB64 sigB64 with
  | none => .ok (refused ["malformed_signature"])
  | some signature =>
    match readPayload payloadB64 with
    | none => .ok (refused (signature ++ ["malformed_payload"]))
    | some payload => do
      let found ← payloadErrors isPrintable payload now expectedProjectId expectedPhase
      return ⟨(signature ++ found).isEmpty, payload, signature ++ found⟩

def verifyToken (token : List Char) (secret : SecretLookup) (now : Wall)
    (expectedProjectId expectedPhase : Option String) : Except Raised Verdict :=
  if '.' ∈ token then
    match loadKey secret with
    | .error code => .ok (refused [code])
    | .ok key =>
      verifyWith isPrintable key (rsplitDot token).1 (rsplitDot token).2 now expectedProjectId
        expectedPhase
  else .ok (refused ["malformed_token"])

end

/-! ## What a signed text reads back as -/

theorem zulu_eq (w : Wall) : zulu w = w.isoformat ++ ['Z'] := by
  have hplus : '+' ∉ w.isoformat := by
    intro h
    rcases Calendar.mem_isoformat h with hd | hd
    · simp at hd
    · simp at hd
  exact replaceText_append "Z".toList hplus "+00:00".toList

theorem replaceText_zulu (w : Wall) :
    replaceText "Z".toList "+00:00".toList (zulu w) = w.isoformatUtc := by
  have hz : 'Z' ∉ w.isoformat := by
    intro h
    rcases Calendar.mem_isoformat h with hd | hd
    · simp at hd
    · simp at hd
  rw [zulu_eq]
  exact replaceText_append "+00:00".toList hz ['Z']

theorem rdropWhile_pad {ds : List Char} (h : ∀ c ∈ ds, c ≠ '=') (k : Nat) :
    (ds ++ List.replicate k '=').rdropWhile (· == '=') = ds := by
  induction k with
  | zero =>
    rw [List.replicate_zero, List.append_nil, List.rdropWhile_eq_self_iff]
    intro hne
    simpa using h _ (List.getLast_mem hne)
  | succ k ih =>
    rw [List.replicate_succ', ← List.append_assoc, List.rdropWhile_concat_pos _ _ _ (by decide), ih]

theorem b64url_shape (raw : Bytes) : ∃ k, k = (3 - raw.length % 3) % 3 ∧
    Base64.urlsafeEncode raw = b64url raw ++ List.replicate k '=' ∧
      ((b64url raw).length + k) % 4 = 0 ∧
      ∀ c ∈ b64url raw, c.toNat < 128 ∧ c ≠ '=' ∧ c ≠ '.' := by
  obtain ⟨ds, k, henc, hds, hk, hlen⟩ := Base64.urlsafeEncode_shape raw
  have hstrip : b64url raw = ds := by
    rw [b64url, henc, rdropWhile_pad fun c hc => (hds c hc).2.1]
  rw [hstrip]
  exact ⟨k, hk, henc, hlen, hds⟩

theorem b64urlDecode_b64url (raw : Bytes) : b64urlDecode (b64url raw) = some raw := by
  obtain ⟨k, hk, henc, hlen, -⟩ := b64url_shape raw
  have hpad : (4 - (b64url raw).length % 4) % 4 = k := by omega
  rw [b64urlDecode, hpad, ← henc, Base64.urlsafeDecode_urlsafeEncode]

/-- The padding may as well be there. -/
theorem b64urlDecode_urlsafeEncode (raw : Bytes) :
    b64urlDecode (Base64.urlsafeEncode raw) = some raw := by
  obtain ⟨k, -, henc, hlen, -⟩ := b64url_shape raw
  have hfull : (Base64.urlsafeEncode raw).length % 4 = 0 := by
    rw [henc, List.length_append, List.length_replicate, hlen]
  have hpad : (4 - (Base64.urlsafeEncode raw).length % 4) % 4 = 0 := by omega
  rw [b64urlDecode, hpad, List.replicate_zero, List.append_nil,
    Base64.urlsafeDecode_urlsafeEncode]

theorem b64url_ascii (raw : Bytes) : encodeAscii (b64url raw) = some (encodeUtf8 (b64url raw)) := by
  obtain ⟨_, _, _, _, hchars⟩ := b64url_shape raw
  exact encodeAscii_of_ascii fun c hc => (hchars c hc).1

theorem b64url_no_dot (raw : Bytes) : '.' ∉ b64url raw := by
  obtain ⟨_, _, _, _, hchars⟩ := b64url_shape raw
  exact fun h => (hchars '.' h).2.2 rfl

/-! ## The segments of a token -/

theorem rsplitDot_append (p : List Char) {s : List Char} (hs : '.' ∉ s) :
    rsplitDot (p ++ '.' :: s) = (p, s) := by
  have hrev : (p ++ '.' :: s).reverse = s.reverse ++ '.' :: p.reverse := by simp
  have hpos : ∀ c ∈ s.reverse, (c != '.') = true := by
    intro c hc
    have hc' : c ≠ '.' := fun h => hs (h ▸ List.mem_reverse.mp hc)
    simpa using hc'
  simp [rsplitDot, hrev, List.dropWhile_append_of_pos hpos, List.takeWhile_append_of_pos hpos]

theorem rsplitDot_spec {token : List Char} (h : '.' ∈ token) :
    token = (rsplitDot token).1 ++ '.' :: (rsplitDot token).2 := by
  have hcut : ∃ p s, token = p ++ '.' :: s ∧ '.' ∉ s := by
    obtain ⟨s, p, hsp, hs⟩ := List.eq_append_cons_of_mem (List.mem_reverse.mpr h)
    refine ⟨p.reverse, s.reverse, ?_, fun hmem => hs (List.mem_reverse.mp hmem)⟩
    have hback := congrArg List.reverse hsp
    simpa using hback
  obtain ⟨p, s, rfl, hs⟩ := hcut
  rw [rsplitDot_append p hs]

theorem rsplitDot_tokenOf (key : Bytes) (payload : Members) :
    rsplitDot (tokenOf key payload) = (b64url (encodeUtf8 (dumps (.obj payload))),
      b64url (hmacSha256 key (encodeUtf8 (b64url (encodeUtf8 (dumps (.obj payload))))))) :=
  rsplitDot_append _ (b64url_no_dot _)

theorem readPayload_tokenOf (key : Bytes) {payload : Members} (h : (Value.obj payload).Distinct) :
    readPayload (rsplitDot (tokenOf key payload)).1 = some (Value.obj payload).sortKeys := by
  rw [rsplitDot_tokenOf, readPayload, b64urlDecode_b64url, Option.bind_some, decodeUtf8_encodeUtf8,
    Option.bind_some, loadsText_dumps h]

theorem dot_mem_tokenOf (key : Bytes) (payload : Members) : '.' ∈ tokenOf key payload :=
  List.mem_append_right _ List.mem_cons_self

/-- A signature passes just when it decodes to the one expected. -/
theorem signatureErrors_nil_iff {key : Bytes} {payloadB64 sigB64 : List Char} :
    signatureErrors key payloadB64 sigB64 = some [] ↔ ∃ text, encodeAscii payloadB64 = some text ∧
      b64urlDecode sigB64 = some (hmacSha256 key text) := by
  unfold signatureErrors
  constructor
  · intro h
    obtain ⟨text, htext, h⟩ := Option.bind_eq_some_iff.mp h
    obtain ⟨sig, hsig, h⟩ := Option.bind_eq_some_iff.mp h
    refine ⟨text, htext, ?_⟩
    split_ifs at h with heq
    · rw [hsig, heq]
    · simp at h
  · rintro ⟨text, htext, hsig⟩
    simp [htext, hsig]

theorem signatureErrors_tokenOf (key : Bytes) (payload : Members) :
    signatureErrors key (rsplitDot (tokenOf key payload)).1 (rsplitDot (tokenOf key payload)).2 =
      some [] := by
  rw [rsplitDot_tokenOf, signatureErrors_nil_iff]
  exact ⟨_, b64url_ascii _, b64urlDecode_b64url _⟩

section
variable {isPrintable : Char → Bool} {key : Bytes} {payloadB64 sigB64 : List Char} {now : Wall}
  {projectId phase : Option String}

theorem verifyWith_valid {v : Verdict}
    (h : verifyWith isPrintable key payloadB64 sigB64 now projectId phase = .ok v)
    (hv : v.valid = true) :
    signatureErrors key payloadB64 sigB64 = some [] ∧ readPayload payloadB64 = some v.payload ∧
      payloadErrors isPrintable v.payload now projectId phase = .ok [] := by
  unfold verifyWith at h
  split at h
  · obtain rfl := Except.ok.inj h
    contradiction
  · rename_i signature hsig
    split at h
    · obtain rfl := Except.ok.inj h
      contradiction
    · rename_i payload hread
      cases hfound : payloadErrors isPrintable payload now projectId phase with
      | error e =>
        rw [hfound] at h
        cases h
      | ok found =>
        rw [hfound] at h
        obtain rfl := Except.ok.inj h
        have hnil : signature ++ found = [] := List.isEmpty_iff.mp hv
        obtain ⟨rfl, rfl⟩ := List.append_eq_nil_iff.mp hnil
        exact ⟨hsig, hread, hfound⟩

theorem verifyWith_of_signature {payload : Value} {found : List String}
    (hsig : signatureErrors key payloadB64 sigB64 = some [])
    (hread : readPayload payloadB64 = some payload)
    (hfound : payloadErrors isPrintable payload now projectId phase = .ok found) :
    verifyWith isPrintable key payloadB64 sigB64 now projectId phase =
      .ok ⟨found.isEmpty, payload, found⟩ := by
  simp only [verifyWith, hsig, hread, hfound, List.nil_append]
  rfl

theorem verifyToken_of_signature {token : List Char} {secret : SecretLookup} {payload : Value}
    {found : List String} (hkey : loadKey secret = .ok key) (hdot : '.' ∈ token)
    (hsig : signatureErrors key (rsplitDot token).1 (rsplitDot token).2 = some [])
    (hread : readPayload (rsplitDot token).1 = some payload)
    (hfound : payloadErrors isPrintable payload now projectId phase = .ok found) :
    verifyToken isPrintable token secret now projectId phase =
      .ok ⟨found.isEmpty, payload, found⟩ := by
  rw [verifyToken, if_pos hdot, hkey]
  exact verifyWith_of_signature hsig hread hfound

/-- All that an accepted token has passed. -/
theorem verifyToken_valid {token : List Char} {secret : SecretLookup} {v : Verdict}
    (h : verifyToken isPrintable token secret now projectId phase = .ok v) (hv : v.valid = true) :
    ∃ key, loadKey secret = .ok key ∧ '.' ∈ token ∧
      signatureErrors key (rsplitDot token).1 (rsplitDot token).2 = some [] ∧
      readPayload (rsplitDot token).1 = some v.payload ∧
      payloadErrors isPrintable v.payload now projectId phase = .ok [] := by
  unfold verifyToken at h
  split at h
  · rename_i hdot
    split at h
    · obtain rfl := Except.ok.inj h
      contradiction
    · rename_i key hkey
      exact ⟨key, hkey, hdot, verifyWith_valid h hv⟩
  · obtain rfl := Except.ok.inj h
    contradiction

end

/-! ## From the signer to the verifier -/

theorem signToken_ok {secret : SecretLookup} {clock : Wall} {projectId phase approver : String}
    {ttlHours : Int} {token : List Char} {payload : Members}
    (h : signToken secret clock projectId phase approver ttlHours = .ok (token, payload)) :
    ∃ key expires, loadKey secret = .ok key ∧
      plusHours (wholeSecond clock) ttlHours = some expires ∧
      payload = signedPayload projectId phase approver (wholeSecond clock) expires ∧
      token = tokenOf key payload := by
  unfold signToken at h
  split at h
  · contradiction
  · rename_i key hkey
    split at h
    · contradiction
    · rename_i expires hexp
      obtain ⟨rfl, rfl⟩ := Prod.mk.inj (Except.ok.inj h)
      exact ⟨key, expires, hkey, hexp, rfl, rfl⟩

theorem plusHours_micros {now expires : Wall} {hours : Int}
    (h : plusHours now hours = some expires) :
    (expires.micros : Int) = now.micros + hours * 3600000000 := by
  simp only [plusHours] at h
  split at h
  · rename_i hrange
    obtain rfl := Option.some.inj h
    exact Int.toNat_of_nonneg hrange.1
  · contradiction

theorem plusHours_of_micros {now expires : Wall} {hours : Int}
    (h : (expires.micros : Int) = now.micros + hours * 3600000000) :
    plusHours now hours = some expires := by
  have hnat : (now.micros + hours * 3600000000).toNat = expires.micros := by
    rw [← h, Int.toNat_natCast]
  rw [plusHours, dif_pos ⟨h ▸ Int.natCast_nonneg _, hnat ▸ expires.micros_lt⟩]
  simp only [hnat]

section
variable {projectId phase approver : String} {issued expires : Wall}

theorem signedPayload_distinct :
    (Value.obj (signedPayload projectId phase approver issued expires)).Distinct := by
  refine (distinct_obj _).mpr ⟨?_, ?_⟩
  · simp [signedPayload]
  · intro m hm
    simp only [signedPayload, List.mem_cons, List.not_mem_nil, or_false] at hm
    rcases hm with rfl | rfl | rfl | rfl | rfl <;> trivial

/-- The payload with its keys in order has every field of the one that was signed. -/
theorem sorted_payload : ∃ ms,
    (Value.obj (signedPayload projectId phase approver issued expires)).sortKeys = .obj ms ∧
      ∀ field s, lookup (signedPayload projectId phase approver issued expires) field =
        some (.str s) → lookup ms field = some (.str s) := by
  obtain ⟨ms, hms, -⟩ := sortKeys_obj (signedPayload projectId phase approver issued expires)
  refine ⟨ms, hms, fun field s hs => ?_⟩
  rw [lookup_sortKeys ((distinct_obj _).mp signedPayload_distinct).1 hms, hs]
  rfl

theorem missingErrors_signed {ms : Members} (h : ∀ field ∈ payloadFields,
    ∃ s, lookup ms field = some (.str s)) : missingErrors (.obj ms) = .ok [] := by
  have hfields : ∀ field ∈ payloadFields, hasField (.obj ms) field = .ok true := by
    intro field hf
    obtain ⟨s, hs⟩ := h field hf
    rw [hasField, hs]
    rfl
  unfold missingErrors
  generalize payloadFields = fields at hfields
  induction fields with
  | nil => rfl
  | cons field fields ih =>
    rw [List.foldlM_cons, hfields field List.mem_cons_self]
    exact ih fun f hf => hfields f (List.mem_cons_of_mem field hf)

/-- The errors that a genuine payload can still have. -/
def genuineErrors (projectId phase : String) (expires now : Wall)
    (expectedProjectId expectedPhase : Option String) : List String :=
  (if expires ≤ now then ["expired"] else []) ++
    (if ∀ p ∈ expectedProjectId, p = projectId then [] else ["project_id_mismatch"]) ++
    if ∀ p ∈ expectedPhase, p = phase then [] else ["phase_mismatch"]

theorem expiryErrors_signed {ms : Members} (now : Wall)
    (h : lookup ms "expires_at" = some (.str (String.ofList (zulu expires)))) :
    expiryErrors (.obj ms) now = if expires ≤ now then ["expired"] else [] := by
  have htext : replaceText "Z".toList "+00:00".toList (String.ofList (zulu expires)).toList =
      expires.isoformatUtc := by
    have hback : (String.ofList (zulu expires)).toList = zulu expires := String.toList_ofList
    rw [hback, replaceText_zulu]
  have hread : expiresAt (.obj ms) = some (.aware expires.inUtc) := by
    rw [expiresAt, h]
    exact (congrArg fromisoformat htext).trans (fromisoformat_isoformatUtc expires)
  have hle : expires.inUtc.utc ≤ now.micros ↔ expires ≤ now := by
    simp only [Aware.utc, Wall.inUtc, Int.sub_zero, Int.ofNat_le]
    rfl
  rw [expiryErrors, hread]
  exact if_congr hle rfl rfl

theorem projectErrors_signed (isPrintable : Char → Bool) {ms : Members}
    (h : lookup ms "project_id" = some (.str projectId)) (expected : Option String) :
    projectErrors isPrintable (.obj ms) expected =
      .ok (if ∀ p ∈ expected, p = projectId then [] else ["project_id_mismatch"]) := by
  cases expected with
  | none => simp [projectErrors]
  | some p =>
    have hget : getField (.obj ms) "project_id" = .ok (.str projectId) := by
      rw [getField, h]
      rfl
    rw [projectErrors, hget]
    change Except.ok (if projectId.toList = p.toList then [] else ["project_id_mismatch"]) = _
    simp only [String.toList_inj, eq_comm (b := p), Option.mem_some_iff, forall_eq']

theorem phaseErrors_signed {ms : Members} (h : lookup ms "phase" = some (.str phase))
    (expected : Option String) : phaseErrors (.obj ms) expected =
      .ok (if ∀ p ∈ expected, p = phase then [] else ["phase_mismatch"]) := by
  cases expected with
  | none => simp [phaseErrors]
  | some p =>
    have hget : getField (.obj ms) "phase" = .ok (.str phase) := by
      rw [getField, h]
      rfl
    rw [phaseErrors, hget]
    change Except.ok (if phase = p then [] else ["phase_mismatch"]) = _
    simp only [eq_comm (b := p), Option.mem_some_iff, forall_eq']

theorem payloadErrors_signed (isPrintable : Char → Bool) (now : Wall)
    (expectedProjectId expectedPhase : Option String) :
    payloadErrors isPrintable
        (Value.obj (signedPayload projectId phase approver issued expires)).sortKeys now
        expectedProjectId expectedPhase =
      .ok (genuineErrors projectId phase expires now expectedProjectId expectedPhase) := by
  obtain ⟨ms, hms, hlookup⟩ := @sorted_payload projectId phase approver issued expires
  have hexpires := hlookup "expires_at" _ rfl
  have hthere : ∀ field ∈ payloadFields, ∃ s, lookup ms field = some (.str s) := by
    intro field hf
    simp only [payloadFields, List.mem_cons, List.not_mem_nil, or_false] at hf
    rcases hf with rfl | rfl | rfl | rfl | rfl
    · exact ⟨_, hlookup "project_id" _ rfl⟩
    · exact ⟨_, hlookup "phase" _ rfl⟩
    · exact ⟨_, hlookup "approver" _ rfl⟩
    · exact ⟨_, hlookup "issued_at" _ rfl⟩
    · exact ⟨_, hexpires⟩
  have hdated : hasField (.obj ms) "expires_at" = .ok true := by
    rw [hasField, hexpires]
    rfl
  rw [hms, payloadErrors, missingErrors_signed hthere, hdated,
    projectErrors_signed isPrintable (hlookup "project_id" _ rfl),
    phaseErrors_signed (hlookup "phase" _ rfl), genuineErrors, ← expiryErrors_signed now hexpires]
  rfl

theorem genuineErrors_nil_iff {now : Wall} {expectedProjectId expectedPhase : Option String} :
    (genuineErrors projectId phase expires now expectedProjectId expectedPhase).isEmpty = true ↔
      now < expires ∧ (∀ p ∈ expectedProjectId, p = projectId) ∧
        ∀ p ∈ expectedPhase, p = phase := by
  simp only [genuineErrors, List.isEmpty_iff, List.append_eq_nil_iff, ite_eq_right_iff,
    ite_eq_left_iff, List.cons_ne_self, imp_false, not_le, not_not, and_assoc]

end

theorem verifyToken_tokenOf (isPrintable : Char → Bool) {secret : SecretLookup} {key : Bytes}
    (hkey : loadKey secret = .ok key) (projectId phase approver : String)
    (issued expires now : Wall) (expectedProjectId expectedPhase : Option String) :
    verifyToken isPrintable (tokenOf key (signedPayload projectId phase approver issued expires))
        secret now expectedProjectId expectedPhase =
      .ok ⟨(genuineErrors projectId phase expires now expectedProjectId expectedPhase).isEmpty,
        (Value.obj (signedPayload projectId phase approver issued expires)).sortKeys,
        genuineErrors projectId phase expires now expectedProjectId expectedPhase⟩ := by
  apply verifyToken_of_signature hkey
  · exact dot_mem_tokenOf key _
  · exact signatureErrors_tokenOf key _
  · exact readPayload_tokenOf key signedPayload_distinct
  · exact payloadErrors_signed isPrintable now expectedProjectId expectedPhase

theorem sign_verify {secret : SecretLookup} {clock : Wall} {projectId phase approver : String}
    {ttlHours : Int} {token : List Char} {payload : Members} (httl : 0 < ttlHours)
    (h : signToken secret clock projectId phase approver ttlHours = .ok (token, payload)) :
    ∃ expires : Wall,
      (expires.micros : Int) = (wholeSecond clock).micros + ttlHours * 3600000000 ∧
      wholeSecond clock < expires ∧
      payload = signedPayload projectId phase approver (wholeSecond clock) expires ∧
      ∀ (isPrintable : Char → Bool) (now : Wall) (expectedProjectId expectedPhase : Option String),
        ∃ v, verifyToken isPrintable token secret now expectedProjectId expectedPhase = .ok v ∧
          v.payload = (Value.obj payload).sortKeys ∧
          (v.valid = true ↔ now < expires ∧ (∀ p ∈ expectedProjectId, p = projectId) ∧
            ∀ p ∈ expectedPhase, p = phase) := by
  obtain ⟨key, expires, hkey, hexp, hpayload, htoken⟩ := signToken_ok h
  have hmicros := plusHours_micros hexp
  have hlt : (wholeSecond clock).micros < expires.micros := by omega
  refine ⟨expires, hmicros, hlt, hpayload, ?_⟩
  intro isPrintable now expectedProjectId expectedPhase
  have hv := verifyToken_tokenOf isPrintable hkey projectId phase approver (wholeSecond clock)
    expires now expectedProjectId expectedPhase
  rw [← hpayload, ← htoken] at hv
  exact ⟨_, hv, rfl, genuineErrors_nil_iff⟩

theorem signToken_of_key {secret : SecretLookup} {key : Bytes} {clock expires : Wall}
    {ttlHours : Int} (hkey : loadKey secret = .ok key)
    (hexp : plusHours (wholeSecond clock) ttlHours = some expires)
    (projectId phase approver : String) :
    signToken secret clock projectId phase approver ttlHours =
      .ok (tokenOf key (signedPayload projectId phase approver (wholeSecond clock) expires),
        signedPayload projectId phase approver (wholeSecond clock) expires) := by
  rw [signToken, hkey]
  simp only [hexp]

theorem noonMay25_lt_maxWall : 63915307200000000 < maxWall := by decide

def noonMay18 : Wall := ⟨63914702400000000, noonMay18_lt_maxWall⟩

def noonMay25 : Wall := ⟨63915307200000000, noonMay25_lt_maxWall⟩

theorem plusHours_week : plusHours (wholeSecond noonMay18) 168 = some noonMay25 :=
  plusHours_of_micros (by decide)

theorem week_genuine :
    (genuineErrors "1" "plan" noonMay25 noonMay18 (some "1") (some "plan")).isEmpty = true :=
  genuineErrors_nil_iff.mpr ⟨by decide, by simp, by simp⟩

theorem sign_verify_week : ∃ v, verifyToken (fun _ => false)
    (tokenOf [0] (signedPayload "1" "plan" "ada" (wholeSecond noonMay18) noonMay25))
      (.found ['0', '0']) noonMay18 (some "1") (some "plan") = .ok v ∧ v.valid = true := by
  have hkey : loadKey (.found ['0', '0']) = .ok [0] := rfl
  have hsign := signToken_of_key hkey plusHours_week "1" "plan" "ada"
  obtain ⟨expires, hexp, hlt, -, hverify⟩ := sign_verify (by decide) hsign
  obtain ⟨v, hv, -, hvalid⟩ := hverify (fun _ => false) noonMay18 (some "1") (some "plan")
  exact ⟨v, hv, hvalid.mpr ⟨hlt, by simp, by simp⟩⟩

/-! ## What is accepted besides -/

/-- Tokens made with a key. -/
def Signed (key : Bytes) (token : List Char) : Prop :=
  ∃ secret clock projectId phase approver ttlHours payload, loadKey secret = .ok key ∧
    signToken secret clock projectId phase approver ttlHours = .ok (token, payload)

/-- No forgery: a text that is presented with its own HMAC is the text of an issued token. -/
def NotForged (key : Bytes) (issued : Set (List Char)) (token : List Char) : Prop :=
  ∀ text, encodeAscii (rsplitDot token).1 = some text →
    b64urlDecode (rsplitDot token).2 = some (hmacSha256 key text) →
      ∃ t ∈ issued, (rsplitDot t).1 = (rsplitDot token).1

/-- The segment is what `_b64url` writes for the bytes it decodes to. -/
def Canonical (segment : List Char) : Prop :=
  ∃ raw, b64urlDecode segment = some raw ∧ b64url raw = segment

theorem Signed.tokenOf_eq {key : Bytes} {token : List Char} (h : Signed key token) :
    ∃ payload, token = tokenOf key payload := by
  obtain ⟨_, _, _, _, _, _, payload, hkey, hsign⟩ := h
  obtain ⟨key', _, hkey', _, _, rfl⟩ := signToken_ok hsign
  obtain rfl : key = key' := Except.ok.inj (hkey.symm.trans hkey')
  exact ⟨payload, rfl⟩

/-- The payload's text and the key fix the token, given that its signature is canonical. -/
theorem tokenOf_of_canonical {key text : Bytes} {payload : Members} {token : List Char}
    (hdot : '.' ∈ token) (hcanon : Canonical (rsplitDot token).2)
    (htext : encodeAscii (rsplitDot token).1 = some text)
    (hmac : b64urlDecode (rsplitDot token).2 = some (hmacSha256 key text))
    (hpayload : (rsplitDot (tokenOf key payload)).1 = (rsplitDot token).1) :
    tokenOf key payload = token := by
  obtain ⟨raw, hraw, hback⟩ := hcanon
  obtain rfl : hmacSha256 key text = raw := Option.some.inj (hmac.symm.trans hraw)
  rw [rsplitDot_tokenOf] at hpayload
  rw [← hpayload, b64url_ascii] at htext
  obtain rfl := Option.some.inj htext
  rw [rsplitDot_spec hdot, ← hback, ← hpayload, tokenOf]

theorem accepted_issued_iff {key : Bytes} {issued : Set (List Char)} {isPrintable : Char → Bool}
    {token : List Char} {secret : SecretLookup} {now : Wall} {projectId phase : Option String}
    {v : Verdict} (hkey : loadKey secret = .ok key) (hissued : ∀ t ∈ issued, Signed key t)
    (hforged : NotForged key issued token)
    (h : verifyToken isPrintable token secret now projectId phase = .ok v) (hv : v.valid = true) :
    token ∈ issued ↔ Canonical (rsplitDot token).2 := by
  constructor
  · intro hmem
    obtain ⟨payload, rfl⟩ := (hissued token hmem).tokenOf_eq
    rw [rsplitDot_tokenOf]
    exact ⟨_, b64urlDecode_b64url _, rfl⟩
  · intro hcanon
    obtain ⟨key', hkey', hdot, hsig, -⟩ := verifyToken_valid h hv
    obtain rfl : key = key' := Except.ok.inj (hkey.symm.trans hkey')
    obtain ⟨text, htext, hmac⟩ := signatureErrors_nil_iff.mp hsig
    obtain ⟨t, ht, hsame⟩ := hforged text htext hmac
    obtain ⟨payload, rfl⟩ := (hissued t ht).tokenOf_eq
    have heq := tokenOf_of_canonical hdot hcanon htext hmac hsame
    exact heq ▸ ht

theorem accepted_issued_week :
    tokenOf [0] (signedPayload "1" "plan" "ada" (wholeSecond noonMay18) noonMay25) ∈
        ({tokenOf [0] (signedPayload "1" "plan" "ada" (wholeSecond noonMay18) noonMay25)} :
          Set (List Char)) ↔
      Canonical (rsplitDot
        (tokenOf [0] (signedPayload "1" "plan" "ada" (wholeSecond noonMay18) noonMay25))).2 := by
  have hkey : loadKey (.found ['0', '0']) = .ok [0] := rfl
  have hsign := signToken_of_key hkey plusHours_week "1" "plan" "ada"
  have hv := verifyToken_tokenOf (fun _ => false) hkey
    "1" "plan" "ada" (wholeSecond noonMay18) noonMay25 noonMay18 (some "1") (some "plan")
  refine accepted_issued_iff rfl ?_ ?_ hv ?_
  · rintro t rfl
    exact ⟨_, _, _, _, _, _, _, rfl, hsign⟩
  · exact fun _ _ _ => ⟨_, rfl, rfl⟩
  · exact week_genuine

/-- The same payload and signature, with the padding that `_b64url` strips. -/
def padded (key : Bytes) (payload : Members) : List Char :=
  let payloadB64 := b64url (encodeUtf8 (dumps (.obj payload)))
  payloadB64 ++ '.' :: Base64.urlsafeEncode (hmacSha256 key (encodeUtf8 payloadB64))

theorem rsplitDot_padded (key : Bytes) (payload : Members) :
    rsplitDot (padded key payload) = ((rsplitDot (tokenOf key payload)).1,
      Base64.urlsafeEncode (hmacSha256 key (encodeUtf8 (rsplitDot (tokenOf key payload)).1))) := by
  rw [rsplitDot_tokenOf]
  apply rsplitDot_append
  obtain ⟨k, -, henc, -, hchars⟩ := b64url_shape
    (hmacSha256 key (encodeUtf8 (b64url (encodeUtf8 (dumps (.obj payload))))))
  rw [henc]
  intro h
  rcases List.mem_append.mp h with h | h
  · exact (hchars '.' h).2.2 rfl
  · exact absurd (List.eq_of_mem_replicate h) (by decide)

/-- No issued token is the only text that is accepted in its place. -/
theorem verifyToken_padded (isPrintable : Char → Bool) {secret : SecretLookup} {key : Bytes}
    (hkey : loadKey secret = .ok key) (payload : Members) (now : Wall)
    (projectId phase : Option String) :
    verifyToken isPrintable (padded key payload) secret now projectId phase =
      verifyToken isPrintable (tokenOf key payload) secret now projectId phase := by
  have hdot : '.' ∈ padded key payload := List.mem_append_right _ List.mem_cons_self
  have hsig : signatureErrors key (rsplitDot (padded key payload)).1
      (rsplitDot (padded key payload)).2 = some [] := by
    rw [rsplitDot_padded, rsplitDot_tokenOf, signatureErrors_nil_iff]
    exact ⟨_, b64url_ascii _, b64urlDecode_urlsafeEncode _⟩
  have hsame : (rsplitDot (padded key payload)).1 = (rsplitDot (tokenOf key payload)).1 := by
    rw [rsplitDot_padded]
  rw [hsame] at hsig
  rw [verifyToken, verifyToken, if_pos hdot, if_pos (dot_mem_tokenOf key payload), hkey]
  simp only [verifyWith, hsame, hsig, signatureErrors_tokenOf]

theorem padded_ne (key : Bytes) (payload : Members) : padded key payload ≠ tokenOf key payload := by
  intro h
  obtain ⟨k, hk, henc, -, -⟩ := b64url_shape
    (hmacSha256 key (encodeUtf8 (b64url (encodeUtf8 (dumps (.obj payload))))))
  have htail : Base64.urlsafeEncode (hmacSha256 key
      (encodeUtf8 (b64url (encodeUtf8 (dumps (.obj payload)))))) =
        b64url (hmacSha256 key (encodeUtf8 (b64url (encodeUtf8 (dumps (.obj payload)))))) :=
    (List.cons_inj_right '.').mp (List.append_cancel_left h)
  have hlen := congrArg List.length (henc.symm.trans htail)
  rw [hmacSha256_length] at hk
  rw [List.length_append, List.length_replicate] at hlen
  omega

theorem padded_signature_accepted :
    Signed [0] (tokenOf [0] (signedPayload "1" "plan" "ada" (wholeSecond noonMay18) noonMay25)) ∧
    NotForged [0]
      {tokenOf [0] (signedPayload "1" "plan" "ada" (wholeSecond noonMay18) noonMay25)}
      (padded [0] (signedPayload "1" "plan" "ada" (wholeSecond noonMay18) noonMay25)) ∧
    (∃ v, verifyToken (fun _ => false)
      (padded [0] (signedPayload "1" "plan" "ada" (wholeSecond noonMay18) noonMay25))
      (.found ['0', '0']) noonMay18 (some "1") (some "plan") = .ok v ∧ v.valid = true) ∧
    padded [0] (signedPayload "1" "plan" "ada" (wholeSecond noonMay18) noonMay25) ∉
      ({tokenOf [0] (signedPayload "1" "plan" "ada" (wholeSecond noonMay18) noonMay25)} :
        Set (List Char)) := by
  have hkey : loadKey (.found ['0', '0']) = .ok [0] := rfl
  have hsign := signToken_of_key hkey plusHours_week "1" "plan" "ada"
  refine ⟨⟨_, _, _, _, _, _, _, rfl, hsign⟩, fun _ _ _ => ⟨_, rfl, ?_⟩, ?_, padded_ne _ _⟩
  · rw [rsplitDot_padded]
  · rw [verifyToken_padded _ rfl, verifyToken_tokenOf _ rfl]
    exact ⟨_, rfl, week_genuine⟩

end SpineFormal.Orchestrator.ApprovalToken
