import Mathlib.Data.List.DropRight
import Mathlib.Data.List.Sort
import SpineFormal.Base.Base64
import SpineFormal.Base.Run
import SpineFormal.Base.TextFields
import SpineFormal.Json.Strings

/-!
# The license gate

`license/bundle_verifier.py` and `is_enabled` of `license/feature_flags.py`. The gate
reads a cached bundle; loading installs one and the periodic task closes the gate when
a re-verification fails. It closes it only for a `BundleVerificationError`. A row from
which no envelope can be built raises pydantic's error instead, and the gate stays as
it was. Where every row that is re-verified is an envelope, an open gate means a
verified payload and a last look at the table that verified one.

Ed25519 and the parsing of the payload are outside of the repository.
-/

namespace SpineFormal.License

set_option autoImplicit false

/-! ## The bundle -/

inductive Tier where
  | free
  | founder
  | team
  | enterprise
  | airgapped
  | custom
  deriving DecidableEq

inductive QuotaUnit where
  | agentsPerMonth
  | projects
  | seats
  | tokensPerDay
  | runsPerDay
  deriving DecidableEq

structure FeatureFlag where
  flagName : String
  enabled : Bool
  quotaValue : Option Nat
  quotaUnit : Option QuotaUnit
  deriving DecidableEq

structure LicenseBundlePayload where
  payloadVersion : String
  customer : String
  tier : Tier
  bundleId : String
  issuedAt : Timestamp
  expiresAt : Option Timestamp
  featureFlags : List FeatureFlag
  notes : Option String

def bundlePayloadVersion : String := "license-bundle-v1"

/-- A row of `spine_license.bundle`, as far as it is read. -/
structure BundleRow where
  signedPayload : Bytes
  signature : Bytes
  signingKeyFingerprint : String
  issuedAt : Wall
  revokedAt : Option Wall

structure SignedLicenseBundle where
  payloadCanonicalB64 : List Char
  signatureB64 : List Char
  signingKeyFingerprint : List Char

/-- The characters with the White_Space property. -/
def isWhite (c : Char) : Bool :=
  let n := c.toNat
  (9 ≤ n && n ≤ 13) || n == 0x20 || n == 0x85 || n == 0xa0 || n == 0x1680 ||
    (0x2000 ≤ n && n ≤ 0x200a) || n == 0x2028 || n == 0x2029 || n == 0x202f || n == 0x205f ||
    n == 0x3000

/-- What `str.strip` removes. -/
def isPySpace (c : Char) : Bool := isWhite c || (28 ≤ c.toNat && c.toNat ≤ 31)

def stripWith (p : Char → Bool) (s : List Char) : List Char := (s.dropWhile p).rdropWhile p

def lowerHex (c : Char) : Bool := ('0' ≤ c && c ≤ '9') || ('a' ≤ c && c ≤ 'f')

/-- `SignedLicenseBundle(...)` on a row; `none` is a `ValidationError`. Letters outside
ASCII do not become hex digits in `lower`. -/
def signedLicenseBundle (row : BundleRow) : Option SignedLicenseBundle :=
  let payload := Base64.encode row.signedPayload
  let signature := Base64.encode row.signature
  let fp := stripWith isWhite (row.signingKeyFingerprint.toList.map Char.toLower)
  if payload ≠ [] ∧ signature ≠ [] ∧ fp.length = 64 ∧ fp.all lowerHex = true then
    some ⟨payload, signature, fp⟩
  else none

/-! ## Verification -/

/-- `BundleVerificationError.code`. -/
inductive BundleErrorCode where
  | cryptographyUnavailable
  | fingerprintMismatch
  | untrustedVendorKey
  | base64DecodeFailed
  | invalidSignature
  | payloadParseFailed
  | unknownPayloadVersion
  | badVendorPubkeyFormat
  | noActiveBundle
  deriving DecidableEq

def BundleErrorCode.text : BundleErrorCode → String
  | .cryptographyUnavailable => "cryptography_unavailable"
  | .fingerprintMismatch => "fingerprint_mismatch"
  | .untrustedVendorKey => "untrusted_vendor_key"
  | .base64DecodeFailed => "base64_decode_failed"
  | .invalidSignature => "invalid_signature"
  | .payloadParseFailed => "payload_parse_failed"
  | .unknownPayloadVersion => "unknown_payload_version"
  | .badVendorPubkeyFormat => "bad_vendor_pubkey_format"
  | .noActiveBundle => "no_active_bundle"

/-- A `BundleVerificationError`, or an exception of any other class. -/
inductive LoadError where
  | verification (code : BundleErrorCode)
  | unexpected
  deriving DecidableEq

/-- What the verifier imports: `key.verify` on key, signature and message, and
`json.loads` with `LicenseBundlePayload.model_validate` on the payload bytes. -/
structure Crypto where
  available : Bool
  verify : Bytes → Bytes → Bytes → Bool
  parsePayload : Bytes → Option LicenseBundlePayload

/-- `fingerprint`. -/
def keyFingerprint (key : Bytes) : List Char := hex (sha256 key)

section
variable (crypto : Crypto) (trusted : List Char)

/-- The part of `verify_signature` behind the decoding. -/
def verifyPayload (key signature payloadBytes : Bytes) : Except LoadError LicenseBundlePayload :=
  -- `from_public_bytes` takes 32 bytes
  if key.length ≠ 32 then .error .unexpected
  else if crypto.verify key signature payloadBytes = false then .error (.verification .invalidSignature)
  else
    match crypto.parsePayload payloadBytes with
    | none => .error (.verification .payloadParseFailed)
    | some payload =>
      if payload.payloadVersion ≠ bundlePayloadVersion then
        .error (.verification .unknownPayloadVersion)
      else .ok payload

def verifySignature (envelope : SignedLicenseBundle) (key : Bytes) :
    Except LoadError LicenseBundlePayload :=
  if crypto.available = false then .error (.verification .cryptographyUnavailable)
  else if envelope.signingKeyFingerprint.map Char.toLower ≠ keyFingerprint key then
    .error (.verification .fingerprintMismatch)
  else if keyFingerprint key ≠ trusted then .error (.verification .untrustedVendorKey)
  else
    match Base64.decode envelope.payloadCanonicalB64, Base64.decode envelope.signatureB64 with
    | some payloadBytes, some signature => verifyPayload crypto key signature payloadBytes
    | _, _ => .error (.verification .base64DecodeFailed)

inductive VaultAnswer where
  | raises
  | secret (text : String)

/-- `bytes.fromhex` on hex digits. -/
def fromHex : List Char → Option Bytes
  | [] => some []
  | a :: b :: s => do
    let x ← Json.hexVal a
    let y ← Json.hexVal b
    let bs ← fromHex s
    return UInt8.ofNat (x * 16 + y) :: bs
  | _ => none

/-- `_fetch_vendor_public_key`: 64 hex digits, or the base64 text of 32 bytes. -/
def fetchVendorPublicKey : VaultAnswer → Except LoadError Bytes
  | .raises => .error .unexpected
  | .secret text =>
    let raw := stripWith isPySpace text.toList
    let hexForm := if raw.length = 64 then fromHex raw else none
    let base64Form := (Base64.decode raw).filter fun bs => bs.length = 32
    match hexForm.or base64Form with
    | some key => .ok key
    | none => .error (.verification .badVendorPubkeyFormat)

def laterIssued (a b : BundleRow) : Prop := b.issuedAt ≤ a.issuedAt

instance : DecidableRel laterIssued := fun a b => inferInstanceAs (Decidable (b.issuedAt ≤ a.issuedAt))

/-- The query: the unrevoked row issued last. -/
def activeRow (table : List BundleRow) : Option BundleRow :=
  ((table.filter fun r => r.revokedAt = none).insertionSort laterIssued).head?

/-- `load_active_bundle` once the table has been read. -/
def verifyTable (key : Bytes) (table : List BundleRow) : Except LoadError LicenseBundlePayload :=
  match activeRow table with
  | none => .error (.verification .noActiveBundle)
  | some row =>
    match signedLicenseBundle row with
    | none => .error .unexpected
    | some envelope => verifySignature crypto trusted envelope key

/-! ## The gate -/

structure ActiveBundle where
  payload : LicenseBundlePayload
  signatureOk : Bool

/-- A load with the answers of the vault and of the database; `none` is a failed query. -/
inductive LicenseEvent where
  | load (key : Option Bytes) (vault : VaultAnswer) (table : Option (List BundleRow))
  | periodic (vault : VaultAnswer) (table : Option (List BundleRow))

/-- What a load found in the table, if it got to read it. -/
def LicenseEvent.read : LicenseEvent → Option (Except LoadError LicenseBundlePayload)
  | .load (some key) _ (some table) => some (verifyTable crypto trusted key table)
  | .load none vault (some table) | .periodic vault (some table) =>
    match fetchVendorPublicKey vault with
    | .ok key => some (verifyTable crypto trusted key table)
    | .error _ => none
  | .load _ _ none | .periodic _ none => none

/-- `load_active_bundle` without the installation. -/
def LicenseEvent.result (e : LicenseEvent) : Except LoadError LicenseBundlePayload :=
  match e.read crypto trusted with
  | some r => r
  | none =>
    match e with
    | .load (some _) _ _ => .error .unexpected
    | .load none vault _ | .periodic vault _ =>
      match fetchVendorPublicKey vault with
      | .ok _ => .error .unexpected
      | .error err => .error err

def LicenseEvent.step (active : Option ActiveBundle) (e : LicenseEvent) : Option ActiveBundle :=
  match e, e.result crypto trusted with
  | _, .ok payload => some ⟨payload, true⟩
  | .periodic _ _, .error (.verification _) => active.map fun b => { b with signatureOk := false }
  | _, .error _ => active

end

inductive GateError where
  | keyError
  | typeError
  deriving DecidableEq

/-- The instant of an aware timestamp on the UTC clock. -/
def Timestamp.instant (t : Timestamp) : Option Int :=
  t.offset.map fun minutes => t.wall.micros - minutes * 60000000

/-- `is_currently_valid`; a naive expiry cannot be compared. -/
def ActiveBundle.isCurrentlyValid (b : ActiveBundle) (now : Wall) : Except GateError Bool :=
  if b.signatureOk = false then .ok false
  else
    match b.payload.expiresAt with
    | none => .ok true
    | some t =>
      match Timestamp.instant t with
      | none => .error .typeError
      | some expiry => .ok (decide ((now.micros : Int) < expiry))

def knownFeatureFlags : List String :=
  ["federation", "hub_admin", "remote_mcp", "sso_oidc", "sso_scim", "channel_slack",
    "channel_pagerduty", "channel_sms", "channel_whatsapp", "channel_teams", "integration_github",
    "integration_linear", "integration_jira", "integration_vanta", "integration_drata",
    "role_devops", "role_customer_support", "role_compliance_officer", "role_security_engineer",
    "role_tech_writer", "role_release_manager", "quota_max_projects", "quota_max_concurrent_runs",
    "license_inspector"]

def isEnabled (active : Option ActiveBundle) (now : Wall) (flag : String) : Except GateError Bool :=
  if flag ∉ knownFeatureFlags then .error .keyError
  else
    match active with
    | none => .ok (flag == "license_inspector")
    | some bundle =>
      match bundle.isCurrentlyValid now with
      | .error e => .error e
      | .ok false => .ok (flag == "license_inspector")
      | .ok true =>
        match bundle.payload.featureFlags.find? fun row => row.flagName == flag with
        | some row => .ok row.enabled
        | none => .ok (flag == "license_inspector")

/-! ## What an open gate says -/

section
variable {crypto : Crypto} {trusted : List Char}

/-- A key with the trusted fingerprint signed bytes that parse to the payload. -/
def VerifiedUnder (crypto : Crypto) (trusted : List Char) (payload : LicenseBundlePayload) : Prop :=
  ∃ key signature message, keyFingerprint key = trusted ∧
    crypto.verify key signature message = true ∧ crypto.parsePayload message = some payload

theorem verifyPayload_ok {key signature message : Bytes} {payload : LicenseBundlePayload}
    (h : verifyPayload crypto key signature message = .ok payload) :
    crypto.verify key signature message = true ∧ crypto.parsePayload message = some payload := by
  unfold verifyPayload at h
  split at h
  · contradiction
  · split at h
    · contradiction
    · rename_i hverify
      split at h
      · contradiction
      · rename_i parsed hparse
        split at h
        · contradiction
        · obtain rfl := Except.ok.inj h
          exact ⟨Bool.eq_true_of_not_eq_false hverify, hparse⟩

theorem verifyPayload_error {key signature message : Bytes} {err : LoadError}
    (hlength : key.length = 32) (h : verifyPayload crypto key signature message = .error err) :
    ∃ code, err = .verification code := by
  unfold verifyPayload at h
  rw [if_neg (not_not.mpr hlength)] at h
  split at h
  · exact ⟨_, (Except.error.inj h).symm⟩
  · split at h
    · exact ⟨_, (Except.error.inj h).symm⟩
    · split at h
      · exact ⟨_, (Except.error.inj h).symm⟩
      · contradiction

theorem verifySignature_ok {envelope : SignedLicenseBundle} {key : Bytes}
    {payload : LicenseBundlePayload}
    (h : verifySignature crypto trusted envelope key = .ok payload) :
    VerifiedUnder crypto trusted payload := by
  unfold verifySignature at h
  split_ifs at h with _ _ htrusted
  split at h
  · rename_i message signature _ _
    exact ⟨key, signature, message, not_not.mp htrusted, verifyPayload_ok h⟩
  · contradiction

theorem verifySignature_error {envelope : SignedLicenseBundle} {key : Bytes} {err : LoadError}
    (hlength : key.length = 32) (h : verifySignature crypto trusted envelope key = .error err) :
    ∃ code, err = .verification code := by
  unfold verifySignature at h
  split_ifs at h
  · exact ⟨_, (Except.error.inj h).symm⟩
  · exact ⟨_, (Except.error.inj h).symm⟩
  · exact ⟨_, (Except.error.inj h).symm⟩
  · split at h
    · exact verifyPayload_error hlength h
    · exact ⟨_, (Except.error.inj h).symm⟩

theorem fromHex_length {s : List Char} {bs : Bytes} (h : fromHex s = some bs) :
    2 * bs.length = s.length := by
  induction s using fromHex.induct generalizing bs with
  | case1 =>
    obtain rfl := Option.some.inj h
    rfl
  | case2 a b s ih =>
    rw [fromHex] at h
    obtain ⟨x, _, h⟩ := Option.bind_eq_some_iff.mp h
    obtain ⟨y, _, h⟩ := Option.bind_eq_some_iff.mp h
    obtain ⟨rest, hrest, h⟩ := Option.bind_eq_some_iff.mp h
    obtain rfl := Option.some.inj h
    have hlen := ih hrest
    simp only [List.length_cons]
    omega
  | case3 s hnil hcons =>
    rw [fromHex] at h
    · contradiction
    · exact hnil
    · exact hcons

theorem fetchVendorPublicKey_length {vault : VaultAnswer} {key : Bytes}
    (h : fetchVendorPublicKey vault = .ok key) : key.length = 32 := by
  cases vault with
  | raises => contradiction
  | secret text =>
    simp only [fetchVendorPublicKey] at h
    split at h
    · rename_i found hfound
      obtain rfl := Except.ok.inj h
      rcases Option.or_eq_some_iff.mp hfound with hhex | ⟨_, hbase⟩
      · split_ifs at hhex with hlen
        have hdouble := fromHex_length hhex
        omega
      · simpa using (Option.filter_eq_some_iff.mp hbase).2
    · contradiction

theorem verifyTable_ok {key : Bytes} {table : List BundleRow} {payload : LicenseBundlePayload}
    (h : verifyTable crypto trusted key table = .ok payload) :
    VerifiedUnder crypto trusted payload := by
  unfold verifyTable at h
  split at h
  · contradiction
  · split at h
    · contradiction
    · exact verifySignature_ok h

theorem verifyTable_error {key : Bytes} {table : List BundleRow} {err : LoadError}
    (hlength : key.length = 32)
    (hrow : ∀ row ∈ activeRow table, (signedLicenseBundle row).isSome)
    (h : verifyTable crypto trusted key table = .error err) : ∃ code, err = .verification code := by
  unfold verifyTable at h
  split at h
  · exact ⟨_, (Except.error.inj h).symm⟩
  · rename_i row hactive
    split at h
    · rename_i hnone
      simpa [hnone] using hrow row hactive
    · exact verifySignature_error hlength h

/-- The last look at the table, over the events so far. -/
def lastLook (crypto : Crypto) (trusted : List Char) (events : List LicenseEvent) :
    Option (Except LoadError LicenseBundlePayload) :=
  (events.filterMap (LicenseEvent.read crypto trusted)).getLast?

theorem lastLook_concat (events : List LicenseEvent) (e : LicenseEvent) :
    lastLook crypto trusted (events ++ [e]) =
      (e.read crypto trusted).or (lastLook crypto trusted events) := by
  rw [lastLook, List.filterMap_append, List.getLast?_append]
  cases h : e.read crypto trusted <;> simp [h, lastLook]

/-- The periodic task reads a row that is an envelope, and a load by hand that reads
the table and fails finds the gate closed. -/
def LoadsEnvelope (crypto : Crypto) (trusted : List Char) (active : Option ActiveBundle) :
    LicenseEvent → Prop
  | .periodic _ table => ∀ rows ∈ table, ∀ row ∈ activeRow rows, (signedLicenseBundle row).isSome
  | .load key vault table =>
    (∀ b ∈ active, b.signatureOk = false) ∨
      ∀ r ∈ LicenseEvent.read crypto trusted (.load key vault table), ∃ p, r = .ok p

theorem read_ok {e : LicenseEvent} {payload : LicenseBundlePayload}
    (h : e.read crypto trusted = some (.ok payload)) : VerifiedUnder crypto trusted payload := by
  unfold LicenseEvent.read at h
  split at h
  · exact verifyTable_ok (Option.some.inj h)
  · split at h
    · exact verifyTable_ok (Option.some.inj h)
    · contradiction
  · split at h
    · exact verifyTable_ok (Option.some.inj h)
    · contradiction
  · contradiction
  · contradiction

theorem result_ok {e : LicenseEvent} {payload : LicenseBundlePayload}
    (h : e.result crypto trusted = .ok payload) : e.read crypto trusted = some (.ok payload) := by
  unfold LicenseEvent.result at h
  split at h
  · rename_i r hr
    rw [hr, h]
  · split at h
    · contradiction
    all_goals split at h <;> contradiction

/-- A look that failed was a look at the result. -/
theorem result_of_read {e : LicenseEvent} {r : Except LoadError LicenseBundlePayload}
    (h : e.read crypto trusted = some r) : e.result crypto trusted = r := by
  unfold LicenseEvent.result
  split
  · rename_i r' hr'
    exact Option.some.inj (hr'.symm.trans h)
  · rename_i hnone
    rw [h] at hnone
    contradiction

theorem step_of_read_ok {e : LicenseEvent} {payload : LicenseBundlePayload}
    (h : e.read crypto trusted = some (.ok payload)) (active : Option ActiveBundle) :
    e.step crypto trusted active = some ⟨payload, true⟩ := by
  have hresult := result_of_read h
  cases e <;> simp only [LicenseEvent.step, hresult]

theorem step_of_read_unexpected {e : LicenseEvent}
    (h : e.read crypto trusted = some (.error .unexpected)) (active : Option ActiveBundle) :
    e.step crypto trusted active = active := by
  have hresult := result_of_read h
  cases e <;> simp only [LicenseEvent.step, hresult]

/-- A failed look of the periodic task at an envelope is a `BundleVerificationError`. -/
theorem read_periodic_error {vault : VaultAnswer} {table : Option (List BundleRow)} {err : LoadError}
    (hrows : ∀ rows ∈ table, ∀ row ∈ activeRow rows, (signedLicenseBundle row).isSome)
    (h : LicenseEvent.read crypto trusted (.periodic vault table) = some (.error err)) :
    ∃ code, err = .verification code := by
  cases table with
  | none => contradiction
  | some rows =>
    simp only [LicenseEvent.read] at h
    split at h
    · rename_i key hkey
      exact verifyTable_error (fetchVendorPublicKey_length hkey) (hrows rows rfl) (Option.some.inj h)
    · contradiction

/-- The installed payload is verified, and while the gate is open it is the one the
last look at the table found. -/
def GateSound (crypto : Crypto) (trusted : List Char) (events : List LicenseEvent)
    (active : Option ActiveBundle) : Prop :=
  ∀ b ∈ active, VerifiedUnder crypto trusted b.payload ∧
    (b.signatureOk = true → lastLook crypto trusted events = some (.ok b.payload))

theorem GateSound.step {events : List LicenseEvent} {active : Option ActiveBundle} {e : LicenseEvent}
    (h : GateSound crypto trusted events active) (he : LoadsEnvelope crypto trusted active e) :
    GateSound crypto trusted (events ++ [e]) (e.step crypto trusted active) := by
  intro b hb
  rw [lastLook_concat]
  cases hresult : e.result crypto trusted with
  | ok payload =>
    have hread := result_ok hresult
    obtain rfl : b = ⟨payload, true⟩ := by
      cases e <;> simpa [LicenseEvent.step, hresult, eq_comm] using hb
    exact ⟨read_ok hread, fun _ => by rw [hread, Option.some_or]⟩
  | error err =>
    -- a look that did not happen leaves the last one as it was
    have hkept : (∀ r ∈ e.read crypto trusted, r ≠ .error err) →
        (e.read crypto trusted).or (lastLook crypto trusted events) = lastLook crypto trusted events := by
      intro hnot
      cases hread : e.read crypto trusted with
      | none => rfl
      | some r => exact absurd (result_of_read hread ▸ hresult) (hnot r hread)
    cases e with
    | load key vault table =>
      have hb' : b ∈ active := by simpa [LicenseEvent.step, hresult] using hb
      refine ⟨(h b hb').1, fun hopen => ?_⟩
      rw [hkept, (h b hb').2 hopen]
      intro r hr hbad
      rcases he with hclosed | hgood
      · rw [hclosed b hb'] at hopen
        contradiction
      · obtain ⟨p, rfl⟩ := hgood r hr
        contradiction
    | periodic vault table =>
      cases err with
      | verification code =>
        obtain ⟨b', hb', rfl⟩ : ∃ b' ∈ active, { b' with signatureOk := false } = b := by
          simpa [LicenseEvent.step, hresult] using hb
        exact ⟨(h b' hb').1, fun hopen => absurd hopen (by simp)⟩
      | unexpected =>
        have hb' : b ∈ active := by simpa [LicenseEvent.step, hresult] using hb
        refine ⟨(h b hb').1, fun hopen => ?_⟩
        rw [hkept, (h b hb').2 hopen]
        rintro r hr rfl
        obtain ⟨code, hcode⟩ := read_periodic_error he hr
        contradiction

theorem isEnabled_true {active : Option ActiveBundle} {now : Wall} {flag : String}
    (hflag : flag ≠ "license_inspector") (h : isEnabled active now flag = .ok true) :
    ∃ b ∈ active, b.signatureOk = true ∧
      (∀ t ∈ b.payload.expiresAt, ∃ expiry ∈ Timestamp.instant t, (now.micros : Int) < expiry) ∧
      ∃ row ∈ b.payload.featureFlags, row.flagName = flag ∧ row.enabled = true := by
  unfold isEnabled at h
  split at h
  · contradiction
  · split at h
    · simp [hflag] at h
    · rename_i b
      refine ⟨b, rfl, ?_⟩
      split at h
      · contradiction
      · simp [hflag] at h
      · rename_i hvalid
        unfold ActiveBundle.isCurrentlyValid at hvalid
        split at hvalid
        · contradiction
        · rename_i hopen
          refine ⟨Bool.eq_true_of_not_eq_false hopen, ?_, ?_⟩
          · intro t ht
            rw [Option.mem_def.mp ht] at hvalid
            dsimp only at hvalid
            split at hvalid
            · contradiction
            · rename_i expiry hexpiry
              exact ⟨expiry, hexpiry, of_decide_eq_true (Except.ok.inj hvalid)⟩
          · split at h
            · rename_i row hfind
              refine ⟨row, List.mem_of_find?_eq_some hfind, ?_, Except.ok.inj h⟩
              simpa using List.find?_some hfind
            · simp [hflag] at h

/-- What the gate promises of a flag it lets through. -/
structure Granted (crypto : Crypto) (trusted : List Char) (events : List LicenseEvent)
    (active : Option ActiveBundle) (now : Wall) (flag : String) : Prop where
  /-- The payload was verified, grants the flag and has not expired. -/
  payload : ∃ b ∈ active, VerifiedUnder crypto trusted b.payload ∧
    (∃ row ∈ b.payload.featureFlags, row.flagName = flag ∧ row.enabled = true) ∧
    ∀ t ∈ b.payload.expiresAt, ∃ expiry ∈ Timestamp.instant t, (now.micros : Int) < expiry
  /-- The last look at the table verified a bundle. -/
  lastLook : ∃ p, lastLook crypto trusted events = some (.ok p)

/-- Along every run whose rows are envelopes, a flag is enabled only on a verified
payload that grants it, has not expired and was found at the last look at the table. -/
theorem enabled_flag_granted {events : List LicenseEvent} {active : Option ActiveBundle}
    (h : Run (fun a e a' => LoadsEnvelope crypto trusted a e ∧ e.step crypto trusted a = a') none
      events active) {now : Wall} {flag : String} (hflag : flag ≠ "license_inspector")
    (henabled : isEnabled active now flag = .ok true) :
    Granted crypto trusted events active now flag := by
  have hsound : GateSound crypto trusted events active := by
    refine h.invariant (I := GateSound crypto trusted) (fun b hb => by cases hb) ?_
    rintro es a a' e ha ⟨he, rfl⟩
    exact ha.step he
  obtain ⟨b, hb, hopen, hexpiry, hrow⟩ := isEnabled_true hflag henabled
  exact ⟨⟨b, hb, (hsound b hb).1, hrow, hexpiry⟩, ⟨b.payload, (hsound b hb).2 hopen⟩⟩

end

/-! ## Two runs -/

def vendorKey : Bytes := [
  0xd7, 0x5a, 0x98, 0x01, 0x82, 0xb1, 0x0a, 0xb7, 0xd5, 0x4b, 0xfe, 0xd3, 0xc9, 0x64, 0x07,
  0x3a, 0x0e, 0xe1, 0x72, 0xf3, 0xda, 0xa6, 0x23, 0x25, 0xaf, 0x02, 0x1a, 0x68, 0xf7, 0x07,
  0x51, 0x1a]

def federationPayload : LicenseBundlePayload :=
  ⟨bundlePayloadVersion, "hub-1", .team, "b1",
    ⟨⟨63914702400000000, noonMay18_lt_maxWall⟩, some 0, utcOffset_lt⟩, none, [⟨"federation", true, none, none⟩], none⟩

/-- The canonical bytes of `federationPayload`. -/
def federationBytes : Bytes := encodeUtf8 ('{' :: (
  "\"bundle_id\":\"b1\",\"customer\":\"hub-1\",\"expires_at\":null,\"feature_flags\":[\x7b\"enabled\":true,".toList ++
  ("\"flag_name\":\"federation\",\"quota_unit\":null,\"quota_value\":null\x7d],\"issued_at\":".toList ++
  "\"2026-05-18T12:00:00Z\",\"notes\":null,\"payload_version\":\"license-bundle-v1\",\"tier\":\"team\"\x7d".toList)))

/-- The vendor's Ed25519 signature of them. -/
def federationSignature : Bytes := [
  0xfd, 0x17, 0xf4, 0x1e, 0xf4, 0x94, 0xbe, 0x68, 0xb8, 0x5c, 0x44, 0x94, 0xd3, 0x9e, 0xcb,
  0x41, 0xbc, 0xcd, 0xf8, 0xab, 0x36, 0x90, 0x4d, 0x99, 0x90, 0xda, 0xc8, 0x1e, 0xe4, 0x31,
  0xa4, 0x96, 0xc5, 0x25, 0x84, 0xe1, 0xa5, 0xa7, 0x76, 0x01, 0xe0, 0xd1, 0x81, 0x9a, 0x93,
  0xb1, 0x4e, 0xbe, 0xb9, 0x51, 0x81, 0x84, 0x06, 0xe3, 0xff, 0x65, 0x6e, 0x3f, 0xf9, 0x36,
  0x9c, 0x58, 0xe9, 0x08]

/-- Verification and parsing as they answer on that bundle. -/
def federationCrypto : Crypto where
  available := true
  verify key signature message :=
    key == vendorKey && signature == federationSignature && message == federationBytes
  parsePayload message := if message = federationBytes then some federationPayload else none

def federationRow : BundleRow :=
  ⟨federationBytes, federationSignature, String.ofList (keyFingerprint vendorKey),
    ⟨63914702400000000, noonMay18_lt_maxWall⟩, none⟩

/-- A row issued later whose fingerprint is not one. -/
def malformedRow : BundleRow :=
  ⟨[0x7b, 0x7d], [0x00], "vendor", ⟨63914702400000001, by decide⟩, none⟩

theorem vendorKey_fingerprint :
    (keyFingerprint vendorKey).map Char.toLower = keyFingerprint vendorKey ∧
      stripWith isWhite (keyFingerprint vendorKey) = keyFingerprint vendorKey ∧
      (keyFingerprint vendorKey).length = 64 ∧ (keyFingerprint vendorKey).all lowerHex = true := by
  decide +kernel

theorem signedLicenseBundle_eq {row : BundleRow} {fp : List Char} (hpayload : row.signedPayload ≠ [])
    (hsignature : row.signature ≠ [])
    (hfp : stripWith isWhite (row.signingKeyFingerprint.toList.map Char.toLower) = fp)
    (hlength : fp.length = 64) (hhex : fp.all lowerHex = true) :
    signedLicenseBundle row =
      some ⟨Base64.encode row.signedPayload, Base64.encode row.signature, fp⟩ := by
  rw [ne_eq, ← Base64.encode_eq_nil] at hpayload hsignature
  subst hfp
  exact if_pos ⟨hpayload, hsignature, hlength, hhex⟩

theorem verifySignature_eq {crypto : Crypto} {row : BundleRow} {key : Bytes}
    (havailable : crypto.available = true)
    (hlower : (keyFingerprint key).map Char.toLower = keyFingerprint key) :
    verifySignature crypto (keyFingerprint key)
        ⟨Base64.encode row.signedPayload, Base64.encode row.signature, keyFingerprint key⟩ key =
      verifyPayload crypto key row.signature row.signedPayload := by
  rw [verifySignature, if_neg (by simp [havailable]), if_neg (not_not.mpr hlower),
    if_neg (not_not.mpr rfl), Base64.decode_encode, Base64.decode_encode]

theorem verifyTable_federation :
    verifyTable federationCrypto (keyFingerprint vendorKey) vendorKey [federationRow] =
      .ok federationPayload := by
  obtain ⟨hlower, hstrip, hlength, hhex⟩ := vendorKey_fingerprint
  have hrow : activeRow [federationRow] = some federationRow := rfl
  have hfp : stripWith isWhite (federationRow.signingKeyFingerprint.toList.map Char.toLower) =
      keyFingerprint vendorKey := by
    rw [federationRow, String.toList_ofList, hlower, hstrip]
  have henvelope := signedLicenseBundle_eq (List.cons_ne_nil _ _) (List.cons_ne_nil _ _) hfp
    hlength hhex
  have hverify : federationCrypto.verify vendorKey federationSignature federationBytes = true := by
    simp [federationCrypto]
  have hparse : federationCrypto.parsePayload federationBytes = some federationPayload := by
    simp [federationCrypto]
  rw [verifyTable, hrow]
  dsimp only
  rw [henvelope]
  dsimp only
  rw [verifySignature_eq rfl hlower, verifyPayload, if_neg (by decide), federationRow, hverify,
    if_neg (by decide), hparse]
  exact if_neg (not_not.mpr rfl)

/-- The startup load with the vendor's key. -/
def startupLoad : LicenseEvent := .load (some vendorKey) .raises (some [federationRow])

theorem startupLoad_read :
    startupLoad.read federationCrypto (keyFingerprint vendorKey) = some (.ok federationPayload) :=
  congrArg some verifyTable_federation

theorem federation_enabled :
    isEnabled (some ⟨federationPayload, true⟩) ⟨0, by decide⟩ "federation" = .ok true := by
  simp [isEnabled, knownFeatureFlags, ActiveBundle.isCurrentlyValid, federationPayload]

/-- After the startup load the flag of the bundle is granted. -/
theorem enabled_flag_granted_startup :
    Granted federationCrypto (keyFingerprint vendorKey) [startupLoad]
      (some ⟨federationPayload, true⟩) ⟨0, by decide⟩ "federation" :=
  have hload : LoadsEnvelope federationCrypto (keyFingerprint vendorKey) none startupLoad :=
    Or.inl fun _ hb => by cases hb
  enabled_flag_granted (Run.start.snoc ⟨hload, step_of_read_ok startupLoad_read none⟩) (by decide)
    federation_enabled

/-- A malformed row is looked at, and the gate stays open. -/
theorem malformed_row_keeps_gate_open :
    ¬ ∀ (crypto : Crypto) (trusted : List Char) (events : List LicenseEvent)
      (active : Option ActiveBundle) (now : Wall) (flag : String),
      Run (fun a e a' => e.step crypto trusted a = a') none events active →
      flag ≠ "license_inspector" → isEnabled active now flag = .ok true →
        Granted crypto trusted events active now flag := by
  intro h
  let vault : VaultAnswer := .secret (String.ofList (hex vendorKey))
  have hkey : fetchVendorPublicKey vault = .ok vendorKey := by decide +kernel
  have hread : LicenseEvent.read federationCrypto (keyFingerprint vendorKey)
      (.periodic vault (some [federationRow, malformedRow])) = some (.error .unexpected) := by
    have hrow : activeRow [federationRow, malformedRow] = some malformedRow := rfl
    have hmalformed : signedLicenseBundle malformedRow = none := rfl
    simp only [LicenseEvent.read, hkey, verifyTable, hrow, hmalformed]
  obtain ⟨p, hp⟩ := (h federationCrypto (keyFingerprint vendorKey) _ _ ⟨0, by decide⟩ "federation"
    ((Run.start.snoc (step_of_read_ok startupLoad_read none)).snoc
      (step_of_read_unexpected hread _)) (by decide) federation_enabled).lastLook
  rw [lastLook_concat, hread, Option.some_or] at hp
  cases hp

end SpineFormal.License
