import SpineFormal.Base.Sha256
import SpineFormal.Base.TextFields
import SpineFormal.Json.Text

/-!
# Two-party attestation

`evidence/two_party_attestation.py`: one digest over the canonical payload and
two signatures, written one after the other. The payload is delimited by its own
closing brace. Nothing delimits the first signature from the second.
-/

namespace SpineFormal.Evidence

open Json
set_option autoImplicit false

inductive EvidenceType where
  | policyDoc
  | accessReview
  | scanResult
  | testRun
  | configSnapshot

def EvidenceType.text : EvidenceType → String
  | .policyDoc => "policy_doc"
  | .accessReview => "access_review"
  | .scanResult => "scan_result"
  | .testRun => "test_run"
  | .configSnapshot => "config_snapshot"

/-- The fields of `EvidencePayload` that are hashed; `collectedAt` is the capture
time on the UTC clock, the only form in which it is used. -/
structure EvidencePayload where
  framework : String
  controlId : String
  evidenceType : EvidenceType
  sourceAuditRecordId : Option String
  collectedAt : Wall
  body : Members

def EvidencePayload.members (p : EvidencePayload) : Members :=
  [("framework", .str p.framework), ("control_id", .str p.controlId),
   ("evidence_type", .str p.evidenceType.text),
   ("source_audit_record_id", p.sourceAuditRecordId.elim .null .str),
   ("collected_at", .str (String.ofList p.collectedAt.isoformatUtc)), ("body", .obj p.body)]

/-- `canonical_json`, before it is encoded to bytes. -/
def EvidencePayload.canonicalJson (p : EvidencePayload) : List Char := dumps (.obj p.members)

/-- The bytes fed to the hash. -/
def attestationMessage (p : EvidencePayload) (a b : Bytes) : Bytes :=
  encodeUtf8 p.canonicalJson ++ (a ++ b)

def computeAttestationHash (p : EvidencePayload) (a b : Bytes) : Bytes :=
  sha256 (attestationMessage p a b)

def verifyAttestation (p : EvidencePayload) (a b expectedHash : Bytes) : Bool :=
  decide (computeAttestationHash p a b = expectedHash)

theorem encodeUtf8_encode_inj {ms ms' : Members} {x y : Bytes}
    (h : encodeUtf8 (encode (.obj ms)) ++ x = encodeUtf8 (encode (.obj ms')) ++ y) :
    ms = ms' ∧ x = y := by
  have hascii : ∀ v : Value, ∀ c ∈ encode v, c.toNat < 128 := by
    intro v c hc
    have hprint := printable_encode v c hc
    unfold Printable at hprint
    omega
  have hchars := congrArg latin1 h
  rw [latin1_append, latin1_append, latin1_encodeUtf8 (hascii _), latin1_encodeUtf8 (hascii _)] at hchars
  obtain ⟨hms, htail⟩ := encode_obj_append_inj hchars
  exact ⟨hms, latin1_injective htail⟩

/-- The message determines the canonical payload and the signatures taken together. -/
theorem attestationMessage_inj_iff (p p' : EvidencePayload) (a b a' b' : Bytes) :
    attestationMessage p a b = attestationMessage p' a' b' ↔
      p.canonicalJson = p'.canonicalJson ∧ a ++ b = a' ++ b' := by
  constructor
  · intro h
    obtain ⟨ms, hms, _⟩ := sortKeys_obj p.members
    obtain ⟨ms', hms', _⟩ := sortKeys_obj p'.members
    simp only [attestationMessage, EvidencePayload.canonicalJson, dumps, hms, hms'] at h ⊢
    obtain ⟨rfl, htail⟩ := encodeUtf8_encode_inj h
    exact ⟨rfl, htail⟩
  · rintro ⟨hp, hab⟩
    rw [attestationMessage, attestationMessage, hp, hab]

theorem verifyAttestation_iff {p p' : EvidencePayload} {a b a' b' : Bytes}
    (hcf : CollisionFreeOn {attestationMessage p a b, attestationMessage p' a' b'}) :
    verifyAttestation p a b (computeAttestationHash p' a' b') = true ↔
      p.canonicalJson = p'.canonicalJson ∧ a ++ b = a' ++ b' := by
  rw [← attestationMessage_inj_iff, verifyAttestation, decide_eq_true_eq]
  constructor
  · exact fun h => hcf (Set.mem_insert _ _) (Set.mem_insert_of_mem _ rfl) h
  · exact fun h => congrArg sha256 h

/-- The hash binds the payload and each signature. -/
def Binds (p p' : EvidencePayload) (a b a' b' : Bytes) : Prop :=
  verifyAttestation p a b (computeAttestationHash p' a' b') = true ↔
    a = a' ∧ b = b' ∧ p.canonicalJson = p'.canonicalJson

/-- The stored hash binds each part exactly when, under one payload, the border
between the two signatures cannot have been moved. -/
theorem attestation_binds_iff {p p' : EvidencePayload} {a b a' b' : Bytes}
    (hcf : CollisionFreeOn {attestationMessage p a b, attestationMessage p' a' b'}) :
    Binds p p' a b a' b' ↔
      (p.canonicalJson = p'.canonicalJson → a ++ b = a' ++ b' → a = a') := by
  rw [Binds, verifyAttestation_iff hcf]
  constructor
  · intro h hp hab
    exact (h.mp ⟨hp, hab⟩).1
  · intro h
    constructor
    · rintro ⟨hp, hab⟩
      obtain rfl := h hp hab
      exact ⟨rfl, List.append_cancel_left hab, hp⟩
    · rintro ⟨rfl, rfl, hp⟩
      exact ⟨hp, rfl⟩

/-- A SOC2 access review of 18 May 2026. -/
def samplePayload : EvidencePayload where
  framework := "SOC2"
  controlId := "CC6.1"
  evidenceType := .accessReview
  sourceAuditRecordId := none
  collectedAt := ⟨63914702400000000, noonMay18_lt_maxWall⟩
  body := [("reviewed", .int 3)]

theorem attestation_binds_sample : Binds samplePayload samplePayload [0x41] [0x42] [0x41] [0x42] :=
  (attestation_binds_iff (collisionFreeOn_same _)).mpr fun _ _ => rfl

/-- The attestors are exchanged and the hash stays: `A`, `AA` and `AA`, `A`. -/
theorem attestation_survives_swap :
    ¬ ∀ (p p' : EvidencePayload) (a b a' b' : Bytes),
      CollisionFreeOn {attestationMessage p a b, attestationMessage p' a' b'} →
        Binds p p' a b a' b' := by
  intro h
  have hsame : attestationMessage samplePayload [0x41] [0x41, 0x41] =
      attestationMessage samplePayload [0x41, 0x41] [0x41] := rfl
  have hbinds := h samplePayload samplePayload [0x41] [0x41, 0x41] [0x41, 0x41] [0x41]
    (hsame ▸ collisionFreeOn_same _)
  have hverify : verifyAttestation samplePayload [0x41] [0x41, 0x41]
      (computeAttestationHash samplePayload [0x41, 0x41] [0x41]) = true := by
    rw [verifyAttestation, computeAttestationHash, hsame, computeAttestationHash, decide_eq_true_eq]
  exact absurd (hbinds.mp hverify).1 (by decide)

end SpineFormal.Evidence
