import SpineFormal.Base.HashChain
import SpineFormal.Base.Sha256
import SpineFormal.Base.TextFields
import SpineFormal.Json.Record

/-!
# Decision ledger entries

The records of `shared/audit/decision_ledger.py`, the document `model_dump`
makes of them, and their content hash. Field constraints are part of the types.
An entry is determined by the document without its `content_hash`, which is what
the hash covers, so a verified chain of entries is determined by its last hash.
-/

namespace SpineFormal.Audit

open Json
set_option autoImplicit false

inductive DecisionMark where
  | accept
  | watch
  | reject
  | decay
  | replay
  deriving DecidableEq

inductive PromotionVerdict where
  | allowed
  | denied
  deriving DecidableEq

inductive WorkItemTier where
  | paper
  | preview
  | internal
  | production
  | destructive
  deriving DecidableEq

def DecisionMark.text : DecisionMark → String
  | .accept => "accept"
  | .watch => "watch"
  | .reject => "reject"
  | .decay => "decay"
  | .replay => "replay"

def DecisionMark.all : List DecisionMark := [.accept, .watch, .reject, .decay, .replay]

def PromotionVerdict.text : PromotionVerdict → String
  | .allowed => "allowed"
  | .denied => "denied"

def WorkItemTier.text : WorkItemTier → String
  | .paper => "paper"
  | .preview => "preview"
  | .internal => "internal"
  | .production => "production"
  | .destructive => "destructive"

def WorkItemTier.all : List WorkItemTier := [.paper, .preview, .internal, .production, .destructive]

/-- A string field with `min_length=1`. -/
abbrev NonemptyText := { s : String // s ≠ "" }

structure Candidate where
  candidateId : NonemptyText
  mark : DecisionMark
  score : Option PyFloat
  rationale : Option String

structure CoherenceMark where
  ensembleMatchesPriorWinner : Option Bool
  recursiveMatchesPriorWinner : Option Bool
  latestRolloutMatch : Option Bool
  driftDetected : Bool
  notes : Option String

structure PromotionGate where
  verdict : PromotionVerdict
  tier : WorkItemTier
  freshnessPassed : Bool
  replayPassed : Bool
  operatorConfirmed : Bool
  reasons : List String

def PromotionGate.evaluate (tier : WorkItemTier) (freshnessPassed replayPassed operatorConfirmed : Bool) :
    PromotionGate :=
  let stale := if freshnessPassed then [] else ["freshness_stale"]
  let failed := if replayPassed then [] else ["replay_failed"]
  let unconfirmed := if operatorConfirmed then [] else ["operator_not_confirmed"]
  let reasons :=
    match tier with
    | .paper | .preview => []
    | .internal => stale
    | .production => stale ++ failed
    | .destructive => stale ++ (failed ++ unconfirmed)
  ⟨if reasons = [] then .allowed else .denied, tier, freshnessPassed, replayPassed,
    operatorConfirmed, reasons⟩

structure LedgerEntry where
  entryId : Uuid
  projectId : NonemptyText
  runId : NonemptyText
  actor : NonemptyText
  rolloutIndex : Nat
  ts : Timestamp
  freshEvidence : List String
  searchSpaceSize : Option Int
  trialCount : { n : Nat // 1 ≤ n }
  effectiveTrialCount : Option Int
  candidates : List Candidate
  priorAcceptedWinner : Option String
  priorWatchlist : List String
  coherence : CoherenceMark
  promotionGate : PromotionGate
  prevHash : Option String
  contentHash : Option String

/-! ## Documents -/

/-- A closed set of string values. -/
def enumCodec {α : Type} (all : List α) (text : α → String)
    (law : ∀ a, all.find? (fun b => text b == text a) = some a) : Codec α where
  dump a := .str (text a)
  read
    | .str s => all.find? fun b => text b == s
    | _ => none
  read_dump := law

def markCodec : Codec DecisionMark :=
  enumCodec DecisionMark.all DecisionMark.text (by intro a; cases a <;> decide)

def verdictCodec : Codec PromotionVerdict :=
  enumCodec [.allowed, .denied] PromotionVerdict.text (by intro a; cases a <;> decide)

def tierCodec : Codec WorkItemTier :=
  enumCodec WorkItemTier.all WorkItemTier.text (by intro a; cases a <;> decide)

def optStr : Codec (Option String) := Codec.str.option fun _ => by simp [Codec.str, Value.sortKeys]

def optInt : Codec (Option Int) := Codec.int.option fun _ => by simp [Codec.int, Value.sortKeys]

def optBool : Codec (Option Bool) := Codec.bool.option fun _ => by simp [Codec.bool, Value.sortKeys]

def optFloat : Codec (Option PyFloat) :=
  Codec.float.option fun _ => by simp [Codec.float, Value.sortKeys]

def nonemptyText : Codec NonemptyText := Codec.str.subtype fun s => s ≠ ""

def strings : Codec (List String) := Codec.str.list

def uuidCodec : Codec Uuid := .text Uuid.text Uuid.read Uuid.read_text

def timestampCodec : Codec Timestamp := .text Timestamp.text Timestamp.read Timestamp.read_text

def positive : Codec { n : Nat // 1 ≤ n } := Codec.nat.subtype fun n => 1 ≤ n

def Candidate.members (c : Candidate) : Members :=
  [("candidate_id", nonemptyText.dump c.candidateId), ("mark", markCodec.dump c.mark),
   ("score", optFloat.dump c.score), ("rationale", optStr.dump c.rationale)]

def Candidate.read (v : Value) : Option Candidate := do
  let candidateId ← readField v "candidate_id" nonemptyText
  let mark ← readField v "mark" markCodec
  let score ← readField v "score" optFloat
  let rationale ← readField v "rationale" optStr
  return ⟨candidateId, mark, score, rationale⟩

def candidateCodec : Codec Candidate where
  dump c := .obj c.members
  read := Candidate.read
  read_dump c := by
    have hd : (c.members.map Prod.fst).Nodup := by simp [Candidate.members]
    simp [Candidate.read, readField_sortKeys hd "candidate_id" nonemptyText rfl,
      readField_sortKeys hd "mark" markCodec rfl, readField_sortKeys hd "score" optFloat rfl,
      readField_sortKeys hd "rationale" optStr rfl]

def CoherenceMark.members (c : CoherenceMark) : Members :=
  [("ensemble_matches_prior_winner", optBool.dump c.ensembleMatchesPriorWinner),
   ("recursive_matches_prior_winner", optBool.dump c.recursiveMatchesPriorWinner),
   ("latest_rollout_match", optBool.dump c.latestRolloutMatch),
   ("drift_detected", Codec.bool.dump c.driftDetected), ("notes", optStr.dump c.notes)]

def CoherenceMark.read (v : Value) : Option CoherenceMark := do
  let ensemble ← readField v "ensemble_matches_prior_winner" optBool
  let recursive ← readField v "recursive_matches_prior_winner" optBool
  let latest ← readField v "latest_rollout_match" optBool
  let drift ← readField v "drift_detected" Codec.bool
  let notes ← readField v "notes" optStr
  return ⟨ensemble, recursive, latest, drift, notes⟩

def coherenceCodec : Codec CoherenceMark where
  dump c := .obj c.members
  read := CoherenceMark.read
  read_dump c := by
    have hd : (c.members.map Prod.fst).Nodup := by simp [CoherenceMark.members]
    simp [CoherenceMark.read, readField_sortKeys hd "ensemble_matches_prior_winner" optBool rfl,
      readField_sortKeys hd "recursive_matches_prior_winner" optBool rfl,
      readField_sortKeys hd "latest_rollout_match" optBool rfl,
      readField_sortKeys hd "drift_detected" Codec.bool rfl,
      readField_sortKeys hd "notes" optStr rfl]

def PromotionGate.members (g : PromotionGate) : Members :=
  [("verdict", verdictCodec.dump g.verdict), ("tier", tierCodec.dump g.tier),
   ("freshness_passed", Codec.bool.dump g.freshnessPassed),
   ("replay_passed", Codec.bool.dump g.replayPassed),
   ("operator_confirmed", Codec.bool.dump g.operatorConfirmed),
   ("reasons", strings.dump g.reasons)]

def PromotionGate.read (v : Value) : Option PromotionGate := do
  let verdict ← readField v "verdict" verdictCodec
  let tier ← readField v "tier" tierCodec
  let freshness ← readField v "freshness_passed" Codec.bool
  let replay ← readField v "replay_passed" Codec.bool
  let operator ← readField v "operator_confirmed" Codec.bool
  let reasons ← readField v "reasons" strings
  return ⟨verdict, tier, freshness, replay, operator, reasons⟩

def gateCodec : Codec PromotionGate where
  dump g := .obj g.members
  read := PromotionGate.read
  read_dump g := by
    have hd : (g.members.map Prod.fst).Nodup := by simp [PromotionGate.members]
    simp [PromotionGate.read, readField_sortKeys hd "verdict" verdictCodec rfl,
      readField_sortKeys hd "tier" tierCodec rfl,
      readField_sortKeys hd "freshness_passed" Codec.bool rfl,
      readField_sortKeys hd "replay_passed" Codec.bool rfl,
      readField_sortKeys hd "operator_confirmed" Codec.bool rfl,
      readField_sortKeys hd "reasons" strings rfl]

/-- `model_dump(mode="json", exclude={"content_hash"})`. -/
def LedgerEntry.payload (e : LedgerEntry) : Members :=
  [("entry_id", uuidCodec.dump e.entryId), ("project_id", nonemptyText.dump e.projectId),
   ("run_id", nonemptyText.dump e.runId), ("actor", nonemptyText.dump e.actor),
   ("rollout_index", Codec.nat.dump e.rolloutIndex), ("ts", timestampCodec.dump e.ts),
   ("fresh_evidence", strings.dump e.freshEvidence),
   ("search_space_size", optInt.dump e.searchSpaceSize),
   ("trial_count", positive.dump e.trialCount),
   ("effective_trial_count", optInt.dump e.effectiveTrialCount),
   ("candidates", candidateCodec.list.dump e.candidates),
   ("prior_accepted_winner", optStr.dump e.priorAcceptedWinner),
   ("prior_watchlist", strings.dump e.priorWatchlist),
   ("coherence", coherenceCodec.dump e.coherence),
   ("promotion_gate", gateCodec.dump e.promotionGate), ("prev_hash", optStr.dump e.prevHash)]

/-- `model_dump(mode="json")`. -/
def LedgerEntry.members (e : LedgerEntry) : Members :=
  e.payload ++ [("content_hash", optStr.dump e.contentHash)]

def LedgerEntry.read (v : Value) : Option LedgerEntry := do
  let entryId ← readField v "entry_id" uuidCodec
  let projectId ← readField v "project_id" nonemptyText
  let runId ← readField v "run_id" nonemptyText
  let actor ← readField v "actor" nonemptyText
  let rolloutIndex ← readField v "rollout_index" Codec.nat
  let ts ← readField v "ts" timestampCodec
  let freshEvidence ← readField v "fresh_evidence" strings
  let searchSpaceSize ← readField v "search_space_size" optInt
  let trialCount ← readField v "trial_count" positive
  let effectiveTrialCount ← readField v "effective_trial_count" optInt
  let candidates ← readField v "candidates" candidateCodec.list
  let priorAcceptedWinner ← readField v "prior_accepted_winner" optStr
  let priorWatchlist ← readField v "prior_watchlist" strings
  let coherence ← readField v "coherence" coherenceCodec
  let promotionGate ← readField v "promotion_gate" gateCodec
  let prevHash ← readField v "prev_hash" optStr
  let contentHash ← readOptional v "content_hash" optStr
  return ⟨entryId, projectId, runId, actor, rolloutIndex, ts, freshEvidence, searchSpaceSize,
    trialCount, effectiveTrialCount, candidates, priorAcceptedWinner, priorWatchlist, coherence,
    promotionGate, prevHash, contentHash⟩

/-- Reading sees only the fields: any document that holds the payload is read to
the entry, with the content hash it carries. -/
theorem LedgerEntry.read_of_payload (e : LedgerEntry) (extra : Members) (h : Option String)
    (hd : ((e.payload ++ extra).map Prod.fst).Nodup)
    (hh : readOptional (Value.obj (e.payload ++ extra)).sortKeys "content_hash" optStr = some h) :
    read (Value.obj (e.payload ++ extra)).sortKeys = some { e with contentHash := h } := by
  simp [read, readField_sortKeys hd "entry_id" uuidCodec rfl,
    readField_sortKeys hd "project_id" nonemptyText rfl,
    readField_sortKeys hd "run_id" nonemptyText rfl,
    readField_sortKeys hd "actor" nonemptyText rfl,
    readField_sortKeys hd "rollout_index" Codec.nat rfl,
    readField_sortKeys hd "ts" timestampCodec rfl,
    readField_sortKeys hd "fresh_evidence" strings rfl,
    readField_sortKeys hd "search_space_size" optInt rfl,
    readField_sortKeys hd "trial_count" positive rfl,
    readField_sortKeys hd "effective_trial_count" optInt rfl,
    readField_sortKeys hd "candidates" candidateCodec.list rfl,
    readField_sortKeys hd "prior_accepted_winner" optStr rfl,
    readField_sortKeys hd "prior_watchlist" strings rfl,
    readField_sortKeys hd "coherence" coherenceCodec rfl,
    readField_sortKeys hd "promotion_gate" gateCodec rfl,
    readField_sortKeys hd "prev_hash" optStr rfl, hh]

theorem LedgerEntry.payload_nodup (e : LedgerEntry) : (e.payload.map Prod.fst).Nodup := by
  simp [payload]

theorem LedgerEntry.members_nodup (e : LedgerEntry) : (e.members.map Prod.fst).Nodup := by
  simp [members, payload]

/-- Entries in the form in which the ledger file holds them. -/
def entryCodec : Codec LedgerEntry where
  dump e := .obj e.members
  read := LedgerEntry.read
  read_dump e :=
    e.read_of_payload _ _ e.members_nodup (readOptional_sortKeys e.members_nodup "content_hash" optStr rfl)

theorem LedgerEntry.read_payload (e : LedgerEntry) :
    read (Value.obj e.payload).sortKeys = some { e with contentHash := none } := by
  have h := e.read_of_payload [] none
  rw [List.append_nil] at h
  exact h e.payload_nodup (readOptional_missing e.payload_nodup "content_hash" optStr rfl)

/-! ## Content hash and chain -/

/-- What `compute_content_hash` hashes. -/
def LedgerEntry.canonical (e : LedgerEntry) : List Char := dumps (.obj e.payload)

def LedgerEntry.computeContentHash (e : LedgerEntry) : String := hexdigest e.canonical

/-- The canonical text determines every field but the hash. -/
theorem LedgerEntry.canonical_inj {e e' : LedgerEntry} (h : e.canonical = e'.canonical) :
    { e with contentHash := none } = { e' with contentHash := none } := by
  have hread := e.read_payload
  rw [encode_injective h, e'.read_payload] at hread
  exact (Option.some.inj hread).symm

/-- `f"entry {idx}: {field} mismatch"`. -/
def mismatchReason (idx : Nat) (field : String) : String :=
  "entry " ++ toString idx ++ ": " ++ field ++ " mismatch"

/-- The loop of `verify_chain`, from entry number `idx` on. -/
def verifyFrom : Option String → Nat → List LedgerEntry → Bool × Option String
  | _, _, [] => (true, none)
  | prevHash, idx, e :: es =>
    if e.prevHash ≠ prevHash then (false, some (mismatchReason idx "prev_hash"))
    else if e.contentHash ≠ some e.computeContentHash then
      (false, some (mismatchReason idx "content_hash"))
    else verifyFrom e.contentHash (idx + 1) es

/-- `verify_chain` on the entries it iterates over. -/
def verifyEntries (es : List LedgerEntry) : Bool × Option String := verifyFrom none 0 es

/-- The entry names its predecessor and carries its own hash. -/
def Chained (prevHash : Option String) (e : LedgerEntry) : Prop :=
  e.prevHash = prevHash ∧ e.contentHash = some e.computeContentHash

/-- The two `model_copy` steps of `append`. -/
def LedgerEntry.chain (e : LedgerEntry) (prevHash : Option String) : LedgerEntry :=
  { e with prevHash := prevHash,
           contentHash := some ({ e with prevHash := prevHash } : LedgerEntry).computeContentHash }

theorem LedgerEntry.chain_chained (e : LedgerEntry) (prevHash : Option String) :
    Chained prevHash (e.chain prevHash) := ⟨rfl, rfl⟩

theorem verifyFrom_ok_iff (prevHash : Option String) (idx : Nat) (es : List LedgerEntry) :
    verifyFrom prevHash idx es = (true, none) ↔
      Linked Chained LedgerEntry.contentHash prevHash es := by
  induction es generalizing prevHash idx with
  | nil => simp [verifyFrom, Linked]
  | cons e es ih =>
    simp only [verifyFrom, Linked, Chained]
    split_ifs with hprev hhash
    · simp [hprev]
    · simp [hhash]
    · simp only [ne_eq, not_not] at hprev hhash
      rw [ih]
      simp [hprev, hhash]

theorem contentHash_of_linked {root : Option String} {es : List LedgerEntry}
    (h : Linked Chained LedgerEntry.contentHash root es) :
    ∀ e ∈ es, e.contentHash = some e.computeContentHash := by
  intro e he
  obtain ⟨p, hp⟩ := h.exists_fits e he
  exact hp.2

/-- Entries with the same content hash are the same entry, unless their texts collide. -/
theorem Chained.determined {messages : Set Bytes} (hcf : CollisionFreeOn messages)
    {e e' : LedgerEntry} {p p' : Option String} (he : encodeUtf8 e.canonical ∈ messages)
    (he' : encodeUtf8 e'.canonical ∈ messages) (h : Chained p e) (h' : Chained p' e')
    (htip : e.contentHash = e'.contentHash) : e = e' ∧ p = p' := by
  have hhash : e.computeContentHash = e'.computeContentHash := by
    rw [h.2, h'.2] at htip
    exact Option.some.inj htip
  have hfields := LedgerEntry.canonical_inj (hexdigest_inj hcf he he' hhash)
  have heq : e = e' :=
    calc e = { ({ e with contentHash := none } : LedgerEntry) with contentHash := e.contentHash } := rfl
      _ = { ({ e' with contentHash := none } : LedgerEntry) with contentHash := e'.contentHash } := by
        rw [hfields, htip]
      _ = e' := rfl
  exact ⟨heq, by rw [← h.1, ← h'.1, heq]⟩

/-- Two verified ledgers whose last entries carry the same hash are the same,
entry by entry. -/
theorem verified_entries_determined {es es' : List LedgerEntry} (hne : es ≠ []) (hne' : es' ≠ [])
    (h : verifyEntries es = (true, none)) (h' : verifyEntries es' = (true, none))
    (hlast : (es.getLast hne).contentHash = (es'.getLast hne').contentHash)
    (hcf : CollisionFreeOn {m | ∃ e ∈ es ++ es', m = encodeUtf8 e.canonical}) : es = es' := by
  rw [verifyEntries, verifyFrom_ok_iff] at h h'
  refine h.eq_of_tipAfter_eq h' ?_ (fun e he => by simp [contentHash_of_linked h e he])
    (fun e he => by simp [contentHash_of_linked h' e he]) ?_
  · intro e he e' he' p p' hp hp' htip
    exact Chained.determined hcf ⟨e, List.mem_append_left _ he, rfl⟩
      ⟨e', List.mem_append_right _ he', rfl⟩ hp hp' htip
  · rw [tipAfter_eq_getLast, tipAfter_eq_getLast, List.getLast?_eq_some_getLast hne,
      List.getLast?_eq_some_getLast hne']
    exact hlast

theorem planA_nonempty : "plan-A" ≠ "" := by decide

/-- The entry of the usage example, not yet chained. -/
def sampleEntry : LedgerEntry where
  entryId := ⟨0x6f1c1f2e, 0x8d0b, 0x4c55, 0x9a1e, 0x0123456789ab⟩
  projectId := ⟨"abc", by decide⟩
  runId := ⟨"run-001", by decide⟩
  actor := ⟨"conductor", by decide⟩
  rolloutIndex := 0
  ts := ⟨⟨63915652800000000, by decide⟩, some 0, by decide⟩
  freshEvidence := []
  searchSpaceSize := none
  trialCount := ⟨1, by decide⟩
  effectiveTrialCount := none
  candidates := [⟨⟨"plan-A", planA_nonempty⟩, .accept, none, none⟩]
  priorAcceptedWinner := none
  priorWatchlist := []
  coherence := ⟨none, none, none, false, none⟩
  promotionGate := .evaluate .production true true false
  prevHash := none
  contentHash := none

def firstSample : LedgerEntry := sampleEntry.chain none

theorem verified_entries_determined_single :
    verifyEntries [firstSample] = (true, none) ∧ [firstSample] = [sampleEntry.chain none] := by
  have hverified : verifyEntries [firstSample] = (true, none) :=
    (verifyFrom_ok_iff _ _ _).mpr ⟨sampleEntry.chain_chained _, trivial⟩
  refine ⟨hverified, verified_entries_determined (by simp) (by simp) hverified hverified rfl ?_⟩
  -- one entry is one message
  rintro _ ⟨a, ha, rfl⟩ _ ⟨b, hb, rfl⟩ _
  have hone : ∀ e ∈ [firstSample] ++ [firstSample], e = firstSample := by simp
  rw [hone a ha, hone b hb]

end SpineFormal.Audit
