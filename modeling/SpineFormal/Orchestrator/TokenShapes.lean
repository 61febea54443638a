import SpineFormal.Orchestrator.ApprovalToken

/-!
# Tokens of any shape

The verifier looks for its fields with `in` and reads them with `get`. The text of a token
may be any JSON, and only an object has both.
-/

namespace SpineFormal.Orchestrator.ApprovalToken

open Json
set_option autoImplicit false

/-- The verifier's reads of this payload raise. -/
def Breaks (payload : Value) (expectedProjectId expectedPhase : Option String) : Prop :=
  match payload with
  | .obj _ => False
  | .arr _ => expectedProjectId ≠ none ∨ expectedPhase ≠ none
  | .str _ => expectedProjectId ≠ none ∨ expectedPhase ≠ none
  | _ => True

/-! ## The fields that are missing -/

theorem missingErrors_of_hasField {payload : Value} {there : String → Bool}
    (h : ∀ field, hasField payload field = .ok (there field)) :
    missingErrors payload =
      .ok ((payloadFields.filter fun f => !there f).map ("missing_field:" ++ ·)) := by
  have hfold : ∀ (fields errors : List String),
      fields.foldlM (fun errors field => do
        let there ← hasField payload field
        return if there then errors else errors ++ ["missing_field:" ++ field]) errors =
      (.ok (errors ++ (fields.filter fun f => !there f).map ("missing_field:" ++ ·)) :
        Except Raised (List String)) := by
    intro fields
    induction fields with
    | nil =>
      intro errors
      simp [pure, Except.pure]
    | cons field fields ih =>
      intro errors
      rw [List.foldlM_cons, h field]
      cases hthere : there field with
      | true =>
        refine (ih errors).trans ?_
        simp [hthere]
      | false =>
        refine (ih (errors ++ ["missing_field:" ++ field])).trans ?_
        simp [hthere]
  exact hfold payloadFields []

theorem missingErrors_nil_iff {there : String → Bool} :
    ((payloadFields.filter fun f => !there f).map ("missing_field:" ++ ·)) = [] ↔
      ∀ field ∈ payloadFields, there field = true := by
  rw [List.map_eq_nil_iff, List.filter_eq_nil_iff]
  simp only [Bool.not_eq_true', Bool.not_eq_false]

/-! ## What an object gets -/

section
variable {isPrintable : Char → Bool} {now : Wall} {projectId phase : Option String} {ms : Members}

theorem projectErrors_obj (isPrintable : Char → Bool) (projectId : Option String) (ms : Members) :
    ∃ errors, projectErrors isPrintable (.obj ms) projectId = .ok errors ∧
      (errors = [] ↔ ∀ p ∈ projectId,
        pyStr isPrintable (nullable (lookup ms "project_id")) = p.toList) := by
  cases projectId with
  | none => exact ⟨[], rfl, by simp⟩
  | some p =>
    refine ⟨_, rfl, ?_⟩
    by_cases heq : pyStr isPrintable (nullable (lookup ms "project_id")) = p.toList <;> simp [heq]

theorem nullable_eq_str_iff {o : Option Value} {s : String} :
    nullable o = .str s ↔ o = some (.str s) := by
  cases o <;> simp [nullable]

theorem phaseErrors_obj (phase : Option String) (ms : Members) :
    ∃ errors, phaseErrors (.obj ms) phase = .ok errors ∧
      (errors = [] ↔ ∀ p ∈ phase, lookup ms "phase" = some (.str p)) := by
  cases phase with
  | none => exact ⟨[], rfl, by simp⟩
  | some p =>
    refine ⟨_, rfl, ?_⟩
    simp only [Option.mem_some_iff, forall_eq', ← nullable_eq_str_iff]
    cases nullable (lookup ms "phase") with
    | str s => by_cases heq : s = p <;> simp [heq]
    | null | bool b | int n | float x | arr xs | obj ms => simp

theorem expiryErrors_nil_iff {payload : Value} : expiryErrors payload now = [] ↔
    ∃ a, expiresAt payload = some (.aware a) ∧ (now.micros : Int) < a.utc := by
  unfold expiryErrors
  split
  · rename_i a ha
    rw [ha]
    by_cases hle : a.utc ≤ now.micros
    · simp [hle]
    · simp [hle, Int.not_le.mp hle]
  · rename_i hno
    refine iff_of_false (by simp) ?_
    rintro ⟨a, ha, -⟩
    exact hno a ha

/-- What an object has to have for the verifier to find nothing wrong. -/
structure Passes (isPrintable : Char → Bool) (now : Wall) (projectId phase : Option String)
    (ms : Members) : Prop where
  there : ∀ field ∈ payloadFields, (lookup ms field).isSome = true
  fresh : ∃ a, expiresAt (.obj ms) = some (.aware a) ∧ (now.micros : Int) < a.utc
  project : ∀ p ∈ projectId, pyStr isPrintable (nullable (lookup ms "project_id")) = p.toList
  phase : ∀ p ∈ phase, lookup ms "phase" = some (.str p)

theorem payloadErrors_obj (isPrintable : Char → Bool) (now : Wall)
    (projectId phase : Option String) (ms : Members) :
    ∃ errors, payloadErrors isPrintable (.obj ms) now projectId phase = .ok errors ∧
      (errors = [] ↔ Passes isPrintable now projectId phase ms) := by
  obtain ⟨project, hproject, hprojectNil⟩ := projectErrors_obj isPrintable projectId ms
  obtain ⟨phased, hphase, hphaseNil⟩ := phaseErrors_obj phase ms
  have hmissing := @missingErrors_of_hasField (.obj ms) (fun field => (lookup ms field).isSome)
    fun _ => rfl
  have hnil := @missingErrors_nil_iff fun field => (lookup ms field).isSome
  refine ⟨(payloadFields.filter fun f => !(lookup ms f).isSome).map ("missing_field:" ++ ·) ++
    (if (lookup ms "expires_at").isSome = true then expiryErrors (.obj ms) now else []) ++
      project ++ phased, ?_, ?_⟩
  · rw [payloadErrors, hmissing, hproject, hphase]
    rfl
  · simp only [List.append_eq_nil_iff, hnil, hprojectNil, hphaseNil]
    constructor
    · rintro ⟨⟨⟨hthere, hexpiry⟩, hp⟩, hph⟩
      have hdated : (lookup ms "expires_at").isSome = true := hthere _ (by decide)
      rw [if_pos hdated, expiryErrors_nil_iff] at hexpiry
      exact ⟨hthere, hexpiry, hp, hph⟩
    · intro h
      refine ⟨⟨⟨h.there, ?_⟩, h.project⟩, h.phase⟩
      rw [if_pos (h.there _ (by decide)), expiryErrors_nil_iff]
      exact h.fresh

/-! ## What other payloads get -/

theorem payloadErrors_of_search {payload : Value} {there : String → Bool}
    (hfield : ∀ field, hasField payload field = .ok (there field))
    (hget : ∀ field, getField payload field = .error .attributeError) :
    (∃ errors, payloadErrors isPrintable payload now projectId phase = .ok errors) ↔
      ¬ (projectId ≠ none ∨ phase ≠ none) := by
  have hmissing := missingErrors_of_hasField hfield
  rw [payloadErrors, hmissing, hfield]
  cases projectId with
  | some p =>
    simp only [projectErrors, hget]
    refine iff_of_false ?_ (by simp)
    rintro ⟨_, h⟩
    cases h
  | none =>
    cases phase with
    | some p =>
      simp only [projectErrors, phaseErrors, hget]
      refine iff_of_false ?_ (by simp)
      rintro ⟨_, h⟩
      cases h
    | none => exact iff_of_true ⟨_, rfl⟩ (by simp)

/-- Neither an array nor a text ever has a date that can be read. -/
theorem payloadErrors_search_ne_nil {payload : Value} {there : String → Bool}
    (hfield : ∀ field, hasField payload field = .ok (there field))
    (hdate : expiresAt payload = none) :
    payloadErrors isPrintable payload now none none ≠ .ok [] := by
  have hmissing := missingErrors_of_hasField hfield
  rw [payloadErrors, hmissing, hfield]
  change Except.ok _ ≠ Except.ok []
  intro h
  have hnil := Except.ok.inj h
  simp only [List.append_eq_nil_iff] at hnil
  have hthere := missingErrors_nil_iff.mp hnil.1.1.1 "expires_at" (by decide)
  rw [if_pos hthere, expiryErrors_nil_iff, hdate] at hnil
  obtain ⟨a, ha, -⟩ := hnil.1.1.2
  cases ha

theorem payloadErrors_returns_iff (payload : Value) :
    (∃ errors, payloadErrors isPrintable payload now projectId phase = .ok errors) ↔
      ¬ Breaks payload projectId phase := by
  cases payload with
  | obj ms =>
    obtain ⟨errors, h, -⟩ := payloadErrors_obj isPrintable now projectId phase ms
    exact iff_of_true ⟨errors, h⟩ not_false
  | arr xs => exact payloadErrors_of_search (fun _ => rfl) fun _ => rfl
  | str s => exact payloadErrors_of_search (fun _ => rfl) fun _ => rfl
  | null | bool b | int n | float x =>
    refine iff_of_false ?_ (not_not_intro trivial)
    rintro ⟨_, h⟩
    cases h

/-- Nothing but an object is ever found right. -/
theorem eq_obj_of_payloadErrors_nil {payload : Value}
    (h : payloadErrors isPrintable payload now projectId phase = .ok []) :
    ∃ ms, payload = .obj ms ∧ Passes isPrintable now projectId phase ms := by
  have hreturns := (payloadErrors_returns_iff payload).mp ⟨_, h⟩
  have hnone (hno : ¬ (projectId ≠ none ∨ phase ≠ none)) : projectId = none ∧ phase = none := by
    rwa [not_or, not_not, not_not] at hno
  cases payload with
  | obj ms =>
    obtain ⟨errors, heq, hnil⟩ := payloadErrors_obj isPrintable now projectId phase ms
    rw [heq] at h
    exact ⟨ms, rfl, hnil.mp (Except.ok.inj h)⟩
  | arr xs =>
    obtain ⟨rfl, rfl⟩ := hnone hreturns
    exact absurd h (payloadErrors_search_ne_nil (fun _ => rfl) rfl)
  | str s =>
    obtain ⟨rfl, rfl⟩ := hnone hreturns
    exact absurd h (payloadErrors_search_ne_nil (fun _ => rfl) rfl)
  | null | bool b | int n | float x => exact absurd trivial hreturns

end

/-! ## Tokens -/

/-- The token's text can be read, its signature compared, and its payload breaks the verifier. -/
def Unsearchable (token : List Char) (secret : SecretLookup)
    (projectId phase : Option String) : Prop :=
  '.' ∈ token ∧ ∃ key, loadKey secret = .ok key ∧
    signatureErrors key (rsplitDot token).1 (rsplitDot token).2 ≠ none ∧
      ∃ payload, readPayload (rsplitDot token).1 = some payload ∧ Breaks payload projectId phase

/-- Each field of the payload is a text, as the signer writes it. -/
def TextFields (ms : Members) : Prop :=
  ∀ field ∈ payloadFields, ∃ s, lookup ms field = some (.str s)

/-- The token carries the signature, all that is looked at is right, and yet a field is no text. -/
def Mistyped (isPrintable : Char → Bool) (token : List Char) (secret : SecretLookup) (now : Wall)
    (projectId phase : Option String) : Prop :=
  '.' ∈ token ∧ ∃ key, loadKey secret = .ok key ∧
    signatureErrors key (rsplitDot token).1 (rsplitDot token).2 = some [] ∧
      ∃ ms, readPayload (rsplitDot token).1 = some (.obj ms) ∧
        Passes isPrintable now projectId phase ms ∧ ¬ TextFields ms

/-- A verdict is returned, and what is called valid is an object with its fields. -/
def Reported (isPrintable : Char → Bool) (token : List Char) (secret : SecretLookup) (now : Wall)
    (projectId phase : Option String) : Prop :=
  ∃ v, verifyToken isPrintable token secret now projectId phase = .ok v ∧
    (v.valid = true → ∃ ms, readPayload (rsplitDot token).1 = some (.obj ms) ∧ TextFields ms)

section
variable {isPrintable : Char → Bool} {token : List Char} {secret : SecretLookup} {now : Wall}
  {projectId phase : Option String}

theorem verifyToken_returns_iff :
    (∃ v, verifyToken isPrintable token secret now projectId phase = .ok v) ↔
      ¬ Unsearchable token secret projectId phase := by
  rw [verifyToken]
  by_cases hdot : '.' ∈ token
  · rw [if_pos hdot]
    cases hkey : loadKey secret with
    | error code =>
      refine iff_of_true ⟨_, rfl⟩ ?_
      rintro ⟨-, key, hk, -⟩
      rw [hkey] at hk
      cases hk
    | ok key =>
      dsimp only
      rw [verifyWith]
      cases hsig : signatureErrors key (rsplitDot token).1 (rsplitDot token).2 with
      | none =>
        refine iff_of_true ⟨_, rfl⟩ ?_
        rintro ⟨-, key', hk, hne, -⟩
        rw [hkey] at hk
        obtain rfl := Except.ok.inj hk
        exact hne hsig
      | some signature =>
        dsimp only
        cases hread : readPayload (rsplitDot token).1 with
        | none =>
          refine iff_of_true ⟨_, rfl⟩ ?_
          rintro ⟨-, -, -, -, payload, hp, -⟩
          rw [hread] at hp
          cases hp
        | some payload =>
          have hunsearchable : Unsearchable token secret projectId phase ↔
              Breaks payload projectId phase := by
            constructor
            · rintro ⟨-, -, -, -, payload', hp, hbreaks⟩
              rw [hread] at hp
              obtain rfl := Option.some.inj hp
              exact hbreaks
            · intro hbreaks
              refine ⟨hdot, key, hkey, ?_, payload, hread, hbreaks⟩
              rw [hsig]
              simp
          rw [hunsearchable, ← @payloadErrors_returns_iff isPrintable now]
          dsimp only
          cases payloadErrors isPrintable payload now projectId phase with
          | error e =>
            refine iff_of_false ?_ ?_
            all_goals
              rintro ⟨_, h⟩
              cases h
          | ok found => exact iff_of_true ⟨_, rfl⟩ ⟨_, rfl⟩
  · rw [if_neg hdot]
    exact iff_of_true ⟨_, rfl⟩ fun h => hdot h.1

theorem verifyToken_valid_of_passes {key : Bytes} {ms : Members} (hdot : '.' ∈ token)
    (hkey : loadKey secret = .ok key)
    (hsig : signatureErrors key (rsplitDot token).1 (rsplitDot token).2 = some [])
    (hread : readPayload (rsplitDot token).1 = some (.obj ms))
    (hpasses : Passes isPrintable now projectId phase ms) :
    verifyToken isPrintable token secret now projectId phase = .ok ⟨true, .obj ms, []⟩ := by
  obtain ⟨errors, hfound, hnil⟩ := payloadErrors_obj isPrintable now projectId phase ms
  obtain rfl := hnil.mpr hpasses
  exact verifyToken_of_signature hkey hdot hsig hread hfound

/-- Every other token is reported as what it is. -/
theorem reported_iff : Reported isPrintable token secret now projectId phase ↔
    ¬ Unsearchable token secret projectId phase ∧
      ¬ Mistyped isPrintable token secret now projectId phase := by
  constructor
  · rintro ⟨v, hv, hvalid⟩
    refine ⟨verifyToken_returns_iff.mp ⟨v, hv⟩, ?_⟩
    rintro ⟨hdot, key, hkey, hsig, ms, hread, hpasses, htext⟩
    have haccepted := verifyToken_valid_of_passes hdot hkey hsig hread hpasses
    rw [hv] at haccepted
    obtain rfl := Except.ok.inj haccepted
    obtain ⟨ms', hread', htext'⟩ := hvalid rfl
    rw [hread] at hread'
    obtain rfl := Value.obj.inj (Option.some.inj hread')
    exact htext htext'
  · rintro ⟨hsearch, htyped⟩
    obtain ⟨v, hv⟩ := verifyToken_returns_iff.mpr hsearch
    refine ⟨v, hv, fun hvalid => ?_⟩
    obtain ⟨key, hkey, hdot, hsig, hread, hnil⟩ := verifyToken_valid hv hvalid
    obtain ⟨ms, heq, hpasses⟩ := eq_obj_of_payloadErrors_nil hnil
    rw [heq] at hread
    refine ⟨ms, hread, ?_⟩
    by_cases htext : TextFields ms
    · exact htext
    · exact absurd ⟨hdot, key, hkey, hsig, ms, hread, hpasses, htext⟩ htyped

end

/-- The number 5 as a payload, with no signature: `in` raises. -/
theorem number_token_raises :
    ¬ ∃ v, verifyToken (fun _ => false) "NQ.".toList (.found ['0', '0']) noonMay18 none none =
      .ok v := by
  rw [verifyToken_returns_iff, not_not]
  have hbytes : b64urlDecode (rsplitDot "NQ.".toList).1 = some (encodeUtf8 ['5']) := by
    decide +kernel
  have hread : readPayload (rsplitDot "NQ.".toList).1 = some (.int 5) := by
    rw [readPayload, hbytes, Option.bind_some, decodeUtf8_encodeUtf8, Option.bind_some]
    rfl
  exact ⟨by decide, [0], rfl, by decide +kernel, .int 5, hread, trivial⟩

end SpineFormal.Orchestrator.ApprovalToken
