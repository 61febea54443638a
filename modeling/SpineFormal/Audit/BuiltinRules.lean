import SpineFormal.Audit.Exporter
import SpineFormal.Base.RegexSub

/-!
# The built-in redaction rules

`DEFAULT_RULES` of `shared/audit/redactor.py` and what one pass of them leaves. Most rules
look only at what they take. Four also look at the characters beside it, and a rule that
runs later may put its filler there.
-/

namespace SpineFormal.Audit

open Re
set_option autoImplicit false

/-- `\d` and `\w` where they go beyond ASCII. -/
structure UnicodeTables where
  digit : Char → Bool
  word : Char → Bool
  digit_ascii : ∀ c : Char, c.toNat < 128 → digit c = c.isDigit
  word_ascii : ∀ c : Char, c.toNat < 128 → word c = (c.isAlphanum || c == '_')

def asciiTables : UnicodeTables where
  digit := Char.isDigit
  word := fun c => c.isAlphanum || c == '_'
  digit_ascii := fun _ _ => rfl
  word_ascii := fun _ _ => rfl

/-- `_REDACTED`. -/
def redacted : Filler := ⟨'[', "REDACTED".toList, ']'⟩

structure BuiltinRule where
  name : String
  severity : RuleSeverity
  pattern : Pattern

def allFields : List String := ["rationale", "error_message", "subject_id", "actor", "metadata"]

def BuiltinRule.toRule (r : BuiltinRule) : RedactionRule :=
  ⟨r.name, allFields, r.severity, fun s =>
    let new := subn r.pattern redacted.text s.toList
    (String.ofList new.1, new.2)⟩

/-! ## The patterns -/

/-- `[A-Za-z0-9/+=]`. -/
def secretChar (c : Char) : Bool := c.isAlphanum || c == '/' || c == '+' || c == '='

/-- `[A-Za-z0-9_-]`. -/
def urlChar (c : Char) : Bool := c.isAlphanum || c == '_' || c == '-'

def bare (core : Regex) (takes : 0 < core.width) : Pattern := ⟨.free, core, .free, takes⟩

/-- `\b` on both sides. -/
def bounded (u : UnicodeTables) (core : Regex) (takes : 0 < core.width) : Pattern :=
  ⟨.boundary u.word, core, .boundary u.word, takes⟩

def awsAccessKey : BuiltinRule :=
  ⟨"aws_access_key", .default,
    bare (seqs [lit "AKIA".toList, times 16 fun c => c.isDigit || c.isUpper]) (by decide)⟩

def awsSecretKey : BuiltinRule :=
  ⟨"aws_secret_key", .default,
    ⟨.notBehind secretChar, times 40 secretChar, .notAhead secretChar, by decide⟩⟩

def jwt : BuiltinRule :=
  ⟨"jwt", .default, bare (seqs [lit "eyJ".toList, atLeast 1 urlChar, lit ".eyJ".toList,
    atLeast 1 urlChar, lit ".".toList, atLeast 1 urlChar]) (by decide)⟩

def githubPat : BuiltinRule :=
  ⟨"github_pat", .default, bare (seqs [lit "gh".toList, .cls "pousr".toList.contains,
    lit "_".toList, atLeast 36 Char.isAlphanum]) (by decide)⟩

def anthropicKey : BuiltinRule :=
  ⟨"anthropic_key", .default, bare (seqs [lit "sk-ant-".toList, atLeast 20 urlChar]) (by decide)⟩

def openaiKey : BuiltinRule :=
  ⟨"openai_key", .default, bare (seqs [lit "sk-".toList, atLeast 32 Char.isAlphanum]) (by decide)⟩

def bearerToken : BuiltinRule :=
  ⟨"bearer_token", .default, bare (seqs [lit "Bearer".toList, atLeast 1 pySpace,
    atLeast 16 fun c => urlChar c || c == '.']) (by decide)⟩

/-- `\d[ -]*?`. -/
def cardDigit (u : UnicodeTables) : Regex :=
  .seq (.cls u.digit) (.rep true 0 none (.cls fun c => c == ' ' || c == '-'))

def creditCard (u : UnicodeTables) : BuiltinRule :=
  ⟨"credit_card", .default, bounded u (.rep false 13 (some 16) (cardDigit u)) (by simp [Regex.width, cardDigit])⟩

/-- `[A-Z ]`. -/
def labelChar (c : Char) : Bool := c.isUpper || c == ' '

def pemHead : Regex :=
  seqs [lit "-----BEGIN ".toList, atLeast 1 labelChar, lit "PRIVATE KEY-----".toList]

def pemFoot : Regex :=
  seqs [lit "-----END ".toList, atLeast 1 labelChar, lit "PRIVATE KEY-----".toList]

def privateKeyPem : BuiltinRule :=
  ⟨"private_key_pem", .default, bare (.seq pemHead (.seq anyText pemFoot)) (by decide)⟩

def email : BuiltinRule :=
  ⟨"email", .optIn, bare (seqs [atLeast 1 fun c => c.isAlphanum || "._%+-".toList.contains c,
    lit "@".toList, atLeast 1 fun c => c.isAlphanum || c == '.' || c == '-', lit ".".toList,
    atLeast 2 Char.isAlpha]) (by decide)⟩

def usSsn (u : UnicodeTables) : BuiltinRule :=
  ⟨"us_ssn", .optIn, bounded u (seqs [times 3 u.digit, lit "-".toList, times 2 u.digit,
    lit "-".toList, times 4 u.digit]) (by simp [seqs, Regex.width, times, lit])⟩

/-- `[\s\-.]`. -/
def phoneGap (c : Char) : Bool := pySpace c || c == '-' || c == '.'

def usPhone (u : UnicodeTables) : BuiltinRule :=
  ⟨"us_phone", .optIn, bounded u (seqs [maybe (· == '('), times 3 u.digit, maybe (· == ')'),
    maybe phoneGap, times 3 u.digit, maybe phoneGap, times 4 u.digit])
    (by simp [seqs, Regex.width, times, maybe])⟩

/-- `DEFAULT_RULES`. -/
def defaultRules (u : UnicodeTables) : List BuiltinRule :=
  [awsAccessKey, awsSecretKey, jwt, githubPat, anthropicKey, openaiKey, bearerToken, creditCard u,
    privateKeyPem, email, usSsn u, usPhone u]

/-- The rules that a floor leaves active. -/
def activeDefaults (u : UnicodeTables) (floor : RuleSeverity) : List BuiltinRule :=
  (defaultRules u).filter fun r => passesFloor floor r.toRule

/-- `redact_text`. -/
def redactText (u : UnicodeTables) (floor : RuleSeverity) (text : String) :
    String × RedactionResult :=
  redactStr ((activeDefaults u floor).map BuiltinRule.toRule) "<input>" text ⟨0, [], []⟩

/-! ## What a rule looks at -/

def BuiltinRule.looksAround (r : BuiltinRule) : Bool :=
  match r.pattern.opening with
  | .free => false
  | _ => true

/-- Either whatever a rule finds after some cuts was there before them, or the rule looks at the
characters beside its match and takes the filler for the end of the text. -/
inductive Seen (r : BuiltinRule) : Prop where
  | inside (own : r.looksAround = false) (contained : r.pattern.Contained redacted)
  | beside (own : r.looksAround = true) (foreign : r.pattern.core.Foreign redacted)
      (blind : r.pattern.Blind redacted) (abuts : r.pattern.Abuts)

theorem foreign_of_width {r : Regex} (hfirst : r.avoids '[' = true) (hlast : r.avoids ']' = true)
    (hwidth : 8 < r.width) : r.Foreign redacted := by
  refine ⟨hfirst, hlast, ?_⟩
  intro w hw hmid
  have hword := width_le hw
  have hlen : w.length ≤ 8 := hmid.length_le
  omega

theorem seen_of_bare {r : BuiltinRule} {core : Regex} {takes : 0 < core.width}
    (hr : r.pattern = bare core takes) (hcore : core.Foreign redacted) : Seen r := by
  refine .inside ?_ ?_
  · rw [BuiltinRule.looksAround, hr]
    rfl
  · rw [hr]
    exact contained_of_free hcore rfl rfl

section
variable (u : UnicodeTables)

theorem UnicodeTables.digit_mark {c : Char} (hc : c = '[' ∨ c = ']') : u.digit c = false := by
  obtain rfl | rfl := hc <;> exact u.digit_ascii _ (by decide)

theorem UnicodeTables.word_mark {c : Char} (hc : c = '[' ∨ c = ']') : u.word c = false := by
  obtain rfl | rfl := hc <;> exact u.word_ascii _ (by decide)

theorem seen_of_bounded {r : BuiltinRule} {core : Regex} {takes : 0 < core.width}
    (hr : r.pattern = bounded u core takes) (hcore : core.Foreign redacted) : Seen r := by
  refine .beside ?_ ?_ ⟨?_, ?_⟩ ⟨?_, ?_⟩
  · rw [BuiltinRule.looksAround, hr]
    rfl
  · rw [hr]
    exact hcore
  · intro y
    have hword := u.word_mark (.inr rfl)
    simp [hr, bounded, Look.holds, redacted, hword]
  · intro x
    have hword := u.word_mark (.inl rfl)
    simp [hr, bounded, Look.holds, redacted, hword]
  · intro x c w _ h
    rw [hr] at h ⊢
    exact h
  · intro x y w _ h
    rw [hr] at h ⊢
    exact h

theorem email_foreign : email.pattern.core.Foreign redacted := by
  refine ⟨by decide, by decide, ?_⟩
  intro w hw hmid
  cases hw with
  | seq _ hrest =>
    cases hrest with
    | seq hsign _ =>
      cases hsign with
      | seq hc _ =>
        cases hc with
        | cls hc =>
          have hmem : '@' ∈ "REDACTED".toList := by
            apply hmid.subset
            apply List.mem_append_right
            apply List.mem_append_left
            apply List.mem_append_left
            exact List.mem_singleton.mpr (beq_iff_eq.mp hc).symm
          exact absurd hmem (by decide)

theorem awsSecretKey_seen : Seen awsSecretKey := by
  refine .beside rfl (foreign_of_width (by decide) (by decide) (by decide)) ⟨?_, ?_⟩ ⟨?_, ?_⟩
  · exact fun _ => rfl
  · exact fun _ => rfl
  · intro x c w hw h
    have hc := forall_of_times hw c List.mem_cons_self
    have hnot : (!secretChar c) = true := h
    rw [hc] at hnot
    cases hnot
  · intro x y w hw h
    have hx := forall_of_times hw x (List.mem_append_right _ List.mem_cons_self)
    have hnot : (!secretChar x) = true := h
    rw [hx] at hnot
    cases hnot

theorem privateKeyPem_seen : Seen privateKeyPem := by
  refine .inside rfl ?_
  apply contained_of_span (foreign_of_width (r := pemHead) (by decide) (by decide) (by decide))
    (foreign_of_width (r := pemFoot) (by decide) (by decide) (by decide))
  · rfl
  · rfl
  · rfl

theorem seen_of_mem {r : BuiltinRule} (hr : r ∈ defaultRules u) : Seen r := by
  have hopen := u.digit_mark (.inl rfl)
  have hclose := u.digit_mark (.inr rfl)
  simp only [defaultRules, List.mem_cons, List.not_mem_nil, or_false] at hr
  obtain rfl | rfl | rfl | rfl | rfl | rfl | rfl | rfl | rfl | rfl | rfl | rfl := hr
  case inl | inr.inr.inl | inr.inr.inr.inl | inr.inr.inr.inr.inl | inr.inr.inr.inr.inr.inl |
      inr.inr.inr.inr.inr.inr.inl =>
    exact seen_of_bare rfl (foreign_of_width (by decide) (by decide) (by decide))
  · exact awsSecretKey_seen
  · apply seen_of_bounded u rfl (foreign_of_width _ _ _)
    · simp [Regex.avoids, cardDigit, hopen]
    · simp [Regex.avoids, cardDigit, hclose]
    · simp [Regex.width, cardDigit]
  · exact privateKeyPem_seen
  · exact seen_of_bare rfl email_foreign
  · apply seen_of_bounded u rfl (foreign_of_width _ _ _)
    · simp [Regex.avoids, seqs, times, lit, hopen]
    · simp [Regex.avoids, seqs, times, lit, hclose]
    · simp [Regex.width, seqs, times, lit]
  · apply seen_of_bounded u rfl (foreign_of_width _ _ _)
    · simp [Regex.avoids, seqs, times, maybe, phoneGap, hopen]
      decide
    · simp [Regex.avoids, seqs, times, maybe, phoneGap, hclose]
      decide
    · simp [Regex.width, seqs, times, maybe]

end

/-! ## Passes -/

/-- `re.search` with the rule's pattern. -/
def BuiltinRule.Matches (r : BuiltinRule) (s : String) : Prop := r.pattern.Found s.toList

/-- What is left after some rules have run. -/
def textAfter (done : List BuiltinRule) (s : String) : String :=
  scrub (done.map BuiltinRule.toRule) s

/-- The next rule leaves a piece that, standing by itself, is matched by a rule that has run and
looks at the characters beside its match. -/
def Exposes (done : List BuiltinRule) (next : BuiltinRule) (s : String) : Prop :=
  ∃ r ∈ done, r.looksAround = true ∧ ∃ g ∈ pieces next.pattern s.toList, r.pattern.Found g

/-- In every text that is reached, no rule that has run has a match. -/
def StaysClean (order : List BuiltinRule) (s : String) : Prop :=
  ∀ done rest, order = done ++ rest → ∀ r ∈ done, ¬ r.Matches (textAfter done s)

def ExposesNothing (order : List BuiltinRule) (s : String) : Prop :=
  ∀ done next rest, order = done ++ next :: rest → ¬ Exposes done next (textAfter done s)

theorem textAfter_concat (done : List BuiltinRule) (next : BuiltinRule) (s : String) :
    (textAfter (done ++ [next]) s).toList =
      redacted.join (pieces next.pattern (textAfter done s).toList) := by
  have hstep : textAfter (done ++ [next]) s = scrub [next.toRule] (textAfter done s) := by
    rw [textAfter, List.map_append]
    exact List.foldl_append
  rw [hstep, scrub, List.foldl_cons, List.foldl_nil]
  split
  · rename_i new hcount
    have hzero : (pieces next.pattern (textAfter done s).toList).length - 1 = 0 :=
      congrArg Prod.snd hcount
    have hcuts := cuts_pieces next.pattern (textAfter done s).toList
    obtain ⟨g, gs, hpieces⟩ := List.exists_cons_of_ne_nil hcuts.ne_nil
    rw [hpieces, List.length_cons, Nat.add_sub_cancel, List.length_eq_zero_iff] at hzero
    rw [hpieces, hzero] at hcuts ⊢
    rw [join_singleton, hcuts.eq_of_singleton]
  · rename_i new n hne hcount
    obtain rfl : String.ofList _ = new := congrArg Prod.fst hcount
    rw [String.toList_ofList]
    rfl

theorem matches_concat_self {next : BuiltinRule} (hnext : Seen next) (done : List BuiltinRule)
    (s : String) : ¬ next.Matches (textAfter (done ++ [next]) s) := by
  have hcuts := cuts_pieces next.pattern (textAfter done s).toList
  rw [BuiltinRule.Matches, textAfter_concat]
  cases hnext with
  | inside _ hcontained => exact hcontained.not_found_join_self hcuts
  | beside _ hforeign _ habuts => exact not_found_join_self hforeign habuts hcuts

/-- One step: a rule that has run finds something only in what it did before, or in a piece. -/
theorem matches_concat {r : BuiltinRule} (hr : Seen r) {done : List BuiltinRule}
    (next : BuiltinRule) {s : String} (hclean : ¬ r.Matches (textAfter done s)) :
    r.Matches (textAfter (done ++ [next]) s) ↔ r.looksAround = true ∧
      ∃ g ∈ pieces next.pattern (textAfter done s).toList, r.pattern.Found g := by
  have hcuts := cuts_pieces next.pattern (textAfter done s).toList
  rw [BuiltinRule.Matches, textAfter_concat]
  cases hr with
  | inside hown hcontained =>
    constructor
    · intro h
      exact absurd (hcontained _ _ _ hcuts h).found hclean
    · intro h
      rw [hown] at h
      exact absurd h.1 Bool.false_ne_true
  | beside hown hforeign hblind _ => rw [found_join_iff hforeign hblind, and_iff_right hown]

theorem staysClean_iff {order : List BuiltinRule} (hseen : ∀ r ∈ order, Seen r) (s : String) :
    StaysClean order s ↔ ExposesNothing order s := by
  constructor
  · intro hclean done next rest heq hexposes
    obtain ⟨r, hr, hpiece⟩ := hexposes
    have hmem : r ∈ order := heq ▸ List.mem_append_left _ hr
    have hafter := hclean (done ++ [next]) rest (by rw [heq, List.append_assoc]; rfl) r
      (List.mem_append_left _ hr)
    have hbefore := hclean done (next :: rest) heq r hr
    exact hafter ((matches_concat (hseen r hmem) next hbefore).mpr hpiece)
  · intro hexposes done
    -- the rules that have run, one after the other
    induction done using List.reverseRecOn with
    | nil => exact fun _ _ r hr => absurd hr List.not_mem_nil
    | append_singleton done next ih =>
      intro rest heq r hr hmatch
      have heq' : order = done ++ next :: rest := by rw [heq, List.append_assoc]; rfl
      obtain hr | hr := List.mem_append.mp hr
      · have hmem : r ∈ order := heq' ▸ List.mem_append_left _ hr
        have hbefore := ih (next :: rest) heq' r hr
        obtain hpiece := (matches_concat (hseen r hmem) next hbefore).mp hmatch
        exact hexposes done next rest heq' ⟨r, hr, hpiece⟩
      · obtain rfl := List.mem_singleton.mp hr
        have hmem : r ∈ order := heq' ▸ List.mem_append_right _ List.mem_cons_self
        exact matches_concat_self (hseen r hmem) done s hmatch

/-- Rules without a match change nothing and count nothing. -/
theorem redactStr_of_not_matches {again : List BuiltinRule} {s : String}
    (h : ∀ r ∈ again, ¬ r.Matches s) (field : String) (result : RedactionResult) :
    redactStr (again.map BuiltinRule.toRule) field s result = (s, result) := by
  induction again with
  | nil => rfl
  | cons r again ih =>
    have hnone := subn_of_not_found redacted.text (h r List.mem_cons_self)
    have hsubn : r.toRule.subn s = (s, 0) := by
      rw [BuiltinRule.toRule]
      dsimp only
      rw [hnone, String.ofList_toList]
    rw [List.map_cons, redactStr, List.foldl_cons]
    dsimp only
    rw [hsubn]
    exact ih fun r hr => h r (List.mem_cons_of_mem _ hr)

theorem seen_of_active {u : UnicodeTables} {floor : RuleSeverity} {order : List BuiltinRule}
    (horder : order.Perm (activeDefaults u floor)) : ∀ r ∈ order, Seen r := by
  intro r hr
  exact seen_of_mem u (List.mem_filter.mp (horder.mem_iff.mp hr)).1

/-- Forty key characters before a token: they are no secret key while the token is there. -/
def keyBeforeToken : String :=
  String.ofList (List.replicate 40 'A' ++ "ghp_".toList ++ List.replicate 36 'x')

theorem matches_of_count {r : BuiltinRule} {s : String} (h : (r.toRule.subn s).2 ≠ 0) :
    r.Matches s := by
  by_contra hnone
  apply h
  rw [BuiltinRule.toRule]
  dsimp only
  rw [subn_of_not_found _ hnone]

end SpineFormal.Audit
