import SpineFormal.Base.AsciiSplit
import SpineFormal.Base.TextFields
import SpineFormal.Json.Locality
import Mathlib.Data.List.DropRight

/-!
# The outbox writer

`shared/runtime/db-outbox.sh` puts JSON lines together as text: an escaper for the
values, fields spliced into the caller's cost object before its closing brace, and an
event line around the caller's payload. Bash strings are bytes. Line and payload are read as
`json.loads` reads them. The append itself is taken to succeed.
-/

namespace SpineFormal.Runtime.DbOutbox

open Json
set_option autoImplicit false

def ascii (s : String) : Bytes := encodeUtf8 s.toList

/-! ## The escaper -/

/-- `${s//b/new}` for a single byte. -/
def substitute (b : UInt8) (new s : Bytes) : Bytes := s.flatMap fun x => if x = b then new else [x]

/-- `spine_outbox_json_escape`: backslash first, then quote, tab, return and newline. -/
def jsonEscape (s : Bytes) : Bytes :=
  substitute 10 [92, 110] (substitute 13 [92, 114] (substitute 9 [92, 116]
    (substitute 34 [92, 34] (substitute 92 [92, 92] s))))

/-- `$(...)` drops the newlines at the end. -/
def commandSubst (s : Bytes) : Bytes := s.rdropWhile (· = 10)

/-! ## Fields -/

/-- A field of the line; without a value it is null. -/
structure Field where
  key : String
  value : Option Bytes
  deriving DecidableEq

def quotedKey (key : String) : Bytes := [34] ++ ascii key ++ [34]

/-- The JSON text of the value. -/
def Field.text (f : Field) : Bytes :=
  match f.value with
  | none => ascii "null"
  | some v => [34] ++ commandSubst (jsonEscape v) ++ [34]

/-- `,"key":value`. -/
def Field.fragment (f : Field) : Bytes := [44] ++ quotedKey f.key ++ [58] ++ f.text

/-- The environment of the daemon; a variable that is not set is empty. -/
structure Env where
  engagementId : Bytes
  idempotencyKey : Bytes
  tenant : Bytes
  mode : Bytes
  slot : Bytes
  hostId : Bytes
  instanceId : Bytes

def optional (value : Bytes) : Option Bytes := if value = [] then none else some value

/-- `${value:-default}`. -/
def orDefault (value default : Bytes) : Bytes := if value = [] then default else value

def engagementField (env : Env) : Field := ⟨"engagement_id", optional env.engagementId⟩

def idempotencyField (env : Env) : Field := ⟨"idempotency_key", optional env.idempotencyKey⟩

def tenantField (env : Env) : Field := ⟨"tenant_id", some (orDefault env.tenant (ascii "default"))⟩

/-! ## Cost lines -/

/-- `[[ "$json" == *'"key"'* ]]`. -/
def Mentions (key : String) (s : Bytes) : Prop := quotedKey key <:+: s

instance (key : String) (s : Bytes) : Decidable (Mentions key s) :=
  inferInstanceAs (Decidable (_ <:+: _))

/-- `${json%\}}`. -/
def stripBrace (json : Bytes) : Bytes := if json.getLast? = some 125 then json.dropLast else json

def splice (json : Bytes) (f : Field) : Bytes :=
  if Mentions f.key json then json else stripBrace json ++ commandSubst f.fragment ++ [125]

def costFields (env : Env) : List Field :=
  [engagementField env, idempotencyField env, tenantField env]

/-- The line of `spine_outbox_emit_cost`. -/
def emitCost (env : Env) (stateDir json : Bytes) : Option Bytes :=
  if stateDir = [] ∨ json = [] then none else some ((costFields env).foldl splice json)

/-! ## Event lines -/

/-- `date -u +%FT%TZ`. -/
def dateText (now : Calendar) : List Char :=
  Numerals.fixed 10 4 now.year ++ '-' :: (Numerals.fixed 10 2 now.month ++ '-' ::
    (Numerals.fixed 10 2 now.day ++ 'T' :: (Numerals.fixed 10 2 now.hour ++ ':' ::
      (Numerals.fixed 10 2 now.minute ++ ':' :: (Numerals.fixed 10 2 now.second ++ ['Z'])))))

/-- The escaped fields before the payload. -/
def headFields (env : Env) (role eventType : Bytes) : List Field :=
  [⟨"event_type", some eventType⟩, ⟨"role", some role⟩, ⟨"mode", some env.mode⟩,
    ⟨"slot", some (orDefault env.slot (ascii "-"))⟩, ⟨"host_id", some env.hostId⟩,
    ⟨"instance_id", some env.instanceId⟩]

/-- The line of `spine_outbox_emit_event`; an empty payload counts as an empty object. -/
def emitEvent (env : Env) (now : Calendar) (stateDir role eventType payload : Bytes) :
    Option Bytes :=
  if stateDir = [] ∨ eventType = [] then none
  else
    some ([123] ++ ascii "\"type\":\"event\",\"ts\":\"" ++ encodeUtf8 (dateText now) ++ [34] ++
      (headFields env role eventType).flatMap Field.fragment ++ ascii ",\"payload\":" ++
      orDefault payload [123, 125] ++
      (costFields env).flatMap (fun f => commandSubst f.fragment) ++ [125])

/-! ## What the escaper writes -/

def escapeByte (b : UInt8) : Bytes :=
  if b = 92 then [92, 92]
  else if b = 34 then [92, 34]
  else if b = 9 then [92, 116]
  else if b = 13 then [92, 114]
  else if b = 10 then [92, 110]
  else [b]

theorem substitute_append (b : UInt8) (new s t : Bytes) :
    substitute b new (s ++ t) = substitute b new s ++ substitute b new t := List.flatMap_append

/-- No substitution touches what an earlier one wrote. -/
theorem jsonEscape_eq (s : Bytes) : jsonEscape s = s.flatMap escapeByte := by
  have happend (s t : Bytes) : jsonEscape (s ++ t) = jsonEscape s ++ jsonEscape t := by
    simp only [jsonEscape, substitute_append]
  induction s with
  | nil => rfl
  | cons b s ih =>
    have hone : jsonEscape [b] = escapeByte b := by
      rw [escapeByte]
      split_ifs with h92 h34 h9 h13 h10
      · subst h92; decide
      · subst h34; decide
      · subst h9; decide
      · subst h13; decide
      · subst h10; decide
      · simp [jsonEscape, substitute, h92, h34, h9, h13, h10]
    rw [← List.singleton_append, happend, hone, ih, List.singleton_append, List.flatMap_cons]

theorem newline_notMem_jsonEscape (s : Bytes) : (10 : UInt8) ∉ jsonEscape s := by
  rw [jsonEscape_eq, List.mem_flatMap]
  rintro ⟨b, -, hb⟩
  rw [escapeByte] at hb
  split_ifs at hb with h92 h34 h9 h13 h10
  · revert hb; decide
  · revert hb; decide
  · revert hb; decide
  · revert hb; decide
  · revert hb; decide
  · exact h10 (List.mem_singleton.mp hb).symm

theorem commandSubst_of_notMem {s : Bytes} (h : (10 : UInt8) ∉ s) : commandSubst s = s := by
  rw [commandSubst, List.rdropWhile_eq_self_iff]
  intro hne hlast
  exact h (of_decide_eq_true hlast ▸ List.getLast_mem hne)

def escapeChar (c : Char) : List Char :=
  if c = '\\' then ['\\', '\\']
  else if c = '"' then ['\\', '"']
  else if c = '\t' then ['\\', 't']
  else if c = '\r' then ['\\', 'r']
  else if c = '\n' then ['\\', 'n']
  else [c]

/-- The bytes that the escaper rewrites. -/
def special : List UInt8 := [92, 34, 9, 13, 10]

theorem escapeByte_of_plain {b : UInt8} (h : b ∉ special) : escapeByte b = [b] := by
  simp only [special, List.mem_cons, List.not_mem_nil, or_false, not_or] at h
  simp [escapeByte, h]

theorem escapeBytes_of_plain {s : Bytes} (h : ∀ b ∈ s, b ∉ special) :
    s.flatMap escapeByte = s := by
  induction s with
  | nil => rfl
  | cons b s ih =>
    obtain ⟨hb, hs⟩ := List.forall_mem_cons.mp h
    rw [List.flatMap_cons, escapeByte_of_plain hb, ih hs, List.singleton_append]

def specialChars : List Char := ['\\', '"', '\t', '\r', '\n']

theorem legal_specialChars : ∀ c ∈ specialChars, Legal c :=
  Numerals.forall_mem_of_all (by decide)

theorem escapeChar_of_plain {c : Char} (h : c ∉ specialChars) : escapeChar c = [c] := by
  simp only [specialChars, List.mem_cons, List.not_mem_nil, or_false, not_or] at h
  simp [escapeChar, h]

theorem escapeByte_encodeChar (c : Char) :
    (String.utf8EncodeChar c).flatMap escapeByte = encodeUtf8 (escapeChar c) := by
  by_cases hc : c ∈ specialChars
  · simp only [specialChars, List.mem_cons, List.not_mem_nil, or_false] at hc
    rcases hc with rfl | rfl | rfl | rfl | rfl <;> decide
  · have hbytes : encodeUtf8 [c] = String.utf8EncodeChar c := by simp [encodeUtf8]
    have hplain : ∀ b ∈ String.utf8EncodeChar c, b ∉ special := by
      have hmem : special = specialChars.map fun a => UInt8.ofNat a.toNat := by decide
      have hascii : ∀ a ∈ specialChars, a.toNat < 128 := Numerals.forall_mem_of_all (by decide)
      rw [hmem]
      rintro b hb hspecial
      obtain ⟨a, ha, rfl⟩ := List.mem_map.mp hspecial
      rw [← hbytes, ascii_mem_encodeUtf8 (hascii a ha), List.mem_singleton] at hb
      exact hc (hb ▸ ha)
    rw [escapeBytes_of_plain hplain, escapeChar_of_plain hc, hbytes]

theorem jsonEscape_encodeUtf8 (t : List Char) :
    jsonEscape (encodeUtf8 t) = encodeUtf8 (t.flatMap escapeChar) := by
  rw [jsonEscape_eq]
  induction t with
  | nil => rfl
  | cons c t ih =>
    rw [encodeUtf8_cons, List.flatMap_append, ih, List.flatMap_cons, encodeUtf8_append,
      escapeByte_encodeChar]

/-- What the escaper makes of bytes that are no text is no text. -/
theorem utf8_of_jsonEscape {s : Bytes} (h : Utf8 (jsonEscape s)) : Utf8 s := by
  rw [jsonEscape_eq] at h
  induction hn : s.length using Nat.strong_induction_on generalizing s with
  | _ n ih =>
    by_cases hplain : ∀ b ∈ s, b ∉ special
    · rwa [escapeBytes_of_plain hplain] at h
    · simp only [not_forall, not_not] at hplain
      obtain ⟨b, hmem, hb⟩ := hplain
      obtain ⟨x, y, rfl⟩ := List.append_of_mem hmem
      have hletter : ∀ b ∈ special, Utf8 [b] ∧ ∃ c : Char, c.toNat < 128 ∧
          escapeByte b = [UInt8.ofNat '\\'.toNat, UInt8.ofNat c.toNat] := by
        intro b hb
        simp only [special, List.mem_cons, List.not_mem_nil, or_false] at hb
        rcases hb with rfl | rfl | rfl | rfl | rfl
        · exact ⟨⟨['\\'], by decide⟩, '\\', by decide⟩
        · exact ⟨⟨['"'], by decide⟩, '"', by decide⟩
        · exact ⟨⟨['\t'], by decide⟩, 't', by decide⟩
        · exact ⟨⟨['\r'], by decide⟩, 'r', by decide⟩
        · exact ⟨⟨['\n'], by decide⟩, 'n', by decide⟩
      obtain ⟨hone, c, hc, hbytes⟩ := hletter b hb
      rw [List.flatMap_append, List.flatMap_cons, hbytes, List.cons_append, List.singleton_append]
        at h
      obtain ⟨hx, hrest⟩ := Utf8.cut (by decide) h
      obtain ⟨-, hy⟩ := Utf8.cut (x := []) hc hrest
      simp only [List.length_append, List.length_cons] at hn
      have hx' := ih x.length (by omega) hx rfl
      have hy' := ih y.length (by omega) hy rfl
      rw [← List.singleton_append]
      exact hx'.append (hone.append hy')

/-! ## Reading a value back -/

theorem joinSurrogates_chars (t : List Char) : joinSurrogates (t.map Char.toNat) = t := by
  have hchr (c : Char) : chr c.toNat = c := by
    have hrange := char_range c
    rw [chr, if_neg (by omega), Char.ofNat_toNat]
  induction t with
  | nil => rfl
  | cons c t ih =>
    cases t with
    | nil => rw [List.map_cons, List.map_nil, joinSurrogates, hchr]
    | cons d t =>
      have hc := char_range c
      rw [List.map_cons, List.map_cons, joinSurrogates, if_neg (by omega), hchr, ← List.map_cons,
        ih]

theorem scanUnits_escapeChars {t : List Char} (h : ∀ c ∈ t, Legal c) (rest : List Char) :
    scanUnits (t.flatMap escapeChar ++ '"' :: rest) = some (t.map Char.toNat, rest) := by
  induction t with
  | nil => rfl
  | cons c t ih =>
    obtain ⟨hc, ht⟩ := List.forall_mem_cons.mp h
    have hone : ∀ s, scanUnits (escapeChar c ++ s) =
        (scanUnits s).map fun p => (c.toNat :: p.1, p.2) := by
      intro s
      rw [escapeChar]
      split_ifs with hb hq htab hr hn
      · subst hb; exact scanUnits_simple (by decide) rfl s
      · subst hq; exact scanUnits_simple (by decide) rfl s
      · subst htab; exact scanUnits_simple (by decide) rfl s
      · subst hr; exact scanUnits_simple (by decide) rfl s
      · subst hn; exact scanUnits_simple (by decide) rfl s
      · refine scanUnits_plain hq hb ?_ s
        by_contra hlow
        have hws := hc (by omega)
        simp only [isWs, Bool.or_eq_true, beq_iff_eq, htab, hn, hr, or_false] at hws
        exact hlow (hws ▸ by decide)
    rw [List.flatMap_cons, List.append_assoc, hone, ih ht]
    rfl

theorem scanString_escapeChars {t : List Char} (h : ∀ c ∈ t, Legal c) (rest : List Char) :
    scanString (t.flatMap escapeChar ++ '"' :: rest) = some (t, rest) := by
  rw [scanString, scanUnits_escapeChars h, Option.map_some, joinSurrogates_chars]

theorem valueText_string {t : List Char} (h : ∀ c ∈ t, Legal c) :
    ValueText ('"' :: (t.flatMap escapeChar ++ ['"'])) (.str (String.ofList t)) := by
  have hstarts : Starts ('"' :: (t.flatMap escapeChar ++ ['"'])) := ⟨'"', _, rfl, by decide⟩
  refine ⟨hstarts, fun fuel rest hf _ => ?_⟩
  obtain ⟨fuel, rfl⟩ := ValueText.exists_fuel hstarts hf
  rw [List.cons_append, List.append_assoc, List.singleton_append, parseValue, if_pos rfl,
    scanString_escapeChars h, Option.map_some]

/-! ## Fields as members -/

/-- Text without control characters that the escaper leaves raw. -/
def Clean (v : Bytes) : Prop := ∃ t, v = encodeUtf8 t ∧ ∀ c ∈ t, Legal c

/-- What a field's value is read as. -/
def ReadsAs (value : Option Bytes) (v : Option Value) : Prop :=
  match value with
  | none => v = some .null
  | some bs => ∃ s : String, v = some (.str s) ∧ encodeUtf8 s.toList = bs

theorem ReadsAs.unique {value : Option Bytes} {v w : Option Value} (hv : ReadsAs value v)
    (hw : ReadsAs value w) : v = w := by
  cases value with
  | none => exact hv.trans (Eq.symm hw)
  | some bs =>
    obtain ⟨s, rfl, hs⟩ := hv
    obtain ⟨t, rfl, ht⟩ := hw
    rw [String.toList_inj.mp (encodeUtf8_injective (hs.trans ht.symm))]

/-- A key that needs no escapes and has no byte that the splices go by. -/
def PlainKey (key : String) : Prop :=
  key.toList.flatMap escapeChar = key.toList ∧ (∀ c ∈ key.toList, Legal c) ∧
    ∀ b ∈ [10, 44, 58, 125], b ∉ quotedKey key

instance (key : String) : Decidable (PlainKey key) :=
  @instDecidableAnd _ _ inferInstance
    (@instDecidableAnd _ _ (List.decidableBAll _ _) (List.decidableBAll _ _))

theorem PlainKey.keyText {key : String} (h : PlainKey key) :
    KeyText (key.toList ++ ['"']) key := by
  intro rest
  rw [List.append_assoc, List.singleton_append, ← h.1, scanString_escapeChars h.2.1, h.1]

theorem Field.text_some (key : String) (v : Bytes) :
    Field.text ⟨key, some v⟩ = [34] ++ jsonEscape v ++ [34] := by
  rw [← commandSubst_of_notMem (newline_notMem_jsonEscape v)]
  rfl

theorem Field.newline_notMem_fragment {f : Field} (h : PlainKey f.key) :
    (10 : UInt8) ∉ f.fragment := by
  have hkey : (10 : UInt8) ∉ quotedKey f.key := h.2.2 10 List.mem_cons_self
  have htext : (10 : UInt8) ∉ f.text := by
    obtain ⟨key, value⟩ := f
    cases value with
    | none => exact show (10 : UInt8) ∉ ascii "null" by decide
    | some v => simp [Field.text_some, newline_notMem_jsonEscape v]
  simp [Field.fragment, hkey, htext]

theorem Field.fragment_eq {f : Field} {body : List Char} (h : f.text = encodeUtf8 body) :
    f.fragment = encodeUtf8 (',' :: memberText (f.key.toList ++ ['"']) [] [] body []) := by
  have hascii {c : Char} (hc : c.toNat < 128) (s : List Char) :
      encodeUtf8 (c :: s) = [UInt8.ofNat c.toNat] ++ encodeUtf8 s := by
    rw [encodeUtf8_cons, encodeChar_of_ascii hc]
  rw [Field.fragment, quotedKey, ascii, h, memberText, hascii (by decide), hascii (by decide),
    encodeUtf8_append, encodeUtf8_append, List.nil_append, hascii (by decide), List.nil_append,
    List.append_nil]
  simp only [List.append_assoc]
  rfl

/-- A clean field is a member of the line. -/
theorem Field.exists_item {f : Field} (hkey : PlainKey f.key) (h : ∀ v ∈ f.value, Clean v) :
    ∃ i : Item, i.key = f.key ∧ f.fragment = encodeUtf8 (',' :: i.text) ∧
      ReadsAs f.value (some i.value) := by
  obtain ⟨key, value⟩ := f
  cases value with
  | none =>
    have hnull : ValueText "null".toList .null :=
      ⟨⟨'n', _, rfl, by decide⟩, fun fuel rest hf hend => reads .null fuel rest hf hend⟩
    exact ⟨⟨key, [], _, [], .null, hkey.keyText, blank_nil, blank_nil, hnull⟩, rfl,
      Field.fragment_eq rfl, rfl⟩
  | some v =>
    obtain ⟨t, rfl, ht⟩ := h v rfl
    refine ⟨⟨key, [], _, [], _, hkey.keyText, blank_nil, blank_nil, valueText_string ht⟩, rfl,
      Field.fragment_eq ?_, String.ofList t, rfl, by rw [String.toList_ofList]⟩
    rw [Field.text_some, jsonEscape_encodeUtf8, encodeUtf8_cons, encodeUtf8_append]
    rfl

/-- A field that is part of a text without control characters is clean. -/
theorem clean_of_infix {f : Field} {s : List Char} (h : f.fragment <:+: encodeUtf8 s)
    (hs : ∀ c ∈ s, Legal c) : ∀ v ∈ f.value, Clean v := by
  obtain ⟨key, value⟩ := f
  rintro v rfl
  obtain ⟨x, y, h⟩ := h
  have hbytes : encodeUtf8 s =
      x ++ [44] ++ quotedKey key ++ [58] ++ UInt8.ofNat '"'.toNat ::
        (jsonEscape v ++ UInt8.ofNat '"'.toNat :: y) := by
    rw [← h, Field.fragment, Field.text_some]
    simp only [List.append_assoc]
    rfl
  obtain ⟨s₁, s₂, rfl, -, hrest⟩ := encodeUtf8_eq_append_cons (by decide) hbytes
  obtain ⟨s₃, s₄, rfl, hv, -⟩ := encodeUtf8_eq_append_cons (by decide) hrest.symm
  obtain ⟨t, rfl⟩ := utf8_of_jsonEscape ⟨s₃, hv⟩
  rw [jsonEscape_encodeUtf8] at hv
  obtain rfl := encodeUtf8_injective hv
  refine ⟨t, rfl, fun c hc => ?_⟩
  by_cases hspecial : c ∈ specialChars
  · exact legal_specialChars c hspecial
  · refine hs c (List.mem_append_right _ (List.mem_cons_of_mem _ (List.mem_append_left _ ?_)))
    exact List.mem_flatMap.mpr ⟨c, hc, by rw [escapeChar_of_plain hspecial]; exact .head _⟩

end SpineFormal.Runtime.DbOutbox
