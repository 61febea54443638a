import SpineFormal.Base.TextCodec
import SpineFormal.Json.Quotes

/-!
# `json.dumps` with other separators and with raw characters

With `ensure_ascii=False` only quotes, backslashes and control characters are escaped. The
text is read back in every format whose separators are a comma and a colon with blanks.
-/

namespace SpineFormal.Json

set_option autoImplicit false

/-- One character of `encode_basestring`. -/
def rawEscape (c : Char) : List Char :=
  if c = '"' then ['\\', '"']
  else if c = '\\' then ['\\', '\\']
  else if c = '\n' then ['\\', 'n']
  else if c = '\r' then ['\\', 'r']
  else if c = '\t' then ['\\', 't']
  else if c = '\x0c' then ['\\', 'f']
  else if c = '\x08' then ['\\', 'b']
  else if c.toNat < 0x20 then unicodeEscape c.toNat
  else [c]

/-- How a string is escaped, and what stands between elements and behind a key. -/
structure Format where
  escape : Char → List Char
  comma : List Char
  colon : List Char

/-- `separators=(",", ":"), ensure_ascii=False`. -/
def compactRaw : Format := ⟨rawEscape, [','], [':']⟩

/-- The defaults. -/
def spacedAscii : Format := ⟨escapeChar, [',', ' '], [':', ' ']⟩

def Format.quote (f : Format) (s : String) : List Char :=
  '"' :: (s.toList.flatMap f.escape ++ ['"'])

mutual
def Format.render (f : Format) : Value → List Char
  | .str s => f.quote s
  | .arr xs => '[' :: (f.comma.intercalate (f.renderElems xs) ++ [']'])
  | .obj ms => '\x7b' :: (f.comma.intercalate (f.renderMembers ms) ++ ['\x7d'])
  | v => encode v
def Format.renderElems (f : Format) : List Value → List (List Char)
  | [] => []
  | v :: vs => f.render v :: f.renderElems vs
def Format.renderMembers (f : Format) : Members → List (List Char)
  | [] => []
  | (k, v) :: ms => (f.quote k ++ f.colon ++ f.render v) :: f.renderMembers ms
end

/-! ## Read back -/

/-- The reader undoes the escapes and takes the separators for such. -/
structure Format.Readable (f : Format) : Prop where
  escapes : ∀ cs rest, scanString (cs.flatMap f.escape ++ '"' :: rest) = some (cs, rest)
  comma : ∃ b, Blank b ∧ f.comma = ',' :: b
  colon : ∃ b, Blank b ∧ f.colon = ':' :: b

theorem valueText_encode (v : Value) : ValueText (encode v) v := by
  obtain ⟨c, t, heq, hstart⟩ := encode_cons v
  exact ⟨⟨c, t, heq, hstart⟩, reads v⟩

section
variable {f : Format} (hf : f.Readable)
include hf

theorem Format.Readable.keyText (s : String) : KeyText (s.toList.flatMap f.escape ++ ['"']) s := by
  intro rest
  rw [List.append_assoc, List.singleton_append]
  exact hf.escapes _ rest

theorem Format.Readable.str (s : String) : ValueText (f.quote s) (.str s) := by
  refine ⟨⟨'"', _, rfl, by decide⟩, fun fuel rest hfuel _ => ?_⟩
  obtain ⟨k, rfl⟩ := ValueText.exists_fuel ⟨'"', _, rfl, by decide⟩ hfuel
  rw [quote, List.cons_append, parseValue, if_pos rfl, hf.keyText s rest, Option.map_some,
    String.ofList_toList]

theorem Format.Readable.elems {xs : List Value} (hne : xs ≠ [])
    (h : ∀ v ∈ xs, ValueText (f.render v) v) :
    ElemsText (f.comma.intercalate (f.renderElems xs)) xs := by
  obtain ⟨b, hb, hcomma⟩ := hf.comma
  induction xs with
  | nil => exact absurd rfl hne
  | cons v vs ih =>
    obtain ⟨hv, hvs⟩ := List.forall_mem_cons.mp h
    cases vs with
    | nil =>
      rw [renderElems, renderElems, List.intercalate_singleton, ← List.append_nil (f.render v)]
      exact hv.elems blank_nil
    | cons w ws =>
      have hrest := ih (List.cons_ne_nil w ws) hvs
      rw [renderElems] at hrest
      rw [renderElems, renderElems, List.intercalate_cons_cons, hcomma, List.append_assoc,
        List.cons_append, ← hcomma]
      exact hv.elems_cons blank_nil hb hrest

theorem Format.Readable.members {ms : Members} (hne : ms ≠ [])
    (h : ∀ m ∈ ms, ValueText (f.render m.2) m.2) :
    MembersText (f.comma.intercalate (f.renderMembers ms)) ms := by
  obtain ⟨b, hb, hcomma⟩ := hf.comma
  obtain ⟨b', hb', hcolon⟩ := hf.colon
  have htext (k : String) (v : Value) : f.quote k ++ f.colon ++ f.render v =
      memberText (k.toList.flatMap f.escape ++ ['"']) [] b' (f.render v) [] := by
    rw [quote, hcolon, memberText]
    simp
  induction ms with
  | nil => exact absurd rfl hne
  | cons m ms ih =>
    obtain ⟨hm, hms⟩ := List.forall_mem_cons.mp h
    cases ms with
    | nil =>
      rw [renderMembers, renderMembers, List.intercalate_singleton, htext]
      exact .single (hf.keyText m.1) blank_nil hb' hm blank_nil
    | cons n ns =>
      have hrest := ih (List.cons_ne_nil n ns) hms
      rw [renderMembers] at hrest
      rw [renderMembers, renderMembers, List.intercalate_cons_cons, htext, hcomma,
        List.append_assoc, List.cons_append, ← hcomma]
      exact .cons (hf.keyText m.1) blank_nil hb' hm blank_nil hb hrest

/-- The text of a value is read as the value. -/
theorem Format.Readable.valueText (v : Value) : ValueText (f.render v) v := by
  induction v using Value.inductionOn with
  | null | bool b | int n | float x => exact valueText_encode _
  | str s => exact hf.str s
  | arr xs ih =>
    rw [render]
    cases xs with
    | nil => exact valueText_arr_nil blank_nil
    | cons x xs => exact (hf.elems (List.cons_ne_nil x xs) ih).value blank_nil
  | obj ms ih =>
    rw [render]
    cases ms with
    | nil => exact valueText_obj_nil blank_nil
    | cons m ms => exact (hf.members (List.cons_ne_nil m ms) ih).value blank_nil

theorem Format.Readable.loads (v : Value) : loads (f.render v) = some v := by
  have h := (hf.valueText v).loads blank_nil blank_nil
  rwa [List.nil_append, List.append_nil] at h

theorem Format.Readable.render_injective : Function.Injective f.render := by
  intro v w h
  have hv := hf.loads v
  rw [h, hf.loads w] at hv
  exact (Option.some.inj hv).symm

end

/-! ## The compact text -/

theorem scanUnits_rawEscape (c : Char) (s : List Char) :
    scanUnits (rawEscape c ++ s) = (scanUnits s).map fun p => (c.toNat :: p.1, p.2) := by
  unfold rawEscape
  split_ifs with hq hb hn hr ht hf hbs hlow
  · subst hq; exact scanUnits_simple (by decide) rfl s
  · subst hb; exact scanUnits_simple (by decide) rfl s
  · subst hn; exact scanUnits_simple (by decide) rfl s
  · subst hr; exact scanUnits_simple (by decide) rfl s
  · subst ht; exact scanUnits_simple (by decide) rfl s
  · subst hf; exact scanUnits_simple (by decide) rfl s
  · subst hbs; exact scanUnits_simple (by decide) rfl s
  · exact scanUnits_unicode (by omega) s
  · exact scanUnits_plain hq hb (by omega) s

theorem compactRaw_readable : compactRaw.Readable where
  escapes cs rest := by
    have hunits : scanUnits (cs.flatMap rawEscape ++ '"' :: rest) = some (cs.map Char.toNat, rest) := by
      induction cs with
      | nil => simp [scanUnits]
      | cons c cs ih =>
        rw [List.flatMap_cons, List.append_assoc, scanUnits_rawEscape, ih]
        rfl
    rw [compactRaw, scanString, hunits, Option.map_some, joinSurrogates_chars]
  comma := ⟨[], blank_nil, rfl⟩
  colon := ⟨[], blank_nil, rfl⟩

theorem rawEscape_ge (c : Char) : ∀ d ∈ rawEscape c, 0x20 ≤ d.toNat := by
  unfold rawEscape
  split_ifs with hq hb hn hr ht hf hbs hlow
  all_goals first
    | exact Numerals.forall_mem_of_all (by decide)
    | exact fun d hd => (printable_unicodeEscape _ d hd).1
    | exact List.forall_mem_singleton.mpr (Nat.not_lt.mp hlow)

theorem quote_ge (s : String) : ∀ c ∈ compactRaw.quote s, 0x20 ≤ c.toNat := by
  refine List.forall_mem_cons.mpr ⟨by decide, List.forall_mem_append.mpr ⟨?_, ?_⟩⟩
  · intro c hc
    obtain ⟨d, -, hd⟩ := List.mem_flatMap.mp hc
    exact rawEscape_ge d c hd
  · exact List.forall_mem_singleton.mpr (by decide)

theorem bracket_ge {o c : Char} {xs : List (List Char)} (ho : 0x20 ≤ o.toNat) (hc : 0x20 ≤ c.toNat)
    (h : ∀ x ∈ xs, ∀ d ∈ x, 0x20 ≤ d.toNat) :
    ∀ d ∈ o :: ([','].intercalate xs ++ [c]), 0x20 ≤ d.toNat := by
  refine List.forall_mem_cons.mpr ⟨ho, List.forall_mem_append.mpr ⟨?_, ?_⟩⟩
  · intro d hd
    rcases mem_intercalate hd with rfl | ⟨x, hx, hdx⟩
    · decide
    · exact h x hx d hdx
  · exact List.forall_mem_singleton.mpr hc

/-- The compact text has no control character: it is one line. -/
theorem render_ge (v : Value) : ∀ c ∈ compactRaw.render v, 0x20 ≤ c.toNat := by
  induction v using Value.inductionOn with
  | null | bool b | int n | float x => exact fun c hc => (printable_encode _ c hc).1
  | str s => exact quote_ge s
  | arr xs ih =>
    have helems : compactRaw.renderElems xs = xs.map compactRaw.render := by
      clear ih
      induction xs with
      | nil => rfl
      | cons v vs ih => rw [Format.renderElems, ih, List.map_cons]
    rw [Format.render, helems]
    exact bracket_ge (by decide) (by decide) (List.forall_mem_map.mpr ih)
  | obj ms ih =>
    have hmembers : compactRaw.renderMembers ms =
        ms.map fun m => compactRaw.quote m.1 ++ compactRaw.colon ++ compactRaw.render m.2 := by
      clear ih
      induction ms with
      | nil => rfl
      | cons m ms ih => rw [Format.renderMembers, ih, List.map_cons]
    rw [Format.render, hmembers]
    refine bracket_ge (by decide) (by decide) (List.forall_mem_map.mpr fun m hm => ?_)
    rw [List.append_assoc]
    refine List.forall_mem_append.mpr ⟨quote_ge m.1, List.forall_mem_append.mpr ⟨?_, ih m hm⟩⟩
    exact List.forall_mem_singleton.mpr (by decide)

end SpineFormal.Json
