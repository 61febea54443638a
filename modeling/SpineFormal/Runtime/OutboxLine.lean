import SpineFormal.Runtime.DbOutbox

/-!
# What an outbox line is read as

A cost line is the caller's object with the missing fields before its brace, an event
line is an object put together from fields around the payload. Both give their parts
back exactly when every field that was written is clean and the caller's object has a
member for the fields to follow.
-/

namespace SpineFormal.Runtime.DbOutbox

open Json
set_option autoImplicit false

/-! ## Requests -/

inductive Request where
  | cost (json : Bytes)
  | event (now : Calendar) (role eventType payload : Bytes)

/-- The object that the caller gives. -/
def Request.payload : Request → Bytes
  | .cost json => json
  | .event _ _ _ payload => payload

/-- The line that is appended, if any. -/
def emit (env : Env) (stateDir : Bytes) : Request → Option Bytes
  | .cost json => emitCost env stateDir json
  | .event now role eventType payload => emitEvent env now stateDir role eventType payload

/-- An object on one line. -/
def SingleLineObject (payload : Bytes) (ms : Members) : Prop :=
  (10 : UInt8) ∉ payload ∧ ∃ t, payload = encodeUtf8 t ∧ loads t = some (.obj ms)

/-- The decoded line has the payload's fields and the writer's; a cost field that the
caller gave is the caller's. -/
def GivesBack (env : Env) (ms : Members) : Request → Members → Prop
  | .cost _, out =>
    (∀ k v, dictGet ms k = some v → dictGet out k = some v) ∧
      ∀ f ∈ costFields env, dictGet ms f.key = none → ReadsAs f.value (dictGet out f.key)
  | .event now role eventType _, out =>
    dictGet out "type" = some (.str "event") ∧
      dictGet out "ts" = some (.str (String.ofList (dateText now))) ∧
      dictGet out "payload" = some (.obj ms) ∧
      ∀ f ∈ headFields env role eventType ++ costFields env, ReadsAs f.value (dictGet out f.key)

/-- One line is written, and it is an object that gives back what went in. -/
def RoundTrips (env : Env) (stateDir : Bytes) (r : Request) (ms : Members) : Prop :=
  ∃ line, emit env stateDir r = some line ∧ (10 : UInt8) ∉ line ∧
    ∃ t out, decodeUtf8 line = some t ∧ loads t = some (.obj out) ∧ GivesBack env ms r out

/-! ## Which fields are spliced -/

/-- A field is added unless its key in quotes stands somewhere in the object, or in the
value of a field added before it. -/
def addField (json : Bytes) (as : List Field) (f : Field) : List Field :=
  if Mentions f.key json ∨ ∃ g ∈ as, Mentions f.key g.text then as else as ++ [f]

def added (env : Env) (json : Bytes) : List Field := (costFields env).foldl (addField json) []

/-- The object with fields before its brace. -/
def assemble (json : Bytes) (as : List Field) : Bytes :=
  if as = [] then json else stripBrace json ++ (as.flatMap Field.fragment ++ [125])

/-- Keys of which none is part of another. -/
def Apart (fs : List Field) : Prop :=
  (∀ f ∈ fs, PlainKey f.key) ∧ fs.Pairwise fun f g => ¬ quotedKey g.key <:+: quotedKey f.key

theorem stripBrace_append (s : Bytes) : stripBrace (s ++ [125]) = s := by
  rw [stripBrace, List.getLast?_concat, if_pos rfl, List.dropLast_concat]

theorem eq_stripBrace_append {s : Bytes} (h : s.getLast? = some 125) :
    s = stripBrace s ++ [125] := by
  rw [stripBrace, if_pos h]
  exact (List.dropLast_append_getLast? 125 h).symm

theorem quotedKey_ne_nil (key : String) : quotedKey key ≠ [] :=
  List.append_ne_nil_of_left_ne_nil (List.cons_ne_nil _ _) _

theorem mentions_append_brace {key : String} (hkey : PlainKey key) (s : Bytes) :
    Mentions key (s ++ [125]) ↔ Mentions key s := by
  rw [Mentions, infix_append_cons_iff (hkey.2.2 125 (by decide)), List.infix_nil]
  exact or_iff_left (quotedKey_ne_nil key)

theorem mentions_stripBrace {key : String} (hkey : PlainKey key) (s : Bytes) :
    Mentions key (stripBrace s) ↔ Mentions key s := by
  by_cases h : s.getLast? = some 125
  · conv_rhs => rw [eq_stripBrace_append h]
    exact (mentions_append_brace hkey _).symm
  · rw [stripBrace, if_neg h]

/-- A key lies between the commas, colons and braces of what was spliced. -/
theorem mentions_fragments {f : Field} (hkey : PlainKey f.key) {as : List Field}
    (hapart : ∀ g ∈ as, ¬ quotedKey f.key <:+: quotedKey g.key) (s : Bytes) :
    Mentions f.key (s ++ (as.flatMap Field.fragment ++ [125])) ↔
      Mentions f.key s ∨ ∃ g ∈ as, Mentions f.key g.text := by
  induction as generalizing s with
  | nil =>
    rw [List.flatMap_nil, List.nil_append, mentions_append_brace hkey]
    simp
  | cons g as ih =>
    obtain ⟨hg, has⟩ := List.forall_mem_cons.mp hapart
    have hsplit : s ++ ((g :: as).flatMap Field.fragment ++ [125]) =
        s ++ 44 :: (quotedKey g.key ++ 58 :: (g.text ++ (as.flatMap Field.fragment ++ [125]))) := by
      simp only [List.flatMap_cons, Field.fragment, List.append_assoc]
      rfl
    rw [hsplit, Mentions, infix_append_cons_iff (hkey.2.2 44 (by decide)),
      infix_append_cons_iff (hkey.2.2 58 (by decide))]
    have hrest := ih has g.text
    rw [Mentions] at hrest
    rw [hrest, or_iff_right hg, List.exists_mem_cons_iff]
    rfl

theorem splice_assemble {json : Bytes} {as : List Field} {f : Field} (hkey : PlainKey f.key)
    (hapart : ∀ g ∈ as, ¬ quotedKey f.key <:+: quotedKey g.key) :
    splice (assemble json as) f = assemble json (addField json as f) := by
  have hmentions : Mentions f.key (assemble json as) ↔
      Mentions f.key json ∨ ∃ g ∈ as, Mentions f.key g.text := by
    by_cases has : as = []
    · subst has
      simp [assemble]
    · rw [assemble, if_neg has, mentions_fragments hkey hapart, mentions_stripBrace hkey]
  rw [splice, addField]
  by_cases h : Mentions f.key json ∨ ∃ g ∈ as, Mentions f.key g.text
  · rw [if_pos (hmentions.mpr h), if_pos h]
  · rw [if_neg (mt hmentions.mp h), if_neg h, assemble.eq_def json (as ++ [f]),
      if_neg (List.append_ne_nil_of_right_ne_nil as (List.cons_ne_nil f [])),
      commandSubst_of_notMem (Field.newline_notMem_fragment hkey)]
    have hstrip : stripBrace (assemble json as) = stripBrace json ++ as.flatMap Field.fragment := by
      by_cases has : as = []
      · subst has
        simp [assemble]
      · rw [assemble, if_neg has, ← List.append_assoc, stripBrace_append]
    rw [hstrip]
    simp [List.flatMap_append]

theorem mem_addField {json : Bytes} {as : List Field} {f g : Field}
    (h : g ∈ addField json as f) : g ∈ as ∨ g = f := by
  rw [addField] at h
  split_ifs at h
  · exact .inl h
  · simpa using h

theorem foldl_splice {json : Bytes} {as fs : List Field} (hfs : Apart fs)
    (has : ∀ g ∈ as, ∀ f ∈ fs, ¬ quotedKey f.key <:+: quotedKey g.key) :
    fs.foldl splice (assemble json as) = assemble json (fs.foldl (addField json) as) := by
  induction fs generalizing as with
  | nil => rfl
  | cons f fs ih =>
    obtain ⟨hf, hplain⟩ := List.forall_mem_cons.mp hfs.1
    obtain ⟨hhead, htail⟩ := List.pairwise_cons.mp hfs.2
    rw [List.foldl_cons, List.foldl_cons, splice_assemble hf fun g hg => has g hg f (.head _)]
    refine ih ⟨hplain, htail⟩ fun g hg f' hf' => ?_
    rcases mem_addField hg with hg | rfl
    · exact has g hg f' (.tail _ hf')
    · exact hhead f' hf'

theorem apart_costFields (env : Env) : Apart (costFields env) := by
  refine ⟨?_, ?_⟩
  · simp only [costFields, List.forall_mem_cons, engagementField, idempotencyField, tenantField]
    decide
  · simp only [costFields, List.pairwise_cons, List.forall_mem_cons, engagementField,
      idempotencyField, tenantField]
    decide

theorem emitCost_eq {env : Env} {stateDir json : Bytes} (hs : stateDir ≠ []) (hj : json ≠ []) :
    emitCost env stateDir json = some (assemble json (added env json)) := by
  have hfold : (costFields env).foldl splice (assemble json []) = assemble json (added env json) :=
    foldl_splice (apart_costFields env) (List.forall_mem_nil _)
  rw [emitCost, if_neg (not_or.mpr ⟨hs, hj⟩), ← hfold, assemble, if_pos rfl]

theorem foldl_addField_sublist (json : Bytes) (as fs : List Field) :
    (fs.foldl (addField json) as).Sublist (as ++ fs) := by
  induction fs generalizing as with
  | nil => simp
  | cons f fs ih =>
    have hadd : (addField json as f).Sublist (as ++ [f]) := by
      rw [addField]
      split_ifs
      · exact List.sublist_append_left as [f]
      · exact .refl _
    have happend := (ih (addField json as f)).trans (hadd.append_right fs)
    rwa [List.append_assoc] at happend

theorem added_sublist (env : Env) (json : Bytes) : (added env json).Sublist (costFields env) :=
  foldl_addField_sublist json [] (costFields env)

/-! ## Written fields as members -/

/-- Fields and the members that their fragments are the text of. -/
def FieldItems (fs : List Field) (is : List Item) : Prop :=
  List.Forall₂ (fun f i => i.key = f.key ∧ f.fragment = encodeUtf8 (',' :: i.text) ∧
    ReadsAs f.value (some i.value)) fs is

theorem exists_fieldItems {fs : List Field} (hkey : ∀ f ∈ fs, PlainKey f.key)
    (h : ∀ f ∈ fs, ∀ v ∈ f.value, Clean v) : ∃ is, FieldItems fs is := by
  induction fs with
  | nil => exact ⟨[], .nil⟩
  | cons f fs ih =>
    obtain ⟨hf, hfs⟩ := List.forall_mem_cons.mp hkey
    obtain ⟨hclean, hrest⟩ := List.forall_mem_cons.mp h
    obtain ⟨i, hi⟩ := Field.exists_item hf hclean
    obtain ⟨is, his⟩ := ih hfs hrest
    exact ⟨i :: is, .cons hi his⟩

section

variable {fs : List Field} {is : List Item}

theorem FieldItems.bytes (h : FieldItems fs is) :
    fs.flatMap Field.fragment = encodeUtf8 (followers is) := by
  induction h with
  | nil => rfl
  | @cons f i fs is hi _ ih =>
    rw [List.flatMap_cons, ih, hi.2.1, followers, followers, List.flatMap_cons, encodeUtf8_append]

theorem FieldItems.keys (h : FieldItems fs is) :
    (is.map Item.member).map Prod.fst = fs.map Field.key := by
  induction h with
  | nil => rfl
  | cons hi _ ih =>
    rw [List.map_cons, List.map_cons, ih, List.map_cons, ← hi.1]
    rfl

theorem FieldItems.exists_mem (h : FieldItems fs is) {f : Field} (hf : f ∈ fs) :
    ∃ i ∈ is, i.key = f.key ∧ ReadsAs f.value (some i.value) := by
  induction h with
  | nil => cases hf
  | @cons g i fs is hi _ ih =>
    rcases List.mem_cons.mp hf with rfl | hf
    · exact ⟨i, .head _, hi.1, hi.2.2⟩
    · obtain ⟨j, hj, hread⟩ := ih hf
      exact ⟨j, .tail _ hj, hread⟩

/-- What a dictionary holds that ends in the members of the fields. -/
theorem FieldItems.dictGet_append (h : FieldItems fs is) (hd : (fs.map Field.key).Nodup)
    (ms : Members) {f : Field} (hf : f ∈ fs) :
    ReadsAs f.value (dictGet (ms ++ is.map Item.member) f.key) := by
  obtain ⟨i, hi, hkey, hread⟩ := h.exists_mem hf
  have hget := dictGet_of_mem (h.keys ▸ hd) (List.mem_map_of_mem (f := Item.member) hi)
  rw [Json.dictGet_append, ← hkey]
  exact (congrArg (fun v => v.or (dictGet ms i.key)) hget).symm ▸ hread

theorem FieldItems.dictGet_append_of_notMem (h : FieldItems fs is) (ms : Members) {k : String}
    (hk : k ∉ fs.map Field.key) : dictGet (ms ++ is.map Item.member) k = dictGet ms k := by
  rw [Json.dictGet_append, dictGet_eq_none_iff.mpr (h.keys ▸ hk)]
  rfl

end

/-! ## Cost lines -/

/-- A blank after the brace is the last byte. -/
theorem blank_of_getLast? {s b : List Char} (hb : Blank b)
    (h : (encodeUtf8 (s ++ b)).getLast? = some 125) : b = [] := by
  rcases List.eq_nil_or_concat b with rfl | ⟨b, w, rfl⟩
  · rfl
  · have hw : isWs w = true := hb w (by simp)
    simp only [isWs, Bool.or_eq_true, beq_iff_eq] at hw
    have hbyte : ∃ n, encodeUtf8 [w] = [n] ∧ n ≠ 125 := by
      rcases hw with ((rfl | rfl) | rfl) | rfl
      · exact ⟨32, by decide⟩
      · exact ⟨9, by decide⟩
      · exact ⟨10, by decide⟩
      · exact ⟨13, by decide⟩
    obtain ⟨n, hn, hne⟩ := hbyte
    rw [List.concat_eq_append, ← List.append_assoc, encodeUtf8_append, hn, List.getLast?_concat]
      at h
    exact absurd (Option.some.inj h) hne

theorem Field.fragment_infix {f : Field} {fs : List Field} (hf : f ∈ fs) :
    f.fragment <:+: fs.flatMap Field.fragment :=
  List.infix_of_mem_flatten (List.mem_map_of_mem hf)

section

variable {json : Bytes} {t : List Char} {ms : Members}

/-- Without its brace an object is what stands before it. -/
theorem stripBrace_obj (hjson : json = encodeUtf8 t) (ht : loads t = some (.obj ms))
    (hlast : json.getLast? = some 125) :
    ∃ b b' m, stripBrace json = encodeUtf8 (b ++ '{' :: (b' ++ m)) ∧ Blank b ∧ Blank b' ∧
      (ms = [] ∧ m = [] ∨ ms ≠ [] ∧ MembersPrefix m ms) := by
  obtain ⟨b, b', m, b'', rfl, hb, hb', hb'', hms⟩ := loads_obj_split ht
  have hsplit : b ++ '{' :: (b' ++ (m ++ '}' :: b'')) = b ++ '{' :: (b' ++ m) ++ ['}'] ++ b'' := by
    simp
  rw [hsplit] at hjson
  obtain rfl := blank_of_getLast? hb'' (hjson ▸ hlast)
  refine ⟨b, b', m, ?_, hb, hb', hms⟩
  rw [hjson, List.append_nil, encodeUtf8_append]
  exact stripBrace_append _

variable {as : List Field} {is : List Item}

theorem loads_assemble (hjson : json = encodeUtf8 t) (ht : loads t = some (.obj ms))
    (hobj : as ≠ [] → ms ≠ [] ∧ json.getLast? = some 125) (his : FieldItems as is) :
    ∃ s, assemble json as = encodeUtf8 s ∧ loads s = some (.obj (ms ++ is.map Item.member)) := by
  rw [assemble]
  by_cases has : as = []
  · subst has
    obtain rfl := List.forall₂_nil_left_iff.mp his
    exact ⟨t, by rw [if_pos rfl, hjson], by rw [ht, List.map_nil, List.append_nil]⟩
  · obtain ⟨hne, hlast⟩ := hobj has
    obtain ⟨b, b', m, hstrip, hb, hb', hms⟩ := stripBrace_obj hjson ht hlast
    rcases hms with ⟨hnil, -⟩ | ⟨-, hprefix⟩
    · exact absurd hnil hne
    refine ⟨_, ?_, hprefix.loads_followers hb hb'⟩
    have hbrace : [125] = encodeUtf8 ['}'] := rfl
    rw [if_neg has, hstrip, his.bytes, hbrace, ← encodeUtf8_append, ← encodeUtf8_append]
    simp

/-- A line that is read at all has an object with members before the fields, and the fields
are clean. -/
theorem of_loads_assemble (hjson : json = encodeUtf8 t) (ht : loads t = some (.obj ms))
    {s : List Char} {v : Value} (hline : assemble json as = encodeUtf8 s)
    (hs : loads s = some v) :
    (as ≠ [] → ms ≠ [] ∧ json.getLast? = some 125) ∧ ∀ f ∈ as, ∀ v ∈ f.value, Clean v := by
  refine ⟨fun has => ?_, fun f hf => ?_⟩
  · obtain ⟨f, as, rfl⟩ := List.exists_cons_of_ne_nil has
    have hcomma : ∃ y, encodeUtf8 s = stripBrace json ++ UInt8.ofNat ','.toNat :: y := by
      rw [← hline, assemble, if_neg has, List.flatMap_cons, Field.fragment]
      exact ⟨_, by simp only [List.append_assoc]; rfl⟩
    obtain ⟨y, hy⟩ := hcomma
    obtain ⟨s₁, s₂, rfl, hs₁, -⟩ := encodeUtf8_eq_append_cons (by decide) hy
    by_cases hlast : json.getLast? = some 125
    · obtain ⟨b, b', m, hstrip, hb, hb', hms⟩ := stripBrace_obj hjson ht hlast
      refine ⟨?_, hlast⟩
      rintro rfl
      rcases hms with ⟨-, rfl⟩ | ⟨hne, -⟩
      · obtain rfl := encodeUtf8_injective (hs₁.symm.trans hstrip)
        have hnone := loads_obj_comma hb hb' s₂
        simp [hnone] at hs
      · exact hne rfl
    · rw [stripBrace, if_neg hlast, hjson] at hs₁
      obtain rfl := encodeUtf8_injective hs₁
      rw [loads_append_comma ht] at hs
      cases hs
  · obtain ⟨b, c, b', -, -, -, hlegal, -⟩ := loads_split hs
    refine clean_of_infix ((Field.fragment_infix hf).trans ?_) hlegal
    rw [← hline, assemble, if_neg (List.ne_nil_of_mem hf)]
    exact ⟨stripBrace json, [125], List.append_assoc _ _ _⟩

end

theorem newline_notMem_fragments {fs : List Field} (h : ∀ f ∈ fs, PlainKey f.key) :
    (10 : UInt8) ∉ fs.flatMap Field.fragment := by
  intro hmem
  obtain ⟨f, hf, hnewline⟩ := List.mem_flatMap.mp hmem
  exact Field.newline_notMem_fragment (h f hf) hnewline

theorem newline_notMem_assemble {json : Bytes} {as : List Field} (hjson : (10 : UInt8) ∉ json)
    (h : ∀ f ∈ as, PlainKey f.key) : (10 : UInt8) ∉ assemble json as := by
  have hstrip : (10 : UInt8) ∉ stripBrace json := by
    rw [stripBrace]
    split_ifs
    · exact fun hmem => hjson (List.mem_of_mem_dropLast hmem)
    · exact hjson
  rw [assemble]
  split_ifs
  · exact hjson
  · simp [hstrip, newline_notMem_fragments h]

/-- When a cost line gives back what went in. -/
structure CostHolds (env : Env) (json : Bytes) (ms : Members) : Prop where
  /-- Fields are put behind a member, before a brace that ends the text. -/
  object : added env json ≠ [] → ms ≠ [] ∧ json.getLast? = some 125
  /-- A field that is left out because its key is mentioned is a member. -/
  given : ∀ f ∈ costFields env, f ∉ added env json → dictGet ms f.key ≠ none
  clean : ∀ f ∈ added env json, ∀ v ∈ f.value, Clean v
  /-- A field that is added although it is a member has the member's value. -/
  agrees : ∀ f ∈ added env json, ∀ v, dictGet ms f.key = some v → ReadsAs f.value (some v)

theorem nodup_costKeys (env : Env) : ((costFields env).map Field.key).Nodup := by
  simp only [costFields, List.map_cons, List.map_nil, engagementField, idempotencyField,
    tenantField]
  decide

theorem cost_roundTrips_iff {env : Env} {stateDir json : Bytes} {ms : Members}
    (h : SingleLineObject json ms) :
    RoundTrips env stateDir (.cost json) ms ↔ stateDir ≠ [] ∧ CostHolds env json ms := by
  obtain ⟨hnewline, t, hjson, ht⟩ := h
  have hjsonne : json ≠ [] := by
    rintro rfl
    obtain rfl : t = [] := encodeUtf8_injective hjson.symm
    cases ht
  have hsub := added_sublist env json
  have hplain : ∀ f ∈ added env json, PlainKey f.key :=
    fun f hf => (apart_costFields env).1 f (hsub.subset hf)
  have hkeys : ((added env json).map Field.key).Nodup :=
    (nodup_costKeys env).sublist (hsub.map Field.key)
  -- the key of a field that is not added is no other field's
  have hfresh : ∀ f ∈ costFields env, f ∉ added env json →
      f.key ∉ (added env json).map Field.key := by
    intro f hf hnot hmem
    obtain ⟨g, hg, hkey⟩ := List.mem_map.mp hmem
    exact hnot (List.inj_on_of_nodup_map (nodup_costKeys env) (hsub.subset hg) hf hkey ▸ hg)
  constructor
  · rintro ⟨line, hline, -, s, out, hdecode, hs, hkept, hfields⟩
    have hdir : stateDir ≠ [] := by
      rintro rfl
      simp [emit, emitCost] at hline
    rw [emit, emitCost_eq hdir hjsonne] at hline
    have hbytes := (Option.some.inj hline).trans (decodeUtf8_eq_some_iff.mp hdecode)
    obtain ⟨hobject, hclean⟩ := of_loads_assemble hjson ht hbytes hs
    obtain ⟨is, his⟩ := exists_fieldItems hplain hclean
    obtain ⟨s', hs', hread⟩ := loads_assemble hjson ht hobject his
    obtain rfl := encodeUtf8_injective (hbytes.symm.trans hs')
    obtain rfl := Value.obj.inj (Option.some.inj (hs.symm.trans hread))
    refine ⟨hdir, hobject, fun f hf hnot hnone => ?_, hclean, fun f hf v hv => ?_⟩
    · have hget := hfields f hf hnone
      rw [his.dictGet_append_of_notMem ms (hfresh f hf hnot), hnone] at hget
      cases hvalue : f.value with
      | none => rw [hvalue] at hget; cases hget
      | some v =>
        rw [hvalue] at hget
        obtain ⟨s, hs, -⟩ := hget
        cases hs
    · exact hkept f.key v hv ▸ his.dictGet_append hkeys ms hf
  · rintro ⟨hdir, hobject, hgiven, hclean, hagrees⟩
    obtain ⟨is, his⟩ := exists_fieldItems hplain hclean
    obtain ⟨s, hs, hread⟩ := loads_assemble hjson ht hobject his
    refine ⟨assemble json (added env json), emitCost_eq hdir hjsonne,
      newline_notMem_assemble hnewline hplain, s, _, decodeUtf8_eq_some_iff.mpr hs, hread,
      fun k v hv => ?_, fun f hf hnone => ?_⟩
    · by_cases hk : k ∈ (added env json).map Field.key
      · obtain ⟨f, hf, rfl⟩ := List.mem_map.mp hk
        exact ((his.dictGet_append hkeys ms hf).unique (hagrees f hf v hv))
      · rw [his.dictGet_append_of_notMem ms hk, hv]
    · by_cases hadded : f ∈ added env json
      · exact his.dictGet_append hkeys ms hadded
      · exact absurd hnone (hgiven f hf hadded)

/-! ## Event lines -/

theorem dateText_range (now : Calendar) :
    ∀ c ∈ dateText now, 0x20 ≤ c.toNat ∧ c ∉ specialChars := by
  have hfixed (width n : Nat) : ∀ c ∈ Numerals.fixed 10 width n, 0x20 ≤ c.toNat ∧
      c ∉ specialChars := by
    intro c hc
    refine ⟨(Numerals.fixed_range (by decide) (by decide) hc).1, fun hspecial => ?_⟩
    have hdigit := Numerals.isDigit_of_mem_fixed c hc
    have hnone : ∀ c ∈ specialChars, c.isDigit = false := Numerals.forall_mem_of_all (by decide)
    rw [hnone c hspecial] at hdigit
    cases hdigit
  simp only [dateText, List.forall_mem_append, List.forall_mem_cons]
  refine ⟨hfixed _ _, by decide, hfixed _ _, by decide, hfixed _ _, by decide, hfixed _ _,
    by decide, hfixed _ _, by decide, hfixed _ _, by decide, List.forall_mem_nil _⟩

theorem escapeChars_of_plain {t : List Char} (h : ∀ c ∈ t, c ∉ specialChars) :
    t.flatMap escapeChar = t := by
  induction t with
  | nil => rfl
  | cons c t ih =>
    obtain ⟨hc, ht⟩ := List.forall_mem_cons.mp h
    rw [List.flatMap_cons, escapeChar_of_plain hc, ih ht, List.singleton_append]

def typeItem : Item where
  key := "type"
  lead := []
  body := "\"event\"".toList
  trail := []
  value := .str "event"
  keyText := PlainKey.keyText (by decide)
  lead_blank := blank_nil
  trail_blank := blank_nil
  reads := valueText_string (t := "event".toList) (Numerals.forall_mem_of_all (by decide))

def tsItem (now : Calendar) : Item where
  key := "ts"
  lead := []
  body := '"' :: (dateText now ++ ['"'])
  trail := []
  value := .str (String.ofList (dateText now))
  keyText := PlainKey.keyText (by decide)
  lead_blank := blank_nil
  trail_blank := blank_nil
  reads := by
    have htext := valueText_string fun c hc => legal_of_le (dateText_range now c hc).1
    rwa [escapeChars_of_plain fun c hc => (dateText_range now c hc).2] at htext

theorem head_eq (now : Calendar) :
    [123] ++ ascii "\"type\":\"event\",\"ts\":\"" ++ encodeUtf8 (dateText now) ++ [34] =
      encodeUtf8 ('{' :: (typeItem.text ++ ',' :: (tsItem now).text)) := by
  have htext : '{' :: (typeItem.text ++ ',' :: (tsItem now).text) =
      ['{'] ++ "\"type\":\"event\",\"ts\":\"".toList ++ dateText now ++ ['"'] := by
    simp [typeItem, tsItem, Item.text, memberText]
  rw [htext, encodeUtf8_append, encodeUtf8_append, encodeUtf8_append]
  rfl

theorem exists_payloadItem {t : List Char} {ms : Members} (ht : loads t = some (.obj ms)) :
    ∃ p : Item, p.member = ("payload", .obj ms) ∧
      ascii ",\"payload\":" ++ encodeUtf8 t = encodeUtf8 (',' :: p.text) := by
  obtain ⟨b, c, b', rfl, hb, hb', -, hvalue⟩ := loads_split ht
  refine ⟨⟨"payload", b, c, b', .obj ms, PlainKey.keyText (by decide), hb, hb', hvalue⟩, rfl, ?_⟩
  have htext : ',' :: memberText ("payload".toList ++ ['"']) [] b c b' =
      ",\"payload\":".toList ++ (b ++ (c ++ b')) := by
    simp [memberText]
  rw [ascii, ← encodeUtf8_append, ← htext]
  rfl

theorem plainKey_headFields (env : Env) (role eventType : Bytes) :
    ∀ f ∈ headFields env role eventType, PlainKey f.key := by
  simp only [headFields, List.forall_mem_cons]
  decide

/-- The line with its fields as they are, for a payload that is not empty. -/
theorem emitEvent_eq {env : Env} {now : Calendar} {stateDir role eventType payload : Bytes}
    (hdir : stateDir ≠ []) (htype : eventType ≠ []) (hpayload : payload ≠ []) :
    emitEvent env now stateDir role eventType payload =
      some ([123] ++ ascii "\"type\":\"event\",\"ts\":\"" ++ encodeUtf8 (dateText now) ++ [34] ++
        (headFields env role eventType).flatMap Field.fragment ++
        (ascii ",\"payload\":" ++ payload) ++ (costFields env).flatMap Field.fragment ++
        [125]) := by
  have hcost : (costFields env).flatMap (fun f => commandSubst f.fragment) =
      (costFields env).flatMap Field.fragment := by
    refine List.flatMap_congr fun f hf => ?_
    exact commandSubst_of_notMem (Field.newline_notMem_fragment ((apart_costFields env).1 f hf))
  rw [emitEvent, if_neg (not_or.mpr ⟨hdir, htype⟩), hcost, orDefault, if_neg hpayload]
  simp only [List.append_assoc]

theorem event_bytes {now : Calendar} {heads costs : List Field} {is js : List Item} {p : Item}
    {payload : Bytes} (his : FieldItems heads is) (hjs : FieldItems costs js)
    (hp : ascii ",\"payload\":" ++ payload = encodeUtf8 (',' :: p.text)) :
    [123] ++ ascii "\"type\":\"event\",\"ts\":\"" ++ encodeUtf8 (dateText now) ++ [34] ++
        heads.flatMap Field.fragment ++ (ascii ",\"payload\":" ++ payload) ++
        costs.flatMap Field.fragment ++ [125] =
      encodeUtf8
        ('{' :: (typeItem.text ++ followers (tsItem now :: (is ++ p :: js)) ++ ['}'])) := by
  have hbrace : [125] = encodeUtf8 ['}'] := rfl
  rw [head_eq, his.bytes, hjs.bytes, hp, hbrace, ← encodeUtf8_append, ← encodeUtf8_append,
    ← encodeUtf8_append, ← encodeUtf8_append]
  simp [followers]

/-- When an event line gives back what went in. -/
structure EventHolds (env : Env) (role eventType : Bytes) : Prop where
  type_ne : eventType ≠ []
  clean : ∀ f ∈ headFields env role eventType ++ costFields env, ∀ v ∈ f.value, Clean v

theorem event_roundTrips_iff {env : Env} {now : Calendar} {stateDir role eventType payload : Bytes}
    {ms : Members} (h : SingleLineObject payload ms) :
    RoundTrips env stateDir (.event now role eventType payload) ms ↔
      stateDir ≠ [] ∧ EventHolds env role eventType := by
  obtain ⟨hnewline, t, rfl, ht⟩ := h
  have hpayload : encodeUtf8 t ≠ [] := by
    intro hnil
    obtain rfl : t = [] := encodeUtf8_injective hnil
    cases ht
  have hplain : ∀ f ∈ headFields env role eventType ++ costFields env, PlainKey f.key :=
    List.forall_mem_append.mpr ⟨plainKey_headFields env role eventType, (apart_costFields env).1⟩
  constructor
  · rintro ⟨line, hline, -, s, out, hdecode, hs, -⟩
    have hargs : stateDir ≠ [] ∧ eventType ≠ [] := by
      rw [← not_or]
      intro hempty
      rw [emit, emitEvent, if_pos hempty] at hline
      cases hline
    rw [emit, emitEvent_eq hargs.1 hargs.2 hpayload] at hline
    have hbytes := (Option.some.inj hline).trans (decodeUtf8_eq_some_iff.mp hdecode)
    obtain ⟨b, c, b', -, -, -, hlegal, -⟩ := loads_split hs
    refine ⟨hargs.1, hargs.2, fun f hf => ?_⟩
    rcases List.mem_append.mp hf with hf | hf
    · refine clean_of_infix ((Field.fragment_infix hf).trans ?_) hlegal
      rw [← hbytes]
      exact ((List.infix_append _ _ _).trans (List.prefix_append _ _).isInfix).trans
        (List.prefix_append _ _).isInfix
    · refine clean_of_infix ((Field.fragment_infix hf).trans ?_) hlegal
      rw [← hbytes]
      exact ⟨_, [125], rfl⟩
  · rintro ⟨hdir, htype, hclean⟩
    obtain ⟨hhead, hcost⟩ := List.forall_mem_append.mp hclean
    obtain ⟨is, his⟩ := exists_fieldItems (plainKey_headFields env role eventType) hhead
    obtain ⟨js, hjs⟩ := exists_fieldItems (apart_costFields env).1 hcost
    obtain ⟨p, hp, htext⟩ := exists_payloadItem ht
    refine ⟨_, emitEvent_eq hdir htype hpayload, ?_, _, _,
      decodeUtf8_eq_some_iff.mpr (event_bytes his hjs htext), loads_items typeItem _, ?_⟩
    · have hdate : (10 : UInt8) ∉ encodeUtf8 (dateText now) := by
        intro hmem
        have hchar := (ascii_mem_encodeUtf8 (a := '\n') (by decide) _).mp hmem
        exact (dateText_range now _ hchar).2 (by decide)
      have htext : (10 : UInt8) ∉ ascii "\"type\":\"event\",\"ts\":\"" ∧
          (10 : UInt8) ∉ ascii ",\"payload\":" := by decide
      simp [hdate, htext, hnewline,
        newline_notMem_fragments (plainKey_headFields env role eventType),
        newline_notMem_fragments (apart_costFields env).1]
    · have hkeys : (((typeItem :: tsItem now :: (is ++ p :: js)).map Item.member).map
          Prod.fst).Nodup := by
        simp only [List.map_cons, List.map_append, his.keys, hjs.keys, hp, headFields, costFields,
          engagementField, idempotencyField, tenantField, List.map_nil]
        simp only [Item.member, typeItem, tsItem]
        decide
      have hget {i : Item} (hi : i ∈ typeItem :: tsItem now :: (is ++ p :: js)) :=
        dictGet_of_mem hkeys (List.mem_map_of_mem (f := Item.member) hi)
      have hpget := hget (i := p) (by simp)
      rw [hp] at hpget
      refine ⟨hget (i := typeItem) (by simp), hget (i := tsItem now) (by simp), hpget,
        fun f hf => ?_⟩
      have hmem : ∃ i ∈ is ++ p :: js, i.key = f.key ∧ ReadsAs f.value (some i.value) := by
        rcases List.mem_append.mp hf with hf | hf
        · obtain ⟨i, hi, hread⟩ := his.exists_mem hf
          exact ⟨i, List.mem_append_left _ hi, hread⟩
        · obtain ⟨i, hi, hread⟩ := hjs.exists_mem hf
          exact ⟨i, List.mem_append_right _ (.tail _ hi), hread⟩
      obtain ⟨i, hi, hkey, hread⟩ := hmem
      exact hkey ▸ (hget (.tail _ (.tail _ hi))).symm ▸ hread

/-! ## Every line -/

/-- When a line gives back what went in. -/
def Holds (env : Env) (ms : Members) : Request → Prop
  | .cost json => CostHolds env json ms
  | .event _ role eventType _ => EventHolds env role eventType

/-- The written line gives its parts back exactly when each written field is clean and, for a
cost line, the fields that were spliced stand behind a member and those that were not are
members. -/
theorem roundTrips_iff (env : Env) (stateDir : Bytes) (r : Request) (ms : Members)
    (h : SingleLineObject r.payload ms) :
    RoundTrips env stateDir r ms ↔ stateDir ≠ [] ∧ Holds env ms r := by
  cases r with
  | cost json => exact cost_roundTrips_iff h
  | event now role eventType payload => exact event_roundTrips_iff h

def bareEnv : Env := ⟨[], [], [], [], [], [], []⟩

theorem singleLineObject_empty : SingleLineObject (ascii "\x7b\x7d") [] :=
  ⟨by decide, ['{', '}'], rfl, rfl⟩

/-- A bare environment, an event with the payload `{}`. -/
theorem roundTrips_iff_bareEvent :
    SingleLineObject (ascii "\x7b\x7d") [] ∧
      RoundTrips bareEnv (ascii "/state") (.event ⟨2026, 1, 1, 0, 0, 0, 0⟩ (ascii "planner")
        (ascii "PlanWritten") (ascii "\x7b\x7d")) [] := by
  refine ⟨singleLineObject_empty,
    (roundTrips_iff _ _ (.event _ _ _ _) [] singleLineObject_empty).mpr
      ⟨by decide, by decide, ?_⟩⟩
  have hclean {t : List Char} (ht : ∀ c ∈ t, Legal c) : Clean (encodeUtf8 t) := ⟨t, rfl, ht⟩
  have htexts : Clean (ascii "PlanWritten") ∧ Clean (ascii "planner") ∧ Clean [] ∧
      Clean (ascii "-") ∧ Clean [] ∧ Clean (ascii "default") :=
    ⟨hclean (Numerals.forall_mem_of_all (by decide)),
      hclean (Numerals.forall_mem_of_all (by decide)), hclean (t := []) (List.forall_mem_nil _),
      hclean (Numerals.forall_mem_of_all (by decide)), hclean (t := []) (List.forall_mem_nil _),
      hclean (Numerals.forall_mem_of_all (by decide))⟩
  simpa [headFields, costFields, engagementField, idempotencyField, tenantField, bareEnv, optional,
    orDefault, ascii] using htexts

/-- The empty object given as cost: the fields follow `{` with their comma. -/
theorem empty_cost_object_breaks_line :
    SingleLineObject (ascii "\x7b\x7d") [] ∧
      ¬ RoundTrips bareEnv (ascii "/state") (.cost (ascii "\x7b\x7d")) [] := by
  refine ⟨singleLineObject_empty, fun h => ?_⟩
  have hcost := ((cost_roundTrips_iff singleLineObject_empty).mp h).2
  exact (hcost.object (by decide)).1 rfl

end SpineFormal.Runtime.DbOutbox
