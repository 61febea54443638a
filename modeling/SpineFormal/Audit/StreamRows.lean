import SpineFormal.Audit.Exporter
import SpineFormal.Json.Column
import SpineFormal.Json.Quotes

/-!
# The rows that the exporter reads

`_stream_rows` cuts the output of psql with `splitlines`, which also cuts at U+0085, U+2028
and U+2029. `row_to_json` escapes control characters only, so these stand in its text as
they are, inside string literals. A row whose text is cut is lost, and a piece of it may be
taken for a row.
-/

namespace SpineFormal.Audit

open Json
set_option autoImplicit false

/-- What `row_to_json` prints: an object with the columns for keys, control characters escaped. -/
structure RowText (text : List Char) : Prop where
  object : ∃ fields, loadsText text = some (.obj fields) ∧ "event_id" ∈ fields.map Prod.fst
  escaped : ∀ c ∈ text, 0x20 ≤ c.toNat

/-! ## Lines -/

/-- The characters of a cut line: each piece behind the break before it. -/
def cutText (pieces : List (Char × List Char)) : List Char :=
  pieces.flatMap fun piece => piece.1 :: piece.2

/-- A text is its first line and the pieces behind its breaks. -/
theorem splitlines_cut {text : List Char} (h : '\r' ∉ text) :
    ∃ line pieces, text = line ++ cutText pieces ∧ (∀ c ∈ line, lineBreak c = false) ∧
      (∀ piece ∈ pieces, lineBreak piece.1 = true) ∧
      ∀ rest, splitlines (text ++ '\n' :: rest) = line :: pieces.map Prod.snd ++ splitlines rest := by
  induction text with
  | nil =>
    refine ⟨[], [], rfl, List.forall_mem_nil _, List.forall_mem_nil _, fun rest => ?_⟩
    exact splitlines_line (List.forall_mem_nil _) rest
  | cons c text ih =>
    obtain ⟨hc, htext⟩ := List.ne_and_not_mem_of_not_mem_cons h
    obtain ⟨line, pieces, hcut, hline, hpieces, hsplit⟩ := ih htext
    by_cases hbreak : lineBreak c = true
    · refine ⟨[], (c, line) :: pieces, by rw [hcut]; rfl, List.forall_mem_nil _,
        List.forall_mem_cons.mpr ⟨hbreak, hpieces⟩, fun rest => ?_⟩
      rw [List.cons_append, splitlines, if_pos hbreak, hsplit]
      · rfl
      · exact fun _ hr _ => hc hr.symm
    · rw [Bool.not_eq_true] at hbreak
      refine ⟨c :: line, pieces, by rw [hcut]; rfl, List.forall_mem_cons.mpr ⟨hbreak, hline⟩,
        hpieces, fun rest => ?_⟩
      rw [List.cons_append, splitlines, if_neg (by simp [hbreak]), hsplit]
      · rfl
      · exact fun _ hr _ => hc hr.symm

theorem return_notMem {text : List Char} (h : ∀ c ∈ text, 0x20 ≤ c.toNat) : '\r' ∉ text :=
  fun hmem => absurd (h '\r' hmem) (by decide)

theorem pageLines_flatMap {texts : List (List Char)} (h : ∀ t ∈ texts, RowText t) :
    pageLines texts = texts.flatMap fun t => pageLines [t] := by
  have hlines : splitlines (texts.flatMap (· ++ ['\n'])) =
      texts.flatMap fun t => splitlines (t ++ ['\n']) := by
    induction texts with
    | nil => rw [List.flatMap_nil, splitlines, List.flatMap_nil]
    | cons t texts ih =>
      obtain ⟨ht, htexts⟩ := List.forall_mem_cons.mp h
      obtain ⟨line, pieces, -, -, -, hsplit⟩ := splitlines_cut (return_notMem ht.escaped)
      rw [List.flatMap_cons, List.flatMap_cons, List.append_assoc, List.singleton_append,
        hsplit, hsplit [], splitlines, List.append_nil, ih htexts]
  rw [pageLines, hlines, List.filter_flatMap]
  simp only [pageLines, List.flatMap_singleton]

/-! ## Pieces of a text -/

theorem token_lineBreak {x : Char} (htoken : x ∈ tokenChars) (h : 0x20 ≤ x.toNat) :
    lineBreak x = false := by
  have hall : tokenChars.all (fun x => !lineBreak x || decide (x.toNat < 0x20)) = true := by decide
  have hx := List.all_eq_true.mp hall x htoken
  rw [Bool.or_eq_true, decide_eq_true_iff, Bool.not_eq_true'] at hx
  rcases hx with hx | hx
  · exact hx
  · omega

theorem RowText.loads {text : List Char} (h : RowText text) : ∃ v, Json.loads text = some v := by
  obtain ⟨fields, hfields, -⟩ := h.object
  obtain ⟨v, hv, -⟩ := Option.map_eq_some_iff.mp hfields
  exact ⟨v, hv⟩

/-- A break stands inside a literal. -/
theorem RowText.break_inside {x y : List Char} {b : Char} (h : RowText (x ++ b :: y))
    (hb : lineBreak b = true) :
    quoteRun .outside x ≠ .outside ∧ quoteRun .outside (x ++ [b]) = .inside := by
  obtain ⟨v, hv⟩ := h.loads
  have hx : quoteRun .outside x ≠ .outside := by
    intro hx
    have hmem : b ∈ charsOutside .outside (x ++ b :: y) := by
      rw [charsOutside_append, hx]
      exact List.mem_append_right _ List.mem_cons_self
    have hfalse := token_lineBreak ((loads_tokens hv).2 b hmem)
      (h.escaped b (List.mem_append_right x List.mem_cons_self))
    rw [hb] at hfalse
    cases hfalse
  refine ⟨hx, ?_⟩
  have hquote : b ≠ '"' := by
    rintro rfl
    exact absurd hb (by decide)
  have hslash : b ≠ '\\' := by
    rintro rfl
    exact absurd hb (by decide)
  rw [quoteRun_append]
  cases hmode : quoteRun .outside x with
  | outside => exact absurd hmode hx
  | inside => exact (if_neg hquote).trans (if_neg hslash)
  | escaped => rfl

/-- A row has its `event_id`. -/
def hasEventId : Value → Bool
  | .obj fields => decide ("event_id" ∈ fields.map Prod.fst)
  | _ => false

theorem hasEventId_loads {text : List Char} {v : Value} (h : loadsText text = some v)
    (hv : hasEventId v = true) :
    ∃ ms, loads text = some (.obj ms) ∧ "event_id" ∈ ms.map Prod.fst := by
  obtain ⟨w, hw, rfl⟩ := Option.map_eq_some_iff.mp h
  cases w with
  | obj ms =>
    rw [Value.dicts, hasEventId, decide_eq_true_iff] at hv
    obtain ⟨m, hm, hkey⟩ := List.mem_map.mp hv
    have hmem := mem_dictOf hm
    rw [dictsMembers_eq_map] at hmem
    obtain ⟨n, hn, rfl⟩ := List.mem_map.mp hmem
    exact ⟨ms, hw, List.mem_map.mpr ⟨n, hn, hkey⟩⟩
  | null | bool b | int n | float x | str s | arr xs => exact absurd hv Bool.false_ne_true

/-- A document between a break and the end of its line has no `event_id`. -/
theorem RowText.piece_hasEventId {x y piece : List Char} {b : Char}
    (h : RowText (x ++ b :: (piece ++ y))) (hb : lineBreak b = true) {v : Value}
    (hv : loadsText piece = some v) : hasEventId v = false := by
  rw [← Bool.not_eq_true]
  intro hrow
  obtain ⟨ms, hms, hkey⟩ := hasEventId_loads hv hrow
  obtain ⟨w, hw⟩ := h.loads
  have hcut : x ++ b :: (piece ++ y) = (x ++ [b]) ++ (piece ++ y) := by simp
  have htokens : ∀ c ∈ charsOutside .inside piece, c ∈ tokenChars := by
    intro c hc
    apply (loads_tokens hw).2
    rw [hcut, charsOutside_append, (h.break_inside hb).2, charsOutside_append .inside piece y]
    exact List.mem_append_right _ (List.mem_append_left _ hc)
  have hslash : '\\' ∉ tokenChars := by decide
  obtain ⟨hplain, hchars⟩ := Exchanged.chars (m := .outside) (n := .inside) trivial
    (fun hc => hslash ((loads_tokens hms).2 _ hc)) (fun hc => hslash (htokens _ hc))
  obtain ⟨m, hm, heq⟩ := List.mem_map.mp hkey
  have hunderscore : '_' ∈ m.1.toList := by
    rw [heq]
    decide
  have hmem := loads_keys hms hplain m hm '_' hunderscore
  rw [hchars] at hmem
  exact absurd (htokens '_' hmem) (by decide)

/-! ## What a row yields -/

/-- The values that the lines of one row decode to. -/
def rowValues (text : List Char) : List Value := (pageLines [text]).filterMap loadsText

theorem RowText.head_unbroken {text : List Char} (h : RowText text) :
    ∃ c s, text = c :: s ∧ lineBreak c = false := by
  obtain ⟨v, hv⟩ := h.loads
  cases text with
  | nil => cases hv
  | cons c s =>
    refine ⟨c, s, rfl, ?_⟩
    exact token_lineBreak ((loads_tokens hv).2 c List.mem_cons_self) (h.escaped c List.mem_cons_self)

theorem RowText.lines_ne_nil {text : List Char} (h : RowText text) : pageLines [text] ≠ [] := by
  obtain ⟨c, s, rfl, hc⟩ := h.head_unbroken
  obtain ⟨line, pieces, hcut, -, hpieces, hsplit⟩ := splitlines_cut (return_notMem h.escaped)
  have hline : line ≠ [] := by
    rintro rfl
    cases pieces with
    | nil => cases hcut
    | cons piece pieces =>
      obtain ⟨rfl, -⟩ := List.cons.inj hcut
      rw [(List.forall_mem_cons.mp hpieces).1] at hc
      cases hc
  rw [pageLines, List.flatMap_singleton, hsplit, List.cons_append, List.filter_cons_of_pos]
  · exact List.cons_ne_nil _ _
  · exact decide_eq_true hline

/-- A row whose text is cut yields no row. -/
theorem RowText.cut_yields {text : List Char} (h : RowText text) (hcut : ¬ OneLine text) :
    ∀ v ∈ rowValues text, hasEventId v = false := by
  obtain ⟨line, pieces, htext, hline, hpieces, hsplit⟩ := splitlines_cut (return_notMem h.escaped)
  intro v hv
  obtain ⟨piece, hpiece, hdecode⟩ := List.mem_filterMap.mp hv
  rw [pageLines, List.flatMap_singleton, hsplit, splitlines, List.append_nil] at hpiece
  rcases List.mem_cons.mp (List.mem_of_mem_filter hpiece) with rfl | hpiece
  · -- the first piece ends inside a literal
    cases pieces with
    | nil =>
      obtain ⟨c, s, hhead, -⟩ := h.head_unbroken
      refine absurd ⟨by rw [hhead]; exact List.cons_ne_nil c s, ?_⟩ hcut
      rw [htext, cutText, List.flatMap_nil, List.append_nil]
      exact hline
    | cons next pieces =>
      rw [cutText, List.flatMap_cons, List.cons_append] at htext
      have hinside := (htext ▸ h).break_inside (List.forall_mem_cons.mp hpieces).1
      obtain ⟨w, hw, -⟩ := Option.map_eq_some_iff.mp hdecode
      exact absurd (loads_tokens hw).1 hinside.1
  · obtain ⟨⟨b, p⟩, hmem, rfl⟩ := List.mem_map.mp hpiece
    obtain ⟨before, after, rfl⟩ := List.append_of_mem hmem
    have hshape : text = (line ++ cutText before) ++ b :: (p ++ cutText after) := by
      rw [htext]
      simp [cutText]
    exact (hshape ▸ h).piece_hasEventId (hpieces _ hmem) hdecode

theorem rowValues_of_oneLine {text : List Char} (h : OneLine text) {v : Value}
    (hv : loadsText text = some v) : rowValues text = [v] := by
  rw [rowValues, pageLines_of_oneLine (List.forall_mem_singleton.mpr h),
    List.filterMap_cons_some hv, List.filterMap_nil]

theorem RowText.countP_rowValues {text : List Char} (h : RowText text) :
    (rowValues text).countP hasEventId = if OneLine text then 1 else 0 := by
  by_cases hone : OneLine text
  · obtain ⟨fields, hfields, hid⟩ := h.object
    rw [if_pos hone, rowValues_of_oneLine hone hfields, List.countP_singleton]
    exact if_pos (decide_eq_true hid)
  · rw [if_neg hone, List.countP_eq_zero]
    intro v hv
    rw [h.cut_yields hone v hv]
    exact Bool.false_ne_true

/-! ## Pages -/

theorem length_le_pageLines {texts : List (List Char)} (h : ∀ t ∈ texts, RowText t) :
    texts.length ≤ (pageLines texts).length := by
  rw [pageLines_flatMap h]
  induction texts with
  | nil => exact Nat.zero_le _
  | cons t texts ih =>
    obtain ⟨ht, htexts⟩ := List.forall_mem_cons.mp h
    have hpos := List.length_pos_iff.mpr ht.lines_ne_nil
    have hrest := ih htexts
    rw [List.flatMap_cons, List.length_append, List.length_cons]
    omega

/-- The paging passes over every row once: a page is the last one only when it is. -/
theorem streamPages_flatMap {chunk : Nat} (hchunk : 1 ≤ chunk) {texts : List (List Char)}
    (h : ∀ t ∈ texts, RowText t) : streamPages chunk texts = texts.flatMap rowValues := by
  induction hn : texts.length using Nat.strong_induction_on generalizing texts with
  | _ n ih =>
    have htake : ∀ t ∈ texts.take chunk, RowText t := fun t ht => h t (List.mem_of_mem_take ht)
    have hpage : (pageLines (texts.take chunk)).filterMap loadsText =
        (texts.take chunk).flatMap rowValues := by
      rw [pageLines_flatMap htake, List.filterMap_flatMap]
      rfl
    have hlength := length_le_pageLines htake
    rw [List.length_take] at hlength
    rw [streamPages]
    split
    · rename_i hlast
      have hall : texts.length ≤ chunk := by
        rcases hlast with hnil | hshort
        · rw [hnil, List.length_nil] at hlength
          omega
        · omega
      rw [hpage, List.take_of_length_le hall]
    · rename_i hmore
      by_cases hnil : texts = []
      · subst hnil
        exact absurd (.inl (by simp [pageLines, splitlines])) hmore
      · have hpos := List.length_pos_iff.mpr hnil
        rw [hpage, ih (texts.drop chunk).length (by rw [List.length_drop]; omega)
          (fun t ht => h t (List.mem_of_mem_drop ht)) rfl, ← List.flatMap_append,
          List.take_append_drop]

theorem countP_flatMap_rowValues {texts : List (List Char)} (h : ∀ t ∈ texts, RowText t) :
    (texts.flatMap rowValues).countP hasEventId = texts.countP fun t => OneLine t := by
  induction texts with
  | nil => rfl
  | cons t texts ih =>
    obtain ⟨ht, htexts⟩ := List.forall_mem_cons.mp h
    rw [List.flatMap_cons, List.countP_append, ht.countP_rowValues, ih htexts, List.countP_cons,
      Nat.add_comm]
    by_cases hone : OneLine t
    · rw [if_pos hone, if_pos (decide_eq_true hone)]
    · rw [if_neg hone, if_neg (by simpa using hone)]

/-! ## The stream -/

/-- The rows that the filters ask for, in the order of `event_id`. -/
def matchingRows (db : Database) (filters : ExportFilters) : List db.Row :=
  db.table.filter (db.holds (whereClause filters))

/-- Every matching row is yielded, as its text decodes, once and in order, and nothing else. -/
def YieldsRows (db : Database) (filters : ExportFilters) (chunk : Nat) : Prop :=
  (streamRows db filters chunk).map some =
    (matchingRows db filters).map fun r => loadsText (db.rowToJson r)

theorem yieldsRows_iff {db : Database} (h : ∀ r ∈ db.table, RowText (db.rowToJson r))
    (filters : ExportFilters) {chunk : Nat} (hchunk : 1 ≤ chunk) :
    YieldsRows db filters chunk ↔ ∀ r ∈ matchingRows db filters, OneLine (db.rowToJson r) := by
  have hrows : ∀ r ∈ matchingRows db filters, RowText (db.rowToJson r) :=
    fun r hr => h r (List.mem_of_mem_filter hr)
  have htexts : ∀ t ∈ (matchingRows db filters).map db.rowToJson, RowText t :=
    List.forall_mem_map.mpr hrows
  have hstream : streamRows db filters chunk =
      ((matchingRows db filters).map db.rowToJson).flatMap rowValues :=
    streamPages_flatMap hchunk htexts
  constructor
  · intro hyields
    have hlength := congrArg List.length hyields
    rw [List.length_map, List.length_map] at hlength
    have hids : ∀ v ∈ streamRows db filters chunk, hasEventId v = true := by
      intro v hv
      have hmem : some v ∈ (streamRows db filters chunk).map some := List.mem_map_of_mem hv
      rw [hyields] at hmem
      obtain ⟨r, hr, heq⟩ := List.mem_map.mp hmem
      obtain ⟨fields, hfields, hid⟩ := (hrows r hr).object
      obtain rfl := Option.some.inj (hfields.symm.trans heq)
      exact decide_eq_true hid
    have hcount := List.countP_eq_length.mpr hids
    rw [hstream, countP_flatMap_rowValues htexts, ← hstream, hlength, ← List.length_map db.rowToJson,
      List.countP_eq_length] at hcount
    intro r hr
    exact of_decide_eq_true (hcount _ (List.mem_map_of_mem hr))
  · intro hone
    rw [YieldsRows, hstream]
    clear hstream htexts
    generalize matchingRows db filters = rows at hrows hone
    induction rows with
    | nil => rfl
    | cons r rows ih =>
      obtain ⟨hr, hrest⟩ := List.forall_mem_cons.mp hone
      obtain ⟨fields, hfields, -⟩ := (hrows r List.mem_cons_self).object
      rw [List.map_cons, List.flatMap_cons, List.map_append, rowValues_of_oneLine hr hfields,
        ih (fun s hs => hrows s (List.mem_cons_of_mem r hs)) hrest, List.map_cons, ← hfields]
      rfl

/-- A table by the texts of its rows, which all match. -/
def tableOf (texts : List String) : Database := ⟨String, texts, fun _ _ => true, String.toList⟩

def noFilters : ExportFilters := ⟨none, none, none, none, none, none, none, none⟩

theorem matchingRows_tableOf (texts : List String) : matchingRows (tableOf texts) noFilters = texts :=
  List.filter_eq_self.mpr fun _ _ => rfl

theorem rowText_of_loads {text : String} {column : String × Value}
    (h : loadsText text.toList = some (.obj [("event_id", .int 1), column]))
    (hchars : text.toList.all (fun c => decide (0x20 ≤ c.toNat)) = true) : RowText text.toList where
  object := ⟨_, h, List.mem_cons_self⟩
  escaped := Numerals.forall_mem_of_all hchars

theorem yieldsRows_iff_one :
    YieldsRows (tableOf ["\x7b\"event_id\":1,\"role\":\"qa\"\x7d"]) noFilters 1 := by
  have hrow : RowText "\x7b\"event_id\":1,\"role\":\"qa\"\x7d".toList :=
    @rowText_of_loads _ ("role", .str "qa") (by decide +kernel) (by decide +kernel)
  have hone : OneLine "\x7b\"event_id\":1,\"role\":\"qa\"\x7d".toList :=
    ⟨by decide +kernel, Numerals.forall_mem_of_all (by decide +kernel)⟩
  have hrows := (List.forall_mem_singleton (p := fun t : String => RowText t.toList)).mpr hrow
  apply (@yieldsRows_iff (tableOf _) hrows noFilters 1 (Nat.le_refl 1)).mpr
  rw [matchingRows_tableOf]
  exact (List.forall_mem_singleton (p := fun t : String => OneLine t.toList)).mpr hone

/-- The text of a row whose rationale has two line separators, less its other columns. -/
def separatedText : String := "\x7b\"event_id\":1,\"rationale\":\"a\u20287\u2028b\"\x7d"

theorem separatedText_loads : loadsText separatedText.toList =
    some (.obj [("event_id", .int 1), ("rationale", .str "a\u20287\u2028b")]) := by
  decide +kernel

/-- The row is lost, and the `7` between the separators comes out. -/
theorem separators_lose_row :
    streamRows (tableOf [separatedText]) noFilters 10000 = [.int 7] ∧
      ¬ YieldsRows (tableOf [separatedText]) noFilters 10000 := by
  have hrow := rowText_of_loads separatedText_loads (by decide +kernel)
  have hvalues : rowValues separatedText.toList = [.int 7] := by decide +kernel
  have hstream : streamRows (tableOf [separatedText]) noFilters 10000 = [.int 7] := by
    have hpages := @streamPages_flatMap 10000 (by decide) [separatedText.toList]
      (List.forall_mem_singleton.mpr hrow)
    rw [List.flatMap_singleton, hvalues] at hpages
    rw [streamRows, ← matchingRows, matchingRows_tableOf]
    exact hpages
  refine ⟨hstream, fun h => ?_⟩
  rw [YieldsRows, hstream, matchingRows_tableOf] at h
  have hvalue := separatedText_loads.symm.trans (List.cons.inj h).1.symm
  cases hvalue

end SpineFormal.Audit
