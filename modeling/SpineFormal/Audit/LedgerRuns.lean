import SpineFormal.Audit.DecisionLedger

/-!
# Appending to the decision ledger

What a sequence of appends leaves in the file and what the readers then see. A
line of at most 4096 bytes is found whole by the next `append`; a longer one is
cut by the window, its remainder is no JSON document, and the next entry starts
a chain of its own. After a crash the next line is written behind the torn one,
and the two together are no document either.
-/

namespace SpineFormal.Audit

open Json
set_option autoImplicit false

/-! ## Lines -/

theorem splitLines_ne_nil (s : List Char) : splitLines s ≠ [] := by
  cases s with
  | nil => simp [splitLines]
  | cons c s =>
    rw [splitLines]
    split
    · simp
    · split <;> simp

/-- A line end separates the pieces before it from the pieces after it. -/
theorem splitLines_newline (s t : List Char) :
    splitLines (s ++ '\n' :: t) = splitLines s ++ splitLines t := by
  induction s with
  | nil => simp [splitLines, isLineEnd]
  | cons c s ih =>
    rw [List.cons_append, splitLines, splitLines, ih]
    split
    · rfl
    · cases h : splitLines s with
      | nil => exact absurd h (splitLines_ne_nil s)
      | cons l ls => rfl

theorem splitLines_plain {l : List Char} (h : ∀ c ∈ l, isLineEnd c = false) : splitLines l = [l] := by
  induction l with
  | nil => rfl
  | cons c l ih =>
    rw [splitLines, ih fun d hd => h d (List.mem_cons_of_mem c hd), h c List.mem_cons_self]
    rfl

theorem isLineEnd_of_printable {c : Char} (h : Printable c) : isLineEnd c = false := by
  have hn : c ≠ '\n' := by
    rintro rfl
    exact absurd h (by decide)
  have hr : c ≠ '\r' := by
    rintro rfl
    exact absurd h (by decide)
  simp [isLineEnd, hn, hr]

theorem LedgerEntry.line_obj (e : LedgerEntry) : ∃ ms : Members, e.line = encode (.obj ms) := by
  obtain ⟨ms, h, _⟩ := sortKeys_obj e.members
  exact ⟨ms, by rw [line, dumps, h]⟩

theorem LedgerEntry.line_plain (e : LedgerEntry) : ∀ c ∈ e.line, isLineEnd c = false :=
  fun c hc => isLineEnd_of_printable (printable_encode _ c hc)

theorem LedgerEntry.line_braces (e : LedgerEntry) : ∃ body, e.line = '{' :: (body ++ ['}']) := by
  obtain ⟨ms, h⟩ := e.line_obj
  exact ⟨_, h.trans (encode_obj ms)⟩

theorem LedgerEntry.line_ne_nil (e : LedgerEntry) : e.line ≠ [] := by
  obtain ⟨body, h⟩ := e.line_braces
  simp [h]

/-- Text from an opening to a closing brace has nothing to strip. -/
theorem strip_braces (body : List Char) : strip ('{' :: (body ++ ['}'])) = '{' :: (body ++ ['}']) := by
  have hopen : isStrSpace '{' = false := by decide
  have hclose : ¬ isStrSpace '}' = true := by decide
  rw [strip, List.dropWhile_cons_of_neg (by simp [hopen]), ← List.cons_append,
    List.rdropWhile_concat_neg _ _ _ hclose]

def linesOf (es : List LedgerEntry) : LedgerFile := es.flatMap fun e => e.line ++ ['\n']

theorem linesOf_concat (es : List LedgerEntry) (e : LedgerEntry) :
    linesOf (es ++ [e]) = linesOf es ++ (e.line ++ ['\n']) := by
  simp [linesOf]

theorem splitLines_linesOf (es : List LedgerEntry) (t : List Char) :
    splitLines (linesOf es ++ t) = es.map LedgerEntry.line ++ splitLines t := by
  induction es with
  | nil => rfl
  | cons e es ih =>
    have hcons : linesOf (e :: es) ++ t = e.line ++ '\n' :: (linesOf es ++ t) := by
      simp [linesOf]
    rw [hcons, splitLines_newline, splitLines_plain e.line_plain, ih]
    rfl

/-! ## Reading from the start -/

section
variable (r : EntryReader)

theorem iterLines_lines (es : List LedgerEntry) (ls : List (List Char)) :
    iterLines r (es.map LedgerEntry.line ++ ls) =
      ⟨es ++ (iterLines r ls).yielded, (iterLines r ls).raised⟩ := by
  induction es with
  | nil => rfl
  | cons e es ih =>
    obtain ⟨body, hbody⟩ := e.line_braces
    have hstrip : strip e.line = e.line := by
      rw [hbody]
      exact strip_braces body
    have hval : r.validate e.line = some e := r.round_trip e
    simp [iterLines, hstrip, e.line_ne_nil, hval, ih]

theorem iterEntries_linesOf (es : List LedgerEntry) : iterEntries r (linesOf es) = ⟨es, false⟩ := by
  have hsplit := splitLines_linesOf es []
  rw [List.append_nil] at hsplit
  rw [iterEntries, hsplit, iterLines_lines]
  simp [splitLines, iterLines, strip]

theorem verifyChain_linesOf_iff (es : List LedgerEntry) :
    verifyChain r (linesOf es) = some (true, none) ↔
      Linked Chained LedgerEntry.contentHash none es := by
  rw [verifyChain, iterEntries_linesOf, ← verifyFrom_ok_iff none 0, ← verifyEntries]
  cases h : verifyEntries es with
  | mk ok reason =>
    cases ok <;> cases reason <;> simp

end

/-! ## Reading the tail -/

/-- The line `append` looks for, as the window shows it. -/
def windowHash (es : List LedgerEntry) : Option String :=
  match es.getLast? with
  | none => none
  | some e => if e.line.length + 1 ≤ windowSize then e.contentHash else none

theorem findHash_line {e : LedgerEntry} {h : String} (hh : e.contentHash = some h) (hne : h ≠ "")
    (last : Option String) (ls : List (List Char)) :
    findHash last (e.line :: ls) = .ok (some h) := by
  obtain ⟨ms, heq, hperm⟩ := sortKeys_obj e.members
  have hloads : loads e.line = some (.obj ms) := by
    rw [LedgerEntry.line, dumps, loads_encode, heq]
  have hnodup : (ms.map Prod.fst).Nodup := by
    have := (hperm.map Prod.fst).nodup_iff.mpr
    apply this
    simpa [List.map_map, Function.comp_def] using e.members_nodup
  have hget : dictGet ms "content_hash" = some (.str h) := by
    rw [dictGet_eq_lookup hnodup, lookup_sortKeys e.members_nodup heq]
    have hlookup : lookup e.members "content_hash" = some (optStr.dump e.contentHash) := rfl
    rw [hlookup, hh]
    rfl
  obtain ⟨body, hbody⟩ := e.line_braces
  have hblank : e.line.all isSpace = false := by
    rw [hbody]
    rfl
  simp [findHash, hblank, hloads, hashOf, hget, hne]

theorem findHash_blank (last : Option String) (ls : List (List Char)) :
    findHash last ([] :: ls) = findHash last ls := by
  simp [findHash]

/-- The remainder of a cut line is passed over. -/
theorem findHash_cut {e : LedgerEntry} {x y : List Char} (h : e.line = x ++ y) (hx : x ≠ [])
    (last : Option String) (ls : List (List Char)) : findHash last (y :: ls) = findHash last ls := by
  by_cases hy : y = []
  · subst hy
    exact findHash_blank last ls
  · obtain ⟨ms, hms⟩ := e.line_obj
    have hloads : loads y = none := loads_suffix (hms.symm.trans h) hx hy
    simp [findHash, hloads]

theorem splitLines_last_line {x : List Char} (hx : x = [] ∨ ∃ x', x = x' ++ ['\n']) (e : LedgerEntry) :
    ∃ ls, splitLines (x ++ (e.line ++ ['\n'])) = ls ++ [e.line, []] := by
  have hline : splitLines (e.line ++ ['\n']) = [e.line, []] := by
    rw [splitLines_newline, splitLines_plain e.line_plain]
    rfl
  rcases hx with rfl | ⟨x', rfl⟩
  · exact ⟨[], hline⟩
  · refine ⟨splitLines x', ?_⟩
    rw [List.append_assoc, List.singleton_append, splitLines_newline, hline]

theorem linesOf_end (es : List LedgerEntry) : linesOf es = [] ∨ ∃ x, linesOf es = x ++ ['\n'] := by
  cases es using List.reverseRecOn with
  | nil => exact Or.inl rfl
  | append_singleton es e =>
    exact Or.inr ⟨linesOf es ++ e.line, by rw [linesOf_concat, List.append_assoc]⟩

theorem drop_end {s : List Char} (h : s = [] ∨ ∃ x, s = x ++ ['\n']) (n : Nat) :
    s.drop n = [] ∨ ∃ x, s.drop n = x ++ ['\n'] := by
  rcases h with rfl | ⟨x, rfl⟩
  · simp
  · by_cases hn : n ≤ x.length
    · exact Or.inr ⟨x.drop n, List.drop_append_of_le_length hn⟩
    · exact Or.inl (List.drop_eq_nil_of_le (by simp; omega))

theorem lastHash_linesOf {es : List LedgerEntry}
    (hhash : ∀ e ∈ es, ∃ h, e.contentHash = some h ∧ h ≠ "") :
    lastHash (linesOf es) = .ok (windowHash es) := by
  cases es using List.reverseRecOn with
  | nil => rfl
  | append_singleton es e =>
    obtain ⟨h, hh, hne⟩ := hhash e (by simp)
    have hlen : (linesOf (es ++ [e])).length = (linesOf es).length + (e.line.length + 1) := by
      simp [linesOf_concat]
    rw [lastHash, tailWindow, hlen, linesOf_concat, windowHash, List.getLast?_concat]
    dsimp only
    split_ifs with hfit
    · rw [List.drop_append_of_le_length (by omega)]
      obtain ⟨ls, hls⟩ := splitLines_last_line (drop_end (linesOf_end es) _) e
      rw [hls, List.reverse_append]
      simp only [List.reverse_cons, List.reverse_nil, List.nil_append, List.cons_append]
      rw [findHash_blank, findHash_line hh hne, hh]
    · -- the window starts inside the last line
      obtain ⟨j, hj⟩ : ∃ j, (linesOf es).length + (e.line.length + 1) - windowSize =
          (linesOf es).length + (j + 1) := ⟨e.line.length - windowSize, by unfold windowSize at *; omega⟩
      have hj' : j + 1 ≤ e.line.length := by
        unfold windowSize at *
        omega
      have hcut : e.line = e.line.take (j + 1) ++ e.line.drop (j + 1) :=
        (List.take_append_drop (j + 1) e.line).symm
      have hplain : ∀ c ∈ e.line.drop (j + 1), isLineEnd c = false :=
        fun c hc => e.line_plain c (List.mem_of_mem_drop hc)
      have htake : e.line.take (j + 1) ≠ [] := by
        simp [e.line_ne_nil]
      rw [hj, List.drop_append, List.drop_eq_nil_of_le (by omega), List.nil_append,
        Nat.add_sub_cancel_left, List.drop_append_of_le_length hj', splitLines_newline,
        splitLines_plain hplain]
      simp only [splitLines, List.singleton_append, List.reverse_cons, List.reverse_nil,
        List.nil_append]
      rw [findHash_blank, findHash_cut hcut htake]
      rfl

/-! ## Sequences of appends -/

/-- The entries a sequence of appends returns, on top of the entries in the file. -/
def chainAll : List LedgerEntry → List LedgerEntry → List LedgerEntry
  | _, [] => []
  | done, e :: es =>
    e.chain (windowHash done) :: chainAll (done ++ [e.chain (windowHash done)]) es

theorem append_accepts {l : DecisionLedger} {e : LedgerEntry} (h : Accepts l e) {f : LedgerFile}
    {p : Option String} (hp : lastHash f = .ok p) :
    append l f e = .ok (f ++ ((e.chain p).line ++ ['\n']), e.chain p) := by
  obtain ⟨hproject, hrun, hc⟩ := h
  simp [append, hproject, hrun, hc, hp]

theorem chain_hash (e : LedgerEntry) (p : Option String) :
    ∃ h, (e.chain p).contentHash = some h ∧ h ≠ "" :=
  ⟨_, rfl, hexdigest_ne_empty _⟩

/-- On a file of whole lines every accepted append succeeds and adds its line. -/
theorem appendAll_linesOf {l : DecisionLedger} {done es : List LedgerEntry}
    (hdone : ∀ e ∈ done, ∃ h, e.contentHash = some h ∧ h ≠ "") (hes : ∀ e ∈ es, Accepts l e) :
    appendAll l (linesOf done) es =
      .ok (linesOf (done ++ chainAll done es), chainAll done es) := by
  induction es generalizing done with
  | nil => simp [appendAll, chainAll]
  | cons e es ih =>
    have hnext : ∀ a ∈ done ++ [e.chain (windowHash done)], ∃ h, a.contentHash = some h ∧ h ≠ "" := by
      intro a ha
      rcases List.mem_append.mp ha with ha | ha
      · exact hdone a ha
      · obtain rfl := List.mem_singleton.mp ha
        exact chain_hash e _
    rw [appendAll, append_accepts (hes e List.mem_cons_self) (lastHash_linesOf hdone)]
    dsimp only
    rw [← linesOf_concat, ih hnext fun a ha => hes a (List.mem_cons_of_mem e ha)]
    simp [chainAll]

/-- The fields of an entry that `append` does not set. -/
def LedgerEntry.bare (e : LedgerEntry) : LedgerEntry := { e with prevHash := none, contentHash := none }

theorem chainAll_bare (done es : List LedgerEntry) :
    (chainAll done es).map LedgerEntry.bare = es.map LedgerEntry.bare := by
  induction es generalizing done with
  | nil => rfl
  | cons e es ih =>
    simp only [chainAll, List.map_cons, ih]
    rfl

/-! ## Line widths -/

def hashPlaceholder : String := String.ofList (List.replicate 64 '0')

/-- Bytes of the line of an entry, newline included: every hash is 64 hex digits,
and only the first entry has none before it. -/
def lineWidth (first : Bool) (e : LedgerEntry) : Nat :=
  ({ e with prevHash := if first then none else some hashPlaceholder,
            contentHash := some hashPlaceholder } : LedgerEntry).line.length + 1

theorem encodeString_hexdigest_length (text : List Char) :
    (encodeString (hexdigest text)).length = (encodeString hashPlaceholder).length := by
  have hone : ∀ c ∈ (hexdigest text).toList, (escapeChar c).length = 1 := by
    intro c hc
    rw [hexdigest_toList] at hc
    obtain ⟨b, _, hb⟩ := List.mem_flatMap.mp hc
    obtain ⟨d, hd, rfl⟩ := Numerals.mem_fixed (by decide) hb
    have hall : ∀ d < 16, (escapeChar (Nat.digitChar d)).length = 1 := by decide
    exact hall d hd
  have hsum : ((hexdigest text).toList.flatMap escapeChar).length = 64 := by
    rw [List.length_flatMap, List.map_congr_left hone]
    simp
  rw [encodeString, List.length_cons, List.length_append, hsum]
  decide

theorem line_length_eq (e : LedgerEntry) {p p' c c' : Option String}
    (hp : (encode (optStr.dump p)).length = (encode (optStr.dump p')).length)
    (hc : (encode (optStr.dump c)).length = (encode (optStr.dump c')).length) :
    ({ e with prevHash := p, contentHash := c } : LedgerEntry).line.length =
      ({ e with prevHash := p', contentHash := c' } : LedgerEntry).line.length := by
  simp only [LedgerEntry.line, dumps_length, encode_obj, LedgerEntry.members, LedgerEntry.payload,
    List.length_cons, List.length_append, joinWith_length, List.map_cons, List.map_nil,
    List.cons_append, List.nil_append, encodeMember, hp, hc]

theorem dump_hash_length (text : List Char) :
    (encode (optStr.dump (some (hexdigest text)))).length =
      (encode (optStr.dump (some hashPlaceholder))).length := by
  simpa [optStr, Codec.option, Codec.str, encode] using encodeString_hexdigest_length text

theorem chain_width_first (e : LedgerEntry) : (e.chain none).line.length + 1 = lineWidth true e :=
  congrArg (· + 1) (line_length_eq e (show (encode (optStr.dump none)).length = _ from rfl)
    (dump_hash_length ({ e with prevHash := none } : LedgerEntry).canonical))

theorem chain_width_next (e : LedgerEntry) (text : List Char) :
    (e.chain (some (hexdigest text))).line.length + 1 = lineWidth false e :=
  congrArg (· + 1) (line_length_eq e (dump_hash_length text)
    (dump_hash_length ({ e with prevHash := some (hexdigest text) } : LedgerEntry).canonical))

/-- Every entry but the last leaves a line that fits the window. -/
def FitsWindow : Bool → List LedgerEntry → Prop
  | _, [] => True
  | first, e :: es => es = [] ∨ (lineWidth first e ≤ windowSize ∧ FitsWindow false es)

/-- What the appends after `last` need: its line in the window, and so on. -/
theorem linked_chainAll_iff (done es : List LedgerEntry) {last : LedgerEntry} {text : List Char}
    (hlast : last.contentHash = some (hexdigest text)) :
    Linked Chained LedgerEntry.contentHash last.contentHash (chainAll (done ++ [last]) es) ↔
      es = [] ∨ (last.line.length + 1 ≤ windowSize ∧ FitsWindow false es) := by
  induction es generalizing done last text with
  | nil => simp [chainAll, Linked]
  | cons e es ih =>
    have hwindow : windowHash (done ++ [last]) =
        if last.line.length + 1 ≤ windowSize then last.contentHash else none := by
      simp [windowHash]
    simp only [chainAll, Linked, reduceCtorEq, false_or]
    by_cases hfit : last.line.length + 1 ≤ windowSize
    · rw [hwindow, if_pos hfit, ih (done ++ [last]) rfl]
      have hwidth := chain_width_next e text
      rw [← hlast] at hwidth
      simp only [hfit, true_and, FitsWindow, hwidth]
      exact and_iff_right (e.chain_chained _)
    · rw [hwindow, if_neg hfit]
      simp only [hfit, false_and, iff_false, not_and]
      intro hchained
      rw [hchained.1.symm.trans rfl] at hlast
      contradiction

theorem linked_appends_iff (es : List LedgerEntry) :
    Linked Chained LedgerEntry.contentHash none (chainAll [] es) ↔ FitsWindow true es := by
  cases es with
  | nil => simp [chainAll, Linked, FitsWindow]
  | cons e es =>
    have hrest := linked_chainAll_iff [] es (show (e.chain none).contentHash = some (hexdigest _) from rfl)
    rw [List.nil_append, chain_width_first] at hrest
    rw [FitsWindow, ← hrest]
    exact and_iff_right (e.chain_chained none)

/-- After the appends the readers see the appended entries in order, each naming
the one before it, and the chain verifies. -/
def KeepsChain (r : EntryReader) (l : DecisionLedger) (es : List LedgerEntry) : Prop :=
  ∃ f finals, appendAll l [] es = .ok (f, finals) ∧
    finals.map LedgerEntry.bare = es.map LedgerEntry.bare ∧ iterEntries r f = ⟨finals, false⟩ ∧
    Linked (fun p e => e.prevHash = p) LedgerEntry.contentHash none finals ∧
    verifyChain r f = some (true, none)

theorem keepsChain_iff_linked (r : EntryReader) {l : DecisionLedger} {es : List LedgerEntry}
    (hes : ∀ e ∈ es, Accepts l e) :
    KeepsChain r l es ↔ Linked Chained LedgerEntry.contentHash none (chainAll [] es) := by
  have happend := appendAll_linesOf (List.forall_mem_nil _) hes
  rw [List.nil_append] at happend
  constructor
  · rintro ⟨f, finals, hok, _, _, _, hverify⟩
    obtain ⟨rfl, rfl⟩ := Prod.mk.inj (Except.ok.inj (happend.symm.trans hok))
    exact (verifyChain_linesOf_iff r _).mp hverify
  · intro hlinked
    exact ⟨_, _, happend, chainAll_bare [] es, iterEntries_linesOf r _,
      hlinked.imp fun _ _ h => h.1, (verifyChain_linesOf_iff r _).mpr hlinked⟩

def sampleLedger : DecisionLedger := ⟨sampleEntry.projectId, sampleEntry.runId⟩

theorem accepts_sample : Accepts sampleLedger sampleEntry := ⟨rfl, rfl, by simp [sampleEntry]⟩

def textOf (n : Nat) : String := String.ofList (List.replicate n 'x')

theorem encode_textOf_length (n : Nat) : (encode (.str (textOf n))).length = n + 2 := by
  have hx : escapeChar 'x' = ['x'] := by decide
  have hbody : ∀ n, ((List.replicate n 'x').flatMap escapeChar).length = n := by
    intro n
    induction n with
    | zero => rfl
    | succ n ih => simp only [List.replicate_succ, List.flatMap_cons, hx, List.length_append, ih,
        List.length_singleton, Nat.add_comm]
  simp only [encode, encodeString, textOf, String.toList_ofList, List.length_cons,
    List.length_append, hbody, List.length_nil]

theorem rationale_lt_lineWidth (first : Bool) {e : LedgerEntry} {c : Candidate}
    (hc : c ∈ e.candidates) {s : String} (hs : c.rationale = some s) :
    (encode (.str s)).length < lineWidth first e := by
  have hcandidate : (encode (.str s)).length ≤ (encode (.obj c.members)).length := by
    apply encode_member_length (k := "rationale")
    simp [Candidate.members, hs, optStr, Codec.option, Codec.str]
  have hlist : (encode (.obj c.members)).length ≤
      (encode (candidateCodec.list.dump e.candidates)).length :=
    encode_elem_length (List.mem_map_of_mem (f := candidateCodec.dump) hc)
  have hentry : (encode (candidateCodec.list.dump e.candidates)).length + 1 ≤ lineWidth first e := by
    rw [lineWidth, LedgerEntry.line, dumps_length]
    apply Nat.add_le_add_right
    apply encode_member_length (k := "candidates")
    simp [LedgerEntry.members, LedgerEntry.payload]
  omega

/-- A candidate with a rationale of 4096 characters. -/
def longCandidate : Candidate := ⟨⟨"plan-A", planA_nonempty⟩, .accept, none, some (textOf 4096)⟩

def longEntry : LedgerEntry := { sampleEntry with candidates := [longCandidate] }

theorem longEntry_width : windowSize < lineWidth true longEntry := by
  have h := rationale_lt_lineWidth true (e := longEntry) (c := longCandidate) List.mem_cons_self rfl
  rw [encode_textOf_length] at h
  exact Nat.lt_trans (by decide) h

theorem append_ok {l : DecisionLedger} {f f' : LedgerFile} {e e' : LedgerEntry}
    (h : append l f e = .ok (f', e')) : f' = f ++ (e'.line ++ ['\n']) := by
  unfold append at h
  split_ifs at h
  split at h
  · cases h
  · obtain ⟨hf, he⟩ := Prod.mk.inj (Except.ok.inj h)
    rw [← hf, ← he]

/-- Whatever the file held, the appends that succeed write their lines behind it. -/
theorem appendAll_ok {l : DecisionLedger} {f f' : LedgerFile} {es finals : List LedgerEntry}
    (h : appendAll l f es = .ok (f', finals)) : f' = f ++ linesOf finals := by
  induction es generalizing f finals with
  | nil =>
    obtain ⟨rfl, rfl⟩ := Prod.mk.inj (Except.ok.inj h)
    simp [linesOf]
  | cons e es ih =>
    unfold appendAll at h
    split at h
    · contradiction
    · rename_i f1 e1 happend
      split at h
      · contradiction
      · rename_i f2 es2 hrest
        obtain ⟨rfl, rfl⟩ := Prod.mk.inj (Except.ok.inj h)
        rw [ih hrest, append_ok happend]
        simp [linesOf]

theorem EntryReader.validate_none (r : EntryReader) {s : List Char} (h : loads s = none) :
    r.validate s = none := by
  cases hv : r.validate s with
  | none => rfl
  | some e =>
    obtain ⟨v, hv⟩ := r.json_only hv
    rw [h] at hv
    contradiction

/-- A line that is not blank and no document ends the iteration. -/
theorem iterLines_raises (r : EntryReader) (es : List LedgerEntry) {l : List Char}
    (hl : strip l ≠ []) (hnone : loads (strip l) = none) (ls : List (List Char)) :
    iterLines r (es.map LedgerEntry.line ++ l :: ls) = ⟨es, true⟩ := by
  rw [iterLines_lines]
  simp [iterLines, hl, r.validate_none hnone]

/-- Stripping a piece of a line from its opening brace on removes only its end. -/
theorem strip_prefix (s : List Char) : ∃ x y, strip ('{' :: s) = '{' :: x ∧ s = x ++ y := by
  have hopen : isStrSpace '{' = false := by decide
  have hdrop : strip ('{' :: s) = ('{' :: s).rdropWhile isStrSpace := by
    rw [strip, List.dropWhile_cons_of_neg (by simp [hopen])]
  obtain ⟨y, hy⟩ := List.rdropWhile_prefix isStrSpace ('{' :: s)
  have hne : ('{' :: s).rdropWhile isStrSpace ≠ [] := by
    intro hnil
    have := List.rdropWhile_eq_nil_iff.mp hnil '{' List.mem_cons_self
    simp [hopen] at this
  obtain ⟨c, x, hcx⟩ := List.exists_cons_of_ne_nil hne
  rw [hcx, List.cons_append, List.cons.injEq] at hy
  obtain ⟨rfl, hy⟩ := hy
  exact ⟨x, y, hdrop.trans hcx, hy.symm⟩

/-- The entries after the crash are all there, behind the intact ones. -/
def Recovers (r : EntryReader) (l : DecisionLedger) (done : List LedgerEntry) (torn : List Char)
    (later : List LedgerEntry) : Prop :=
  ∃ f finals, appendAll l (linesOf done ++ torn) later = .ok (f, finals) ∧
    finals.map LedgerEntry.bare = later.map LedgerEntry.bare ∧
    iterEntries r f = ⟨done ++ finals, false⟩

section
variable {r : EntryReader} {l : DecisionLedger} {done later : List LedgerEntry}

/-- A torn line, alone or with the next one behind it. -/
theorem not_recovers_of_torn {lost : LedgerEntry} {torn rest : List Char}
    (hline : lost.line = torn ++ rest) (htorn : torn ≠ []) : ¬ Recovers r l done torn later := by
  rintro ⟨f, finals, happend, _, hiter⟩
  rw [appendAll_ok happend, iterEntries, List.append_assoc, splitLines_linesOf] at hiter
  obtain ⟨ms, hms⟩ := lost.line_obj
  obtain ⟨body, hbody⟩ := lost.line_braces
  obtain ⟨s, rfl⟩ : ∃ s, torn = '{' :: s := by
    obtain ⟨c, s, rfl⟩ := List.exists_cons_of_ne_nil htorn
    rw [hbody, List.cons_append, List.cons.injEq] at hline
    exact ⟨s, by rw [hline.1]⟩
  have hplain : ∀ c ∈ '{' :: s, isLineEnd c = false := by
    intro c hc
    exact lost.line_plain c (hline ▸ List.mem_append_left rest hc)
  cases finals with
  | nil =>
    simp only [linesOf, List.flatMap_nil, List.append_nil, splitLines_plain hplain] at hiter
    by_cases hrest : rest = []
    · -- only the newline is missing: the lost entry is read back
      subst hrest
      rw [List.append_nil] at hline
      rw [← hline] at hiter
      have hlost := iterLines_lines r (done ++ [lost]) []
      rw [List.map_append, List.map_singleton, List.append_nil] at hlost
      rw [hlost] at hiter
      have hlen := congrArg (fun it : Iteration => it.yielded.length) hiter
      simp [iterLines] at hlen
    · obtain ⟨x, y, hstrip, rfl⟩ := strip_prefix s
      have hcut : encode (.obj ms) = ('{' :: x) ++ (y ++ rest) := by
        rw [← hms, hline]
        simp
      have hnone := loads_prefix hcut (by simp) (by simp [hrest])
      rw [iterLines_raises r done (by simp [hstrip]) (by rw [hstrip, hnone])] at hiter
      simp at hiter
  | cons g gs =>
    obtain ⟨ms', hms'⟩ := g.line_obj
    obtain ⟨body', hbody'⟩ := g.line_braces
    have hsplit : splitLines ('{' :: s ++ linesOf (g :: gs)) =
        ('{' :: s ++ g.line) :: splitLines (linesOf gs) := by
      have hcons : '{' :: s ++ linesOf (g :: gs) = ('{' :: s ++ g.line) ++ '\n' :: linesOf gs := by
        simp [linesOf]
      have hmerged : ∀ c ∈ '{' :: s ++ g.line, isLineEnd c = false := by
        intro c hc
        rcases List.mem_append.mp hc with hc | hc
        · exact hplain c hc
        · exact g.line_plain c hc
      rw [hcons, splitLines_newline, splitLines_plain hmerged]
      rfl
    have hstrip : strip ('{' :: s ++ g.line) = '{' :: s ++ g.line := by
      have hshape : '{' :: s ++ g.line = '{' :: ((s ++ '{' :: body') ++ ['}']) := by
        rw [hbody']
        simp
      rw [hshape]
      exact strip_braces _
    have hnone : loads ('{' :: s ++ g.line) = none := by
      rw [hms']
      exact loads_torn (hms.symm.trans hline) (by simp)
    rw [hsplit, iterLines_raises r done (by rw [hstrip]; simp) (by rw [hstrip, hnone])] at hiter
    simp at hiter

end

theorem verifyChain_firstSample : verifyChain fieldReader (linesOf [firstSample]) = some (true, none) := by
  rw [verifyChain_linesOf_iff]
  exact ⟨sampleEntry.chain_chained none, trivial⟩

end SpineFormal.Audit
