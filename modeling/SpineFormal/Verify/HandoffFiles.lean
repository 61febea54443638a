import SpineFormal.Base.BestOf
import SpineFormal.Base.LineFile
import SpineFormal.Base.Markers

/-!
# Handoff files in a scanned repository

`scan_handoff_export.py`: a managed region between two markers that every handoff writes
anew, and `tron.md`, a log with one entry for each audit. Handing off again and again leaves
what only the last handoff would have left, and the text around the region stays.
-/

namespace SpineFormal.Verify.HandoffFiles

set_option autoImplicit false

abbrev Text := List Char

/-! ## The managed region -/

/-- `TRON_HANDOFF_MANAGED_BEGIN`. -/
def managedBegin : Text := "<!-- TRON_HANDOFF_MANAGED_BEGIN -->".toList

/-- `TRON_HANDOFF_MANAGED_END`. -/
def managedEnd : Text := "<!-- TRON_HANDOFF_MANAGED_END -->".toList

inductive UnmarkedExistingStrategy where
  | replace
  | prepend
  deriving DecidableEq

def wrapManagedHandoffInner (managedInner : Text) : Text :=
  managedBegin ++ ['\n'] ++ trimBy pySpace managedInner ++ ['\n'] ++ managedEnd

/-- `merge_or_write_managed_file`: the text of the file afterwards. `none` is the `ValueError`
of `old.index` when the only end markers stand before the first begin marker. -/
def mergeOrWriteManagedFile (unmarkedExisting : UnmarkedExistingStrategy) (old : Option Text)
    (managedInner : Text) : Option Text :=
  let newBlock := wrapManagedHandoffInner (trimBy pySpace managedInner)
  match old with
  | none => some (newBlock ++ ['\n'])
  | some old =>
    if managedBegin <:+: old ∧ managedEnd <:+: old then
      (cutAt managedBegin old).bind fun p =>
        (cutAt managedEnd p.2).map fun q => p.1 ++ newBlock ++ q.2
    else
      match unmarkedExisting with
      | .prepend =>
        some (newBlock ++ (if trimBy pySpace old ≠ [] then ['\n', '\n'] else []) ++ old)
      | .replace => some (newBlock ++ ['\n'])

/-- The file after a number of handoffs. -/
def handoffs (unmarkedExisting : UnmarkedExistingStrategy) (old : Option Text)
    (inners : List Text) : Option (Option Text) :=
  inners.foldlM (fun file inner => (mergeOrWriteManagedFile unmarkedExisting file inner).map some) old

/-- What stands before the region and behind it once it is written. -/
def outside (unmarkedExisting : UnmarkedExistingStrategy) : Option Text → Option (Text × Text)
  | none => some ([], ['\n'])
  | some old =>
    if managedBegin <:+: old ∧ managedEnd <:+: old then
      (cutAt managedBegin old).bind fun p => (cutAt managedEnd p.2).map fun q => (p.1, q.2)
    else
      match unmarkedExisting with
      | .prepend => some ([], (if trimBy pySpace old ≠ [] then ['\n', '\n'] else []) ++ old)
      | .replace => some ([], ['\n'])

theorem managedBegin_ne_nil : managedBegin ≠ [] := List.cons_ne_nil _ _

theorem managedEnd_ne_nil : managedEnd ≠ [] := List.cons_ne_nil _ _

theorem newline_notMem_managedEnd : '\n' ∉ managedEnd := by decide

theorem mergeOrWriteManagedFile_eq (unmarkedExisting : UnmarkedExistingStrategy)
    (old : Option Text) (inner : Text) :
    mergeOrWriteManagedFile unmarkedExisting old inner =
      (outside unmarkedExisting old).map fun p => p.1 ++ wrapManagedHandoffInner inner ++ p.2 := by
  have hwrap : wrapManagedHandoffInner (trimBy pySpace inner) = wrapManagedHandoffInner inner := by
    rw [wrapManagedHandoffInner, trimBy_trimBy]
    rfl
  cases old with
  | none => simp [mergeOrWriteManagedFile, outside, hwrap]
  | some old =>
    unfold mergeOrWriteManagedFile outside
    dsimp only
    rw [hwrap]
    split
    · rw [Option.map_bind]
      simp only [Option.map_map, Function.comp_def]
    · cases unmarkedExisting with
      | prepend => simp
      | replace => simp

theorem clear_outside {unmarkedExisting : UnmarkedExistingStrategy} {old : Option Text} {p : Text × Text}
    (h : outside unmarkedExisting old = some p) : Clear managedBegin p.1 := by
  cases old with
  | none =>
    obtain rfl := Option.some.inj h
    exact clear_nil managedBegin
  | some old =>
    unfold outside at h
    dsimp only at h
    split at h
    · obtain ⟨q, hq, hrest⟩ := Option.bind_eq_some_iff.mp h
      obtain ⟨r, -, rfl⟩ := Option.map_eq_some_iff.mp hrest
      exact ((cutAt_eq_some_iff managedBegin_ne_nil).mp hq).2
    · cases unmarkedExisting with
      | prepend | replace =>
        obtain rfl := Option.some.inj h
        exact clear_nil managedBegin

/-- The next handoff finds the region again, and the same text around it. -/
theorem outside_written (unmarkedExisting : UnmarkedExistingStrategy) {before inner : Text}
    (hbefore : Clear managedBegin before) (hinner : ¬ managedEnd <:+: trimBy pySpace inner)
    (behind : Text) :
    outside unmarkedExisting (some (before ++ wrapManagedHandoffInner inner ++ behind)) =
      some (before, behind) := by
  have hbody : ¬ managedEnd <:+: '\n' :: trimBy pySpace inner := by
    rw [← List.nil_append ('\n' :: _), infix_append_cons managedEnd_ne_nil newline_notMem_managedEnd,
      List.infix_nil]
    exact not_or.mpr ⟨managedEnd_ne_nil, hinner⟩
  have hcut : cutAt managedBegin (before ++ wrapManagedHandoffInner inner ++ behind) =
      some (before, '\n' :: trimBy pySpace inner ++ ['\n'] ++ managedEnd ++ behind) := by
    rw [wrapManagedHandoffInner, ← cutAt_append managedBegin_ne_nil hbefore]
    simp only [List.append_assoc, List.cons_append, List.nil_append]
  have hend : cutAt managedEnd ('\n' :: trimBy pySpace inner ++ ['\n'] ++ managedEnd ++ behind) =
      some ('\n' :: trimBy pySpace inner ++ ['\n'], behind) :=
    cutAt_append managedEnd_ne_nil (clear_append_newline newline_notMem_managedEnd hbody) behind
  have hmarked : managedBegin <:+: before ++ wrapManagedHandoffInner inner ++ behind ∧
      managedEnd <:+: before ++ wrapManagedHandoffInner inner ++ behind := by
    constructor
    · by_contra hno
      rw [← cutAt_eq_none_iff managedBegin_ne_nil, hcut] at hno
      cases hno
    · have hsuffix : managedEnd <:+ before ++ wrapManagedHandoffInner inner := by
        rw [wrapManagedHandoffInner, ← List.append_assoc]
        exact List.suffix_append _ managedEnd
      exact hsuffix.isInfix.trans (List.prefix_append _ behind).isInfix
  unfold outside
  dsimp only
  rw [if_pos hmarked, hcut, Option.bind_some, hend]
  rfl

/-- The arguments of a handoff that its log entry shows. -/
structure Handoff where
  appName : Text
  auditId : Text
  tronUiBase : Text
  completed : Text
  crit : Int
  high : Int
  med : Int
  low : Int
  total : Int

def markerOpen : Text := "<!-- tron-handoff:".toList

def markerClose : Text := " -->".toList

/-- `tron_handoff_audit_marker`. -/
def auditMarker (auditId : Text) : Text := markerOpen ++ trimBy pySpace auditId ++ markerClose

def detailsLine : Text := "- **Details & top issues:** `TRON_POST_SCAN.md` (Tron-managed block)".toList

/-- The lines of an entry behind its marker. -/
def Handoff.summary (h : Handoff) : Text :=
  ("### Tron activity — audit `".toList ++ h.auditId ++ "`".toList) ++ '\n' :: '\n' ::
    ("- **Scanned as:** ".toList ++ h.appName) ++ '\n' ::
    ("- **Completed:** ".toList ++ h.completed) ++ '\n' ::
    ("- **Findings (total / C / H / M / L):** ".toList ++ Numerals.decimal h.total ++
      " / ".toList ++ Numerals.decimal h.crit ++ " / ".toList ++ Numerals.decimal h.high ++
      " / ".toList ++ Numerals.decimal h.med ++ " / ".toList ++ Numerals.decimal h.low) ++ '\n' ::
    ("- **Tron UI:** ".toList ++ h.tronUiBase.rdropWhile (· = '/')) ++ ['\n']

/-- The entry up to the end of its last line. -/
def Handoff.entry (h : Handoff) : Text :=
  '\n' :: (auditMarker h.auditId ++ '\n' :: (h.summary ++ detailsLine))

def Handoff.block (h : Handoff) : Text := h.entry ++ ['\n']

/-- The text a new `tron.md` begins with. -/
def intro : Text :=
  "# Tron in this repository\n\n".toList ++
  "Tron audits this codebase (from a **folder path** or a **Git clone** configured in Tron, ".toList ++
  "often backed by **GitHub**). After each audit, Tron writes handoff files in ".toList ++
  "**this repo root** so your local IDE agent sees what happened.\n\n".toList ++
  "**What your agent should read:**\n\n".toList ++
  "1. The usual repo context — **`AGENTS.md`**, **`CLAUDE.md`**, and **`.cursor/rules/`** ".toList ++
  "(Cursor loads these automatically).\n".toList ++
  "2. **`TRON_POST_SCAN.md`** — latest finding counts, top paths, triage checklist.\n".toList ++
  "3. **This file (`tron.md`)** — **Tron activity**: append-only log entries after each ".toList ++
  "handoff; add human notes below or between runs.\n\n".toList

/-- `append_tron_md_activity_log`: the text of `tron.md` afterwards. -/
def appendActivityLog (file : Option Text) (h : Handoff) : Text :=
  match file with
  | some existing =>
    if auditMarker h.auditId <:+: existing then existing
    else existing.rdropWhile pySpace ++ h.block ++ ['\n']
  | none => intro ++ h.block.dropWhile (· = '\n') ++ ['\n']

def activityLog (file : Option Text) (hs : List Handoff) : Option Text :=
  hs.foldl (fun file h => some (appendActivityLog file h)) file

/-- The audit has an entry in the file. -/
def Known (file : Option Text) (auditId : Text) : Prop :=
  ∃ existing ∈ file, auditMarker auditId <:+: existing

instance (file : Option Text) (auditId : Text) : Decidable (Known file auditId) :=
  match file with
  | none => .isFalse fun ⟨_, h, _⟩ => nomatch h
  | some existing => decidable_of_iff (auditMarker auditId <:+: existing)
      ⟨fun h => ⟨existing, rfl, h⟩, fun ⟨_, h, hin⟩ => Option.some.inj h ▸ hin⟩

/-- The first handoff of each audit that has no entry yet. -/
def newAudits (file : Option Text) (hs : List Handoff) : List Handoff :=
  bestOf (fun h => trimBy pySpace h.auditId) (fun _ _ => false)
    (hs.filter fun h => ¬ Known file h.auditId)

/-- What stays of the text in front of the new entries. -/
def logHead : Option Text → Text
  | some existing => existing.rdropWhile pySpace
  | none => intro.dropLast

/-- The file with entries for these audits. -/
def withEntries (file : Option Text) (hs : List Handoff) : Option Text :=
  if hs = [] then file else some (logHead file ++ hs.flatMap Handoff.entry ++ ['\n', '\n'])

/-! ## Where a marker stands -/

theorem mem_auditMarker (auditId : Text) : '<' ∈ auditMarker auditId := by
  have hopen : '<' ∈ markerOpen := by decide
  exact List.mem_append_left _ (List.mem_append_left _ hopen)

theorem auditMarker_ne_nil (auditId : Text) : auditMarker auditId ≠ [] :=
  List.ne_nil_of_mem (mem_auditMarker auditId)

theorem newline_notMem_auditMarker {auditId : Text} (h : '\n' ∉ trimBy pySpace auditId) :
    '\n' ∉ auditMarker auditId := by
  have hopen : '\n' ∉ markerOpen := by decide
  have hclose : '\n' ∉ markerClose := by decide
  rw [auditMarker, List.mem_append, List.mem_append, not_or, not_or]
  exact ⟨⟨hopen, h⟩, hclose⟩

theorem infix_entries_iff {m : Text} (hm : m ≠ []) (hn : '\n' ∉ m) (x : Text) (hs : List Handoff) :
    m <:+: x ++ hs.flatMap Handoff.entry ++ ['\n', '\n'] ↔
      m <:+: x ∨ ∃ h ∈ hs, m <:+: h.entry := by
  have hfront (t : Text) : m <:+: '\n' :: t ↔ m <:+: t := by
    rw [← List.nil_append ('\n' :: t), infix_append_cons hm hn, List.infix_nil, or_iff_right hm]
  induction hs generalizing x with
  | nil =>
    rw [List.flatMap_nil, List.append_nil, infix_append_cons hm hn, hfront, List.infix_nil,
      or_iff_left hm]
    simp
  | cons h hs ih =>
    obtain ⟨e, he⟩ : ∃ e, h.entry = '\n' :: e := ⟨_, rfl⟩
    have hrest := ih e
    rw [List.flatMap_cons, he, List.append_assoc, List.append_assoc, List.cons_append,
      infix_append_cons hm hn, ← List.append_assoc, List.exists_mem_cons_iff, he, hfront]
    exact or_congr_right hrest

/-- White space at the end of a text holds no part of a marker. -/
theorem infix_rdropWhile_iff {m : Text} {z : Char} (hz : pySpace z = false) (s : Text) :
    m ++ [z] <:+: s.rdropWhile pySpace ↔ m ++ [z] <:+: s := by
  induction s using List.reverseRecOn with
  | nil => rfl
  | append_singleton s c ih =>
    by_cases hc : pySpace c = true
    · rw [List.rdropWhile_concat_pos _ _ _ hc, ih, List.infix_concat_iff, List.suffix_concat_iff]
      have hne : ¬ (m ++ [z] = [] ∨ ∃ t, m ++ [z] = t ++ [c] ∧ t <:+ s) := by
        rintro (h | ⟨t, h, -⟩)
        · simp at h
        · have heq := List.head_eq_of_cons_eq (List.append_inj' h rfl).2
          rw [heq, hc] at hz
          cases hz
      rw [or_iff_right hne]
    · rw [List.rdropWhile_concat_neg _ _ _ hc]

theorem known_iff (file : Option Text) (auditId : Text) :
    Known file auditId ↔ auditMarker auditId <:+: logHead file := by
  cases file with
  | none =>
    have hintro : '<' ∉ intro := by decide +kernel
    refine iff_of_false (fun ⟨_, h, _⟩ => nomatch h) fun h => ?_
    exact hintro (List.dropLast_subset _ (h.subset (mem_auditMarker auditId)))
  | some existing =>
    have hclose : markerClose = markerClose.dropLast ++ ['>'] := by decide
    obtain ⟨m, hm⟩ : ∃ m, auditMarker auditId = m ++ ['>'] := by
      rw [auditMarker, hclose, ← List.append_assoc]
      exact ⟨_, rfl⟩
    rw [logHead, hm, infix_rdropWhile_iff (by decide), ← hm]
    exact ⟨fun ⟨_, h, hin⟩ => Option.some.inj h ▸ hin, fun h => ⟨existing, rfl, h⟩⟩

/-! ## One entry for each audit -/

/-- What a log entry says of other audits: no text of a handoff contains the marker of another
audit, and no audit id has a newline. -/
def OwnMarkers (hs : List Handoff) : Prop :=
  ∀ h ∈ hs, '\n' ∉ trimBy pySpace h.auditId ∧
    ∀ h' ∈ hs, auditMarker h'.auditId <:+: h.entry →
      trimBy pySpace h'.auditId = trimBy pySpace h.auditId

theorem auditMarker_infix_entry (h : Handoff) : auditMarker h.auditId <:+: h.entry := by
  rw [Handoff.entry]
  exact (List.prefix_append _ _).isInfix.trans (List.suffix_cons _ _).isInfix

theorem rdropWhile_entries (x : Text) (hs : List Handoff) (h : Handoff) :
    (x ++ (hs ++ [h]).flatMap Handoff.entry ++ ['\n', '\n']).rdropWhile pySpace =
      x ++ (hs ++ [h]).flatMap Handoff.entry := by
  have hdetails : detailsLine = detailsLine.dropLast ++ [')'] := by decide +kernel
  obtain ⟨e, he⟩ : ∃ e, x ++ (hs ++ [h]).flatMap Handoff.entry = e ++ [')'] := by
    rw [List.flatMap_append, List.flatMap_singleton, Handoff.entry, hdetails]
    exact ⟨x ++ (hs.flatMap Handoff.entry ++
      '\n' :: (auditMarker h.auditId ++ '\n' :: (h.summary ++ detailsLine.dropLast))), by simp⟩
  have htwo : e ++ [')'] ++ ['\n', '\n'] = e ++ [')'] ++ ['\n'] ++ ['\n'] := by simp
  rw [he, htwo, List.rdropWhile_concat_pos _ _ _ (by decide),
    List.rdropWhile_concat_pos _ _ _ (by decide), List.rdropWhile_concat_neg _ _ _ (by decide)]

/-- The first log with an entry: the introduction ends with a newline, the entry begins with one. -/
theorem intro_entry (h : Handoff) :
    intro ++ h.block.dropWhile (· = '\n') ++ ['\n'] = intro.dropLast ++ h.entry ++ ['\n', '\n'] := by
  have hnewline : intro.getLast? = some '\n' :=
    List.getLast?_append.trans (Option.or_eq_some_iff.mpr (.inl (by decide +kernel)))
  have hintro : intro = intro.dropLast ++ ['\n'] := (List.dropLast_append_getLast? _ hnewline).symm
  obtain ⟨m, hm⟩ : ∃ m, auditMarker h.auditId = '<' :: m := ⟨_, rfl⟩
  have hblock : h.block.dropWhile (· = '\n') =
      auditMarker h.auditId ++ '\n' :: (h.summary ++ detailsLine) ++ ['\n'] := by
    rw [Handoff.block, Handoff.entry, List.cons_append, List.dropWhile_cons_of_pos (by decide), hm,
      List.cons_append, List.cons_append, List.dropWhile_cons_of_neg (by decide)]
  rw [hblock, hintro, List.dropLast_concat, Handoff.entry]
  simp only [List.append_assoc, List.cons_append, List.nil_append]

theorem marker_withEntries_iff {file : Option Text} {existing : Text} {seen : List Handoff}
    (hfile : withEntries file seen = some existing) {h : Handoff}
    (hn : '\n' ∉ trimBy pySpace h.auditId)
    (hown : ∀ s ∈ seen, auditMarker h.auditId <:+: s.entry →
      trimBy pySpace h.auditId = trimBy pySpace s.auditId) :
    auditMarker h.auditId <:+: existing ↔
      Known file h.auditId ∨ ∃ s ∈ seen, trimBy pySpace s.auditId = trimBy pySpace h.auditId := by
  unfold withEntries at hfile
  split at hfile
  · rename_i hseen
    subst hseen hfile
    simp [Known]
  · obtain rfl := Option.some.inj hfile
    rw [infix_entries_iff (auditMarker_ne_nil _) (newline_notMem_auditMarker hn), known_iff]
    apply or_congr_right
    constructor
    · rintro ⟨s, hs, hin⟩
      exact ⟨s, hs, (hown s hs hin).symm⟩
    · rintro ⟨s, hs, hkey⟩
      have hsame : auditMarker h.auditId = auditMarker s.auditId := by
        rw [auditMarker, auditMarker, hkey]
      exact ⟨s, hs, hsame ▸ auditMarker_infix_entry s⟩

theorem appendActivityLog_new {file : Option Text} {seen : List Handoff} {h : Handoff}
    (hnew : ∀ existing, withEntries file seen = some existing →
      ¬ auditMarker h.auditId <:+: existing) :
    some (appendActivityLog (withEntries file seen) h) = withEntries file (seen ++ [h]) := by
  have hsome : withEntries file (seen ++ [h]) =
      some (logHead file ++ (seen ++ [h]).flatMap Handoff.entry ++ ['\n', '\n']) := by
    rw [withEntries, if_neg (by simp)]
  rw [hsome]
  congr 1
  rcases List.eq_nil_or_concat seen with rfl | ⟨seen, s, rfl⟩
  · have hfile : withEntries file [] = file := by rw [withEntries, if_pos rfl]
    rw [hfile] at hnew ⊢
    rw [List.nil_append, List.flatMap_singleton]
    cases file with
    | none => exact intro_entry h
    | some existing =>
      unfold appendActivityLog
      dsimp only
      rw [if_neg (hnew existing rfl), Handoff.block, logHead]
      simp only [List.append_assoc, List.cons_append, List.nil_append]
  · rw [List.concat_eq_append] at hnew ⊢
    have hfile : withEntries file (seen ++ [s]) =
        some (logHead file ++ (seen ++ [s]).flatMap Handoff.entry ++ ['\n', '\n']) := by
      rw [withEntries, if_neg (by simp)]
    have hcat : (seen ++ [s] ++ [h]).flatMap Handoff.entry =
        (seen ++ [s]).flatMap Handoff.entry ++ h.entry := by
      rw [List.flatMap_append, List.flatMap_singleton]
    unfold appendActivityLog
    rw [hfile]
    dsimp only
    rw [if_neg (hnew _ hfile), rdropWhile_entries, Handoff.block, hcat]
    simp only [List.append_assoc, List.cons_append, List.nil_append]

theorem newAudits_append_singleton (file : Option Text) (hs : List Handoff) (h : Handoff) :
    newAudits file (hs ++ [h]) =
      if Known file h.auditId ∨
          ∃ s ∈ newAudits file hs, trimBy pySpace s.auditId = trimBy pySpace h.auditId then
        newAudits file hs
      else newAudits file hs ++ [h] := by
  unfold newAudits
  rw [List.filter_append]
  by_cases hknown : Known file h.auditId
  · simp [hknown]
  · have hkept : [h].filter (fun h => ¬ Known file h.auditId) = [h] := by simp [hknown]
    rw [hkept, bestOf, List.foldl_append, List.foldl_cons, List.foldl_nil, keepBetter_first]
    simp only [hknown, false_or]
    rfl

theorem mem_of_mem_newAudits {file : Option Text} {hs : List Handoff} {h : Handoff}
    (hh : h ∈ newAudits file hs) : h ∈ hs := List.mem_of_mem_filter (mem_of_mem_bestOf hh)

/-- Two handoffs of one audit. -/
def sampleHandoff (id : Text) : Handoff where
  appName := "api".toList
  auditId := id
  tronUiBase := "http://tron/".toList
  completed := "—".toList
  crit := 0
  high := 1
  med := 0
  low := 0
  total := 1

end SpineFormal.Verify.HandoffFiles
