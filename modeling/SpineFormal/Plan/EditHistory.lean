import SpineFormal.Base.CommitMessage
import SpineFormal.Base.IsoFormat
import SpineFormal.Base.Run
import SpineFormal.Plan.PhaseEvolution

/-!
# The history of the pipeline's edits

`plan/pipeline/versioning.py`: every edit is a commit of the manifest whose message ends in an
actor line and a rationale line, and the history is read back from what `git log` prints.
-/

namespace SpineFormal.Plan.EditHistory

open Py
set_option autoImplicit false

/-! ## The subject of an edit -/

/-- The members of a `set` that is built from a sequence. -/
def distinct (keys : List Atom) : List Atom :=
  keys.foldl (fun out k => if out.any k.same then out else out ++ [k]) []

/-- `{p.get("id") for p in (content.get("phases") or [])}`. -/
def phaseIds (content : Dict) : Option (List Atom) := do
  let phases ← ((Dict.get content (.str "phases")).or (.list [])).iter
  let ids ← phases.mapM idOf
  return distinct (← ids.mapM PyValue.asKey)

/-- The members of one set that the other does not have. -/
def outside (ids other : List Atom) : List Atom := ids.filter fun k => !other.any k.same

def idText : Atom → Option (List Char)
  | .str s => some s.toList
  | _ => none

/-- `','.join(ids)`; `none` is `TypeError`. -/
def joined (ids : List Atom) : Option (List Char) := do
  return [','].intercalate (← ids.mapM idText)

section
variable (reprOf : PyValue → String)

/-- `_first_line_summary`; `none` is an exception. -/
def firstLineSummary (newContent : Dict) (prevContent : PyValue) : Option (List Char) :=
  if !prevContent.truthy then some "pipeline: initial commit".toList
  else do
    let prev ← prevContent.asDict
    let newPhases ← phaseIds newContent
    let oldPhases ← phaseIds prev
    let added ← sortedIds (outside newPhases oldPhases)
    let removed ← sortedIds (outside oldPhases newPhases)
    if added ≠ [] ∧ removed = [] then
      return "pipeline: add phase(s) ".toList ++ (← joined added)
    else if removed ≠ [] ∧ added = [] then
      return "pipeline: remove phase(s) ".toList ++ (← joined removed)
    else if added ≠ [] ∨ removed ≠ [] then
      return "pipeline: +".toList ++ (← joined added) ++ " / -".toList ++ (← joined removed)
    else
      let nv := Dict.get newContent (.str "version")
      let ov := Dict.get prev (.str "version")
      if !nv.eq ov then
        return "pipeline: version ".toList ++ (pyStr reprOf ov).toList ++ " → ".toList ++
          (pyStr reprOf nv).toList
      else return "pipeline: edit".toList

/-! ## Committing -/

/-- What `git commit` made: hash, author date, and whether the manifest is among the changes. -/
structure Made where
  sha : List Char
  authored : List Char
  touches : Bool
  sha_plain : ∀ c ∈ sha, ' ' < c
  authored_plain : ∀ c ∈ authored, ' ' < c

structure Commit where
  made : Made
  subject : List Char
  actor : List Char
  rationale : List Char

def trailer (actor rationale : List Char) : List Char :=
  "Actor: ".toList ++ (actor ++ '\n' :: ("Rationale: ".toList ++ (rationale ++ ['\n'])))

def Commit.message (c : Commit) : List Char :=
  c.subject ++ '\n' :: '\n' :: trailer c.actor c.rationale

/-- The manifest's file and the commits, newest first. -/
structure Repo where
  present : Bool
  log : List Commit
  present_of_log : log ≠ [] → present = true

def Repo.fresh (present : Bool) : Repo := ⟨present, [], fun h => absurd rfl h⟩

/-- The file is written, whatever becomes of the commit. -/
def Repo.written (r : Repo) : Repo := ⟨true, r.log, fun _ => rfl⟩

def Repo.commit (r : Repo) (c : Commit) : Repo := ⟨true, c :: r.log, fun _ => rfl⟩

structure Edit where
  newContent : Dict
  actor : String
  rationale : String
  pipelineForCapcheck : Option PipelineManifest

/-- What a call meets: the content of the file that is there (`none` is `YAMLError`), and
git's answer (`none` is `CalledProcessError`). -/
structure Surroundings where
  loaded : Option PyValue
  answer : Option Made

structure CommitResult where
  newVersion : String
  commitSha : List Char

def capcheck (e : Edit) : Option Unit :=
  match e.pipelineForCapcheck with
  | some pipeline => requireCapability e.actor "can_modify_sdlc_pipeline" pipeline
  | none => some ()

/-- The checks before the file is written; what is committed is the trimmed rationale. -/
def checked (e : Edit) : Option (List Char) := do
  let rationale ← assertRationale e.rationale
  capcheck e
  return rationale.toList

def prevContent (around : Surroundings) (r : Repo) : Option PyValue :=
  if r.present then around.loaded.map (·.or (.dict [])) else some (.dict [])

/-- `git commit -m`; an argument with a null character is `ValueError`. -/
def gitCommit (around : Surroundings) (subject actor rationale : List Char) : Option Commit := do
  let made ← around.answer
  let c : Commit := { made, subject, actor, rationale }
  if '\x00' ∈ c.message then none else return c

/-- What `commit_pipeline_edit` returns and leaves; `none` is an exception. -/
def commitPipelineEdit (e : Edit) (around : Surroundings) (r : Repo) :
    Option CommitResult × Repo :=
  match (checked e).bind fun rationale =>
      (prevContent around r).map fun prev => (rationale, prev) with
  | none => (none, r)
  | some (rationale, prev) =>
    match (firstLineSummary reprOf e.newContent prev).bind fun subject =>
        gitCommit around subject e.actor.toList rationale with
    | none => (none, r.written)
    | some c =>
      ((versionOf reprOf e.newContent).map fun version => ⟨version, c.made.sha⟩, r.commit c)

/-- The repository after a sequence of calls. -/
def runEdits (r : Repo) (calls : List (Edit × Surroundings)) : Repo :=
  calls.foldl (fun r call => (commitPipelineEdit reprOf call.1 call.2 r).2) r

end

/-! ## Reading -/

structure PipelineEdit where
  commitSha : List Char
  actor : List Char
  rationale : List Char
  timestamp : DateTime
  subject : List Char

/-- `line.split(":", 1)[1].strip()`. -/
def afterColon (line : List Char) : List Char :=
  trimBy pySpace ((line.dropWhile (· ≠ ':')).drop 1)

/-- One line of a body, with the actor and the rationale found so far. -/
def readLine (found : List Char × List Char) (line : List Char) : List Char × List Char :=
  if "Actor:".toList.isPrefixOf line then (afterColon line, found.2)
  else if "Rationale:".toList.isPrefixOf line then (found.1, afterColon line)
  else found

def readTrailer (body : List Char) : List Char × List Char :=
  (splitlines body).foldl readLine ("<unknown>".toList, [])

/-- `raw.strip("\n\r ")` removes these. -/
def edge (c : Char) : Bool := c = '\n' || c = '\r' || c = ' '

/-- `%H%x00%aI%x00%s%x00%b`. -/
def fourParts (m : Made) (subject body : List Char) : List Char :=
  m.sha ++ '\x00' :: (m.authored ++ '\x00' :: (subject ++ '\x00' :: body))

section
variable (git : Git) (utcnow : DateTime)

def fieldsOf (c : Commit) : List Char :=
  fourParts c.made (git.subjectOf c.message) (git.bodyOf c.message)

/-- `git log --pretty=format:… -- manifest`: only the commits that change it. -/
def gitLog (log : List Commit) : List Char :=
  ['\n'].intercalate ((log.filter (·.made.touches)).map fun c => fieldsOf git c ++ ['\x1e'])

/-- One piece of the output, when it has the four parts. -/
def editOf (raw : List Char) : Option PipelineEdit :=
  match (trimBy edge raw).splitOn '\x00' with
  | sha :: iso :: subject :: body :: more =>
    let found := readTrailer (['\x00'].intercalate (body :: more))
    some {
      commitSha := sha
      actor := found.1
      rationale := found.2
      timestamp := (fromisoformat (replaceText "Z".toList "+00:00".toList iso)).getD utcnow
      subject }
  | _ => none

def pipelineHistory (r : Repo) : List PipelineEdit :=
  if r.present then
    ((universalNewlines (gitLog git r.log)).splitOn '\x1e').filterMap (editOf utcnow)
  else []

end

/-! ## What the trailer says -/

/-- No character at which `splitlines` ends a line. -/
def OneLine (s : List Char) : Prop := ∀ c ∈ s, lineBreak c = false

def Trimmed (s : List Char) : Prop := trimBy pySpace s = s

section
variable {found : List Char × List Char} {line actor rationale : List Char}

theorem OneLine.recordEnd_notMem {s : List Char} (h : OneLine s) : '\x1e' ∉ s := by
  intro hmem
  exact absurd (h _ hmem) (by decide)

theorem OneLine.afterColon (h : OneLine line) : OneLine (afterColon line) := by
  intro c hc
  have hmem : c ∈ (line.dropWhile (· ≠ ':')).drop 1 := by
    obtain ⟨a, b, heq, -, -⟩ := exists_trimBy pySpace ((line.dropWhile (· ≠ ':')).drop 1)
    rw [heq]
    exact List.mem_append_right a (List.mem_append_left b hc)
  exact h c ((List.dropWhile_sublist _).subset (List.mem_of_mem_drop hmem))

theorem trimmed_afterColon (line : List Char) : Trimmed (afterColon line) := trimBy_trimBy _ _

/-- What the reader finds is in one line and trimmed, whatever the body says. -/
structure Plain (found : List Char × List Char) : Prop where
  actor_line : OneLine found.1
  actor_trimmed : Trimmed found.1
  rationale_line : OneLine found.2
  rationale_trimmed : Trimmed found.2

theorem plain_readLine (h : Plain found) (hline : OneLine line) : Plain (readLine found line) := by
  rw [readLine]
  split_ifs
  · exact ⟨hline.afterColon, trimmed_afterColon line, h.rationale_line, h.rationale_trimmed⟩
  · exact ⟨h.actor_line, h.actor_trimmed, hline.afterColon, trimmed_afterColon line⟩
  · exact h

theorem plain_foldl {lines : List (List Char)} (h : Plain found)
    (hlines : ∀ line ∈ lines, OneLine line) : Plain (lines.foldl readLine found) := by
  induction lines generalizing found with
  | nil => exact h
  | cons line lines ih =>
    exact ih (plain_readLine h (hlines line List.mem_cons_self))
      fun line' hline' => hlines line' (List.mem_cons_of_mem line hline')

theorem plain_readTrailer (body : List Char) : Plain (readTrailer body) := by
  have hstart : Plain ("<unknown>".toList, []) := by
    refine ⟨?_, by rw [Trimmed]; decide, by simp [OneLine], rfl⟩
    have hall : ("<unknown>".toList.all fun c => !lineBreak c) = true := by decide
    intro c hc
    simpa using List.all_eq_true.mp hall c hc
  apply plain_foldl hstart
  exact fun line hline c hc => (mem_of_mem_splitlines hline hc).2

/-! ### The last line of each kind -/

/-- The text after the colon of the last line with this label. -/
def lastField (label absent : List Char) (lines : List (List Char)) : List Char :=
  ((lines.filter label.isPrefixOf).getLast?.map afterColon).getD absent

theorem lastField_concat (label absent : List Char) (lines : List (List Char)) (line : List Char) :
    lastField label absent (lines ++ [line]) =
      if label.isPrefixOf line then afterColon line else lastField label absent lines := by
  rw [lastField, List.filter_append, List.filter_singleton]
  split_ifs with h
  · rw [h, Bool.cond_true, List.getLast?_concat]
    rfl
  · rw [Bool.not_eq_true] at h
    rw [h, Bool.cond_false, List.append_nil, lastField]

theorem not_both_labels (h : "Actor:".toList.isPrefixOf line = true) :
    "Rationale:".toList.isPrefixOf line = false := by
  cases line with
  | nil => cases h
  | cons c line =>
    have hc : 'A' = c := by
      have hpre := List.isPrefixOf_iff_prefix.mp h
      exact (List.cons_prefix_cons.mp hpre).1
    subst hc
    rfl

theorem readTrailer_eq (body : List Char) :
    readTrailer body = (lastField "Actor:".toList "<unknown>".toList (splitlines body),
      lastField "Rationale:".toList [] (splitlines body)) := by
  rw [readTrailer]
  induction splitlines body using List.reverseRecOn with
  | nil => rfl
  | append_singleton lines line ih =>
    rw [List.foldl_append, List.foldl_cons, List.foldl_nil, ih, lastField_concat, lastField_concat,
      readLine]
    by_cases hactor : "Actor:".toList.isPrefixOf line = true
    · rw [if_pos hactor, if_pos hactor, not_both_labels hactor]
      rfl
    · rw [if_neg hactor, if_neg hactor]
      split_ifs <;> rfl

/-! ### Spaces at the ends of lines -/

/-- A prefix that ends in no space is a prefix of the text without spaces at its end. -/
theorem isPrefixOf_append_space {a : List Char} (key : List Char) {c : Char}
    (hc : pySpace c = false) (ha : ∀ d ∈ a, pySpace d = true) :
    (key ++ [c]).isPrefixOf (line ++ a) = (key ++ [c]).isPrefixOf line := by
  rw [Bool.eq_iff_iff, List.isPrefixOf_iff_prefix, List.isPrefixOf_iff_prefix]
  constructor
  · intro h
    rcases List.prefix_or_prefix_of_prefix h (List.prefix_append line a) with h' | ⟨b, hb⟩
    · exact h'
    · rcases List.eq_nil_or_concat b with rfl | ⟨b, d, rfl⟩
      · rw [List.append_nil] at hb
        rw [hb]
      · -- the last sign of the prefix would be one of the spaces
        rw [← hb] at h
        have hmem : d ∈ a := (List.prefix_append_right_inj line).mp h |>.subset (by simp)
        have hlast : d = c := by
          rw [List.concat_eq_append, ← List.append_assoc] at hb
          exact (List.append_singleton_inj.mp hb).2
        rw [hlast] at hmem
        rw [ha c hmem] at hc
        contradiction
  · exact fun h => h.trans (List.prefix_append line a)

theorem afterColon_append_space {a : List Char} (ha : ∀ d ∈ a, pySpace d = true) :
    afterColon (line ++ a) = afterColon line := by
  have hcolon : a.dropWhile (· ≠ ':') = [] := by
    rw [List.dropWhile_eq_nil_iff]
    intro d hd
    have hne : d ≠ ':' := by
      rintro rfl
      exact absurd (ha _ hd) (by decide)
    simpa using hne
  rw [afterColon, afterColon, List.dropWhile_append, hcolon]
  cases hline : line.dropWhile (· ≠ ':') with
  | nil => rfl
  | cons d rest =>
    rw [List.isEmpty_cons, if_neg (by simp), List.cons_append, List.drop_succ_cons, List.drop_zero,
      List.drop_succ_cons, List.drop_zero, trimBy_append_space rest ha]

theorem readLine_append_space {a : List Char} (ha : ∀ d ∈ a, pySpace d = true) :
    readLine found (line ++ a) = readLine found line := by
  have hactor : "Actor:".toList.isPrefixOf (line ++ a) = "Actor:".toList.isPrefixOf line :=
    isPrefixOf_append_space "Actor".toList (c := ':') (by decide) ha
  have hrationale : "Rationale:".toList.isPrefixOf (line ++ a) =
      "Rationale:".toList.isPrefixOf line :=
    isPrefixOf_append_space "Rationale".toList (c := ':') (by decide) ha
  rw [readLine, readLine, hactor, hrationale, afterColon_append_space ha]

theorem readLine_space (ha : ∀ d ∈ line, pySpace d = true) : readLine found line = found := by
  have hline : readLine found ([] ++ line) = readLine found [] := readLine_append_space ha
  exact hline

theorem foldl_readLine_space {lines lines' : List (List Char)}
    (h : List.Forall₂ (fun line line' => ∃ a, line = line' ++ a ∧ ∀ d ∈ a, pySpace d = true)
      lines lines') : lines.foldl readLine found = lines'.foldl readLine found := by
  induction h generalizing found with
  | nil => rfl
  | cons hline _ ih =>
    obtain ⟨a, rfl, ha⟩ := hline
    rw [List.foldl_cons, List.foldl_cons, readLine_append_space ha, ih]

theorem foldl_readLine_blank {lines : List (List Char)}
    (h : ∀ line ∈ lines, ∀ d ∈ line, pySpace d = true) :
    lines.foldl readLine found = found := by
  induction lines generalizing found with
  | nil => rfl
  | cons line lines ih =>
    rw [List.foldl_cons, readLine_space (h line List.mem_cons_self)]
    exact ih fun line' hline' => h line' (List.mem_cons_of_mem line hline')

theorem readTrailer_append_space (body : List Char) {a : List Char}
    (ha : ∀ d ∈ a, pySpace d = true) : readTrailer (body ++ a) = readTrailer body := by
  obtain ⟨lines, blanks, heq, hlines, hblanks⟩ := splitlines_append_space body ha
  rw [readTrailer, readTrailer, heq, List.foldl_append, foldl_readLine_blank hblanks,
    foldl_readLine_space hlines]

theorem pySpace_of_edge {c : Char} (h : edge c = true) : pySpace c = true := by
  simp only [edge, Bool.or_eq_true, decide_eq_true_eq] at h
  rcases h with (rfl | rfl) | rfl <;> decide

theorem readTrailer_rdropWhile (body : List Char) :
    readTrailer (body.rdropWhile edge) = readTrailer body := by
  have hend := readTrailer_append_space (body.rdropWhile edge) (a := body.rtakeWhile edge)
    fun c hc => pySpace_of_edge (List.mem_rtakeWhile_imp hc)
  rw [← hend, List.rdropWhile_append_rtakeWhile]

theorem readTrailer_universalNewlines (body : List Char) :
    readTrailer (universalNewlines body) = readTrailer body := by
  rw [readTrailer, splitlines_universalNewlines, readTrailer]

/-! ### The last two lines -/

theorem readLine_actor (found : List Char × List Char) (actor : List Char) :
    readLine found ("Actor: ".toList ++ actor) = (trimBy pySpace actor, found.2) := by
  have hcolon : afterColon ("Actor: ".toList ++ actor) = trimBy pySpace (' ' :: actor) := rfl
  rw [readLine, if_pos (by rfl), hcolon, trimBy_cons_space (by decide)]

theorem readLine_rationale (found : List Char × List Char) (rationale : List Char) :
    readLine found ("Rationale: ".toList ++ rationale) = (found.1, trimBy pySpace rationale) := by
  have hcolon : afterColon ("Rationale: ".toList ++ rationale) =
      trimBy pySpace (' ' :: rationale) := rfl
  rw [readLine, if_neg (by rintro ⟨⟩), if_pos (by rfl), hcolon, trimBy_cons_space (by decide)]

theorem OneLine.label {s : List Char} (label : List Char)
    (hlabel : (label.all fun c => !lineBreak c) = true) (h : OneLine s) : OneLine (label ++ s) := by
  intro c hc
  rcases List.mem_append.mp hc with hc | hc
  · simpa using List.all_eq_true.mp hlabel c hc
  · exact h c hc

theorem recordEnd_notMem_trailer (ha : OneLine actor) (hr : OneLine rationale) :
    '\x1e' ∉ trailer actor rationale := by
  have hactor : OneLine ("Actor: ".toList ++ actor) := ha.label _ (by decide)
  have hrationale : OneLine ("Rationale: ".toList ++ rationale) := hr.label _ (by decide)
  intro hmem
  rcases List.mem_append.mp hmem with hmem | hmem
  · exact hactor.recordEnd_notMem (List.mem_append_left _ hmem)
  · rcases List.mem_append.mp hmem with hmem | hmem
    · exact hactor.recordEnd_notMem (List.mem_append_right _ hmem)
    · rcases List.mem_cons.mp hmem with hbreak | hmem
      · exact absurd hbreak (by decide)
      · rcases List.mem_append.mp hmem with hmem | hmem
        · exact hrationale.recordEnd_notMem (List.mem_append_left _ hmem)
        · rcases List.mem_append.mp hmem with hmem | hmem
          · exact hrationale.recordEnd_notMem (List.mem_append_right _ hmem)
          · exact absurd (List.mem_singleton.mp hmem) (by decide)

theorem splitlines_trailer (ha : OneLine actor) (hr : OneLine rationale) :
    splitlines (trailer actor rationale) =
      ["Actor: ".toList ++ actor, "Rationale: ".toList ++ rationale] := by
  have heq : ∀ a b : List Char, a ++ (actor ++ '\n' :: (b ++ (rationale ++ ['\n']))) =
      (a ++ actor) ++ '\n' :: ((b ++ rationale) ++ '\n' :: []) := by
    intro a b
    simp only [List.append_assoc]
  have hactor : OneLine ("Actor: ".toList ++ actor) := ha.label _ (by decide)
  have hrationale : OneLine ("Rationale: ".toList ++ rationale) := hr.label _ (by decide)
  have htrailer := congrArg splitlines (heq "Actor: ".toList "Rationale: ".toList)
  rw [splitlines_line hactor, splitlines_line hrationale, splitlines] at htrailer
  exact htrailer

/-- Whatever lines stand before it, the trailer is what is found. -/
theorem readTrailer_trailer {before : List Char} (hbefore : before = [] ∨ ∃ s, before = s ++ ['\n'])
    (ha : OneLine actor) (hr : OneLine rationale) :
    readTrailer (before ++ trailer actor rationale) =
      (trimBy pySpace actor, trimBy pySpace rationale) := by
  have hlines : splitlines (before ++ trailer actor rationale) =
      splitlines before ++ splitlines (trailer actor rationale) := by
    rcases hbefore with rfl | ⟨s, rfl⟩
    · rfl
    · rw [List.append_assoc, List.singleton_append, splitlines_newline]
  rw [readTrailer, hlines, splitlines_trailer ha hr, List.foldl_append, List.foldl_cons,
    List.foldl_cons, List.foldl_nil, readLine_actor, readLine_rationale]

end

/-! ## What comes back of one commit -/

/-- What holds of every commit an edit makes. -/
structure Commit.Written (c : Commit) : Prop where
  subject_starts : StartsText c.subject
  rationale_trimmed : Trimmed c.rationale
  no_null : '\x00' ∉ c.message

theorem startsText_trailer (actor rationale : List Char) : StartsText (trailer actor rationale) :=
  ⟨'A', _, rfl, by decide⟩

section
variable {git : Git} {utcnow : DateTime} {c : Commit}

theorem Commit.Written.subjectOf (h : c.Written) : git.subjectOf c.message = titleOf c.subject :=
  git.subjectOf_message h.subject_starts (startsText_trailer _ _)

theorem Commit.Written.bodyOf (h : c.Written) :
    git.bodyOf c.message = surplus c.subject ++ trailer c.actor c.rationale :=
  git.bodyOf_message h.subject_starts (startsText_trailer _ _)

theorem Commit.Written.null_titleOf (h : c.Written) : '\x00' ∉ titleOf c.subject := by
  intro hmem
  rcases mem_titleOf hmem with hspace | hmem
  · exact absurd hspace (by decide)
  · exact h.no_null (List.mem_append_left _ hmem)

theorem Commit.Written.null_body (h : c.Written) :
    '\x00' ∉ surplus c.subject ++ trailer c.actor c.rationale := by
  intro hmem
  rcases List.mem_append.mp hmem with hmem | hmem
  · rcases mem_surplus hmem with hbreak | hmem
    · exact absurd hbreak (by decide)
    · exact h.no_null (List.mem_append_left _ hmem)
  · have hrest := List.mem_cons_of_mem '\n' (List.mem_cons_of_mem '\n' hmem)
    exact h.no_null (List.mem_append_right _ hrest)

/-- Signs above the space are no separators and are not stripped. -/
theorem notMem_of_plain {s : List Char} {d : Char} (hs : ∀ c ∈ s, ' ' < c) (hd : ¬ ' ' < d) :
    d ∉ s :=
  fun hmem => hd (hs d hmem)

theorem edge_of_plain {d : Char} (hd : ' ' < d) : edge d = false := by
  have h1 : d ≠ '\n' := by rintro rfl; exact absurd hd (by decide)
  have h2 : d ≠ '\r' := by rintro rfl; exact absurd hd (by decide)
  have h3 : d ≠ ' ' := by rintro rfl; exact absurd hd (by decide)
  simp [edge, h1, h2, h3]

/-- A piece with fewer than four parts is passed over. -/
theorem editOf_of_count {raw : List Char} (h : raw.count '\x00' < 3) :
    editOf utcnow raw = none := by
  have hsub : (trimBy edge raw).Sublist raw := by
    have hfront := List.dropWhile_sublist edge (l := raw)
    exact (List.rdropWhile_prefix edge _).sublist.trans hfront
  have hlen := length_splitOn '\x00' (trimBy edge raw)
  have hcount := hsub.count_le '\x00'
  rw [editOf]
  split
  · next heq =>
    rw [heq] at hlen
    simp only [List.length_cons] at hlen
    omega
  · rfl

theorem editOf_newline (raw : List Char) : editOf utcnow ('\n' :: raw) = editOf utcnow raw := by
  rw [editOf, trimBy_cons_space (by decide), editOf]

/-- What is read of the four parts. -/
def partsEdit (utcnow : DateTime) (m : Made) (subject body : List Char) : PipelineEdit where
  commitSha := m.sha
  actor := (readTrailer body).1
  rationale := (readTrailer body).2
  timestamp := (fromisoformat (replaceText "Z".toList "+00:00".toList m.authored)).getD utcnow
  subject := subject

theorem trimBy_fourParts (m : Made) (subject body : List Char) :
    trimBy edge (fourParts m subject body) = fourParts m subject (body.rdropWhile edge) := by
  have hassoc : ∀ b, fourParts m subject b =
      (m.sha ++ '\x00' :: (m.authored ++ '\x00' :: subject)) ++ '\x00' :: b := by
    intro b
    simp only [fourParts, List.append_assoc, List.cons_append]
  have hhead : ∀ d ∈ (m.sha ++ '\x00' :: (m.authored ++ '\x00' :: subject)).head?,
      edge d = false := by
    cases hsha : m.sha with
    | nil =>
      rintro d ⟨⟩
      decide
    | cons e sha =>
      rintro d ⟨⟩
      exact edge_of_plain (m.sha_plain _ (hsha ▸ List.mem_cons_self))
  rw [hassoc, trimBy_append_cons hhead (by decide), hassoc]

theorem editOf_fourParts {m : Made} {subject body : List Char} (hs : '\x00' ∉ subject)
    (hb : '\x00' ∉ body) :
    editOf utcnow (fourParts m subject body) = some (partsEdit utcnow m subject body) := by
  have hend : '\x00' ∉ body.rdropWhile edge :=
    fun hmem => hb ((List.rdropWhile_prefix _ _).subset hmem)
  have hsplit : (fourParts m subject (body.rdropWhile edge)).splitOn '\x00' =
      [m.sha, m.authored, subject, body.rdropWhile edge] :=
    splitOn_intercalate_three (notMem_of_plain m.sha_plain (by decide))
      (notMem_of_plain m.authored_plain (by decide)) hs hend
  rw [editOf, trimBy_fourParts, hsplit]
  simp only [List.intercalate_singleton, readTrailer_rdropWhile, partsEdit]

theorem count_pieces {s piece : List Char} {n : Nat} (h : s.count '\x00' ≤ n)
    (hpiece : piece ∈ s.splitOn '\x1e') : piece.count '\x00' ≤ n :=
  ((sublist_of_mem_splitOn hpiece).count_le '\x00').trans h

theorem filterMap_pieces_nil {s : List Char} (h : s.count '\x00' ≤ 2) :
    (s.splitOn '\x1e').filterMap (editOf utcnow) = [] := by
  rw [List.filterMap_eq_nil_iff]
  exact fun piece hpiece => editOf_of_count (Nat.lt_succ_of_le (count_pieces h hpiece))

/-- A record is lost when its separator stands in the subject; in the body it only ends the
part that is read. -/
theorem filterMap_fourParts {m : Made} {subject body : List Char} (hs : '\x00' ∉ subject)
    (hb : '\x00' ∉ body) :
    ((fourParts m subject body).splitOn '\x1e').filterMap (editOf utcnow) =
      if '\x1e' ∈ subject then [] else [partsEdit utcnow m subject (upTo '\x1e' body)] := by
  have hsha : '\x00' ∉ m.sha := notMem_of_plain m.sha_plain (by decide)
  have hauthored : '\x00' ∉ m.authored := notMem_of_plain m.authored_plain (by decide)
  have hno : '\x1e' ∉ m.sha ∧ '\x1e' ∉ m.authored :=
    ⟨notMem_of_plain m.sha_plain (by decide), notMem_of_plain m.authored_plain (by decide)⟩
  by_cases hmem : '\x1e' ∈ subject
  · obtain ⟨before, after, rfl, -⟩ := List.eq_append_cons_of_mem hmem
    have heq : fourParts m (before ++ '\x1e' :: after) body =
        (m.sha ++ '\x00' :: (m.authored ++ '\x00' :: before)) ++
          '\x1e' :: (after ++ '\x00' :: body) := by
      simp only [fourParts, List.append_assoc, List.cons_append]
    have hbefore : '\x00' ∉ before := fun h => hs (List.mem_append_left _ h)
    have hafter : '\x00' ∉ after :=
      fun h => hs (List.mem_append_right _ (List.mem_cons_of_mem _ h))
    rw [if_pos hmem, heq, List.splitOn_append_cons_self, List.filterMap_append,
      filterMap_pieces_nil, filterMap_pieces_nil, List.append_nil]
    · simp [List.count_eq_zero_of_not_mem, hafter, hb]
    · simp [List.count_eq_zero_of_not_mem, hsha, hauthored, hbefore]
  · rw [if_neg hmem]
    by_cases hbody : '\x1e' ∈ body
    · obtain ⟨before, after, rfl, hfirst⟩ := List.eq_append_cons_of_mem hbody
      have heq : fourParts m subject (before ++ '\x1e' :: after) =
          fourParts m subject before ++ '\x1e' :: after := by
        simp only [fourParts, List.append_assoc, List.cons_append]
      have hparts : '\x1e' ∉ fourParts m subject before := by
        simp [fourParts, hno, hmem, hfirst]
      have hbefore : '\x00' ∉ before := fun h => hb (List.mem_append_left _ h)
      have hafter : '\x00' ∉ after :=
        fun h => hb (List.mem_append_right _ (List.mem_cons_of_mem _ h))
      rw [heq, List.splitOn_append_cons_self_of_not_mem hparts, List.filterMap_cons,
        editOf_fourParts hs hbefore, upTo_append_cons hfirst, filterMap_pieces_nil]
      rw [List.count_eq_zero_of_not_mem hafter]
      omega
    · have hparts : '\x1e' ∉ fourParts m subject body := by
        simp [fourParts, hno, hmem, hbody]
      rw [List.splitOn_eq_singleton hparts, List.filterMap_cons, editOf_fourParts hs hb,
        upTo_of_notMem hbody, List.filterMap_nil]

/-! ## The whole output -/

theorem universalNewlines_fourParts (m : Made) (subject body : List Char) :
    universalNewlines (fourParts m subject body) =
      fourParts m (universalNewlines subject) (universalNewlines body) := by
  have hsha : universalNewlines m.sha = m.sha :=
    universalNewlines_eq_self (notMem_of_plain m.sha_plain (by decide))
  have hauthored : universalNewlines m.authored = m.authored :=
    universalNewlines_eq_self (notMem_of_plain m.authored_plain (by decide))
  rw [fourParts, universalNewlines_separator (by decide) (by decide),
    universalNewlines_separator (by decide) (by decide),
    universalNewlines_separator (by decide) (by decide), hsha, hauthored, fourParts]

/-- The entry of a commit that is listed. -/
def entryOf (utcnow : DateTime) (c : Commit) : PipelineEdit :=
  partsEdit utcnow c.made (universalNewlines (titleOf c.subject))
    (universalNewlines (upTo '\x1e' (surplus c.subject ++ trailer c.actor c.rationale)))

theorem filterMap_fieldsOf (h : c.Written) :
    ((universalNewlines (fieldsOf git c)).splitOn '\x1e').filterMap (editOf utcnow) =
      if '\x1e' ∈ titleOf c.subject then [] else [entryOf utcnow c] := by
  have hparts : fieldsOf git c = fourParts c.made (titleOf c.subject)
      (surplus c.subject ++ trailer c.actor c.rationale) := by
    rw [fieldsOf, h.subjectOf, h.bodyOf]
  have hs : '\x00' ∉ universalNewlines (titleOf c.subject) :=
    fun hmem => h.null_titleOf ((mem_universalNewlines (by decide) (by decide)).mp hmem)
  have hb : '\x00' ∉ universalNewlines (surplus c.subject ++ trailer c.actor c.rationale) :=
    fun hmem => h.null_body ((mem_universalNewlines (by decide) (by decide)).mp hmem)
  rw [hparts, universalNewlines_fourParts, filterMap_fourParts hs hb,
    upTo_universalNewlines (by decide) (by decide), ← entryOf]
  simp only [mem_universalNewlines (c := '\x1e') (s := titleOf c.subject) (by decide) (by decide)]

/-- The newline between two records is stripped. -/
theorem filterMap_newline (s : List Char) :
    (('\n' :: s).splitOn '\x1e').filterMap (editOf utcnow) =
      (s.splitOn '\x1e').filterMap (editOf utcnow) := by
  obtain ⟨first, others, hsplit⟩ := List.exists_cons_of_ne_nil (List.splitOn_ne_nil '\x1e' s)
  rw [splitOn_cons_of_ne (by decide), hsplit, List.modifyHead_cons, List.filterMap_cons,
    List.filterMap_cons, editOf_newline]

theorem filterMap_output {commits : List Commit} (h : ∀ c ∈ commits, c.Written) :
    ((universalNewlines (['\n'].intercalate
        (commits.map fun c => fieldsOf git c ++ ['\x1e']))).splitOn '\x1e').filterMap
          (editOf utcnow) =
      commits.filterMap fun c =>
        if '\x1e' ∈ titleOf c.subject then none else some (entryOf utcnow c) := by
  induction commits with
  | nil => exact filterMap_pieces_nil (Nat.zero_le 2)
  | cons c commits ih =>
    have hrest := ih fun d hd => h d (List.mem_cons_of_mem c hd)
    have houtput : ∃ tail, ['\n'].intercalate
          ((c :: commits).map fun c => fieldsOf git c ++ ['\x1e']) =
        fieldsOf git c ++ '\x1e' :: tail ∧
        ((universalNewlines tail).splitOn '\x1e').filterMap (editOf utcnow) =
          commits.filterMap fun c =>
            if '\x1e' ∈ titleOf c.subject then none else some (entryOf utcnow c) := by
      cases commits with
      | nil => exact ⟨[], List.intercalate_singleton, hrest⟩
      | cons d commits =>
        refine ⟨'\n' :: ['\n'].intercalate
          ((d :: commits).map fun c => fieldsOf git c ++ ['\x1e']), ?_, ?_⟩
        · rw [List.map_cons, List.map_cons, List.intercalate_cons_cons]
          simp only [List.append_assoc, List.cons_append, List.nil_append]
        · rw [universalNewlines_cons_of_ne (by decide), filterMap_newline, hrest]
    obtain ⟨tail, heq, htail⟩ := houtput
    rw [heq, universalNewlines_separator (by decide) (by decide), List.splitOn_append_cons_self,
      List.filterMap_append, filterMap_fieldsOf (h c List.mem_cons_self), htail,
      List.filterMap_cons]
    split_ifs <;> rfl

/-- The commit changes the manifest, and no record ends in its subject. -/
def Lists (c : Commit) : Prop := c.made.touches = true ∧ '\x1e' ∉ titleOf c.subject

instance (c : Commit) : Decidable (Lists c) := inferInstanceAs (Decidable (_ ∧ _))

theorem pipelineHistory_eq {r : Repo} (h : ∀ c ∈ r.log, c.Written) :
    pipelineHistory git utcnow r =
      r.log.filterMap fun c => if Lists c then some (entryOf utcnow c) else none := by
  have htouched : ∀ c ∈ r.log.filter (·.made.touches), c.Written :=
    fun c hc => h c (List.mem_filter.mp hc).1
  have hbody : ((universalNewlines (gitLog git r.log)).splitOn '\x1e').filterMap (editOf utcnow) =
      r.log.filterMap fun c => if Lists c then some (entryOf utcnow c) else none := by
    rw [gitLog, filterMap_output htouched, List.filterMap_filter]
    apply List.filterMap_congr
    intro c _
    by_cases htouch : c.made.touches = true <;> by_cases hsep : '\x1e' ∈ titleOf c.subject <;>
      simp [Lists, htouch, hsep]
  rw [pipelineHistory, hbody]
  split_ifs with hpresent
  · rfl
  · have hnil : r.log = [] := by
      by_contra hne
      exact hpresent (r.present_of_log hne)
    rw [hnil, List.filterMap_nil]

/-! ## Histories that are faithful -/

/-- The commits are listed newest first, and the newest entry has the actor and the rationale
that were committed. -/
def Faithful (history : List PipelineEdit) (log : List Commit) : Prop :=
  history.map (·.commitSha) = log.map (·.made.sha) ∧
    history.head?.map (fun e => (e.actor, e.rationale)) =
      log.head?.map fun c => (c.actor, c.rationale)

/-- Actor and rationale fit on their lines. Where a record ends in a later paragraph of the
subject, the last lines with the two labels before it say already what the trailer would. -/
structure ReadsBack (c : Commit) : Prop where
  actor_line : OneLine c.actor
  actor_trimmed : Trimmed c.actor
  rationale_line : OneLine c.rationale
  early : '\x1e' ∈ surplus c.subject →
    lastField "Actor:".toList "<unknown>".toList (splitlines (upTo '\x1e' (surplus c.subject))) =
        c.actor ∧
      lastField "Rationale:".toList [] (splitlines (upTo '\x1e' (surplus c.subject))) =
        c.rationale

theorem readTrailer_eq_iff (h : c.Written) :
    readTrailer (upTo '\x1e' (surplus c.subject ++ trailer c.actor c.rationale)) =
      (c.actor, c.rationale) ↔ ReadsBack c := by
  constructor
  · intro hread
    have hplain := plain_readTrailer
      (upTo '\x1e' (surplus c.subject ++ trailer c.actor c.rationale))
    rw [hread] at hplain
    refine ⟨hplain.actor_line, hplain.actor_trimmed, hplain.rationale_line, fun hsep => ?_⟩
    rw [upTo_append hsep, readTrailer_eq] at hread
    exact Prod.mk.inj hread
  · intro hback
    by_cases hsep : '\x1e' ∈ surplus c.subject
    · obtain ⟨hactor, hrationale⟩ := hback.early hsep
      rw [upTo_append hsep, readTrailer_eq, hactor, hrationale]
    · have hbody : '\x1e' ∉ surplus c.subject ++ trailer c.actor c.rationale := by
        intro hmem
        rcases List.mem_append.mp hmem with hmem | hmem
        · exact hsep hmem
        · exact recordEnd_notMem_trailer hback.actor_line hback.rationale_line hmem
      rw [upTo_of_notMem hbody, readTrailer_trailer (surplus_ends c.subject) hback.actor_line
        hback.rationale_line, hback.actor_trimmed, h.rationale_trimmed]

theorem faithful_iff {r : Repo} (h : ∀ c ∈ r.log, c.Written) :
    Faithful (pipelineHistory git utcnow r) r.log ↔
      (∀ c ∈ r.log, Lists c) ∧ ∀ c ∈ r.log.head?, ReadsBack c := by
  rw [pipelineHistory_eq h, Faithful]
  have hmap : (∀ c ∈ r.log, Lists c) →
      (r.log.filterMap fun c => if Lists c then some (entryOf utcnow c) else none) =
        r.log.map (entryOf utcnow) := by
    intro hall
    rw [← List.filterMap_eq_map]
    exact List.filterMap_congr fun c hc => if_pos (hall c hc)
  have hhead : (r.log.map (entryOf utcnow)).head?.map (fun e => (e.actor, e.rationale)) =
      r.log.head?.map (fun c => (c.actor, c.rationale)) ↔ ∀ c ∈ r.log.head?, ReadsBack c := by
    cases hlog : r.log with
    | nil => simp
    | cons c rest =>
      have hc : c.Written := h c (hlog ▸ List.mem_cons_self)
      simp only [List.map_cons, List.head?_cons, Option.map_some, Option.some.injEq,
        Option.mem_def, forall_eq']
      rw [← readTrailer_eq_iff hc]
      simp only [entryOf, partsEdit, readTrailer_universalNewlines]
  constructor
  · rintro ⟨hshas, hnewest⟩
    have hall : ∀ c ∈ r.log, Lists c := by
      have hlen := congrArg List.length hshas
      rw [List.length_map, List.length_map, List.filterMap_length_eq_length] at hlen
      intro c hc
      have hsome := hlen c hc
      by_contra hno
      rw [if_neg hno] at hsome
      contradiction
    rw [hmap hall] at hnewest
    exact ⟨hall, hhead.mp hnewest⟩
  · rintro ⟨hall, hback⟩
    rw [hmap hall]
    refine ⟨?_, hhead.mpr hback⟩
    rw [List.map_map]
    exact List.map_congr_left fun c _ => rfl

/-! ## What an edit commits -/

end

section
variable {reprOf : PyValue → String}

theorem firstLineSummary_starts {newContent : Dict} {prev : PyValue} {subject : List Char}
    (h : firstLineSummary reprOf newContent prev = some subject) : StartsText subject := by
  rw [firstLineSummary] at h
  split_ifs at h with hprev
  · obtain rfl := Option.some.inj h
    exact ⟨'p', _, rfl, by decide⟩
  · simp only [Option.bind_eq_bind, Option.bind_eq_some_iff] at h
    obtain ⟨_, -, _, -, _, -, added, -, removed, -, h⟩ := h
    split_ifs at h
    · obtain ⟨_, -, h⟩ := Option.bind_eq_some_iff.mp h
      obtain rfl := Option.some.inj h
      exact ⟨'p', _, rfl, by decide⟩
    · obtain ⟨_, -, h⟩ := Option.bind_eq_some_iff.mp h
      obtain rfl := Option.some.inj h
      exact ⟨'p', _, rfl, by decide⟩
    · simp only [Option.bind_eq_some_iff] at h
      obtain ⟨_, -, _, -, h⟩ := h
      obtain rfl := Option.some.inj h
      exact ⟨'p', _, rfl, by decide⟩
    · obtain rfl := Option.some.inj h
      exact ⟨'p', _, rfl, by decide⟩
    · obtain rfl := Option.some.inj h
      exact ⟨'p', _, rfl, by decide⟩

theorem trimmed_assertRationale {rationale kept : String}
    (h : assertRationale rationale = some kept) : Trimmed kept.toList := by
  rw [assertRationale] at h
  split_ifs at h
  obtain rfl := Option.some.inj h
  rw [strip, Trimmed, String.toList_ofList, trimBy_trimBy]

/-- All that a call can do to the log. -/
theorem commitPipelineEdit_log (reprOf : PyValue → String) (e : Edit) (around : Surroundings)
    (r : Repo) :
    (commitPipelineEdit reprOf e around r).2.log = r.log ∨
      ∃ c kept, (commitPipelineEdit reprOf e around r).2.log = c :: r.log ∧ c.Written ∧
        c.actor = e.actor.toList ∧ assertRationale e.rationale = some kept ∧
        c.rationale = kept.toList := by
  rw [commitPipelineEdit]
  cases hbefore : (checked e).bind fun rationale =>
      (prevContent around r).map fun prev => (rationale, prev) with
  | none => exact .inl rfl
  | some before =>
    obtain ⟨rationale, prev⟩ := before
    dsimp only
    cases hcommit : (firstLineSummary reprOf e.newContent prev).bind fun subject =>
        gitCommit around subject e.actor.toList rationale with
    | none => exact .inl rfl
    | some c =>
      right
      obtain ⟨_, hchecked, hpair⟩ := Option.bind_eq_some_iff.mp hbefore
      obtain ⟨_, -, hpair⟩ := Option.map_eq_some_iff.mp hpair
      obtain ⟨rfl, rfl⟩ := Prod.mk.inj hpair
      obtain ⟨subject, hsubject, hgit⟩ := Option.bind_eq_some_iff.mp hcommit
      simp only [checked, Option.bind_eq_bind, Option.bind_eq_some_iff] at hchecked
      obtain ⟨kept, hkept, _, -, hrationale⟩ := hchecked
      obtain rfl := Option.some.inj hrationale
      simp only [gitCommit, Option.bind_eq_bind, Option.bind_eq_some_iff] at hgit
      obtain ⟨made, -, hgit⟩ := hgit
      split_ifs at hgit with hnull
      obtain rfl := Option.some.inj hgit
      have hwritten : Commit.Written ⟨made, subject, e.actor.toList, kept.toList⟩ :=
        ⟨firstLineSummary_starts hsubject, trimmed_assertRationale hkept, hnull⟩
      exact ⟨_, kept, rfl, hwritten, rfl, hkept, rfl⟩

theorem written_commitPipelineEdit (e : Edit) (around : Surroundings) {r : Repo}
    (h : ∀ c ∈ r.log, c.Written) :
    ∀ c ∈ (commitPipelineEdit reprOf e around r).2.log, c.Written := by
  rcases commitPipelineEdit_log reprOf e around r with hlog | ⟨d, _, hlog, hd, -⟩
  · rw [hlog]
    exact h
  · rw [hlog]
    exact List.forall_mem_cons.mpr ⟨hd, h⟩

/-- After every sequence of calls, accepted or not. -/
theorem written_runEdits (present : Bool) (calls : List (Edit × Surroundings)) :
    ∀ c ∈ (runEdits reprOf (.fresh present) calls).log, c.Written := by
  have hrun : Run (fun r call t => (commitPipelineEdit reprOf call.1 call.2 r).2 = t)
      (.fresh present) calls (runEdits reprOf (.fresh present) calls) := Run.of_foldl rfl
  refine hrun.invariant (I := fun _ r => ∀ c ∈ r.log, c.Written) (by simp [Repo.fresh]) ?_
  rintro _ r _ call hr rfl
  exact written_commitPipelineEdit call.1 call.2 hr

/-- The history that is read after any sequence of calls is faithful exactly when every commit is
listed and the newest one is read back. -/
theorem pipelineHistory_faithful_iff (git : Git) (utcnow : DateTime) (present : Bool)
    (calls : List (Edit × Surroundings)) :
    Faithful (pipelineHistory git utcnow (runEdits reprOf (.fresh present) calls))
        (runEdits reprOf (.fresh present) calls).log ↔
      (∀ c ∈ (runEdits reprOf (.fresh present) calls).log, Lists c) ∧
        ∀ c ∈ (runEdits reprOf (.fresh present) calls).log.head?, ReadsBack c :=
  faithful_iff (written_runEdits present calls)

end

theorem plain_of_all {s : List Char} (h : (s.all fun c => decide (' ' < c)) = true) :
    ∀ c ∈ s, ' ' < c :=
  fun c hc => of_decide_eq_true (List.all_eq_true.mp h c hc)

/-- A first edit whose rationale has two lines. -/
def twoLineEdit : Edit × Surroundings where
  fst :=
    { newContent := [], actor := "user:alice", rationale := "split the gate\nfor audits",
      pipelineForCapcheck := none }
  snd :=
    { loaded := none
      answer := some {
        sha := "9f1c2e07".toList
        authored := "2026-01-05T10:00:00+00:00".toList
        touches := true
        sha_plain := plain_of_all (by decide)
        authored_plain := plain_of_all (by decide) } }

/-- Only the first line of the rationale comes back. -/
theorem two_lines_cut :
    ¬ Faithful
      (pipelineHistory .byLines (.naive ⟨0, zero_lt_maxWall⟩)
        (runEdits (fun _ => "") (.fresh false) [twoLineEdit]))
      (runEdits (fun _ => "") (.fresh false) [twoLineEdit]).log := by
  rw [faithful_iff (written_runEdits false [twoLineEdit])]
  rintro ⟨-, hback⟩
  have hnewest : ∃ c, (runEdits (fun _ => "") (.fresh false) [twoLineEdit]).log.head? = some c ∧
      '\n' ∈ c.rationale := by
    refine ⟨_, rfl, ?_⟩
    decide
  obtain ⟨c, hc, hmem⟩ := hnewest
  exact absurd ((hback c hc).rationale_line _ hmem) (by decide)

end SpineFormal.Plan.EditHistory
