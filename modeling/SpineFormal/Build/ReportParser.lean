import SpineFormal.Audit.BuiltinRules
import SpineFormal.Base.LineFile
import SpineFormal.Base.RegexFirst
import SpineFormal.Build.BuildArtifact

/-!
# Parsing the markdown reports of the first version

A report is split into sections by its headings, and the bullets of a section become typed
records. The bullets of a "Files touched" section have two documented shapes: the path and a
change in parentheses, or the path in backquotes and the bare word.
-/

namespace SpineFormal.Build

open Json Re
open Audit (UnicodeTables)
set_option autoImplicit false

/-- `str.lower` and `str.upper` beside the character classes. -/
structure TextTables extends UnicodeTables where
  lower : List Char → List Char
  upper : List Char → List Char
  lower_ascii : ∀ s, (∀ c ∈ s, c.toNat < 128) → lower s = s.map Char.toLower
  upper_ascii : ∀ s, (∀ c ∈ s, c.toNat < 128) → upper s = s.map Char.toUpper

variable (u : TextTables)

/-! ## Pieces of patterns -/

def spaces : Regex := atLeast 0 pySpace

def isTick (c : Char) : Bool := c == '`'

def tick : Regex := maybe isTick

/-- `[-*]`. -/
def bulletMark (c : Char) : Bool := c == '-' || c == '*'

/-- ``[^\s`(]``. -/
def pathChar (c : Char) : Bool := !pySpace c && !isTick c && c != '('

/-- `$`. -/
def textEnd : List Char → Bool
  | [] => true
  | c :: s => c == '\n' && s.isEmpty

/-- The small ASCII letter with which `re.IGNORECASE` compares a character. -/
def foldCase (c : Char) : Char :=
  if c = '\u0130' ∨ c = '\u0131' then 'i'
  else if c = '\u017f' then 's'
  else if c = '\u212a' then 'k'
  else c.toLower

/-- A word, in whatever case. -/
def ci : List Char → Regex
  | [] => .eps
  | l :: word => .seq (.cls fun c => foldCase c == l) (ci word)

/-- `\b` after the text `w`. -/
def boundary (w t : List Char) : Bool := (w.getLast?.any u.word) != (t.head?.any u.word)

/-! ## Sections -/

inductive Bucket where
  | preamble
  | tldr
  | files
  | testsAdded
  | testsRun
  | rationale
  | lessons
  | cost
  | other
  deriving DecidableEq

def startsWith (start s : List Char) : Bool := start.isPrefixOf s

/-- `part in s`. -/
def occursIn (part s : List Char) : Bool := s.tails.any part.isPrefixOf

/-- `_SECTION_RE`: the title of a heading. -/
def sectionTitle (line : List Char) : Option (List Char) :=
  (Regex.rep false 2 (some 3) (.cls fun c => c == '#')).first line fun _ s =>
    (atLeast 1 pySpace).first s fun _ s =>
      (Regex.rep true 1 none (.cls fun c => c != '\n')).first s fun title s =>
        spaces.first s fun _ s => if textEnd s then some title else none

def classifySection (heading : List Char) : Bucket :=
  let h := (u.lower (trimBy pySpace heading)).rdropWhile fun c => c == ':'
  if startsWith "tl;dr".toList h || h == "tldr".toList || startsWith "summary".toList h then .tldr
  else if occursIn "file".toList h &&
      (occursIn "touched".toList h || occursIn "changed".toList h ||
        occursIn "modified".toList h) then .files
  else if startsWith "tests added".toList h || h == "added tests".toList then .testsAdded
  else if startsWith "tests run".toList h || startsWith "tests executed".toList h then .testsRun
  else if h == "tests".toList then .testsRun
  else if startsWith "rationale".toList h || startsWith "why".toList h ||
      startsWith "what i did".toList h then .rationale
  else if startsWith "lessons".toList h || occursIn "memory".toList h then .lessons
  else if startsWith "cost".toList h || startsWith "usage".toList h then .cost
  else .other

/-- `_split_sections`: every line that is no heading, with the bucket that it is in. -/
def splitSections : Bucket → List (List Char) → List (Bucket × List Char)
  | _, [] => []
  | current, line :: lines =>
    match sectionTitle line with
    | some title => splitSections (classifySection u title) lines
    | none => (current, line) :: splitSections current lines

/-- The bucket that is open after some lines. -/
def openBucket : Bucket → List (List Char) → Bucket
  | current, [] => current
  | current, line :: lines =>
    match sectionTitle line with
    | some title => openBucket (classifySection u title) lines
    | none => openBucket current lines

def bucketLines (sections : List (Bucket × List Char)) (b : Bucket) : List (List Char) :=
  (sections.filter fun s => s.1 = b).map Prod.snd

/-! ## Bullets -/

/-- `_NONE_BULLET`. -/
def noneRe : Regex :=
  seqs [spaces, .cls bulletMark, spaces, maybe fun c => c == '(', spaces, ci "none".toList, spaces,
    maybe fun c => c == ')', spaces]

def noneBullet (raw : List Char) : Bool :=
  (noneRe.first raw fun _ t => if textEnd t then some () else none).isSome

def changeWords : List (List Char) :=
  ["created".toList, "modified".toList, "deleted".toList, "new".toList, "updated".toList,
    "removed".toList]

def bareWords : List (List Char) := ["created".toList, "modified".toList, "deleted".toList]

/-- `(?:\((?P<type>...)\b[^)]*\))?`, with what follows it. -/
def inParentheses {α : Type} (s : List Char) (k : Option (List Char) → List Char → Option α) :
    Option α :=
  ((lit ['(']).first s fun _ t => changeWords.findSome? fun word =>
    (ci word).first t fun w t =>
      if boundary u w t then
        (atLeast 0 fun c => c != ')').first t fun _ t => (lit [')']).first t fun _ t => k (some w) t
      else none).or (k none s)

/-- `(?:\s+(?P<type2>...))?`. -/
def bareType (s : List Char) : Option (List Char) :=
  (atLeast 1 pySpace).first s fun _ t => bareWords.findSome? fun word =>
    (ci word).first t fun w _ => some w

/-- `_FILE_BULLET_RE` after the path: the path, and `type or type2`. -/
def afterPath (path s : List Char) : Option (List Char × Option (List Char)) :=
  tick.first s fun _ s => spaces.first s fun _ s => inParentheses u s fun type s =>
    some (path, type.or (bareType s))

/-- `_FILE_BULLET_RE` after the mark of the bullet. -/
def afterMark (s : List Char) : Option (List Char × Option (List Char)) :=
  tick.first s fun _ s => (atLeast 1 pathChar).first s fun path s => afterPath u path s

/-- `_FILE_BULLET_RE`. -/
def fileBullet (raw : List Char) : Option (List Char × Option (List Char)) :=
  spaces.first raw fun _ s => (Regex.cls bulletMark).first s fun _ s =>
    (atLeast 1 pySpace).first s fun _ s => afterMark u s

def normaliseChangeType : Option (List Char) → ChangeType
  | none => .modify
  | some raw =>
    let r := u.lower raw
    if r == "created".toList || r == "new".toList then .create
    else if r == "deleted".toList || r == "removed".toList then .delete
    else .modify

def fileChange (raw : List Char) : Option CodeChange :=
  if trimBy pySpace raw = [] ∨ noneBullet raw = true then none
  else
    (fileBullet u raw).map fun m =>
      let ctype := normaliseChangeType u m.2
      { path := String.ofList m.1, changeType := ctype
        diffHash := hexdigest
          (m.1 ++ '|' :: (ctype.text.toList ++ '|' :: trimBy pySpace raw))
        linesAdded := 0, linesRemoved := 0, language := none }

def extractFiles (lines : List (List Char)) : List CodeChange := lines.filterMap (fileChange u)

/-- The pattern of `_extract_tests`: the path, and the rest of the line. -/
def testBullet (raw : List Char) : Option (List Char × List Char) :=
  spaces.first raw fun _ s => (Regex.cls bulletMark).first s fun _ s =>
    (atLeast 1 pySpace).first s fun _ s => tick.first s fun _ s =>
      (atLeast 1 pathChar).first s fun path s => tick.first s fun _ s =>
        ((atLeast 1 pySpace).first s fun _ t =>
          (atLeast 0 fun c => c != '\n').first t fun rest t =>
            if textEnd t then some (path, rest) else none).or
          (if textEnd s then some (path, []) else none)

def testStatus (rest : List Char) (default : TestStatus) : TestStatus :=
  ([TestStatus.passed, .failed, .skipped, .errored].find? fun st =>
    occursIn st.text.toList (u.lower rest)).getD default

def testRecord (default : TestStatus) (raw : List Char) : Option TestRecord :=
  if trimBy pySpace raw = [] ∨ noneBullet raw = true then none
  else
    (testBullet raw).map fun m =>
      { testId := String.ofList m.1, path := String.ofList m.1
        status := testStatus u m.2 default, durationMs := 0, failureMessage := none }

def extractTests (lines : List (List Char)) (default : TestStatus) : List TestRecord :=
  lines.filterMap (testRecord u default)

/-! ## The artifact -/

/-- `"\n".join(lines).strip()`. -/
def block (lines : List (List Char)) : List Char := trimBy pySpace (['\n'].intercalate lines)

def extractTldr (sections : List (Bucket × List Char)) : List Char :=
  let parts := [block (bucketLines sections .tldr), block (bucketLines sections .rationale)].filter
    fun part => part ≠ []
  let text := trimBy pySpace ("\n\n".toList.intercalate parts)
  (if text = [] then "v1 bridge: report had no TL;DR / rationale section".toList else text).take 500

/-- `_REPORT_HEADER_RE` finds its one match at the start of the line. -/
def reportHeader (line : List Char) : Bool :=
  ((lit ['#']).first line fun _ s => spaces.first s fun _ s => (ci "report".toList).first s
    fun w t => if boundary u w t then some () else none).isSome

def sealedStatus (lines : List (List Char)) : ArtifactStatus :=
  let first := lines.head?.getD []
  if reportHeader u first then
    if ["FAILED".toList, "STOPPED".toList, "TIMEOUT".toList].any
        fun k => occursIn k (u.upper first) then .rejected
    else .sealed
  else .draft

structure ReportContext where
  role : String
  projectId : String
  directiveId : String
  pipelineVersion : String

structure ParsedReport where
  directiveId : String
  projectId : String
  role : String
  pipelineVersion : String
  codeChanges : List CodeChange
  testsAdded : List TestRecord
  testsRun : List TestRecord
  kgImpact : List Value
  rationale : String
  status : ArtifactStatus

/-- What the enrichment comes to: it is switched off or fails on its way, or it validates the
artifact and fills in what the knowledge graph answers. -/
inductive Enrichment where
  | skipped
  | filled (kgImpact : List Value)

/-- What the validation of the artifact makes of a change. -/
def CodeChange.strip (c : CodeChange) : CodeChange :=
  { c with path := stripText c.path, diffHash := stripText c.diffHash
           language := c.language.map stripText }

def TestRecord.strip (t : TestRecord) : TestRecord :=
  { t with testId := stripText t.testId, path := stripText t.path
           failureMessage := t.failureMessage.map stripText }

def ParsedReport.enrich (r : ParsedReport) : Enrichment → ParsedReport
  | .skipped => r
  | .filled kgImpact =>
    { directiveId := stripText r.directiveId, projectId := stripText r.projectId, role := r.role
      pipelineVersion := stripText r.pipelineVersion
      codeChanges := r.codeChanges.map CodeChange.strip
      testsAdded := r.testsAdded.map TestRecord.strip
      testsRun := r.testsRun.map TestRecord.strip
      kgImpact := kgImpact, rationale := stripText r.rationale, status := r.status }

def parseV1Report (text : List Char) (ctx : ReportContext) (enrichment : Enrichment) :
    ParsedReport :=
  let lines := splitlines text
  let sections := splitSections u .preamble lines
  ParsedReport.enrich
    { directiveId := ctx.directiveId, projectId := ctx.projectId
      role := if ctx.role ∈ ["engineer", "operator", "datawright"] then ctx.role else "engineer"
      pipelineVersion := ctx.pipelineVersion
      codeChanges := extractFiles u (bucketLines sections .files)
      testsAdded := extractTests u (bucketLines sections .testsAdded) .added
      testsRun := extractTests u (bucketLines sections .testsRun) .passed
      kgImpact := [], rationale := String.ofList (extractTldr sections)
      status := sealedStatus u lines }
    enrichment

end SpineFormal.Build
