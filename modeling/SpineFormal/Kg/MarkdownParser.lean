import SpineFormal.Base.Decimal
import SpineFormal.Base.TextRecords
import SpineFormal.Kg.SpineIds

/-!
# References of a markdown document

The parser walks over the lines of a document, passes over fenced and HTML blocks, and keeps the
other lines with their numbers. The kept lines are joined and searched for identifiers, and the
line of a match is counted from the first kept line on.
-/

namespace SpineFormal.Kg

open Re
open Build (spaces startsWith ci boundary textEnd)
set_option autoImplicit false

variable (u : WordTables)

/-! ## Lines and blocks -/

/-- `_FENCE.match`. -/
def isFence (line : List Char) : Bool :=
  (spaces.first line fun _ t =>
    if startsWith "```".toList t || startsWith "~~~".toList t then some () else none).isSome

def htmlTags : List (List Char) := ["script".toList, "style".toList, "pre".toList]

/-- `_HTML_BLOCK_OPEN.match`. -/
def htmlOpen (line : List Char) : Bool :=
  (spaces.first line fun _ s => (lit ['<']).first s fun _ s => htmlTags.findSome? fun tag =>
    (ci tag).first s fun w t => if boundary u.toTextTables w t then some () else none).isSome

/-- `_HTML_BLOCK_CLOSE.search`. -/
def htmlClose (line : List Char) : Bool :=
  line.tails.any fun s =>
    ((lit ['<', '/']).first s fun _ s => htmlTags.findSome? fun tag =>
      (ci tag).first s fun _ s => spaces.first s fun _ s =>
        (lit ['>']).first s fun _ _ => some ()).isSome

/-- `_ATX.match`: the marks and the text of a heading. -/
def atxHeading (line : List Char) : Option (List Char × List Char) :=
  (Regex.rep false 1 (some 6) (.cls fun c => c == '#')).first line fun marks s =>
    (atLeast 1 pySpace).first s fun _ s =>
      (Regex.rep true 1 none (.cls fun c => c != '\n')).first s fun text s =>
        spaces.first s fun _ s => (atLeast 0 fun c => c == '#').first s fun _ s =>
          spaces.first s fun _ s => if textEnd s then some (marks, text) else none

/-- `_REF_DEF.match`: the anchor and the target. -/
def refDef (line : List Char) : Option (List Char × List Char) :=
  spaces.first line fun _ s => (lit ['[']).first s fun _ s =>
    (atLeast 1 fun c => c != ']').first s fun anchor s => (lit [']', ':']).first s fun _ s =>
      spaces.first s fun _ s =>
        (atLeast 1 fun c => !pySpace c).first s fun url _ => some (anchor, url)

/-- `_INLINE_LINK` at a place: the anchor, the target and what is left. -/
def inlineLink (s : List Char) : Option (List Char × List Char × List Char) :=
  (lit ['[']).first s fun _ s => (atLeast 1 fun c => c != ']' && c != '\n').first s fun anchor s =>
    (lit [']', '(']).first s fun _ s =>
      (atLeast 1 fun c => c != ')' && !pySpace c).first s fun url s =>
        (((atLeast 1 pySpace).first s fun _ s => (lit ['"']).first s fun _ s =>
          (atLeast 0 fun c => c != '"').first s fun _ s => (lit ['"', ')']).first s fun _ rest =>
            some (anchor, url, rest))).or
        ((lit [')']).first s fun _ rest => some (anchor, url, rest))

/-- `_INLINE_LINK.finditer`, with the number of characters that the last match still covers. -/
def inlineLinks : Nat → List Char → List (List Char × List Char)
  | _, [] => []
  | skip + 1, _ :: s => inlineLinks skip s
  | 0, c :: s =>
    match inlineLink (c :: s) with
    | some (anchor, url, rest) => (anchor, url) :: inlineLinks (s.length - rest.length) s
    | none => inlineLinks 0 s

/-! ## Nodes and edges -/

structure NodeData where
  nodeId : String
  type : String
  subtype : Option String
  repo : String
  commitSha : Option String
  path : String
  name : String
  properties : List (String × String)

structure EdgeData where
  fromNodeId : String
  toNodeId : String
  type : String
  commitSha : Option String
  properties : List (String × String)

/-- The document that is parsed. -/
structure DocContext where
  repo : String
  docPath : String
  commitSha : Option String

namespace DocContext
variable (d : DocContext)

/-- `_doc_id`. -/
def docId : String := "markdown:document:" ++ d.repo ++ ":" ++ d.docPath

/-- `doc_id.split(':', 2)[-1]`. -/
def docTail : String :=
  String.ofList ([':'].intercalate ((d.docId.toList.splitOn ':').drop 2))

def headingNode (level : Nat) (text : String) (lineno : Nat) : NodeData where
  nodeId := d.docId ++ "#heading:L" ++ toString lineno
  type := "Heading"
  subtype := some ("H" ++ toString level)
  repo := d.repo
  commitSha := d.commitSha
  path := d.docTail ++ ":" ++ toString lineno
  name := text
  properties := [("level", toString level), ("line", toString lineno), ("text", text)]

end DocContext

/-- `_link_target_id`. -/
def linkTargetId (url : List Char) : String :=
  if startsWith ['#'] url then "spine:external:anchor:" ++ String.ofList (url.drop 1)
  else if ["http://", "https://", "mailto:"].any fun scheme => startsWith scheme.toList url then
    "spine:external:url:" ++ String.ofList url
  else "spine:external:doc:" ++ String.ofList (url.takeWhile fun c => c ≠ '#')

def linkEdge (d : DocContext) (lineno : Nat) (link : List Char × List Char) : EdgeData where
  fromNodeId := d.docId
  toNodeId := linkTargetId link.2
  type := "LINKS_TO"
  commitSha := d.commitSha
  properties := [("anchor_text", String.ofList link.1), ("url", String.ofList link.2),
    ("line", toString lineno)]

/-- `external_node_id`. -/
def externalNodeId (idText : String) : String :=
  "spine:external:" ++ String.ofList (u.lower idText.toList)

def citesEdge (d : DocContext) (r : ResolvedReference) : EdgeData where
  fromNodeId := d.docId
  toNodeId := r.targetNodeId.getD (externalNodeId u r.idText)
  type := "CITES"
  commitSha := d.commitSha
  properties := [("cited_id", r.idText), ("kind", r.idKind), ("line", toString r.lineInSource),
    ("target_type", r.targetType)]

/-! ## The walk -/

/-- What the walk has come by: the buffer holds the kept lines with their numbers. -/
structure Walked where
  headings : List NodeData
  links : List EdgeData
  buffer : List (Nat × List Char)

/-- The loop of `_walk`, in a fenced block or not and in an HTML block or not. -/
def walkLines (d : DocContext) : Bool → Bool → Nat → List (List Char) → Walked
  | _, _, _, [] => ⟨[], [], []⟩
  | inFence, inHtml, lineno, line :: lines =>
    if isFence line then walkLines d (!inFence) inHtml (lineno + 1) lines
    else if inFence then walkLines d inFence inHtml (lineno + 1) lines
    else if inHtml then walkLines d inFence (!htmlClose line) (lineno + 1) lines
    else if htmlOpen u line then walkLines d inFence true (lineno + 1) lines
    else
      let rest := walkLines d inFence inHtml (lineno + 1) lines
      match atxHeading line with
      | some (marks, text) =>
        let text := trimBy pySpace text
        { headings := d.headingNode marks.length (String.ofList text) lineno :: rest.headings
          links := rest.links
          buffer := (lineno, text) :: rest.buffer }
      | none =>
        { headings := rest.headings
          links := (refDef line).toList.map (linkEdge d lineno) ++
            ((inlineLinks 0 line).map (linkEdge d lineno) ++ rest.links)
          buffer := (lineno, line) :: rest.buffer }

/-- `_references_from_buffer`. -/
def referencesFromBuffer (d : DocContext) (buffer : List (Nat × List Char)) : List EdgeData :=
  match buffer with
  | [] => []
  | (firstLineno, _) :: _ =>
    (extractReferences u (['\n'].intercalate (buffer.map Prod.snd)) (firstLineno - 1)).map
      (citesEdge u d)

/-- What `parse_markdown` finds in the text of a document. -/
structure ParsedDoc where
  headings : List NodeData
  links : List EdgeData
  references : List EdgeData

def parseMarkdown (d : DocContext) (content : List Char) : ParsedDoc :=
  let walked := walkLines u d false false 1 (splitlines content)
  ⟨walked.headings, walked.links, referencesFromBuffer u d walked.buffer⟩

/-! ## The lines outside blocks -/

/-- The blocks that are open before a line. -/
structure OpenBlocks where
  inFence : Bool := false
  inHtml : Bool := false

/-- The line belongs to a block: a fence, what stands between two fences, and an HTML block from the
line that opens it to the line that closes it. -/
def OpenBlocks.covers (b : OpenBlocks) (line : List Char) : Bool :=
  isFence line || b.inFence || b.inHtml || htmlOpen u line

def OpenBlocks.after (b : OpenBlocks) (line : List Char) : OpenBlocks where
  inFence := if isFence line then !b.inFence else b.inFence
  inHtml :=
    if isFence line || b.inFence then b.inHtml
    else if b.inHtml then !htmlClose line
    else htmlOpen u line

/-- The lines outside blocks, with their numbers in the text. -/
def outsideFrom : OpenBlocks → Nat → List (List Char) → List (Nat × List Char)
  | _, _, [] => []
  | b, lineno, line :: lines =>
    (if b.covers u line then [] else [(lineno, line)]) ++
      outsideFrom (b.after u line) (lineno + 1) lines

def outsideLines (content : List Char) : List (Nat × List Char) :=
  outsideFrom u {} 1 (splitlines content)

variable {u}

/-- What the walk keeps of a line: of a heading its text. -/
def inlineText (line : List Char) : List Char :=
  match atxHeading line with
  | some (_, text) => trimBy pySpace text
  | none => line

theorem buffer_eq (d : DocContext) (b : OpenBlocks) (lineno : Nat) (lines : List (List Char)) :
    (walkLines u d b.inFence b.inHtml lineno lines).buffer =
      (outsideFrom u b lineno lines).map fun p => (p.1, inlineText p.2) := by
  induction lines generalizing b lineno with
  | nil => rfl
  | cons line lines ih =>
    have hrest := ih (b.after u line) (lineno + 1)
    rw [walkLines, outsideFrom, List.map_append, ← hrest]
    unfold OpenBlocks.covers OpenBlocks.after
    by_cases hfence : isFence line = true
    · simp [hfence]
    · rw [Bool.not_eq_true] at hfence
      cases hin : b.inFence with
      | true => simp [hfence]
      | false =>
        cases hhtml : b.inHtml with
        | true => simp [hfence]
        | false =>
          by_cases hopen : htmlOpen u line = true
          · simp [hfence, hopen]
          · rw [Bool.not_eq_true] at hopen
            simp only [hfence, hopen]
            cases hheading : atxHeading line with
            | none => simp [inlineText, hheading]
            | some m => simp [inlineText, hheading]

/-- Around the text of a heading stand white space and marks. -/
theorem atxHeading_some {line marks text : List Char} (h : atxHeading line = some (marks, text)) :
    ∃ a b, line = a ++ (text ++ b) ∧ (∀ c ∈ a, pySpace c = true ∨ c = '#') ∧
      ∀ c ∈ b, pySpace c = true ∨ c = '#' := by
  obtain ⟨hashes, s₁, rfl, hhashes, h⟩ := first_eq_some h
  obtain ⟨blanks, s₂, rfl, hblanks, h⟩ := first_eq_some h
  obtain ⟨body, s₃, rfl, -, h⟩ := first_eq_some h
  obtain ⟨behind, s₄, rfl, hbehind, h⟩ := first_eq_some h
  obtain ⟨closing, s₅, rfl, hclosing, h⟩ := first_eq_some h
  obtain ⟨last, s₆, rfl, hlast, h⟩ := first_eq_some h
  split_ifs at h with hend
  obtain ⟨rfl, rfl⟩ := Prod.mk.inj (Option.some.inj h)
  have hmarks : ∀ c ∈ hashes, c = '#' := by
    intro c hc
    by_contra hne
    have havoids : (Regex.rep false 1 (some 6) (.cls fun c => c == '#')).avoids c = true := by
      simpa [Regex.avoids] using hne
    exact notMem_of_avoids hhashes havoids hc
  have hrest : ∀ c ∈ s₆, pySpace c = true := by
    cases s₆ with
    | nil => exact fun c hc => absurd hc List.not_mem_nil
    | cons d t =>
      simp only [textEnd, Bool.and_eq_true, beq_iff_eq, List.isEmpty_iff] at hend
      obtain ⟨rfl, rfl⟩ := hend
      exact List.forall_mem_singleton.mpr (by decide)
  refine ⟨hashes ++ blanks, behind ++ (closing ++ (last ++ s₆)), by simp, ?_, ?_⟩
  · intro c hc
    rcases List.mem_append.mp hc with hc | hc
    · exact .inr (hmarks c hc)
    · exact .inl (forall_of_atLeast hblanks c hc)
  · intro c hc
    simp only [List.mem_append] at hc
    rcases hc with hc | hc | hc | hc
    · exact .inl (forall_of_atLeast hbehind c hc)
    · exact .inr (by simpa using forall_of_atLeast hclosing c hc)
    · exact .inl (forall_of_atLeast hlast c hc)
    · exact .inl (hrest c hc)

theorem between_space {c : Char} (h : pySpace c = true) : between u c = true := by
  have hdot : c ≠ '.' := by
    rintro rfl
    exact absurd h (by decide)
  have hdash : c ≠ '-' := by
    rintro rfl
    exact absurd h (by decide)
  simp [between, u.word_of_space c h, hdot, hdash]

theorem between_mark {c : Char} (h : pySpace c = true ∨ c = '#') : between u c = true := by
  rcases h with h | rfl
  · exact between_space h
  · have hword : u.word '#' = false := (u.word_ascii '#' (by decide)).trans (by decide)
    simp [between, hword]

/-- Nothing of a line is lost with what the walk drops of a heading. -/
theorem words_inlineText (line : List Char) :
    (spineId u).words (inlineText line) = (spineId u).words line := by
  unfold inlineText
  cases hheading : atxHeading line with
  | none => rfl
  | some m =>
    obtain ⟨marks, text⟩ := m
    obtain ⟨a, b, rfl, ha, hb⟩ := atxHeading_some hheading
    obtain ⟨x, y, htext, hx, hy⟩ := exists_trimBy pySpace text
    have hline : a ++ (text ++ b) = (a ++ x) ++ (trimBy pySpace text ++ (y ++ b)) := by
      conv_lhs => rw [htext]
      simp only [List.append_assoc]
    have hfront : ∀ c ∈ a ++ x, between u c = true := fun c hc =>
      (List.mem_append.mp hc).elim (fun hc => between_mark (ha c hc)) fun hc => between_space (hx c hc)
    have hback : ∀ c ∈ y ++ b, between u c = true := fun c hc =>
      (List.mem_append.mp hc).elim (fun hc => between_space (hy c hc)) fun hc => between_mark (hb c hc)
    rw [hline]
    exact (spineId_separated.words_around hfront hback _).symm

theorem mem_of_mem_inlineText {line : List Char} {c : Char} (h : c ∈ inlineText line) :
    c ∈ line := by
  unfold inlineText at h
  cases hheading : atxHeading line with
  | none =>
    rw [hheading] at h
    exact h
  | some m =>
    obtain ⟨marks, text⟩ := m
    rw [hheading] at h
    obtain ⟨a, b, rfl, -, -⟩ := atxHeading_some hheading
    obtain ⟨x, y, htext, -, -⟩ := exists_trimBy pySpace text
    have hmem : c ∈ text := by
      rw [htext]
      exact List.mem_append_right x (List.mem_append_left y h)
    exact List.mem_append_right a (List.mem_append_left b hmem)

/-! ## Numbers in order -/

section
variable {β : Type} {L : List (Nat × β)}

/-- Numbers in order grow at least as fast as their places. -/
theorem add_sub_le (hL : L.Pairwise fun p q => p.1 < q.1) {i j : Nat} (hij : i ≤ j) {p q : Nat × β}
    (hp : L[i]? = some p) (hq : L[j]? = some q) : p.1 + (j - i) ≤ q.1 := by
  induction j generalizing q with
  | zero =>
    obtain rfl := Nat.le_zero.mp hij
    obtain rfl := Option.some.inj (hp.symm.trans hq)
    omega
  | succ j ih =>
    rcases Nat.eq_or_lt_of_le hij with rfl | hlt
    · obtain rfl := Option.some.inj (hp.symm.trans hq)
      omega
    · obtain ⟨hj, rfl⟩ := List.getElem?_eq_some_iff.mp hq
      have hlt : j < L.length := Nat.lt_of_succ_lt hj
      have hprev : L[j]? = some L[j] := List.getElem?_eq_getElem hlt
      have hle := ih (by omega) hprev
      have hless := List.pairwise_iff_getElem.mp hL j (j + 1) (Nat.lt_of_succ_lt hj) hj
        (Nat.lt_succ_self j)
      omega

/-- A place is reached without a gap if every number up to it is there. -/
theorem eq_add_iff (hL : L.Pairwise fun p q => p.1 < q.1) {first p : Nat × β} {i : Nat}
    (hfirst : L[0]? = some first) (hp : L[i]? = some p) :
    p.1 = first.1 + i ↔ ∀ n, first.1 ≤ n → n ≤ p.1 → ∃ q ∈ L, q.1 = n := by
  constructor
  · intro heq n hlow hhigh
    obtain ⟨hi, -⟩ := List.getElem?_eq_some_iff.mp hp
    have hj : n - first.1 < L.length := by omega
    have hget : L[n - first.1]? = some L[n - first.1] := List.getElem?_eq_getElem hj
    have hle := add_sub_le hL (Nat.zero_le _) hfirst hget
    have hle' := add_sub_le hL (show n - first.1 ≤ i by omega) hget hp
    exact ⟨_, List.getElem_mem hj, by omega⟩
  · intro hall
    -- A gap before a place leaves out the number behind the last one.
    have hsteps (j : Nat) (hji : j ≤ i) {q : Nat × β} (hq : L[j]? = some q) : q.1 = first.1 + j := by
      induction j generalizing q with
      | zero =>
        obtain rfl := Option.some.inj (hfirst.symm.trans hq)
        rfl
      | succ j ih =>
        obtain ⟨hj, rfl⟩ := List.getElem?_eq_some_iff.mp hq
        have hlt : j < L.length := Nat.lt_of_succ_lt hj
        have hprev : L[j]? = some L[j] := List.getElem?_eq_getElem hlt
        have heq := ih (by omega) hprev
        have hnext := add_sub_le hL (Nat.le_succ j) hprev hq
        have hend := add_sub_le hL hji hq hp
        by_contra hne
        obtain ⟨r, hr, hrn⟩ := hall (first.1 + j + 1) (by omega) (by omega)
        obtain ⟨k, hk⟩ := List.getElem?_of_mem hr
        rcases Nat.lt_or_ge j k with hjk | hkj
        · have hle := add_sub_le hL (show j + 1 ≤ k by omega) hq hk
          omega
        · have hle := add_sub_le hL hkj hk hprev
          omega
    exact hsteps i (Nat.le_refl i) hp

/-- Counting on from the first number gives the right pairs only where there is no gap before a
pair. -/
theorem counted_iff {ι : Type} (hL : L.Pairwise fun p q => p.1 < q.1) {first : Nat × β}
    (hfirst : L[0]? = some first) (P : β → ι → Prop) :
    (∀ (a : ι) (n : Nat), (∃ (i : Nat) (p : Nat × β), L[i]? = some p ∧ P p.2 a ∧ n = first.1 + i) ↔
        ∃ p ∈ L, P p.2 a ∧ n = p.1) ↔
      ∀ p ∈ L, (∃ a, P p.2 a) → ∀ n, first.1 ≤ n → n ≤ p.1 → ∃ q ∈ L, q.1 = n := by
  constructor
  · intro h
    have hexact (k : Nat) {i : Nat} {p : Nat × β} (hk : L.length - i = k) (hp : L[i]? = some p)
        (ha : ∃ a, P p.2 a) : p.1 = first.1 + i := by
      induction k using Nat.strong_induction_on generalizing i p with
      | h k ih =>
        obtain ⟨a, ha⟩ := ha
        obtain ⟨j, q, hq, hqa, heq⟩ := (h a p.1).mpr ⟨p, List.mem_of_getElem? hp, ha, rfl⟩
        obtain ⟨hj, -⟩ := List.getElem?_eq_some_iff.mp hq
        have hlow := add_sub_le hL (Nat.zero_le i) hfirst hp
        rcases Nat.eq_or_lt_of_le (show i ≤ j by omega) with rfl | hlt
        · exact heq
        · have hq' := ih (L.length - j) (by omega) rfl hq ⟨a, hqa⟩
          have hless := add_sub_le hL (Nat.le_of_lt hlt) hp hq
          omega
    intro p hp ha
    obtain ⟨i, hi⟩ := List.getElem?_of_mem hp
    exact (eq_add_iff hL hfirst hi).mp (hexact _ rfl hi ha)
  · intro h a n
    constructor
    · rintro ⟨i, p, hp, ha, rfl⟩
      have hmem := List.mem_of_getElem? hp
      exact ⟨p, hmem, ha, ((eq_add_iff hL hfirst hp).mpr (h p hmem ⟨a, ha⟩)).symm⟩
    · rintro ⟨p, hp, ha, rfl⟩
      obtain ⟨i, hi⟩ := List.getElem?_of_mem hp
      exact ⟨i, p, hi, ha, (eq_add_iff hL hfirst hi).mpr (h p hp ⟨a, ha⟩)⟩

end

/-! ## The references -/

theorem outsideFrom_le {b : OpenBlocks} {lineno : Nat} {lines : List (List Char)}
    {p : Nat × List Char} (h : p ∈ outsideFrom u b lineno lines) : lineno ≤ p.1 ∧ p.2 ∈ lines := by
  induction lines generalizing b lineno with
  | nil => cases h
  | cons line lines ih =>
    rw [outsideFrom] at h
    rcases List.mem_append.mp h with h | h
    · split_ifs at h
      · cases h
      · obtain rfl := List.mem_singleton.mp h
        exact ⟨Nat.le_refl _, List.mem_cons_self⟩
    · obtain ⟨hle, hmem⟩ := ih h
      exact ⟨Nat.le_of_succ_le hle, List.mem_cons_of_mem _ hmem⟩

theorem outsideFrom_pairwise (b : OpenBlocks) (lineno : Nat) (lines : List (List Char)) :
    (outsideFrom u b lineno lines).Pairwise fun p q => p.1 < q.1 := by
  induction lines generalizing b lineno with
  | nil => exact List.Pairwise.nil
  | cons line lines ih =>
    rw [outsideFrom, List.pairwise_append]
    refine ⟨?_, ih _ _, fun p hp q hq => ?_⟩
    · split_ifs
      · exact List.Pairwise.nil
      · exact List.pairwise_singleton _ _
    · split_ifs at hp
      · cases hp
      · obtain rfl := List.mem_singleton.mp hp
        exact (outsideFrom_le hq).1

/-- The identifier and the line of a reference, as its properties hold them. -/
def EdgeData.citation (e : EdgeData) : Option String × Option String :=
  (e.properties.lookup "cited_id", e.properties.lookup "line")

def citationOf (id : List Char) (lineno : Nat) : Option String × Option String :=
  (some (String.ofList id), some (toString lineno))

theorem citationOf_inj {id id' : List Char} {n n' : Nat} (h : citationOf id n = citationOf id' n') :
    id = id' ∧ n = n' := by
  obtain ⟨hid, hn⟩ := Prod.mk.inj h
  have hid' := congrArg String.toList (Option.some.inj hid)
  have hn' := congrArg String.toList (Option.some.inj hn)
  refine ⟨by simpa using hid', toDigits_injective ?_⟩
  simpa [toString, Nat.repr] using hn'

theorem citation_citesEdge (d : DocContext) (r : ResolvedReference) :
    (citesEdge u d r).citation = citationOf r.idText.toList r.lineInSource := by
  have hid : (citesEdge u d r).properties.lookup "cited_id" = some r.idText := rfl
  have hline : (citesEdge u d r).properties.lookup "line" = some (toString r.lineInSource) := rfl
  rw [EdgeData.citation, hid, hline, citationOf, String.ofList_toList]

/-- The references are counted on from the number of the first line outside blocks. -/
theorem mem_citations_iff (d : DocContext) (content : List Char) {first : Nat × List Char}
    (hfirst : (outsideLines u content)[0]? = some first) (c : Option String × Option String) :
    c ∈ (parseMarkdown u d content).references.map EdgeData.citation ↔
      ∃ (i : Nat) (p : Nat × List Char) (id : List Char), (outsideLines u content)[i]? = some p ∧
        Mentions u p.2 id ∧ c = citationOf id (first.1 + i) := by
  have hbuffer := buffer_eq (u := u) d {} 1 (splitlines content)
  have hcitation (r : ResolvedReference) :
      (citesEdge u d r).citation = citationOf r.key.1.toList r.key.2 := citation_citesEdge d r
  have hpos : 1 ≤ first.1 := (outsideFrom_le (List.mem_of_getElem? hfirst)).1
  generalize htexts : ((outsideLines u content).map fun p => (p.1, inlineText p.2)).map Prod.snd =
    texts
  have hget (i : Nat) (line : List Char) : texts[i]? = some line ↔
      ∃ p, (outsideLines u content)[i]? = some p ∧ inlineText p.2 = line := by
    rw [← htexts, List.map_map, List.getElem?_map, Option.map_eq_some_iff]
    rfl
  have hnewline : ∀ line ∈ texts, '\n' ∉ line := by
    intro line hline hmem
    obtain ⟨i, hi⟩ := List.getElem?_of_mem hline
    obtain ⟨p, hp, rfl⟩ := (hget i line).mp hi
    have hin := (outsideFrom_le (List.mem_of_getElem? hp)).2
    have hbreak := (mem_of_mem_splitlines hin (mem_of_mem_inlineText hmem)).2
    exact absurd hbreak (by decide)
  have hrefs : (parseMarkdown u d content).references =
      (extractReferences u (['\n'].intercalate texts) (first.1 - 1)).map (citesEdge u d) := by
    show referencesFromBuffer u d (walkLines u d false false 1 (splitlines content)).buffer = _
    rw [hbuffer, ← outsideLines, ← htexts]
    cases h : outsideLines u content with
    | nil =>
      rw [h] at hfirst
      cases hfirst
    | cons p rest =>
      rw [h] at hfirst
      obtain rfl := Option.some.inj hfirst
      rfl
  rw [hrefs, List.map_map, List.mem_map]
  constructor
  · rintro ⟨r, hr, rfl⟩
    obtain ⟨i, line, id, hi, hword, hkey⟩ :=
      (mem_extractReferences hnewline _ r.key).mp (List.mem_map_of_mem hr)
    obtain ⟨p, hp, rfl⟩ := (hget i line).mp hi
    rw [words_inlineText, mem_words_iff_mentions] at hword
    refine ⟨i, p, id, hp, hword, ?_⟩
    have hline : 1 + i + (first.1 - 1) = first.1 + i := by omega
    rw [Function.comp_apply, hcitation, hkey, String.toList_ofList, hline]
  · rintro ⟨i, p, id, hp, hid, rfl⟩
    have hword : id ∈ (spineId u).words (inlineText p.2) := by
      rw [words_inlineText, mem_words_iff_mentions]
      exact hid
    have hmem := (mem_extractReferences hnewline (first.1 - 1) _).mpr
      ⟨i, _, id, (hget i _).mpr ⟨p, hp, rfl⟩, hword, rfl⟩
    obtain ⟨r, hr, hkey⟩ := List.mem_map.mp hmem
    have hline : 1 + i + (first.1 - 1) = first.1 + i := by omega
    refine ⟨r, hr, ?_⟩
    rw [Function.comp_apply, hcitation, hkey, String.toList_ofList, hline]

theorem citations_nodup (d : DocContext) (content : List Char) :
    ((parseMarkdown u d content).references.map EdgeData.citation).Nodup := by
  have hcitation (r : ResolvedReference) :
      (citesEdge u d r).citation = citationOf r.key.1.toList r.key.2 := citation_citesEdge d r
  have hinj : Function.Injective fun key : String × Nat => citationOf key.1.toList key.2 := by
    intro key key' h
    obtain ⟨hid, hn⟩ := citationOf_inj h
    exact Prod.ext (String.toList_inj.mp hid) hn
  have hnodup (text : List Char) (lineOffset : Nat) :
      (((extractReferences u text lineOffset).map (citesEdge u d)).map EdgeData.citation).Nodup := by
    have hkeys : ((extractReferences u text lineOffset).map ResolvedReference.key).Nodup :=
      nodup_extractReferences text lineOffset
    have hmapped := hkeys.map hinj
    have hfun : EdgeData.citation ∘ citesEdge u d =
        (fun key : String × Nat => citationOf key.1.toList key.2) ∘ ResolvedReference.key :=
      funext hcitation
    rw [List.map_map] at hmapped ⊢
    rw [hfun]
    exact hmapped
  unfold parseMarkdown referencesFromBuffer
  dsimp only
  split
  · exact List.nodup_nil
  · exact hnodup _ _

variable (u)

/-- The references are the identifiers that occur on lines outside blocks, with the numbers of the
lines, each once. -/
def ReferencesExact (d : DocContext) (content : List Char) : Prop :=
  ((parseMarkdown u d content).references.map EdgeData.citation).Nodup ∧
    ∀ c, c ∈ (parseMarkdown u d content).references.map EdgeData.citation ↔
      ∃ p ∈ outsideLines u content, ∃ id, Mentions u p.2 id ∧ c = citationOf id p.1

/-- From the first line outside blocks on, no line of a block comes before a line outside blocks on
which an identifier occurs. -/
def Unbroken (content : List Char) : Prop :=
  ∀ first ∈ (outsideLines u content).head?, ∀ p ∈ outsideLines u content,
    (∃ id, Mentions u p.2 id) →
      ∀ n, first.1 ≤ n → n ≤ p.1 → ∃ q ∈ outsideLines u content, q.1 = n

/-- The references of a document are exact where no block breaks the numbering of the lines. -/
theorem references_exact_iff (d : DocContext) (content : List Char) :
    ReferencesExact u d content ↔ Unbroken u content := by
  have hnodup := citations_nodup (u := u) d content
  cases hhead : (outsideLines u content)[0]? with
  | none =>
    have hnil : outsideLines u content = [] := List.length_eq_zero_iff.mp
      (Nat.le_zero.mp (List.getElem?_eq_none_iff.mp hhead))
    have hbuffer : (walkLines u d false false 1 (splitlines content)).buffer = [] := by
      have hmap := buffer_eq (u := u) d {} 1 (splitlines content)
      rw [← outsideLines, hnil] at hmap
      exact hmap
    have hrefs : (parseMarkdown u d content).references = [] := by
      show referencesFromBuffer u d (walkLines u d false false 1 (splitlines content)).buffer = []
      rw [hbuffer]
      rfl
    simp [ReferencesExact, Unbroken, hrefs, hnil]
  | some first =>
    have hfirst : (outsideLines u content).head? = some first := by
      rw [List.head?_eq_getElem?, hhead]
    have hcounted := counted_iff (outsideFrom_pairwise {} 1 (splitlines content)) hhead
      (Mentions u)
    rw [← outsideLines] at hcounted
    have hunbroken : Unbroken u content ↔ ∀ p ∈ outsideLines u content,
        (∃ id, Mentions u p.2 id) →
          ∀ n, first.1 ≤ n → n ≤ p.1 → ∃ q ∈ outsideLines u content, q.1 = n := by
      unfold Unbroken
      rw [hfirst]
      exact ⟨fun h => h first rfl, fun h q hq => Option.some.inj hq ▸ h⟩
    rw [hunbroken, ← hcounted, ReferencesExact, and_iff_right hnodup]
    constructor
    · intro h id n
      have hc := h (citationOf id n)
      rw [mem_citations_iff d content hhead] at hc
      constructor
      · rintro ⟨i, p, hp, hid, rfl⟩
        obtain ⟨q, hq, id', hid', heq⟩ := hc.mp ⟨i, p, id, hp, hid, rfl⟩
        obtain ⟨rfl, hn⟩ := citationOf_inj heq
        exact ⟨q, hq, hid', hn⟩
      · rintro ⟨p, hp, hid, rfl⟩
        obtain ⟨i, q, id', hq, hid', heq⟩ := hc.mpr ⟨p, hp, id, hid, rfl⟩
        obtain ⟨rfl, hn⟩ := citationOf_inj heq
        exact ⟨i, q, hq, hid', hn⟩
    · intro h c
      rw [mem_citations_iff d content hhead]
      constructor
      · rintro ⟨i, p, id, hp, hid, rfl⟩
        obtain ⟨q, hq, hid', hn⟩ := (h id _).mp ⟨i, p, hp, hid, rfl⟩
        exact ⟨q, hq, id, hid', by rw [hn]⟩
      · rintro ⟨p, hp, id, hid, rfl⟩
        obtain ⟨i, q, hq, hid', hn⟩ := (h id p.1).mpr ⟨p, hp, hid, rfl⟩
        exact ⟨i, q, id, hq, hid', by rw [hn]⟩

/-! ## A block between two references -/

theorem asciiWord_range {c : Char} (h : asciiWord c = true) : 48 ≤ c.toNat ∧ c.toNat ≤ 122 := by
  have hclasses : (((decide ('A'.val ≤ c.val ∧ c.val ≤ 'Z'.val) ||
      (decide ('a'.val ≤ c.val) && decide (c.val ≤ 'z'.val))) ||
      (decide ('0'.val ≤ c.val) && decide (c.val ≤ '9'.val))) || c == '_') = true := h
  simp only [Bool.or_eq_true, Bool.and_eq_true, decide_eq_true_iff, beq_iff_eq,
    UInt32.le_iff_toNat_le] at hclasses
  rcases hclasses with ((h | h) | h) | rfl
  · exact ⟨Nat.le_trans (by decide) h.1, Nat.le_trans h.2 (by decide)⟩
  · exact ⟨Nat.le_trans (by decide) h.1, Nat.le_trans h.2 (by decide)⟩
  · exact ⟨Nat.le_trans (by decide) h.1, Nat.le_trans h.2 (by decide)⟩
  · decide

theorem asciiWord_of_pySpace {c : Char} (h : pySpace c = true) : asciiWord c = false := by
  by_contra hword
  obtain ⟨hlow, hhigh⟩ := asciiWord_range (by simpa using hword)
  simp only [pySpace, whiteSpace, Bool.or_eq_true, decide_eq_true_iff, List.contains_iff_mem,
    List.mem_cons, List.not_mem_nil, or_false] at h
  omega

def asciiWords : WordTables where
  toTextTables := Build.asciiText
  word_of_digit := fun c h => by
    have halnum : c.isAlphanum = true := by simp [Char.isAlphanum, show c.isDigit = true from h]
    show (c.isAlphanum || c == '_') = true
    rw [halnum, Bool.true_or]
  word_of_space := fun c h => asciiWord_of_pySpace h

def fencedText : List Char := "FR-1\n```\n```\nFR-2".toList

theorem outsideLines_fencedText :
    outsideLines asciiWords fencedText = [(1, "FR-1".toList), (4, "FR-2".toList)] := by
  decide +kernel

theorem mentions_fencedText : Mentions asciiWords "FR-2".toList "FR-2".toList :=
  (mem_words_iff_mentions _ _).mp (by decide +kernel)

/-- The reference of the fourth line is reported for the second. -/
theorem fenced_reference_misnumbered :
    ¬ ∀ (u : WordTables) (d : DocContext) (content : List Char), ReferencesExact u d content := by
  intro h
  obtain ⟨-, hexact⟩ := h asciiWords ⟨"spine", "doc.md", none⟩ fencedText
  have houtside : (4, "FR-2".toList) ∈ outsideLines asciiWords fencedText := by
    rw [outsideLines_fencedText]
    exact List.mem_cons_of_mem _ List.mem_cons_self
  have hmem := (hexact (citationOf "FR-2".toList 4)).mpr ⟨_, houtside, _, mentions_fencedText, rfl⟩
  have hfirst : (outsideLines asciiWords fencedText)[0]? = some (1, "FR-1".toList) := by
    rw [outsideLines_fencedText]
    rfl
  obtain ⟨i, p, id, hp, -, heq⟩ := (mem_citations_iff _ _ hfirst _).mp hmem
  obtain ⟨hi, -⟩ := List.getElem?_eq_some_iff.mp hp
  rw [outsideLines_fencedText] at hi
  have hn := (citationOf_inj heq).2
  dsimp only at hn
  have htwo : i < 2 := hi
  omega

end SpineFormal.Kg
