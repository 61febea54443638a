import SpineFormal.Base.FirstFit
import SpineFormal.Base.UniqueBy
import SpineFormal.Json.Quotes
import SpineFormal.Json.Loads
import SpineFormal.Orchestrator.VerifyDispatcher

/-!
# The body of a remediation directive

`_summarize_findings` of `remediation.sh` with `jq` on the path: a line for each (file, rule)
pair while the limit lasts. The lines are listed in the order of the pairs, since
`unique_by` sorts once more after the findings were sorted by severity. The note on what was
left out asks the array of lines for `.kept`, so as soon as a line does not fit the filter
fails, and the shell prints the beginning of the document it was given.
-/

namespace SpineFormal.Orchestrator.Remediation

open Json Numerals
set_option autoImplicit false

/-! ## The filter -/

/-- `if v then true else false`. -/
def jqTruthy : Value → Bool
  | .null => false
  | .bool b => b
  | _ => true

/-- `v // w`. -/
def jqOr (v w : Value) : Value := if jqTruthy v then v else w

/-- `.[]`. -/
def jqIter : Value → Option (List Value)
  | .arr xs => some xs
  | .obj ms => some (ms.map Prod.snd)
  | _ => none

/-- A field with a default, where only a string can be used; `none` stops the filter. -/
def jqText (v : Value) : Option (Option String) :=
  match jqOr v .null with
  | .null => some none
  | .str s => some (some s)
  | _ => none

def asciiDowncase (s : String) : String := String.ofList (s.toList.map Char.toLower)

def asciiUpcase (s : String) : String := String.ofList (s.toList.map Char.toUpper)

def sevRank (sev : String) : Nat :=
  if sev = "critical" then 0
  else if sev = "high" then 1
  else if sev = "medium" then 2
  else if sev = "low" then 3
  else 4

/-- An element with its `_sev`. The message is read when its line is made. -/
structure Finding where
  sev : String
  severity : String
  file : Option String
  line : Value
  rule : Option String
  message : Value
  fixHint : Value

/-- `. + {_sev: (.severity // "low" | ascii_downcase)}`. A file or rule that is no string
stops the filter in the line of its pair, whichever finding stands for the pair. -/
def readFinding (v : Value) : Option Finding := do
  let severity ← jqText (← jqField "severity" v)
  let file ← jqText (← jqField "file" v)
  let rule ← jqText (← jqField "rule" v)
  some {
    sev := asciiDowncase (severity.getD "low")
    severity := severity.getD "low"
    file := file
    line := ← jqField "line" v
    rule := rule
    message := ← jqField "message" v
    fixHint := ← jqField "fix_hint" v }

def Finding.rank (f : Finding) : Nat := sevRank f.sev

/-- `[(.file // ""), (.rule // "")]`. -/
def Finding.pair (f : Finding) : List String := [f.file.getD "", f.rule.getD ""]

/-- `sort_by(._sev | sev_rank) | unique_by([(.file // ""), (.rule // "")])`. -/
def sortedUnique (findings : List Finding) : List Finding :=
  uniqueBy Finding.pair (sortBy Finding.rank findings)

/-- The note for a number of findings left out. -/
def omittedNote (n : Int) : List Char :=
  "(+".toList ++ decimal n ++ " more finding(s) omitted)\n".toList

/-- `"(+\($all | length - .kept) more finding(s) omitted)\n"`: behind the pipe `.` is the array. -/
def omittedTail (all : List (List Char)) : Option (List Char) :=
  match jqField "kept" (.arr (all.map fun l => .str (String.ofList l))) with
  | some (.int kept) => some (omittedNote (all.length - kept))
  | _ => none

structure Accumulated where
  acc : List Char
  n : Nat
  kept : Nat

/-- One step of the `reduce`. -/
def takeLine (limit : Nat) (t : Accumulated) (l : List Char) : Accumulated :=
  if t.acc.length + l.length + 1 ≤ limit then ⟨t.acc ++ l ++ ['\n'], t.n + 1, t.kept + 1⟩
  else ⟨t.acc, t.n + 1, t.kept⟩

section
variable (tojson : Value → List Char)

/-- `"\(v)"`; what is no string is printed as JSON. -/
def interpolate : Value → List Char
  | .str s => s.toList
  | v => tojson v

def Finding.text (f : Finding) : Option (List Char) :=
  (jqText f.message).map fun message =>
    "[".toList ++ (asciiUpcase f.severity).toList ++ "] ".toList ++
      (f.file.getD "<unknown>").toList ++
      (if jqTruthy f.line then ":".toList ++ interpolate tojson f.line else []) ++
      "  ".toList ++ (f.rule.getD "no-rule").toList ++
      " — ".toList ++ (message.getD "(no message)").toList ++
      (if jqTruthy f.fixHint then "  | fix: ".toList ++ interpolate tojson f.fixHint else [])

def accumulate (limit : Nat) (all : List (List Char)) : Accumulated :=
  all.foldl (takeLine limit) ⟨[], 0, 0⟩

/-- The program, on one document. -/
def summaryFilter (limit : Nat) (doc : Value) : Option (List Char) := do
  let findings ← (← jqIter (jqOr doc (.arr []))).mapM readFinding
  let all ← (sortedUnique findings).mapM (Finding.text tojson)
  let t := accumulate limit all
  if all.length > t.kept then (omittedTail all).map fun tail => t.acc ++ tail
  else some t.acc

/-- What `_summarize_findings findings_json max_chars` prints, for an argument that is one
document. -/
def summarizeFindings (findingsJson : List Char) (maxChars : Nat) : List Char :=
  if findingsJson = [] ∨ findingsJson = "null".toList then "No findings supplied.\n".toList
  else
    match (loadsText findingsJson).bind (summaryFilter tojson maxChars) with
    | some body => body ++ ['\n']
    | none => findingsJson.take maxChars ++ ['\n']

/-! ## What the body is to be -/

/-- The characters a line takes with its newline. -/
def Finding.cost (f : Finding) : Nat := ((f.text tojson).getD []).length + 1

/-- The findings whose lines the `reduce` takes. -/
def keptFindings (limit : Nat) (findings : List Finding) : List Finding :=
  firstFit (Finding.cost tojson) limit 0 (sortedUnique findings)

/-- The number of pairs among the findings. -/
def pairCount (findings : List Finding) : Nat := (findings.map Finding.pair).dedup.length

/-- A body that is made of the lines of `kept`, with the note where a pair has none. The
newlines at the end are those `$(...)` drops. -/
structure Summarizes (findings kept : List Finding) (body : List Char) : Prop where
  onePerPair : (kept.map Finding.pair).Nodup
  worst : ∀ k ∈ kept, k ∈ findings ∧ ∀ f ∈ findings, f.pair = k.pair → k.rank ≤ f.rank
  ordered : kept.Pairwise fun k l => k.rank ≤ l.rank
  noneSkipped : ∀ f ∈ findings, f.pair ∉ kept.map Finding.pair → ∀ k ∈ kept, k.rank ≤ f.rank
  listed : ∃ lines newlines, kept.mapM (Finding.text tojson) = some lines ∧
    body = lines.flatMap (· ++ ['\n']) ++
      (if kept.length < pairCount findings then omittedNote (pairCount findings - kept.length)
        else []) ++ List.replicate newlines '\n'

/-! ## The loop -/

theorem foldl_takeLine (limit : Nat) (all : List (List Char)) (t : Accumulated) :
    all.foldl (takeLine limit) t =
      ⟨t.acc ++ (firstFit (fun l => l.length + 1) limit t.acc.length all).flatMap (· ++ ['\n']),
        t.n + all.length,
        t.kept + (firstFit (fun l => l.length + 1) limit t.acc.length all).length⟩ := by
  induction all generalizing t with
  | nil => simp [firstFit]
  | cons l all ih =>
    have hlen : (t.acc ++ l ++ ['\n']).length = t.acc.length + l.length + 1 := by
      simp only [List.length_append, List.length_singleton]
    rw [List.foldl_cons, ih, takeLine, firstFit, ← Nat.add_assoc, List.length_cons]
    by_cases hl : t.acc.length + l.length + 1 ≤ limit
    · rw [if_pos hl, if_pos hl, hlen, List.flatMap_cons, List.length_cons]
      simp only [List.append_assoc, Accumulated.mk.injEq, true_and]
      omega
    · rw [if_neg hl, if_neg hl]
      simp only [Accumulated.mk.injEq, true_and, and_true]
      omega

theorem accumulate_eq (limit : Nat) (all : List (List Char)) :
    accumulate limit all =
      ⟨(firstFit (fun l => l.length + 1) limit 0 all).flatMap (· ++ ['\n']), all.length,
        (firstFit (fun l => l.length + 1) limit 0 all).length⟩ := by
  rw [accumulate, foldl_takeLine]
  simp

/-- There is no `.kept` in an array. -/
theorem omittedTail_eq_none (all : List (List Char)) : omittedTail all = none := rfl

/-! ## One finding for each pair -/

/-- The earliest of the most severe findings of each pair, as the pairs come up. -/
def worstOfPairs (findings : List Finding) : List Finding :=
  bestOf Finding.pair (fun f g => f.rank < g.rank) findings

theorem sortedUnique_perm (findings : List Finding) :
    (sortedUnique findings).Perm (worstOfPairs findings) := by
  have h := uniqueBy_sortBy_perm Finding.pair Finding.rank findings
  rw [sortedUnique, worstOfPairs]
  convert h

theorem mem_of_mem_sortedUnique {findings : List Finding} {f : Finding}
    (h : f ∈ sortedUnique findings) : f ∈ findings :=
  (mem_sortBy Finding.rank).mp (mem_of_mem_uniqueBy h)

theorem sortedUnique_nodup (findings : List Finding) :
    ((sortedUnique findings).map Finding.pair).Nodup := by
  rw [List.Nodup, List.pairwise_map]
  exact (uniqueBy_pairwise _).imp fun h => h.ne

theorem length_sortedUnique (findings : List Finding) :
    (sortedUnique findings).length = pairCount findings := by
  rw [pairCount, ← List.length_map Finding.pair]
  apply List.Perm.length_eq
  rw [List.perm_ext_iff_of_nodup (sortedUnique_nodup findings) (List.nodup_dedup _)]
  intro p
  rw [List.mem_dedup, List.mem_map, List.mem_map]
  constructor
  · rintro ⟨f, hf, rfl⟩
    exact ⟨f, mem_of_mem_sortedUnique hf, rfl⟩
  · rintro ⟨f, hf, rfl⟩
    exact exists_mem_uniqueBy ((mem_sortBy Finding.rank).mpr hf)

theorem mapM_text {findings : List Finding} (h : ∀ f ∈ findings, (jqText f.message).isSome = true) :
    findings.mapM (Finding.text tojson) = some (findings.map fun f => (f.text tojson).getD []) := by
  rw [mapM_eq_some_iff, List.map_map]
  apply List.map_congr_left
  intro f hf
  have hsome : (f.text tojson).isSome = true := by
    rw [Finding.text, Option.isSome_map]
    exact h f hf
  obtain ⟨l, hl⟩ := Option.isSome_iff_exists.mp hsome
  rw [Function.comp_apply, hl]
  rfl

/-! ## What is printed -/

section
variable {tojson} {raw : List Char} {docs : List Value} {findings : List Finding} {limit : Nat}

theorem summarizeFindings_eq (hraw : loadsText raw = some (.arr docs))
    (hfindings : docs.mapM readFinding = some findings)
    (htext : ∀ f ∈ findings, (jqText f.message).isSome = true) :
    summarizeFindings tojson raw limit =
      if ((worstOfPairs findings).map (Finding.cost tojson)).sum ≤ limit then
        (sortedUnique findings).flatMap (fun f => (f.text tojson).getD [] ++ ['\n']) ++ ['\n']
      else raw.take limit ++ ['\n'] := by
  have hneither : ¬ (raw = [] ∨ raw = "null".toList) := by
    rintro (rfl | rfl)
    · cases hraw
    · have hnull : loadsText "null".toList = some .null := rfl
      rw [hnull] at hraw
      cases hraw
  have hall := mapM_text tojson fun f hf => htext f (mem_of_mem_sortedUnique hf)
  have hsum := ((sortedUnique_perm findings).map (Finding.cost tojson)).sum_eq
  have hmap : firstFit (fun l => l.length + 1) limit 0
      ((sortedUnique findings).map fun f => (f.text tojson).getD []) =
        (keptFindings tojson limit findings).map fun f => (f.text tojson).getD [] := firstFit_map ..
  have hfilter : summaryFilter tojson limit (.arr docs) =
      if (sortedUnique findings).length > (keptFindings tojson limit findings).length then none
      else some ((keptFindings tojson limit findings).flatMap
        fun f => (f.text tojson).getD [] ++ ['\n']) := by
    have hiter : jqIter (jqOr (.arr docs) (.arr [])) = some docs := rfl
    rw [summaryFilter, hiter]
    simp only [Option.bind_eq_bind, Option.bind_some, hfindings, hall, accumulate_eq, hmap,
      List.length_map, omittedTail_eq_none, Option.map_none, List.flatMap_map]
  rw [summarizeFindings, if_neg hneither, hraw, Option.bind_some, hfilter]
  by_cases hfits : ((worstOfPairs findings).map (Finding.cost tojson)).sum ≤ limit
  · have hkept : keptFindings tojson limit findings = sortedUnique findings := by
      rw [keptFindings, firstFit_eq_self_iff (Nat.zero_le limit), Nat.zero_add, hsum]
      exact hfits
    rw [if_pos hfits, hkept, if_neg (Nat.lt_irrefl _)]
  · have hless : (keptFindings tojson limit findings).length < (sortedUnique findings).length := by
      rw [keptFindings, length_firstFit_lt_iff (Nat.zero_le limit), Nat.zero_add, hsum]
      exact Nat.lt_of_not_le hfits
    rw [if_neg hfits, if_pos hless]

/-- In a truncated document a parenthesis does not begin a line. -/
theorem truncated_paren {v : Value} (h : loads raw = some v) {p q : List Char}
    (heq : raw.take limit ++ ['\n'] = p ++ '(' :: q) : ∃ d x, p = d ++ [x] ∧ 0x20 ≤ x.toNat := by
  have hforeign : '(' ∉ tokenChars := by decide
  rcases List.eq_nil_or_concat q with rfl | ⟨q, x, rfl⟩
  · have hlast := (List.append_inj' heq rfl).2
    exact absurd (List.head_eq_of_cons_eq hlast) (by decide)
  · rw [List.concat_eq_append, ← List.cons_append, ← List.append_assoc] at heq
    have htake := (List.append_inj' heq rfl).1
    apply loads_foreign h hforeign (b := q ++ raw.drop limit)
    rw [← List.cons_append, ← List.append_assoc, ← htake, List.take_append_drop]

theorem flatMap_newline_last {lines : List (List Char)} {d : List Char} {x : Char}
    (h : lines.flatMap (· ++ ['\n']) = d ++ [x]) : x = '\n' := by
  rcases List.eq_nil_or_concat lines with rfl | ⟨ls, l, rfl⟩
  · rw [List.flatMap_nil] at h
    exact absurd h.symm (List.append_ne_nil_of_right_ne_nil d (List.cons_ne_nil x []))
  · rw [List.concat_eq_append, List.flatMap_append, List.flatMap_singleton, ← List.append_assoc] at h
    exact (List.head_eq_of_cons_eq (List.append_inj' h rfl).2).symm

/-- The truncated document is no summary that leaves something out. -/
theorem truncated_ne (h : loadsText raw = some (.arr docs)) (lines : List (List Char)) (n : Int)
    (newlines : Nat) : raw.take limit ++ ['\n'] ≠
      lines.flatMap (· ++ ['\n']) ++ omittedNote n ++ List.replicate newlines '\n' := by
  intro heq
  obtain ⟨v, hv, -⟩ := Option.map_eq_some_iff.mp h
  obtain ⟨rest, hrest⟩ : ∃ rest, omittedNote n = '(' :: rest := ⟨_, rfl⟩
  rw [hrest, List.append_assoc, List.cons_append] at heq
  obtain ⟨d, x, hd, hx⟩ := truncated_paren hv heq
  rw [flatMap_newline_last hd] at hx
  exact absurd hx (by decide)

/-! ## When the body is a summary -/

theorem sortedUnique_ordered_iff :
    (sortedUnique findings).Pairwise (fun f g => f.rank ≤ g.rank) ↔
      ∀ f ∈ worstOfPairs findings, ∀ g ∈ worstOfPairs findings, f.pair < g.pair → f.rank ≤ g.rank := by
  have hmem := fun f => (sortedUnique_perm findings).mem_iff (a := f)
  have hlt : (sortedUnique findings).Pairwise fun f g => f.pair < g.pair := uniqueBy_pairwise _
  constructor
  · intro hranks f hf g hg hpair
    have hne : f ≠ g := by
      rintro rfl
      exact lt_irrefl _ hpair
    obtain ⟨i, hi, rfl⟩ := List.mem_iff_getElem.mp ((hmem f).mpr hf)
    obtain ⟨j, hj, rfl⟩ := List.mem_iff_getElem.mp ((hmem g).mpr hg)
    rcases lt_trichotomy i j with hij | rfl | hij
    · exact List.pairwise_iff_getElem.mp hranks i j hi hj hij
    · exact absurd rfl hne
    · exact absurd hpair (List.pairwise_iff_getElem.mp hlt j i hj hi hij).asymm
  · intro h
    apply hlt.imp_of_mem
    intro f g hf hg hpair
    exact h f ((hmem f).mp hf) g ((hmem g).mp hg) hpair

theorem summarizes_of_fits (hraw : loadsText raw = some (.arr docs))
    (hfindings : docs.mapM readFinding = some findings)
    (htext : ∀ f ∈ findings, (jqText f.message).isSome = true)
    (hfits : ((worstOfPairs findings).map (Finding.cost tojson)).sum ≤ limit) :
    Summarizes tojson findings (keptFindings tojson limit findings)
        (summarizeFindings tojson raw limit) ↔
      (sortedUnique findings).Pairwise fun f g => f.rank ≤ g.rank := by
  have hkept : keptFindings tojson limit findings = sortedUnique findings := by
    rw [keptFindings, firstFit_eq_self_iff (Nat.zero_le limit), Nat.zero_add,
      ((sortedUnique_perm findings).map (Finding.cost tojson)).sum_eq]
    exact hfits
  rw [hkept, summarizeFindings_eq hraw hfindings htext, if_pos hfits]
  constructor
  · exact Summarizes.ordered
  · intro hordered
    refine ⟨sortedUnique_nodup findings, ?_, hordered, ?_, ?_⟩
    · intro k hk
      refine ⟨mem_of_mem_sortedUnique hk, fun f hf hpair => ?_⟩
      exact rank_le_of_mem_uniqueBy hk hf hpair
    · intro f hf hnot
      obtain ⟨g, hg, hpair⟩ : ∃ g ∈ sortedUnique findings, g.pair = f.pair :=
        exists_mem_uniqueBy ((mem_sortBy Finding.rank).mpr hf)
      exact absurd (List.mem_map.mpr ⟨g, hg, hpair⟩) hnot
    · refine ⟨_, 1, mapM_text tojson fun f hf => htext f (mem_of_mem_sortedUnique hf), ?_⟩
      rw [length_sortedUnique, if_neg (Nat.lt_irrefl _), List.append_nil, List.flatMap_map]
      rfl

theorem not_summarizes_of_limit (hraw : loadsText raw = some (.arr docs))
    (hfindings : docs.mapM readFinding = some findings)
    (htext : ∀ f ∈ findings, (jqText f.message).isSome = true)
    (hfits : ¬ ((worstOfPairs findings).map (Finding.cost tojson)).sum ≤ limit) :
    ¬ Summarizes tojson findings (keptFindings tojson limit findings)
      (summarizeFindings tojson raw limit) := by
  intro h
  obtain ⟨lines, newlines, -, hbody⟩ := h.listed
  have hless : (keptFindings tojson limit findings).length < pairCount findings := by
    rw [← length_sortedUnique, keptFindings, length_firstFit_lt_iff (Nat.zero_le limit),
      Nat.zero_add, ((sortedUnique_perm findings).map (Finding.cost tojson)).sum_eq]
    exact Nat.lt_of_not_le hfits
  rw [summarizeFindings_eq hraw hfindings htext, if_neg hfits, if_pos hless] at hbody
  exact truncated_ne hraw lines _ newlines hbody

/-- The body of an array of findings is the summary it is meant to be exactly when the lines
of the findings that stand for their pairs all fit, and no pair is more severe than one that
is before it in the order of the texts. -/
theorem body_summarizes_iff (tojson : Value → List Char) (raw : List Char) (docs : List Value)
    (findings : List Finding) (limit : Nat) (hraw : loadsText raw = some (.arr docs))
    (hfindings : docs.mapM readFinding = some findings)
    (htext : ∀ f ∈ findings, (jqText f.message).isSome = true) :
    Summarizes tojson findings (keptFindings tojson limit findings)
        (summarizeFindings tojson raw limit) ↔
      ((worstOfPairs findings).map (Finding.cost tojson)).sum ≤ limit ∧
        ∀ f ∈ worstOfPairs findings, ∀ g ∈ worstOfPairs findings,
          f.pair < g.pair → f.rank ≤ g.rank := by
  by_cases hfits : ((worstOfPairs findings).map (Finding.cost tojson)).sum ≤ limit
  · rw [summarizes_of_fits hraw hfindings htext hfits, sortedUnique_ordered_iff]
    exact (and_iff_right hfits).symm
  · constructor
    · intro h
      exact absurd h (not_summarizes_of_limit hraw hfindings htext hfits)
    · exact fun h => absurd h.1 hfits

end

def findingDoc (severity file message : String) : Value :=
  .obj [("severity", .str severity), ("file", .str file), ("rule", .str "R"),
    ("message", .str message)]

def sampleDocs : List Value :=
  [findingDoc "HIGH" "a" "m", .obj [("file", .str "b"), ("rule", .str "R")]]

def sampleFindings : List Finding :=
  [⟨"high", "HIGH", some "a", .null, some "R", .str "m", .null⟩,
    ⟨"low", "low", some "b", .null, some "R", .null, .null⟩]

theorem body_summarizes_iff_sample :
    Summarizes encode sampleFindings (keptFindings encode 100 sampleFindings)
      (summarizeFindings encode (encode (.arr sampleDocs)) 100) := by
  have hraw : loadsText (encode (.arr sampleDocs)) = some (.arr sampleDocs) := by
    rw [loadsText_encode]
    simp [sampleDocs, findingDoc, Value.dicts, dictsElems, dictsMembers, dictOf, dictSet]
  have htext : ∀ f ∈ sampleFindings, (jqText f.message).isSome = true :=
    List.forall_mem_cons.mpr ⟨rfl, List.forall_mem_singleton.mpr rfl⟩
  have hworst : worstOfPairs sampleFindings = sampleFindings := rfl
  have hfindings : sampleDocs.mapM readFinding = some sampleFindings := rfl
  refine (body_summarizes_iff encode _ _ _ 100 hraw hfindings htext).mpr ⟨by decide +kernel, ?_⟩
  rw [hworst]
  simp only [sampleFindings, List.forall_mem_cons]
  decide +kernel

/-- The low finding of `a.py` is listed before the critical one of `b.py`. -/
theorem critical_listed_last : ∃ findings, [findingDoc "critical" "b.py" "m",
      findingDoc "low" "a.py" "n"].mapM readFinding = some findings ∧
    ¬ Summarizes encode findings (keptFindings encode 1800 findings)
      (summarizeFindings encode (encode (.arr [findingDoc "critical" "b.py" "m",
        findingDoc "low" "a.py" "n"])) 1800) := by
  refine ⟨_, rfl, fun h => ?_⟩
  have hranks : (keptFindings encode 1800
      [⟨"critical", "critical", some "b.py", .null, some "R", .str "m", .null⟩,
        ⟨"low", "low", some "a.py", .null, some "R", .str "n", .null⟩]).map Finding.rank = [3, 0] := by
    decide +kernel
  have hordered : [3, 0].Pairwise (· ≤ ·) := hranks ▸ List.pairwise_map.mpr h.ordered
  revert hordered
  decide

end

end SpineFormal.Orchestrator.Remediation
