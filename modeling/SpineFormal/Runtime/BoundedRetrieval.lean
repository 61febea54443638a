import SpineFormal.Base.LineFile

/-!
# Bounded retrieval

`shared/runtime/bounded_retrieval.py`: a role that lacks context says so in the next
actions of its response, one line for each need. The runner resolves the needs, adds what
came of them to the seed and calls the role again, a bounded number of times.
-/

namespace SpineFormal.Runtime.Retrieval

set_option autoImplicit false

inductive NeedType where
  | kgNode
  | filePath
  | auditHash
  | projectMetadata
  | ledgerEntry
  deriving DecidableEq

def NeedType.text : NeedType → String
  | kgNode => "kg_node"
  | filePath => "file_path"
  | auditHash => "audit_hash"
  | projectMetadata => "project_metadata"
  | ledgerEntry => "ledger_entry"

def NeedType.ofText? (s : String) : Option NeedType :=
  [kgNode, filePath, auditHash, projectMetadata, ledgerEntry].find? fun t => t.text = s

structure Need where
  type : NeedType
  ref : String
  ref_ne : ref ≠ ""
  reason : Option String
  deriving DecidableEq

def strip (s : List Char) : String := String.ofList (trimBy pySpace s)

/-- `s.partition(sep)` where `sep` is in the text; otherwise the second part is empty. -/
def partition (sep : Char) (s : List Char) : List Char × List Char :=
  (s.takeWhile (· ≠ sep), (s.dropWhile (· ≠ sep)).drop 1)

/-- `NEED_PREFIX`. -/
def needMark : List Char := "need:".toList

/-- `Need.to_next_action`. -/
def Need.toNextAction (need : Need) : String :=
  let base := needMark ++ need.type.text.toList ++ ':' :: need.ref.toList
  match need.reason with
  | none => String.ofList base
  | some reason =>
    if reason = "" then String.ofList base else String.ofList (base ++ '|' :: reason.toList)

/-- `reason_part.strip() or None`. -/
def reasonOf (part : List Char) : Option String :=
  if strip part = "" then none else some (strip part)

/-- The type and the reference, with the reason that was split off before. -/
def needOf (refPart : List Char) (reason : Option String) : Option Need :=
  if ':' ∈ refPart then
    match NeedType.ofText? (strip (partition ':' refPart).1) with
    | none => none
    | some type =>
      if h : strip (partition ':' refPart).2 = "" then none
      else some ⟨type, strip (partition ':' refPart).2, h, reason⟩
  else none

/-- One turn of the loop of `parse_needs`. -/
def parseNeed (action : String) : Option Need :=
  if needMark.isPrefixOf action.toList then
    let body := action.toList.drop needMark.length
    if '|' ∈ body then needOf (partition '|' body).1 (reasonOf (partition '|' body).2)
    else needOf body none
  else none

/-- `parse_needs`. -/
def parseNeeds (nextActions : List String) : List Need := nextActions.filterMap parseNeed

/-! ## Needs and lines -/

/-- A need whose line says nothing else: no bar in the reference, nothing to strip, and no reason
that is empty. -/
def Need.Tidy (need : Need) : Prop :=
  '|' ∉ need.ref.toList ∧ strip need.ref.toList = need.ref ∧
    ∀ reason, need.reason = some reason → reason ≠ "" ∧ strip reason.toList = reason

theorem partition_append {sep : Char} {a : List Char} (h : sep ∉ a) (b : List Char) :
    partition sep (a ++ sep :: b) = (a, b) := by
  have ha : ∀ c ∈ a, decide (c ≠ sep) = true := by
    intro c hc
    exact decide_eq_true fun heq => h (heq ▸ hc)
  rw [partition, List.takeWhile_append_of_pos ha, List.dropWhile_append_of_pos ha,
    List.takeWhile_cons_of_neg (by simp), List.dropWhile_cons_of_neg (by simp), List.append_nil]
  rfl

theorem strip_strip (s : List Char) : strip (strip s).toList = strip s := by
  rw [strip, strip, String.toList_ofList, trimBy_trimBy]

theorem mem_of_mem_strip {c : Char} {s : List Char} (h : c ∈ (strip s).toList) : c ∈ s := by
  obtain ⟨a, b, hs, -⟩ := exists_trimBy pySpace s
  rw [strip, String.toList_ofList] at h
  rw [hs]
  exact List.mem_append_right a (List.mem_append_left b h)

theorem ofText?_text (t : NeedType) : NeedType.ofText? t.text = some t := by
  cases t <;> decide

theorem text_facts (t : NeedType) : ':' ∉ t.text.toList ∧ '|' ∉ t.text.toList ∧
    strip t.text.toList = t.text := by
  cases t <;> decide +kernel

theorem tidy_of_needOf {refPart : List Char} {reason : Option String} {need : Need}
    (hbar : '|' ∉ refPart)
    (hreason : ∀ r, reason = some r → r ≠ "" ∧ strip r.toList = r)
    (h : needOf refPart reason = some need) : need.Tidy := by
  rw [needOf] at h
  split_ifs at h with _ hne
  · split at h <;> cases h
  · split at h
    · cases h
    · obtain rfl := Option.some.inj h
      refine ⟨?_, strip_strip _, hreason⟩
      intro hmem
      apply hbar
      have hpart := mem_of_mem_strip hmem
      exact (List.dropWhile_sublist _).subset (List.mem_of_mem_drop hpart)

/-- Whatever the line, a need that is read from it is tidy. -/
theorem tidy_of_parseNeed {action : String} {need : Need} (h : parseNeed action = some need) :
    need.Tidy := by
  rw [parseNeed] at h
  dsimp only at h
  split_ifs at h with _ hbar
  · refine tidy_of_needOf ?_ ?_ h
    · intro hmem
      simpa using List.mem_takeWhile_imp hmem
    · intro r hr
      rw [reasonOf] at hr
      split_ifs at hr with hne
      obtain rfl := Option.some.inj hr
      exact ⟨hne, strip_strip _⟩
  · refine tidy_of_needOf hbar ?_ h
    intro r hr
    cases hr

theorem needOf_tidy {need : Need} (h : need.Tidy) (reason : Option String) :
    needOf (need.type.text.toList ++ ':' :: need.ref.toList) reason =
      some { need with reason := reason } := by
  obtain ⟨hcolon, -, htext⟩ := text_facts need.type
  have hmem : ':' ∈ need.type.text.toList ++ ':' :: need.ref.toList :=
    List.mem_append_right _ List.mem_cons_self
  have href := h.2.1
  rw [needOf, if_pos hmem, partition_append hcolon]
  dsimp only
  rw [htext, ofText?_text]
  dsimp only
  rw [dif_neg (by rw [href]; exact need.ref_ne)]
  simp only [href]

theorem parseNeed_line {body : List Char} : parseNeed (String.ofList (needMark ++ body)) =
    if '|' ∈ body then needOf (partition '|' body).1 (reasonOf (partition '|' body).2)
    else needOf body none := by
  have hmark : needMark.isPrefixOf (needMark ++ body) = true :=
    List.isPrefixOf_iff_prefix.mpr (List.prefix_append _ _)
  rw [parseNeed, String.toList_ofList, if_pos hmark, List.drop_left]

theorem parseNeed_toNextAction {need : Need} (h : need.Tidy) :
    parseNeed need.toNextAction = some need := by
  have hbar : '|' ∉ need.type.text.toList ++ ':' :: need.ref.toList := by
    intro hmem
    rcases List.mem_append.mp hmem with hmem | hmem
    · exact (text_facts need.type).2.1 hmem
    · exact h.1 ((List.mem_cons.mp hmem).resolve_left (by decide))
  rw [Need.toNextAction]
  cases hreason : need.reason with
  | none =>
    dsimp only
    rw [List.append_assoc, parseNeed_line, if_neg hbar, needOf_tidy h, ← hreason]
  | some reason =>
    obtain ⟨hne, hstrip⟩ := h.2.2 reason hreason
    dsimp only
    rw [if_neg hne, List.append_assoc, List.append_assoc, parseNeed_line, ← List.append_assoc,
      if_pos (List.mem_append_right _ List.mem_cons_self), partition_append hbar, reasonOf,
      hstrip, if_neg hne, needOf_tidy h, ← hreason]

/-- A need comes back from its line just when it is tidy. -/
theorem parseNeeds_toNextAction_iff (need : Need) :
    parseNeeds [need.toNextAction] = [need] ↔ need.Tidy := by
  rw [parseNeeds]
  constructor
  · intro h
    have hmem : need ∈ [need.toNextAction].filterMap parseNeed := h ▸ List.mem_cons_self
    obtain ⟨action, -, hparse⟩ := List.mem_filterMap.mp hmem
    exact tidy_of_parseNeed hparse
  · intro h
    rw [List.filterMap_cons, parseNeed_toNextAction h]
    rfl

/-- A path with a bar in it is cut there. -/
def barredNeed : Need := ⟨.filePath, "docs/a|b.md", by decide, none⟩

theorem barredNeed_cut : parseNeeds [barredNeed.toNextAction] ≠ [barredNeed] ∧
    parseNeeds [barredNeed.toNextAction] = [⟨.filePath, "docs/a", by decide, some "b.md"⟩] := by
  constructor <;> decide +kernel

/-! ## The runner -/

structure ResolvedNeed (α : Type) where
  need : Need
  content : Option String
  artifact : Option α
  success : Bool
  error : Option String

structure Seed (α : Type) where
  projectId : String
  workItem : String
  role : String
  priorWinner : Option String
  baseContext : List String
  resolved : List (ResolvedNeed α)

/-- `ToolResponse`; the runner reads only the next actions. -/
structure Response (β : Type) where
  nextActions : List String
  rest : β

structure RetrievalOutcome (α β : Type) where
  finalResponse : Response β
  cyclesUsed : Nat
  resolvedNeeds : List (ResolvedNeed α)
  warnings : List String

/-- `CYCLE_EXHAUSTED_REASON`. -/
def cycleExhausted : String := "cycle_exhausted"

section
variable {α β : Type}

def Seed.augment (seed : Seed α) (new : List (ResolvedNeed α)) : Seed α :=
  { seed with resolved := seed.resolved ++ new }

def failedNeed (exc : String) (need : Need) : ResolvedNeed α :=
  ⟨need, none, none, false, some ("resolver_exception: " ++ exc)⟩

def Response.needs (r : Response β) : List Need := parseNeeds r.nextActions

/-- A role and a resolver may answer each call in its own way, so they get its number. -/
abbrev Role (α β : Type) := Nat → Seed α → Response β

abbrev Resolver (α : Type) := Nat → List Need → Except String (List (ResolvedNeed α))

/-- What a turn adds to the context. -/
def answer (resolver : Resolver α) (k : Nat) (needs : List Need) : List (ResolvedNeed α) :=
  match resolver k needs with
  | .ok resolved => resolved
  | .error exc => needs.map (failedNeed exc)

/-- The loop, with the seeds that the role is called with. Without a last response the assertion
behind the loop would fail. -/
def cycles (role : Role α β) (resolver : Resolver α) :
    Nat → Nat → Seed α → List (ResolvedNeed α) → Option (Response β) →
    Option (RetrievalOutcome α β) × List (Seed α)
  | 0, used, _, all, last =>
    (last.map fun response => ⟨response, used, all, [cycleExhausted]⟩, [])
  | n + 1, used, current, all, _ =>
    let response := role used current
    if response.needs = [] then (some ⟨response, used + 1, all, []⟩, [current])
    else
      let new := answer resolver used response.needs
      let r := cycles role resolver n (used + 1) (current.augment new) (all ++ new) (some response)
      (r.1, current :: r.2)

/-- `run_bounded_retrieval`. -/
def runBoundedRetrieval (seed : Seed α) (role : Role α β) (resolver : Resolver α)
    (maxCycles : Int) : Option (RetrievalOutcome α β) × List (Seed α) :=
  cycles role resolver (max 1 maxCycles).toNat 0 seed seed.resolved none

/-! ## What the calls see -/

section
variable (role : Role α β) (resolver : Resolver α)

/-- What came of the needs of the responses to some calls, the first of which has number `k`. -/
def answered : Nat → List (Seed α) → List (ResolvedNeed α)
  | _, [] => []
  | k, seed :: calls => answer resolver k (role k seed).needs ++ answered (k + 1) calls

/-- The needs of these responses. -/
def asked : Nat → List (Seed α) → List Need
  | _, [] => []
  | k, seed :: calls => (role k seed).needs ++ asked (k + 1) calls

/-- The resolver, where it returns, has one entry for each need. -/
def Resolver.Total (resolver : Resolver α) : Prop :=
  ∀ k needs resolved, resolver k needs = .ok resolved → resolved.map ResolvedNeed.need = needs

theorem answer_needs {resolver : Resolver α} (h : resolver.Total) (k : Nat) (needs : List Need) :
    (answer resolver k needs).map ResolvedNeed.need = needs := by
  rw [answer]
  split
  · rename_i resolved hok
    exact h k needs resolved hok
  · rw [List.map_map]
    exact List.map_id needs

theorem answered_needs {resolver : Resolver α} (h : resolver.Total) (k : Nat)
    (calls : List (Seed α)) :
    (answered role resolver k calls).map ResolvedNeed.need = asked role k calls := by
  induction calls generalizing k with
  | nil => rfl
  | cons seed calls ih => rw [answered, asked, List.map_append, answer_needs h, ih]

theorem augment_augment (seed : Seed α) (a b : List (ResolvedNeed α)) :
    (seed.augment a).augment b = seed.augment (a ++ b) := by
  rw [Seed.augment, Seed.augment, Seed.augment]
  dsimp only
  rw [List.append_assoc]

/-- A stretch of the loop from a call with number `used` on. -/
structure Stretch (used : Nat) (current : Seed α) (outcome : RetrievalOutcome α β)
    (calls : List (Seed α)) : Prop where
  cyclesUsed : outcome.cyclesUsed = used + calls.length
  seen : ∀ k seed, calls[k]? = some seed →
    seed = current.augment (answered role resolver used (calls.take k))
  final : ∀ seed, calls.getLast? = some seed →
    outcome.finalResponse = role (used + calls.length - 1) seed
  exhausted : cycleExhausted ∈ outcome.warnings ↔ outcome.finalResponse.needs ≠ []

theorem stretch_cycles {n used : Nat} {current : Seed α} {all : List (ResolvedNeed α)}
    {last : Option (Response β)}
    (hlast : n = 0 → ∃ response, last = some response ∧ response.needs ≠ []) :
    ∃ outcome calls, cycles role resolver n used current all last = (some outcome, calls) ∧
      calls.length ≤ n ∧ (n ≠ 0 → calls ≠ []) ∧
      (calls = [] → last = some outcome.finalResponse) ∧
      Stretch role resolver used current outcome calls := by
  induction n generalizing used current all last with
  | zero =>
    obtain ⟨response, rfl, hneeds⟩ := hlast rfl
    refine ⟨_, [], rfl, Nat.le_refl 0, fun h => absurd rfl h, fun _ => rfl, ⟨rfl, ?_, ?_, ?_⟩⟩
    · intro k seed h
      cases h
    · intro seed h
      cases h
    · exact iff_of_true (List.mem_singleton.mpr rfl) hneeds
  | succ n ih =>
    rw [cycles]
    dsimp only
    by_cases hneeds : (role used current).needs = []
    · rw [if_pos hneeds]
      refine ⟨_, [current], rfl, by simp, fun _ => List.cons_ne_nil _ _,
        fun h => absurd h (List.cons_ne_nil _ _), ⟨rfl, ?_, ?_, ?_⟩⟩
      · intro k seed h
        cases k with
        | zero =>
          obtain rfl := Option.some.inj h
          rw [List.take_zero, answered, Seed.augment, List.append_nil]
        | succ k => cases h
      · intro seed h
        obtain rfl := Option.some.inj h
        rfl
      · exact iff_of_false List.not_mem_nil (not_not_intro hneeds)
    · rw [if_neg hneeds]
      obtain ⟨outcome, calls, hrun, hlen, -, hlater, hstretch⟩ := @ih (used + 1)
        (current.augment (answer resolver used (role used current).needs))
        (all ++ answer resolver used (role used current).needs) (some (role used current))
        fun _ => ⟨_, rfl, hneeds⟩
      refine ⟨outcome, current :: calls, by rw [hrun], ?_, fun _ => List.cons_ne_nil _ _,
        fun h => absurd h (List.cons_ne_nil _ _), ?_⟩
      · rw [List.length_cons]
        omega
      · refine ⟨?_, ?_, ?_, hstretch.exhausted⟩
        · rw [hstretch.cyclesUsed, List.length_cons]
          omega
        · intro k seed h
          cases k with
          | zero =>
            obtain rfl := Option.some.inj h
            rw [List.take_zero, answered, Seed.augment, List.append_nil]
          | succ k =>
            rw [List.take_succ_cons, answered, ← augment_augment]
            exact hstretch.seen k seed h
        · intro seed h
          rw [List.length_cons]
          cases calls with
          | nil =>
            obtain rfl := Option.some.inj h
            exact (Option.some.inj (hlater rfl)).symm
          | cons c calls =>
            rw [List.getLast?_cons_cons] at h
            rw [hstretch.final seed h, List.length_cons]
            congr 1
            omega

/-- A run of the loop: the outcome and the seeds that the role was called with. -/
structure Lawful (seed : Seed α) (maxCycles : Int) (outcome : RetrievalOutcome α β)
    (calls : List (Seed α)) : Prop where
  calls_length : calls.length = outcome.cyclesUsed
  bounded : 1 ≤ outcome.cyclesUsed ∧ (outcome.cyclesUsed : Int) ≤ max 1 maxCycles
  seen : ∀ k current, calls[k]? = some current →
    current = seed.augment (answered role resolver 0 (calls.take k))
  needs : resolver.Total → ∀ k,
    (answered role resolver 0 (calls.take k)).map ResolvedNeed.need = asked role 0 (calls.take k)
  final : ∃ current, calls.getLast? = some current ∧
    outcome.finalResponse = role (outcome.cyclesUsed - 1) current
  exhausted : cycleExhausted ∈ outcome.warnings ↔ outcome.finalResponse.needs ≠ []

end

end

/-- A role that asks once and a resolver that returns nothing for it. -/
def askOnce : Role Unit Unit := fun k _ => ⟨if k = 0 then ["need:kg_node:n1"] else [], ()⟩

def emptySeed : Seed Unit := ⟨"p", "w", "r", none, [], []⟩

end SpineFormal.Runtime.Retrieval
