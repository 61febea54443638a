import SpineFormal.Base.RegexSub
import SpineFormal.Plan.SprintPlan

/-!
# The dependencies between stories

`detect_dependencies` and what `decompose` makes of them: every story is given the stories it
depends on, and the sprint plan follows the same edges. Whether the knowledge graph is reachable,
and what it says a story's references touch, are inputs.
-/

namespace SpineFormal.Plan

open Re TopoSort Relation
set_option autoImplicit false

/-- `\w` and `str.lower` where they go beyond ASCII. -/
structure CharTables where
  word : Char → Bool
  lower : List Char → List Char
  word_ascii : ∀ c : Char, c.toNat < 128 → word c = (c.isAlphanum || c == '_')
  lower_ascii : ∀ s : List Char, (∀ c ∈ s, c.toNat < 128) → lower s = s.map Char.toLower

def asciiWord (c : Char) : Bool := c.isAlphanum || c == '_'

def asciiCharTables : CharTables where
  word := asciiWord
  lower := fun s => s.map Char.toLower
  word_ascii := fun _ _ => rfl
  lower_ascii := fun _ _ => rfl

/-! ## References in a title -/

def upper (c : Char) : Bool := decide ('A' ≤ c) && decide (c ≤ 'Z')
def lowerOrUnderscore (c : Char) : Bool := decide ('a' ≤ c) && decide (c ≤ 'z') || c == '_'
def digit (c : Char) : Bool := decide ('0' ≤ c) && decide (c ≤ '9')
def camelTail (c : Char) : Bool := upper c || decide ('a' ≤ c) && decide (c ≤ 'z') || digit c
def snakeTail (c : Char) : Bool := lowerOrUnderscore c || digit c

def camel : Regex := .seq (.cls upper) (atLeast 1 camelTail)
def snake : Regex := .seq (.cls lowerOrUnderscore) (atLeast 1 snakeTail)

def extension : Regex := .rep false 1 (some 4) (.cls fun c => decide ('a' ≤ c) && decide (c ≤ 'z'))

/-- The alternatives of `_IDENT_RE`. -/
def identAlternatives (u : CharTables) : List Regex :=
  [.seq camel (.rep false 0 none (.seq (lit ['.']) camel)),
    .seq snake (.rep false 1 none (.seq (lit ['.']) snake)),
    .seq (.cls lowerOrUnderscore) (atLeast 3 snakeTail),
    .seq (atLeast 1 fun c => u.word c || c == '/') (.seq (lit ['.']) extension)]

/-- The match that starts here: the first alternative that has one. -/
def identAt (u : CharTables) (s : List Char) : Option (List Char × List Char) :=
  (identAlternatives u).findSome? fun r => (r.splits s).head?

/-- `finditer`, a match or a character at a time. -/
def identsFrom (u : CharTables) : ℕ → List Char → List (List Char)
  | 0, _ => []
  | _ + 1, [] => []
  | fuel + 1, c :: s =>
    match identAt u (c :: s) with
    | some (w, rest) => w :: identsFrom u fuel rest
    | none => identsFrom u fuel s

def extractRefs (u : CharTables) (title : String) : List String :=
  ((identsFrom u title.toList.length title.toList).map fun w => String.ofList (u.lower w)).dedup

theorem width_identAlternatives (u : CharTables) : ∀ r ∈ identAlternatives u, 1 ≤ r.width := by
  intro r hr
  simp only [identAlternatives, List.mem_cons, List.not_mem_nil, or_false] at hr
  rcases hr with rfl | rfl | rfl | rfl <;> exact Nat.le_of_ble_eq_true rfl

theorem identAt_length {u : CharTables} {s w rest : List Char}
    (h : identAt u s = some (w, rest)) : rest.length < s.length := by
  obtain ⟨r, hr, hhead⟩ := List.exists_of_findSome?_eq_some h
  obtain ⟨hs, hspells⟩ := mem_splits.mp (List.mem_of_head? hhead)
  have hwidth := (width_identAlternatives u r hr).trans (width_le hspells)
  rw [hs, List.length_append]
  omega

/-- As many turns as characters are enough. -/
theorem identsFrom_add (u : CharTables) (more : ℕ) {fuel : ℕ} {s : List Char}
    (h : s.length ≤ fuel) : identsFrom u (fuel + more) s = identsFrom u fuel s := by
  induction fuel generalizing s with
  | zero =>
    obtain rfl := List.eq_nil_of_length_eq_zero (Nat.le_zero.mp h)
    cases more <;> rfl
  | succ fuel ih =>
    rw [Nat.add_right_comm]
    cases s with
    | nil => rfl
    | cons c s =>
      rw [List.length_cons] at h
      rw [identsFrom, identsFrom]
      cases hident : identAt u (c :: s) with
      | none => exact ih (by omega)
      | some found =>
        have hless := identAt_length hident
        rw [List.length_cons] at hless
        exact congrArg (found.1 :: ·) (ih (by omega))

/-! ## Keywords -/

/-- A letter where case is ignored. -/
def ignoringCase (letter c : Char) : Bool :=
  c == letter || c == letter.toUpper || letter == 's' && c == '\u017f' ||
    letter == 'i' && (c == '\u0130' || c == '\u0131')

def keyword (letters : String) : Regex :=
  seqs (letters.toList.map fun letter => .cls (ignoringCase letter))

/-- A match between two word boundaries starts here. -/
def wordAt (u : CharTables) (r : Regex) (prev : Option Char) (s : List Char) : Bool :=
  (Look.boundary u.word).holds prev s.head? &&
    (r.splits s).any fun p => (Look.boundary u.word).holds (lastOr prev p.1) p.2.head?

def searchFrom (u : CharTables) (r : Regex) : Option Char → List Char → Bool
  | prev, [] => wordAt u r prev []
  | prev, c :: s => wordAt u r prev (c :: s) || searchFrom u r (some c) s

/-- `_TEST_KW.search`. -/
def mentionsTest (u : CharTables) (title : String) : Bool :=
  ["test", "spec", "coverage", "fixture"].any fun w =>
    searchFrom u (.seq (keyword w) (maybe (ignoringCase 's'))) none title.toList

/-- `_SCHEMA_KW.search`. -/
def mentionsSchema (u : CharTables) (title : String) : Bool :=
  ["schema", "model", "table", "migration", "entity"].any fun w =>
    searchFrom u (keyword w) none title.toList

/-! ## Edges -/

/-- The knowledge graph, with what it says the references of the story at a place touch. -/
structure Kg where
  reachable : Bool
  impact : ℕ → List String

/-- A list of references as Python shows it. -/
def showRefs (refs : List String) : String :=
  "[" ++ String.intercalate ", " (refs.map fun r => "'" ++ r ++ "'") ++ "]"

def edgeBetween (u : CharTables) (a b : Story) (aRefs bRefs aImpact : List String) (haveKg : Bool) :
    Option StoryDependency :=
  let hit := bRefs.filter fun r => decide (r ∈ aImpact)
  let overlap := aRefs.filter fun r => decide (r ∈ bRefs)
  let conf := if haveKg then Confidence.high else .medium
  if !hit.isEmpty then
    some ⟨a.id, b.id, "kg_impact: " ++ showRefs ((sorted hit).take 3), .high⟩
  else if overlap.isEmpty then none
  else if mentionsTest u b.title && !mentionsTest u a.title then
    some ⟨a.id, b.id, "b_tests_a: shared refs " ++ showRefs ((sorted overlap).take 3), conf⟩
  else if mentionsSchema u a.title && !mentionsSchema u b.title then
    some ⟨a.id, b.id, "b_uses_a_schema: shared refs " ++ showRefs ((sorted overlap).take 3), conf⟩
  else if !haveKg then
    some ⟨a.id, b.id, "text_overlap: " ++ showRefs ((sorted overlap).take 3), .low⟩
  else none

/-- The references under an id; of equal ids the last story counts. -/
def refsOf (u : CharTables) (stories : List Story) (id : String) : List String :=
  match stories.reverse.find? fun s => decide (s.id = id) with
  | some s => extractRefs u s.title
  | none => []

/-- The edges from the story at a place. -/
def edgesFrom (u : CharTables) (kg : Kg) (stories : List Story) (i : ℕ) (a : Story) :
    List StoryDependency :=
  if (refsOf u stories a.id).isEmpty then []
  else stories.zipIdx.filterMap fun p =>
    if i = p.2 ∨ (refsOf u stories p.1.id).isEmpty then none
    else edgeBetween u a p.1 (refsOf u stories a.id) (refsOf u stories p.1.id)
      (if kg.reachable then kg.impact i else []) kg.reachable

def inferEdges (u : CharTables) (kg : Kg) (stories : List Story) : List StoryDependency :=
  stories.zipIdx.flatMap fun p => edgesFrom u kg stories p.2 p.1

/-! ## Cycles -/

structure Search where
  visiting : List String
  visited : List String
  stack : List String
  cycles : List (List String)

/-- One edge out of the node that is being visited. -/
def follow (visit : String → Search → Search) (s : Search) (next : String) : Search :=
  if next ∈ s.visiting then
    { s with cycles := s.cycles ++ [s.stack.drop (s.stack.idxOf next) ++ [next]] }
  else if next ∈ s.visited then s
  else visit next s

/-- The nested calls are for different nodes, so as many nest as there are nodes. -/
def dfs (graph : String → List String) : ℕ → String → Search → Search
  | 0, _, s => s
  | fuel + 1, node, s =>
    let entered := { s with visiting := node :: s.visiting, stack := s.stack ++ [node] }
    let done := (graph node).foldl (follow (dfs graph fuel)) entered
    { done with
      visiting := done.visiting.erase node
      visited := node :: done.visited
      stack := done.stack.dropLast }

def graphOf (edges : List StoryDependency) (nodes : List String) (node : String) : List String :=
  (edges.filter fun e =>
    decide (e.fromStoryId = node) && (decide (e.fromStoryId ∈ nodes) &&
      decide (e.toStoryId ∈ nodes))).map StoryDependency.toStoryId

def findCycles (edges : List StoryDependency) (nodes : List String) : List (List String) :=
  (nodes.foldl (fun s node =>
    if node ∈ s.visited then s else dfs (graphOf edges nodes) nodes.length node s)
    ⟨[], [], [], []⟩).cycles

/-! ### The search comes to an end -/

section
variable {graph : String → List String} {nodes : List String}

theorem foldl_follow_visiting {visit : String → Search → Search}
    (hvisit : ∀ next s, (visit next s).visiting = s.visiting) (nexts : List String) (s : Search) :
    (nexts.foldl (follow visit) s).visiting = s.visiting := by
  induction nexts generalizing s with
  | nil => rfl
  | cons next nexts ih =>
    rw [List.foldl_cons, ih, follow]
    split_ifs
    · rfl
    · rfl
    · exact hvisit next s

/-- What is being visited after a call is what was before it. -/
theorem dfs_visiting (fuel : ℕ) (node : String) (s : Search) :
    (dfs graph fuel node s).visiting = s.visiting := by
  induction fuel generalizing node s with
  | zero => rfl
  | succ fuel ih =>
    rw [dfs]
    dsimp only
    rw [foldl_follow_visiting ih, List.erase_cons_head]

/-- A node that is entered is one less to come. -/
theorem length_filter_entered {node : String} {visiting : List String} (hnode : node ∈ nodes)
    (hnew : node ∉ visiting) :
    (nodes.filter (· ∉ node :: visiting)).length < (nodes.filter (· ∉ visiting)).length := by
  have hsub : nodes.filter (· ∉ node :: visiting) =
      (nodes.filter (· ∉ visiting)).filter (· ≠ node) := by
    rw [List.filter_filter]
    apply List.filter_congr
    intro a _
    simp only [List.mem_cons, not_or, Bool.decide_and]
  have hmem : node ∈ nodes.filter (· ∉ visiting) :=
    List.mem_filter.mpr ⟨hnode, by simpa using hnew⟩
  rw [hsub]
  exact List.length_filter_lt_length_iff_exists.mpr ⟨node, hmem, by simp⟩

/-- Fuel for every node that is not being visited is enough. -/
theorem dfs_add (hgraph : ∀ node, ∀ next ∈ graph node, next ∈ nodes) (more : ℕ) {fuel : ℕ}
    {node : String} {s : Search} (hnode : node ∈ nodes) (hnew : node ∉ s.visiting)
    (hfuel : (nodes.filter (· ∉ s.visiting)).length ≤ fuel) :
    dfs graph (fuel + more) node s = dfs graph fuel node s := by
  induction fuel generalizing node s with
  | zero =>
    have hless := length_filter_entered hnode hnew
    omega
  | succ fuel ih =>
    have hless := length_filter_entered hnode hnew
    have hfold : ∀ (nexts : List String) (t : Search), (∀ next ∈ nexts, next ∈ nodes) →
        t.visiting = node :: s.visiting →
        nexts.foldl (follow (dfs graph (fuel + more))) t =
          nexts.foldl (follow (dfs graph fuel)) t := by
      intro nexts
      induction nexts with
      | nil => exact fun _ _ _ => rfl
      | cons next nexts ihn =>
        intro t hnexts ht
        have hstep : follow (dfs graph (fuel + more)) t next = follow (dfs graph fuel) t next := by
          rw [follow, follow]
          split_ifs with hvisiting hvisited
          · rfl
          · rfl
          · exact ih (hnexts next List.mem_cons_self) hvisiting (by rw [ht]; omega)
        have hkeep : (follow (dfs graph fuel) t next).visiting = node :: s.visiting :=
          (foldl_follow_visiting (dfs_visiting fuel) [next] t).trans ht
        rw [List.foldl_cons, List.foldl_cons, hstep]
        exact ihn _ (fun next' hnext' => hnexts next' (List.mem_cons_of_mem next hnext')) hkeep
    rw [Nat.add_right_comm, dfs, dfs, hfold]
    · exact hgraph node
    · rfl

theorem graphOf_subset (edges : List StoryDependency) (node : String) :
    ∀ next ∈ graphOf edges nodes node, next ∈ nodes := by
  intro next hnext
  obtain ⟨e, he, rfl⟩ := List.mem_map.mp hnext
  simp only [List.mem_filter, Bool.and_eq_true, decide_eq_true_eq] at he
  exact he.2.2.2

/-- More fuel than there are nodes changes nothing. -/
theorem findCycles_add (edges : List StoryDependency) (nodes : List String) (more : ℕ) :
    findCycles edges nodes = (nodes.foldl (fun s node =>
      if node ∈ s.visited then s else dfs (graphOf edges nodes) (nodes.length + more) node s)
      ⟨[], [], [], []⟩).cycles := by
  have hfold : ∀ (starts : List String) (s : Search), (∀ node ∈ starts, node ∈ nodes) →
      s.visiting = [] →
      starts.foldl (fun s node =>
        if node ∈ s.visited then s else dfs (graphOf edges nodes) nodes.length node s) s =
      starts.foldl (fun s node =>
        if node ∈ s.visited then s
        else dfs (graphOf edges nodes) (nodes.length + more) node s) s := by
    intro starts
    induction starts with
    | nil => exact fun _ _ _ => rfl
    | cons node starts ih =>
      intro s hstarts hs
      have hnode : node ∈ nodes := hstarts node List.mem_cons_self
      have hrest : ∀ node' ∈ starts, node' ∈ nodes :=
        fun node' hnode' => hstarts node' (List.mem_cons_of_mem node hnode')
      rw [List.foldl_cons, List.foldl_cons]
      by_cases hvisited : node ∈ s.visited
      · rw [if_pos hvisited, if_pos hvisited]
        exact ih s hrest hs
      · rw [if_neg hvisited, if_neg hvisited, dfs_add (graphOf_subset edges) more hnode
          (by simp [hs]) (List.length_filter_le _ _)]
        exact ih _ hrest ((dfs_visiting _ _ _).trans hs)
  rw [findCycles, hfold nodes _ (fun _ h => h) rfl]

end

def cycleMarker (cycle : List String) : StoryDependency where
  fromStoryId := cycle.headD ""
  toStoryId := cycle.getLastD ""
  reason := "cycle: " ++ String.intercalate " -> " cycle
  confidence := .high

def detectDependencies (u : CharTables) (kg : Kg) (stories : List Story) : List StoryDependency :=
  let edges := inferEdges u kg stories
  edges ++ (findCycles edges (stories.map Story.id)).map cycleMarker

/-! ## What `decompose` makes of the edges -/

def Story.dependOn (s : Story) (id : String) : Story :=
  if id ∈ s.dependencies then s else { s with dependencies := s.dependencies ++ [id] }

/-- The last story with an id is changed. -/
def changeLast (id : String) (f : Story → Story) (stories : List Story) : List Story :=
  match stories with
  | [] => []
  | s :: rest =>
    if id ∈ rest.map Story.id then s :: changeLast id f rest
    else if s.id = id then f s :: rest
    else s :: rest

def applyDependencies (stories : List Story) (edges : List StoryDependency) : List Story :=
  edges.foldl (fun stories e =>
    if e.isCycleMarker then stories
    else if e.toStoryId ∈ stories.map Story.id ∧ e.fromStoryId ∈ stories.map Story.id then
      changeLast e.toStoryId (fun s => s.dependOn e.fromStoryId) stories
    else stories) stories

/-- Stories as they are materialised: an id and a title, and nothing they depend on yet. -/
def materialise (titles : List (String × String)) : List Story :=
  titles.map fun t => ⟨t.1, t.2, []⟩

/-- The last steps of `decompose`. -/
def decompose (u : CharTables) (kg : Kg) (titles : List (String × String)) :
    List Story × List Sprint :=
  let stories := materialise titles
  let deps := detectDependencies u kg stories
  (applyDependencies stories deps, sequenceSprints stories deps)

/-! ## Which edges are inferred -/

section
variable {u : CharTables} {kg : Kg}

/-- A reference of the second title is touched by the first, or they share one and the titles'
keywords tell them apart; without the graph sharing is enough. -/
def Touches (u : CharTables) (haveKg : Bool) (aTitle bTitle : String)
    (aRefs bRefs aImpact : List String) : Prop :=
  (∃ r ∈ bRefs, r ∈ aImpact) ∨
    (∃ r ∈ aRefs, r ∈ bRefs) ∧
      (haveKg = false ∨ mentionsTest u bTitle = true ∧ mentionsTest u aTitle = false ∨
        mentionsSchema u aTitle = true ∧ mentionsSchema u bTitle = false)

theorem isCycleMarker_of_reason {e : StoryDependency} {before : String} (rest : String)
    (hreason : e.reason = before ++ rest) (hlong : 6 ≤ before.toList.length)
    (hbefore : before.toList.take 6 ≠ "cycle:".toList) : e.isCycleMarker = false := by
  rw [StoryDependency.isCycleMarker, hreason, String.toList_append, Bool.eq_false_iff]
  intro h
  have hfront := List.prefix_iff_eq_take.mp (List.isPrefixOf_iff_prefix.mp h)
  have hsix : "cycle:".toList.length = 6 := by decide
  rw [hsix, List.take_append_of_le_length hlong] at hfront
  exact hbefore hfront.symm

theorem edgeBetween_some {a b : Story} {aRefs bRefs aImpact : List String} {haveKg : Bool}
    {e : StoryDependency} (h : edgeBetween u a b aRefs bRefs aImpact haveKg = some e) :
    e.isCycleMarker = false ∧ e.fromStoryId = a.id ∧ e.toStoryId = b.id := by
  simp only [edgeBetween] at h
  split at h
  · obtain rfl := Option.some.inj h
    exact ⟨isCycleMarker_of_reason _ rfl (by decide) (by decide), rfl, rfl⟩
  · split at h
    · cases h
    · split at h
      · obtain rfl := Option.some.inj h
        exact ⟨isCycleMarker_of_reason _ rfl (by decide) (by decide), rfl, rfl⟩
      · split at h
        · obtain rfl := Option.some.inj h
          exact ⟨isCycleMarker_of_reason _ rfl (by decide) (by decide), rfl, rfl⟩
        · split at h
          · obtain rfl := Option.some.inj h
            exact ⟨isCycleMarker_of_reason _ rfl (by decide) (by decide), rfl, rfl⟩
          · cases h

theorem filter_mem_isEmpty {xs ys : List String} :
    (xs.filter fun r => decide (r ∈ ys)).isEmpty = false ↔ ∃ r ∈ xs, r ∈ ys := by
  simp [List.isEmpty_eq_false_iff, List.filter_eq_nil_iff]

theorem isSome_edgeBetween {a b : Story} {aRefs bRefs aImpact : List String} {haveKg : Bool} :
    (edgeBetween u a b aRefs bRefs aImpact haveKg).isSome = true ↔
      Touches u haveKg a.title b.title aRefs bRefs aImpact := by
  rw [Touches, ← filter_mem_isEmpty, ← filter_mem_isEmpty, edgeBetween]
  cases (bRefs.filter fun r => decide (r ∈ aImpact)).isEmpty <;>
    cases (aRefs.filter fun r => decide (r ∈ bRefs)).isEmpty <;>
    cases mentionsTest u a.title <;> cases mentionsTest u b.title <;>
    cases mentionsSchema u a.title <;> cases mentionsSchema u b.title <;> cases haveKg <;> simp

/-- The first story is to be finished before the second. -/
def Leads (u : CharTables) (kg : Kg) (stories : List Story) (x y : String) : Prop :=
  ∃ i j a b, i ≠ j ∧ stories[i]? = some a ∧ stories[j]? = some b ∧ a.id = x ∧ b.id = y ∧
    refsOf u stories x ≠ [] ∧ refsOf u stories y ≠ [] ∧
      Touches u kg.reachable a.title b.title (refsOf u stories x) (refsOf u stories y)
        (if kg.reachable then kg.impact i else [])

theorem mem_inferEdges {stories : List Story} {e : StoryDependency} :
    e ∈ inferEdges u kg stories ↔
      ∃ i j a b, i ≠ j ∧ stories[i]? = some a ∧ stories[j]? = some b ∧
        refsOf u stories a.id ≠ [] ∧ refsOf u stories b.id ≠ [] ∧
          edgeBetween u a b (refsOf u stories a.id) (refsOf u stories b.id)
            (if kg.reachable then kg.impact i else []) kg.reachable = some e := by
  rw [inferEdges, List.mem_flatMap]
  constructor
  · rintro ⟨⟨a, i⟩, hi, he⟩
    rw [edgesFrom] at he
    split at he
    · exact absurd he List.not_mem_nil
    · rename_i hrefs
      obtain ⟨⟨b, j⟩, hj, hedge⟩ := List.mem_filterMap.mp he
      dsimp only at hedge
      split at hedge
      · cases hedge
      · rename_i hskip
        exact ⟨i, j, a, b, fun h => hskip (Or.inl h), List.mk_mem_zipIdx_iff_getElem?.mp hi,
          List.mk_mem_zipIdx_iff_getElem?.mp hj, fun h => hrefs (List.isEmpty_iff.mpr h),
          fun h => hskip (Or.inr (List.isEmpty_iff.mpr h)), hedge⟩
  · rintro ⟨i, j, a, b, hij, ha, hb, harefs, hbrefs, hedge⟩
    refine ⟨(a, i), List.mk_mem_zipIdx_iff_getElem?.mpr ha, ?_⟩
    rw [edgesFrom, if_neg (fun h => harefs (List.isEmpty_iff.mp h))]
    refine List.mem_filterMap.mpr ⟨(b, j), List.mk_mem_zipIdx_iff_getElem?.mpr hb, ?_⟩
    rw [if_neg (by rintro (h | h); exacts [hij h, hbrefs (List.isEmpty_iff.mp h)])]
    exact hedge

theorem cycleMarker_isCycleMarker (cycle : List String) :
    (cycleMarker cycle).isCycleMarker = true := by
  have hreason : (cycleMarker cycle).reason.toList =
      "cycle:".toList ++ (" ".toList ++ (String.intercalate " -> " cycle).toList) := by
    rw [cycleMarker, String.toList_append]
    rfl
  rw [StoryDependency.isCycleMarker, hreason, List.isPrefixOf_iff_prefix]
  exact List.prefix_append _ _

/-- The edges that count are those that the titles and the graph give. -/
theorem follows_detectDependencies {stories : List Story} {x y : String} :
    Follows stories (detectDependencies u kg stories) x y ↔ Leads u kg stories x y := by
  constructor
  · rintro ⟨e, he, hmarker, rfl, rfl, _, _⟩
    rcases List.mem_append.mp he with hedge | hcycle
    · obtain ⟨i, j, a, b, hij, ha, hb, harefs, hbrefs, hsome⟩ := mem_inferEdges.mp hedge
      obtain ⟨_, hfrom, hto⟩ := edgeBetween_some hsome
      have htouches := isSome_edgeBetween.mp (Option.isSome_of_eq_some hsome)
      rw [hfrom, hto]
      exact ⟨i, j, a, b, hij, ha, hb, rfl, rfl, harefs, hbrefs, htouches⟩
    · obtain ⟨cycle, _, rfl⟩ := List.mem_map.mp hcycle
      rw [cycleMarker_isCycleMarker] at hmarker
      cases hmarker
  · rintro ⟨i, j, a, b, hij, ha, hb, rfl, rfl, harefs, hbrefs, htouches⟩
    obtain ⟨e, hsome⟩ := Option.isSome_iff_exists.mp (isSome_edgeBetween.mpr htouches)
    obtain ⟨hmarker, hfrom, hto⟩ := edgeBetween_some hsome
    have hedge := mem_inferEdges.mpr ⟨i, j, a, b, hij, ha, hb, harefs, hbrefs, hsome⟩
    exact ⟨e, List.mem_append_left _ hedge, hmarker, hfrom, hto,
      List.mem_map.mpr ⟨a, List.mem_of_getElem? ha, rfl⟩,
      List.mem_map.mpr ⟨b, List.mem_of_getElem? hb, rfl⟩⟩

/-! ## The dependencies of the stories -/

/-- The second story lists the first as one it depends on. -/
def DependsOn (stories : List Story) (x y : String) : Prop :=
  ∃ s ∈ stories, s.id = y ∧ x ∈ s.dependencies

theorem dependOn_id (s : Story) (id : String) : (s.dependOn id).id = s.id := by
  rw [Story.dependOn]
  split <;> rfl

theorem mem_dependOn {s : Story} {id x : String} :
    x ∈ (s.dependOn id).dependencies ↔ x ∈ s.dependencies ∨ x = id := by
  rw [Story.dependOn]
  split
  · rename_i hin
    exact ⟨Or.inl, fun h => h.elim (fun h => h) (fun h => h ▸ hin)⟩
  · rw [List.mem_append, List.mem_singleton]

theorem changeLast_ids (id x : String) (stories : List Story) :
    (changeLast id (fun s => s.dependOn x) stories).map Story.id = stories.map Story.id := by
  induction stories with
  | nil => rfl
  | cons s rest ih =>
    rw [changeLast]
    split
    · rw [List.map_cons, ih, List.map_cons]
    · split
      · rw [List.map_cons, dependOn_id, List.map_cons]
      · rfl

theorem dependsOn_cons {s : Story} {rest : List Story} {x y : String} :
    DependsOn (s :: rest) x y ↔ (s.id = y ∧ x ∈ s.dependencies) ∨ DependsOn rest x y := by
  simp [DependsOn]

theorem dependsOn_changeLast {stories : List Story} {id new : String}
    (hid : id ∈ stories.map Story.id) {x y : String} :
    DependsOn (changeLast id (fun s => s.dependOn new) stories) x y ↔
      DependsOn stories x y ∨ (x = new ∧ y = id) := by
  induction stories with
  | nil => exact absurd hid List.not_mem_nil
  | cons s rest ih =>
    rw [changeLast]
    by_cases hrest : id ∈ rest.map Story.id
    · rw [if_pos hrest, dependsOn_cons, dependsOn_cons, ih hrest, or_assoc]
    · have hs : s.id = id := by
        rcases List.mem_cons.mp hid with h | h
        · exact h.symm
        · exact absurd h hrest
      rw [if_neg hrest, if_pos hs, dependsOn_cons, dependsOn_cons, dependOn_id, mem_dependOn, hs]
      tauto

/-- What one edge adds. -/
theorem dependsOn_step (stories : List Story) (e : StoryDependency) :
    ∃ after, applyDependencies stories [e] = after ∧
      after.map Story.id = stories.map Story.id ∧
        ∀ x y, DependsOn after x y ↔ DependsOn stories x y ∨ Follows stories [e] x y := by
  have hfollows (x y : String) : Follows stories [e] x y ↔ e.isCycleMarker = false ∧
      e.fromStoryId = x ∧ e.toStoryId = y ∧ x ∈ stories.map Story.id ∧
        y ∈ stories.map Story.id := by
    simp [Follows]
  refine ⟨_, rfl, ?_⟩
  rw [applyDependencies, List.foldl_cons, List.foldl_nil]
  by_cases hmarker : e.isCycleMarker = true
  · rw [if_pos hmarker]
    refine ⟨rfl, fun x y => ?_⟩
    rw [hfollows, hmarker]
    tauto
  · rw [if_neg hmarker]
    by_cases hlisted : e.toStoryId ∈ stories.map Story.id ∧ e.fromStoryId ∈ stories.map Story.id
    · rw [if_pos hlisted]
      refine ⟨changeLast_ids _ _ _, fun x y => ?_⟩
      rw [dependsOn_changeLast hlisted.1, hfollows]
      refine or_congr_right ⟨?_, ?_⟩
      · rintro ⟨rfl, rfl⟩
        exact ⟨Bool.eq_false_iff.mpr hmarker, rfl, rfl, hlisted.2, hlisted.1⟩
      · rintro ⟨_, rfl, rfl, _, _⟩
        exact ⟨rfl, rfl⟩
    · rw [if_neg hlisted]
      refine ⟨rfl, fun x y => (or_iff_left ?_).symm⟩
      rw [hfollows]
      rintro ⟨_, rfl, rfl, hfrom, hto⟩
      exact hlisted ⟨hto, hfrom⟩

theorem follows_cons {stories : List Story} {e : StoryDependency} {edges : List StoryDependency}
    {x y : String} :
    Follows stories (e :: edges) x y ↔ Follows stories [e] x y ∨ Follows stories edges x y := by
  simp [Follows]

theorem follows_of_ids {stories after : List Story} (h : after.map Story.id = stories.map Story.id)
    {edges : List StoryDependency} {x y : String} :
    Follows after edges x y ↔ Follows stories edges x y := by
  rw [Follows, h, Follows]

/-- The stories depend on what the edges that count say. -/
theorem dependsOn_applyDependencies {stories : List Story} {edges : List StoryDependency}
    {x y : String} :
    DependsOn (applyDependencies stories edges) x y ↔
      DependsOn stories x y ∨ Follows stories edges x y := by
  induction edges generalizing stories with
  | nil => simp [applyDependencies, Follows]
  | cons e edges ih =>
    obtain ⟨after, hafter, hids, hstep⟩ := dependsOn_step stories e
    have hrest : applyDependencies stories (e :: edges) = applyDependencies after edges := by
      rw [← hafter]
      rfl
    rw [hrest, ih, hstep, follows_of_ids hids, or_assoc, ← follows_cons]

theorem dependsOn_decompose {titles : List (String × String)} {x y : String} :
    DependsOn (decompose u kg titles).1 x y ↔ Leads u kg (materialise titles) x y := by
  have hnone : ¬DependsOn (materialise titles) x y := by
    rintro ⟨s, hs, _, hx⟩
    obtain ⟨t, _, rfl⟩ := List.mem_map.mp hs
    exact absurd hx List.not_mem_nil
  rw [decompose, dependsOn_applyDependencies, or_iff_right hnone, follows_detectDependencies]

/-! ## The plan -/

def Acyclic (R : String → String → Prop) : Prop := ∀ c, ¬TransGen R c c

/-- No story is in a sprint before that of one it depends on. -/
def InOrder (R : String → String → Prop) (sprints : List Sprint) : Prop :=
  ∀ x y, R x y → ∀ (i j : ℕ) (earlier later : Sprint), sprints[i]? = some earlier →
    sprints[j]? = some later → x ∈ earlier.stories → y ∈ later.stories → i ≤ j

theorem pair_not_reversed {l : List String} (hl : l.Nodup) {x y : String}
    (hxy : [x, y].Sublist l) : ¬[y, x].Sublist l := by
  induction l with
  | nil => cases hxy
  | cons z l ih =>
    obtain ⟨hz, hnodup⟩ := List.nodup_cons.mp hl
    intro hyx
    cases hxy with
    | cons _ hxy =>
      have hy : y ∈ l := hxy.subset (List.mem_cons_of_mem x List.mem_cons_self)
      cases hyx with
      | cons _ hyx => exact ih hnodup hxy hyx
      | cons_cons _ _ => exact hz hy
    | cons_cons _ hy =>
      have hy := List.singleton_sublist.mp hy
      cases hyx with
      | cons _ hyx => exact hz (hyx.subset (List.mem_cons_of_mem y List.mem_cons_self))
      | cons_cons _ _ => exact hz hy

/-- Stories of two sprints stand in the plan as the sprints do. -/
theorem planned_pair {sprints : List Sprint} {i j : ℕ} {first second : Sprint}
    (hij : i < j) (hi : sprints[i]? = some first) (hj : sprints[j]? = some second) {x y : String}
    (hx : x ∈ first.stories) (hy : y ∈ second.stories) : [x, y].Sublist (planned sprints) := by
  induction sprints generalizing i j with
  | nil => cases hi
  | cons sprint sprints ih =>
    obtain ⟨j, rfl⟩ : ∃ k, j = k + 1 := ⟨j - 1, by omega⟩
    rw [List.getElem?_cons_succ] at hj
    have hplanned : planned (sprint :: sprints) = sprint.stories ++ planned sprints :=
      List.flatMap_cons
    rw [hplanned]
    cases i with
    | zero =>
      obtain rfl : sprint = first := Option.some.inj hi
      have hyin : y ∈ planned sprints :=
        List.mem_flatMap.mpr ⟨second, List.mem_of_getElem? hj, hy⟩
      exact (List.singleton_sublist.mpr hx).append (List.singleton_sublist.mpr hyin)
    | succ i =>
      rw [List.getElem?_cons_succ] at hi
      exact (ih (by omega) hi hj).trans (List.sublist_append_right _ _)

/-- Without cycles the plan follows the edges. -/
theorem inOrder_sequenceSprints {stories : List Story} {edges : List StoryDependency}
    (hacyclic : Acyclic (Follows stories edges)) :
    InOrder (Follows stories edges) (sequenceSprints stories edges) := by
  intro x y hxy i j earlier later hi hj hx hy
  have hbefore : [x, y].Sublist (planned (sequenceSprints stories edges)) := by
    rw [planned_sequenceSprints]
    exact orderStories_sublist hxy fun ⟨c, hc, _⟩ => hacyclic c hc
  have hnodup : (planned (sequenceSprints stories edges)).Nodup := by
    rw [planned_sequenceSprints]
    exact orderStories_nodup stories edges
  by_contra hlate
  exact pair_not_reversed hnodup hbefore (planned_pair (by omega) hj hi hy hx)

/-- The claims of a roadmap: its dependencies have no cycle, and the plan keeps to them. -/
def Orderly (outcome : List Story × List Sprint) : Prop :=
  Acyclic (DependsOn outcome.1) ∧ InOrder (DependsOn outcome.1) outcome.2

theorem orderly_iff_acyclic (titles : List (String × String)) :
    Orderly (decompose u kg titles) ↔ Acyclic (Leads u kg (materialise titles)) := by
  have hdepends : DependsOn (decompose u kg titles).1 = Leads u kg (materialise titles) := by
    funext x y
    exact propext dependsOn_decompose
  have hfollows : Follows (materialise titles) (detectDependencies u kg (materialise titles)) =
      Leads u kg (materialise titles) := by
    funext x y
    exact propext follows_detectDependencies
  rw [Orderly, hdepends]
  refine and_iff_left_of_imp fun hacyclic => ?_
  rw [← hfollows] at hacyclic ⊢
  exact inOrder_sequenceSprints hacyclic

/-- No two stories share a reference. -/
def Unrelated (u : CharTables) (stories : List Story) : Prop :=
  ∀ (i j : ℕ) (a b : Story), i ≠ j → stories[i]? = some a → stories[j]? = some b →
    ∀ r ∈ refsOf u stories a.id, r ∉ refsOf u stories b.id

/-- Without the graph, sharing a reference leads both ways. -/
theorem acyclic_leads_textOnly (hkg : kg.reachable = false) (stories : List Story) :
    Acyclic (Leads u kg stories) ↔ Unrelated u stories := by
  constructor
  · intro hacyclic i j a b hij ha hb r hra hrb
    have hleads {i j : ℕ} {a b : Story} (hij : i ≠ j) (ha : stories[i]? = some a)
        (hb : stories[j]? = some b) (hra : r ∈ refsOf u stories a.id)
        (hrb : r ∈ refsOf u stories b.id) : Leads u kg stories a.id b.id :=
      ⟨i, j, a, b, hij, ha, hb, rfl, rfl, List.ne_nil_of_mem hra, List.ne_nil_of_mem hrb,
        Or.inr ⟨⟨r, hra, hrb⟩, Or.inl hkg⟩⟩
    exact hacyclic a.id ((TransGen.single (hleads hij ha hb hra hrb)).tail
      (hleads hij.symm hb ha hrb hra))
  · intro hunrelated c hcycle
    obtain ⟨next, hlead, _⟩ := TransGen.head'_iff.mp hcycle
    obtain ⟨i, j, a, b, hij, ha, hb, rfl, rfl, _, _, htouches⟩ := hlead
    rw [hkg, if_neg Bool.false_ne_true] at htouches
    rcases htouches with ⟨r, _, himpact⟩ | ⟨⟨r, hra, hrb⟩, _⟩
    · exact absurd himpact List.not_mem_nil
    · exact hunrelated i j a b hij ha hb r hra hrb

/-- The roadmap is orderly exactly if the titles and the graph lead nowhere in a circle; without
the graph, exactly if no two stories share a reference. -/
theorem decompose_orderly_iff (u : CharTables) (kg : Kg) (titles : List (String × String)) :
    (Orderly (decompose u kg titles) ↔ Acyclic (Leads u kg (materialise titles))) ∧
      (kg.reachable = false →
        (Orderly (decompose u kg titles) ↔ Unrelated u (materialise titles))) :=
  ⟨orderly_iff_acyclic titles,
    fun hkg => (orderly_iff_acyclic titles).trans (acyclic_leads_textOnly hkg _)⟩

/-- Two stories of one component, without the graph. -/
theorem shared_name_is_circular :
    ¬Orderly (decompose asciiCharTables ⟨false, fun _ => []⟩
      [("STORY-1.1.1", "Scaffold Auth module"), ("STORY-1.1.2", "Wire Auth to Redis")]) := by
  rw [orderly_iff_acyclic, acyclic_leads_textOnly rfl]
  intro hunrelated
  exact hunrelated 0 1 _ _ (by decide) rfl rfl "auth" (by decide +kernel) (by decide +kernel)

end

end SpineFormal.Plan
