import SpineFormal.Kg.FindCallers

/-!
# The impact of a change

`impact_radius` of `mcp/tools/kg.py`, from the resolved seeds on: one query for the callers of
the seeds, their importers, their tests and the tests of the callers.
-/

namespace SpineFormal.Kg

set_option autoImplicit false

inductive ImpactKind where
  | caller | test | importer | testViaCaller
  deriving DecidableEq

/-- A row of `combined`. -/
structure ImpactRow where
  nid : Nat
  impactDistance : Nat
  kind : ImpactKind

structure ImpactedNode where
  nodeId : String
  type : String
  path : String
  impactDistance : Nat
  impactKind : ImpactKind

structure ImpactRadiusOutput where
  impacted : List ImpactedNode
  directCallerCount : Nat
  directTestCount : Nat
  importerCount : Nat
  totalImpact : Nat

abbrev ImpactRecord := NodeRow × ImpactRow

section
variable (st : Store) (s : Scope) (seeds : List Nat)

def callerSet (o : RowOrder CallerRow) : List CallerRow :=
  distinctOn CallerRow.nid
    (orderBy o (fun c => toLex (c.nid, c.d)) (callers (st.edges s calls) seeds 3))

def testsBranch (includeTests : Bool) : List ImpactRow :=
  if includeTests then
    ((st.edges s tests).filter fun e => e.toId ∈ seeds).map fun e => ⟨e.fromId, 1, .test⟩
  else []

def testViaCallerBranch (callerIds : List Nat) (includeTests : Bool) : List ImpactRow :=
  if includeTests then
    ((st.edges s tests).filter fun e => e.toId ∈ callerIds).map fun e =>
      ⟨e.fromId, 2, .testViaCaller⟩
  else []

/-- The sub-select of the second level of importers: every row of the table, closed ones too. -/
def importerIds : List Nat :=
  (st.graph.edges.filter fun e => e.toId ∈ seeds ∧ e.type ∈ imports).map EdgeRow.fromId

def importers : List ImpactRow :=
  (((st.edges s imports).filter fun e => e.toId ∈ seeds).map fun e => ⟨e.fromId, 1, .importer⟩) ++
    ((st.edges s imports).filter fun e => e.toId ∈ importerIds st seeds).map fun e =>
      ⟨e.fromId, 2, .importer⟩

def combined (o : RowOrder CallerRow) (includeTests : Bool) : List ImpactRow :=
  let cs := callerSet st s seeds o
  (cs.map fun c => ⟨c.nid, c.d, .caller⟩) ++ testsBranch st s seeds includeTests ++
    importers st s seeds ++ testViaCallerBranch st s (cs.map CallerRow.nid) includeTests

/-- The rows before the cap. -/
def impactRecords (o : RowOrder CallerRow) (o' : RowOrder ImpactRecord) (includeTests : Bool) :
    List ImpactRecord :=
  distinctOn (fun r => r.1.id) (orderBy o' (fun r => toLex (r.1.id, r.2.impactDistance))
    (joinNodes (st.nodes s) ImpactRow.nid (combined st s seeds o includeTests)))

def impactedNode (r : ImpactRecord) : ImpactedNode :=
  ⟨r.1.nodeId, r.1.type, r.1.path.getD "", r.2.impactDistance, r.2.kind⟩

def impactRadius (o : RowOrder CallerRow) (o' : RowOrder ImpactRecord) (includeTests : Bool) :
    ImpactRadiusOutput :=
  if seeds = [] then ⟨[], 0, 0, 0, 0⟩
  else
    let impacted := ((impactRecords st s seeds o o' includeTests).take 5000).map impactedNode
    { impacted := impacted
      directCallerCount :=
        impacted.countP fun x => x.impactDistance = 1 && x.impactKind = .caller
      directTestCount := impacted.countP fun x => x.impactDistance = 1 && x.impactKind = .test
      importerCount := impacted.countP fun x => x.impactKind = .importer
      totalImpact := impacted.length }

/-! ## The specification -/

/-- The ways in which a change of the seeds reaches a node, each with its distance. -/
inductive Impact (includeTests : Bool) (v : Nat) : Nat → Prop where
  | caller {k : Nat} : k ≤ 3 → Reaches (st.edges s calls) seeds k v → Impact includeTests v k
  | importer {k : Nat} : k ≤ 2 → Reaches (st.edges s imports) seeds k v → Impact includeTests v k
  | test {seed : Nat} : includeTests = true → seed ∈ seeds → Link (st.edges s tests) v seed →
      Impact includeTests v 1
  | testViaCaller {c k : Nat} : includeTests = true → k ≤ 3 →
      Reaches (st.edges s calls) seeds k c → Link (st.edges s tests) v c → Impact includeTests v 2

structure ExactImpact (includeTests : Bool) (out : List ImpactedNode) : Prop where
  once : (out.map ImpactedNode.nodeId).Nodup
  exact : ∀ nodeId k, (∃ x ∈ out, x.nodeId = nodeId ∧ x.impactDistance = k) ↔
    ∃ n ∈ st.nodes s, n.nodeId = nodeId ∧ IsLeast {k | Impact st s seeds includeTests n.id k} k

/-- The node imports one that has some IMPORTS row into a seed, live or closed. -/
def ImportsImporter (v : Nat) : Prop :=
  ∃ u, Link (st.edges s imports) v u ∧
    ∃ e ∈ st.graph.edges, e.type ∈ imports ∧ e.fromId = u ∧ e.toId ∈ seeds

/-- A live node that does so is within distance two for some other reason as well. -/
def NoStaleImport (includeTests : Bool) : Prop :=
  ∀ n ∈ st.nodes s, ImportsImporter st s seeds n.id →
    ∃ k ≤ 2, Impact st s seeds includeTests n.id k

end

section
variable {st : Store} {s : Scope} {seeds : List Nat} {o : RowOrder CallerRow}
  {o' : RowOrder ImpactRecord} {includeTests : Bool}

theorem callerSet_least : LeastPerKey CallerRow.nid CallerRow.d
    (callers (st.edges s calls) seeds 3) (callerSet st s seeds o) :=
  distinctOn_orderBy o _ _ _

theorem callerSet_sound {c : CallerRow} (hc : c ∈ callerSet st s seeds o) :
    c.d ≤ 3 ∧ Reaches (st.edges s calls) seeds c.d c.nid := by
  have hsound := callers_sound (by decide) c (callerSet_least.least c hc).1
  exact ⟨hsound.within, hsound.reaches⟩

theorem callerSet_cover {k v : Nat} (hk : k ≤ 3) (h : Reaches (st.edges s calls) seeds k v) :
    ∃ c ∈ callerSet st s seeds o, c.nid = v ∧ c.d ≤ k := by
  obtain ⟨c, hc, hnid, hle⟩ := callers_cover h hk
  obtain ⟨c', hc', hnid'⟩ := callerSet_least.covers c hc
  exact ⟨c', hc', hnid'.trans hnid, ((callerSet_least.least c' hc').2 c hc hnid'.symm).trans hle⟩

theorem mem_callerSet_nid {v : Nat} : v ∈ (callerSet st s seeds o).map CallerRow.nid ↔
    ∃ k ≤ 3, Reaches (st.edges s calls) seeds k v := by
  constructor
  · intro h
    obtain ⟨c, hc, rfl⟩ := List.mem_map.mp h
    obtain ⟨hle, hreach⟩ := callerSet_sound hc
    exact ⟨c.d, hle, hreach⟩
  · rintro ⟨k, hk, hreach⟩
    obtain ⟨c, hc, rfl, -⟩ := callerSet_cover (o := o) hk hreach
    exact List.mem_map_of_mem hc

/-- The members of a branch of the union. -/
theorem mem_branch {es : List EdgeRow} {ids : List Nat} {d : Nat} {kind : ImpactKind}
    {r : ImpactRow} :
    r ∈ ((es.filter fun e => e.toId ∈ ids).map fun e => (⟨e.fromId, d, kind⟩ : ImpactRow)) ↔
      (∃ u ∈ ids, Link es r.nid u) ∧ r = ⟨r.nid, d, kind⟩ := by
  simp only [List.mem_map, List.mem_filter, decide_eq_true_iff]
  constructor
  · rintro ⟨e, ⟨he, hto⟩, rfl⟩
    exact ⟨⟨e.toId, hto, e, he, rfl, rfl⟩, rfl⟩
  · rintro ⟨⟨u, hu, e, he, hfrom, rfl⟩, hr⟩
    exact ⟨e, ⟨he, hu⟩, by rw [hr, hfrom]⟩

theorem mem_importerIds {u : Nat} : u ∈ importerIds st seeds ↔
    ∃ e ∈ st.graph.edges, e.type ∈ imports ∧ e.fromId = u ∧ e.toId ∈ seeds := by
  rw [importerIds, List.mem_map]
  simp only [List.mem_filter, decide_eq_true_iff]
  constructor
  · rintro ⟨e, ⟨he, hto, htype⟩, rfl⟩
    exact ⟨e, he, htype, rfl, hto⟩
  · rintro ⟨e, he, htype, rfl, hto⟩
    exact ⟨e, ⟨he, hto, htype⟩, rfl⟩

/-- What the query counts as impact: stale imports as well, at distance two. -/
def QueryImpact (st : Store) (s : Scope) (seeds : List Nat) (includeTests : Bool) (v k : Nat) :
    Prop :=
  Impact st s seeds includeTests v k ∨ k = 2 ∧ ImportsImporter st s seeds v

theorem combined_sound {r : ImpactRow} (hr : r ∈ combined st s seeds o includeTests) :
    QueryImpact st s seeds includeTests r.nid r.impactDistance := by
  simp only [combined, importers, List.mem_append] at hr
  rcases hr with ((hr | hr) | hr | hr) | hr
  · obtain ⟨c, hc, rfl⟩ := List.mem_map.mp hr
    obtain ⟨hle, hreach⟩ := callerSet_sound hc
    exact .inl (.caller hle hreach)
  · rw [testsBranch] at hr
    split at hr
    · rename_i htests
      obtain ⟨⟨seed, hseed, hlink⟩, heq⟩ := mem_branch.mp hr
      rw [heq]
      exact .inl (.test htests hseed hlink)
    · cases hr
  · obtain ⟨⟨seed, hseed, hlink⟩, heq⟩ := mem_branch.mp hr
    rw [heq]
    exact .inl (.importer (Nat.le_succ 1) ⟨Nat.le_refl 1, seed, hseed, .single hlink⟩)
  · obtain ⟨⟨u, hu, hlink⟩, heq⟩ := mem_branch.mp hr
    rw [heq]
    exact .inr ⟨rfl, u, hlink, mem_importerIds.mp hu⟩
  · rw [testViaCallerBranch] at hr
    split at hr
    · rename_i htests
      obtain ⟨⟨c, hc, hlink⟩, heq⟩ := mem_branch.mp hr
      obtain ⟨k, hk, hreach⟩ := mem_callerSet_nid.mp hc
      rw [heq]
      exact .inl (.testViaCaller htests hk hreach hlink)
    · cases hr

/-- A live edge is an edge. -/
theorem importsImporter_of_steps {v seed : Nat} (hseed : seed ∈ seeds)
    (h : Steps (Link (st.edges s imports)) 2 v seed) : ImportsImporter st s seeds v := by
  obtain ⟨u, hvu, hus⟩ := Steps.succ_iff.mp h
  obtain ⟨e, he, hfrom, rfl⟩ := Steps.one_iff.mp hus
  obtain ⟨hrow, hpass⟩ := List.mem_filter.mp he
  rw [Bool.and_eq_true, decide_eq_true_iff] at hpass
  exact ⟨u, hvu, e, hrow, hpass.1, hfrom, hseed⟩

theorem combined_cover {v k : Nat} (h : QueryImpact st s seeds includeTests v k) :
    ∃ r ∈ combined st s seeds o includeTests, r.nid = v ∧ r.impactDistance ≤ k := by
  have hstale : ImportsImporter st s seeds v →
      (⟨v, 2, .importer⟩ : ImpactRow) ∈ combined st s seeds o includeTests := by
    rintro ⟨u, hlink, hu⟩
    simp only [combined, importers, List.mem_append]
    exact .inl (.inr (.inr (mem_branch.mpr ⟨⟨u, mem_importerIds.mpr hu, hlink⟩, rfl⟩)))
  rcases h with h | ⟨rfl, h⟩
  · cases h with
    | caller hk hreach =>
      obtain ⟨c, hc, hnid, hle⟩ := callerSet_cover (o := o) hk hreach
      refine ⟨⟨c.nid, c.d, .caller⟩, ?_, hnid, hle⟩
      simp only [combined, List.mem_append]
      exact .inl (.inl (.inl (List.mem_map.mpr ⟨c, hc, rfl⟩)))
    | importer hk hreach =>
      obtain ⟨hpos, seed, hseed, hsteps⟩ := hreach
      rcases Nat.lt_or_ge 1 k with hk1 | hk1
      · obtain rfl : k = 2 := by omega
        exact ⟨_, hstale (importsImporter_of_steps hseed hsteps), rfl, Nat.le_refl 2⟩
      · obtain rfl := Nat.le_antisymm hk1 hpos
        refine ⟨⟨v, 1, .importer⟩, ?_, rfl, Nat.le_refl 1⟩
        simp only [combined, importers, List.mem_append]
        exact .inl (.inr (.inl (mem_branch.mpr ⟨⟨seed, hseed, Steps.one_iff.mp hsteps⟩, rfl⟩)))
    | @test seed htests hseed hlink =>
      refine ⟨⟨v, 1, .test⟩, ?_, rfl, Nat.le_refl 1⟩
      simp only [combined, List.mem_append, testsBranch, if_pos htests]
      exact .inl (.inl (.inr (mem_branch.mpr ⟨⟨seed, hseed, hlink⟩, rfl⟩)))
    | @testViaCaller c j htests hj hreach hlink =>
      refine ⟨⟨v, 2, .testViaCaller⟩, ?_, rfl, Nat.le_refl 2⟩
      simp only [combined, List.mem_append, testViaCallerBranch, if_pos htests]
      exact .inr (mem_branch.mpr ⟨⟨c, mem_callerSet_nid.mpr ⟨j, hj, hreach⟩, hlink⟩, rfl⟩)
  · exact ⟨_, hstale h, rfl, Nat.le_refl 2⟩

theorem impactRecords_least : LeastPerKey (fun r : ImpactRecord => r.1.id)
    (fun r => r.2.impactDistance)
    (joinNodes (st.nodes s) ImpactRow.nid (combined st s seeds o includeTests))
    (impactRecords st s seeds o o' includeTests) :=
  distinctOn_orderBy o' _ _ _

theorem impactRecords_live {r : ImpactRecord}
    (hr : r ∈ impactRecords st s seeds o o' includeTests) : r.1 ∈ st.nodes s :=
  (mem_joinNodes.mp (impactRecords_least.least r hr).1).1

/-- The records of a live node show the least of what the query counts. -/
theorem impactRecords_iff {n : NodeRow} (hn : n ∈ st.nodes s) (k : Nat) :
    (∃ r ∈ impactRecords st s seeds o o' includeTests, r.1.id = n.id ∧ r.2.impactDistance = k) ↔
      IsLeast {k | QueryImpact st s seeds includeTests n.id k} k := by
  refine (impactRecords_least.isLeast_iff
    (D := fun v k => (∃ n ∈ st.nodes s, n.id = v) ∧ QueryImpact st s seeds includeTests v k)
    ?_ ?_ n.id k).trans ?_
  · rintro ⟨n, r⟩ hr
    obtain ⟨hn, hr, hid⟩ := mem_joinNodes.mp hr
    exact ⟨⟨n, hn, rfl⟩, by rw [hid]; exact combined_sound hr⟩
  · rintro v j ⟨⟨n, hn, rfl⟩, h⟩
    obtain ⟨r, hr, hid, hle⟩ := combined_cover (o := o) h
    exact ⟨(n, r), mem_joinNodes.mpr ⟨hn, hr, hid.symm⟩, rfl, hle⟩
  · have hset : {k | (∃ m ∈ st.nodes s, m.id = n.id) ∧ QueryImpact st s seeds includeTests n.id k} =
        {k | QueryImpact st s seeds includeTests n.id k} :=
      Set.ext fun j => ⟨fun h => h.2, fun h => ⟨⟨n, hn, rfl⟩, h⟩⟩
    rw [hset]

theorem impactRecords_nodup :
    ((impactRecords st s seeds o o' includeTests).map fun r => r.1.nodeId).Nodup := by
  have hlive : ∀ n ∈ (impactRecords st s seeds o o' includeTests).map Prod.fst,
      n ∈ st.nodes s := by
    intro n hn
    obtain ⟨r, hr, rfl⟩ := List.mem_map.mp hn
    exact impactRecords_live hr
  have hnodes := nodup_nodeId_iff hlive
  simp only [List.map_map] at hnodes
  exact hnodes.mpr impactRecords_least.nodup

/-- Adding one distance to a set leaves its least element when a smaller one is there. -/
theorem isLeast_or_iff {D : Nat → Prop} {d : Nat} (h : ∃ j ≤ d, D j) (k : Nat) :
    IsLeast {k | D k ∨ k = d} k ↔ IsLeast {k | D k} k := by
  obtain ⟨j, hj, hDj⟩ := h
  constructor
  · rintro ⟨hk, hle⟩
    refine ⟨?_, fun i hi => hle (.inl hi)⟩
    rcases hk with hk | rfl
    · exact hk
    · exact Nat.le_antisymm hj (hle (.inl hDj)) ▸ hDj
  · rintro ⟨hk, hle⟩
    refine ⟨.inl hk, ?_⟩
    rintro i (hi | rfl)
    · exact hle hi
    · exact (hle hDj).trans hj

theorem isLeast_queryImpact_iff (v : Nat) :
    (∀ k, IsLeast {k | QueryImpact st s seeds includeTests v k} k ↔
      IsLeast {k | Impact st s seeds includeTests v k} k) ↔
      (ImportsImporter st s seeds v → ∃ k ≤ 2, Impact st s seeds includeTests v k) := by
  constructor
  · intro h hstale
    have hex : ∃ k, QueryImpact st s seeds includeTests v k := ⟨2, .inr ⟨rfl, hstale⟩⟩
    classical
    have hleast : IsLeast {k | QueryImpact st s seeds includeTests v k} (Nat.find hex) :=
      ⟨Nat.find_spec hex, fun j hj => Nat.find_min' hex hj⟩
    exact ⟨Nat.find hex, Nat.find_min' hex (.inr ⟨rfl, hstale⟩), ((h _).mp hleast).1⟩
  · intro h k
    by_cases hstale : ImportsImporter st s seeds v
    · have hset : {k | QueryImpact st s seeds includeTests v k} =
          {k | Impact st s seeds includeTests v k ∨ k = 2} :=
        Set.ext fun j => or_congr Iff.rfl (and_iff_left hstale)
      rw [hset, isLeast_or_iff (h hstale)]
    · have hset : {k | QueryImpact st s seeds includeTests v k} =
          {k | Impact st s seeds includeTests v k} :=
        Set.ext fun j => or_iff_left fun hj => hstale hj.2
      rw [hset]

/-- Whatever reaches the seeds does so by some edge into one of them. -/
theorem Impact.exists_edge {v k : Nat} (h : Impact st s seeds includeTests v k) :
    ∃ e ∈ st.edges s calls ++ st.edges s imports ++ st.edges s tests, e.toId ∈ seeds := by
  simp only [List.mem_append]
  cases h with
  | caller _ h =>
    obtain ⟨e, he, hto⟩ := h.exists_link
    exact ⟨e, .inl (.inl he), hto⟩
  | importer _ h =>
    obtain ⟨e, he, hto⟩ := h.exists_link
    exact ⟨e, .inl (.inr he), hto⟩
  | test _ hseed hlink =>
    obtain ⟨e, he, -, rfl⟩ := hlink
    exact ⟨e, .inr he, hseed⟩
  | testViaCaller _ _ h _ =>
    obtain ⟨e, he, hto⟩ := h.exists_link
    exact ⟨e, .inl (.inl he), hto⟩

/-- What a result of all records shows of one live node. -/
theorem exact_records_iff : ExactImpact st s seeds includeTests
      ((impactRecords st s seeds o o' includeTests).map impactedNode) ↔
    ∀ n ∈ st.nodes s, ∀ k, IsLeast {k | QueryImpact st s seeds includeTests n.id k} k ↔
      IsLeast {k | Impact st s seeds includeTests n.id k} k := by
  have hshown : ∀ n ∈ st.nodes s, ∀ k,
      (∃ x ∈ (impactRecords st s seeds o o' includeTests).map impactedNode,
        x.nodeId = n.nodeId ∧ x.impactDistance = k) ↔
      IsLeast {k | QueryImpact st s seeds includeTests n.id k} k := by
    intro n hn k
    have hrecords : (∃ r ∈ impactRecords st s seeds o o' includeTests,
        r.1.id = n.id ∧ r.2.impactDistance = k) ↔
          IsLeast {k | QueryImpact st s seeds includeTests n.id k} k := impactRecords_iff hn k
    rw [← hrecords]
    constructor
    · rintro ⟨x, hx, hid, rfl⟩
      obtain ⟨r, hr, rfl⟩ := List.mem_map.mp hx
      exact ⟨r, hr, congrArg NodeRow.id (nodeId_inj (impactRecords_live hr) hn hid), rfl⟩
    · rintro ⟨r, hr, hid, rfl⟩
      exact ⟨impactedNode r, List.mem_map_of_mem hr,
        congrArg NodeRow.nodeId (id_inj (impactRecords_live hr) hn hid), rfl⟩
  constructor
  · intro h n hn k
    rw [← hshown n hn, h.exact]
    constructor
    · rintro ⟨n', hn', hid, hleast⟩
      exact nodeId_inj hn' hn hid ▸ hleast
    · intro hleast
      exact ⟨n, hn, rfl, hleast⟩
  · intro h
    refine ⟨?_, fun nodeId k => ?_⟩
    · rw [List.map_map]
      exact impactRecords_nodup
    · constructor
      · rintro ⟨x, hx, rfl, rfl⟩
        obtain ⟨r, hr, rfl⟩ := List.mem_map.mp hx
        have hn := impactRecords_live hr
        exact ⟨r.1, hn, rfl, (h r.1 hn _).mp ((hshown r.1 hn _).mp
          ⟨impactedNode r, List.mem_map_of_mem hr, rfl, rfl⟩)⟩
      · rintro ⟨n, hn, rfl, hleast⟩
        exact (hshown n hn k).mpr ((h n hn k).mpr hleast)

end

/-! ## An import that was closed -/

/-- `app` imports `util`, which imported `core` until that row was closed. -/
def closedImport : Store where
  graph := {
    nodes := {
      rows := [symbolRow 1 "py:module:core", symbolRow 2 "py:module:util",
        symbolRow 3 "py:module:app"]
      nextId := 4
      unique := by decide }
    edges := [{ edgeRow "IMPORTS" 2 1 with validTo := some (-1) }, edgeRow "IMPORTS" 3 2] }
  primary := by decide

end SpineFormal.Kg
