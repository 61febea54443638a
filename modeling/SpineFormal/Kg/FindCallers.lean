import Mathlib.Data.List.Count
import SpineFormal.Kg.CallGraph

/-!
# Finding callers

`find_callers` of `mcp/tools/kg.py`, from the resolved target on: one query for the direct
callers, another for the transitive ones.
-/

namespace SpineFormal.Kg

set_option autoImplicit false

structure CallerInfo where
  nodeId : String
  name : String
  type : String
  path : String
  depth : Nat
  via : Option (List String)

/-- `COALESCE(name, node_id)`. -/
def NodeRow.display (n : NodeRow) : String := n.name.getD n.nodeId

def fetchNodeNames (st : Store) (nodeIds : List Nat) : List (Nat × String) :=
  (st.graph.nodes.rows.filter fun n => n.id ∈ nodeIds).map fun n => (n.id, n.display)

/-- A row of the result: a node, and the row of the walk it was joined with. -/
abbrev CallerRecord := NodeRow × CallerRow

/-- The ids of `path_chain`: the nodes between the caller and the target. -/
def CallerRow.chain (c : CallerRow) : List Nat := c.path.take (c.d - 1)

def callerInfo (names : List (Nat × String)) (r : CallerRecord) : CallerInfo where
  nodeId := r.1.nodeId
  name := r.1.display
  type := r.1.type
  path := r.1.path.getD ""
  depth := r.2.d
  via :=
    if 1 < r.2.d then some (r.2.chain.map fun id => (names.lookup id).getD (toString id)) else none

def directCallers (st : Store) (s : Scope) (target : Nat) : List CallerRecord :=
  joinNodes (st.nodes s) CallerRow.nid
    (((st.edges s calls).filter fun e => e.toId = target).map fun e => ⟨e.fromId, 1, []⟩)

def transitiveCallers (o : RowOrder CallerRecord) (st : Store) (s : Scope) (target depth : Nat) :
    List CallerRecord :=
  distinctOn (fun r => r.1.id) (orderBy o (fun r => toLex (r.1.id, r.2.d))
    (joinNodes (st.nodes s) CallerRow.nid (callers (st.edges s calls) [target] depth)))

def callerRecords (o : RowOrder CallerRecord) (st : Store) (s : Scope) (target depth : Nat) :
    List CallerRecord :=
  if depth = 1 then o.arrange (directCallers st s target)
  else transitiveCallers o st s target depth

def findCallers (o : RowOrder CallerRecord) (st : Store) (s : Scope) (target depth limit : Nat) :
    List CallerInfo :=
  let rows := (callerRecords o st s target depth).take limit
  rows.map (callerInfo (fetchNodeNames st (rows.flatMap fun r => r.2.chain)))

/-! ## The specification -/

/-- The length of a shortest chain of calls, where one is short enough. -/
def CallDistance (st : Store) (s : Scope) (target depth v k : Nat) : Prop :=
  IsLeast {k | 1 ≤ k ∧ k ≤ depth ∧ Steps (Link (st.edges s calls)) k v target} k

structure ExactCallers (st : Store) (s : Scope) (target depth : Nat) (out : List CallerInfo) :
    Prop where
  once : (out.map CallerInfo.nodeId).Nodup
  exact : ∀ nodeId k, (∃ c ∈ out, c.nodeId = nodeId ∧ c.depth = k) ↔
    ∃ n ∈ st.nodes s, n.nodeId = nodeId ∧ CallDistance st s target depth n.id k

/-- What the two queries are compared by. -/
def CallerInfo.entry (c : CallerInfo) : String × Nat := (c.nodeId, c.depth)

def callerEntry (r : CallerRecord) : String × Nat := (r.1.nodeId, r.2.d)

/-- No live node calls the target twice. -/
def CallsOnce (st : Store) (s : Scope) (target : Nat) : Prop :=
  ∀ n ∈ st.nodes s,
    ((st.edges s calls).filter fun e => e.fromId = n.id ∧ e.toId = target).length ≤ 1

section
variable {o : RowOrder CallerRecord} {st : Store} {s : Scope} {target depth limit : Nat}

theorem reaches_target_iff {k v : Nat} : Reaches (st.edges s calls) [target] k v ↔
    1 ≤ k ∧ Steps (Link (st.edges s calls)) k v target := by
  simp only [Reaches, List.mem_singleton, exists_eq_left]

/-- The nodes of some records, and how far they are. -/
structure Shows (st : Store) (s : Scope) (target depth : Nat) (rows : List CallerRecord) :
    Prop where
  live : ∀ r ∈ rows, r.1 ∈ st.nodes s
  distance : ∀ v k, (∃ r ∈ rows, r.1.id = v ∧ r.2.d = k) ↔
    (∃ n ∈ st.nodes s, n.id = v) ∧ CallDistance st s target depth v k

theorem Shows.live_fst {rows : List CallerRecord} (h : Shows st s target depth rows) :
    ∀ n ∈ rows.map Prod.fst, n ∈ st.nodes s := by
  intro n hn
  obtain ⟨r, hr, rfl⟩ := List.mem_map.mp hn
  exact h.live r hr

theorem Shows.exact {rows : List CallerRecord} (h : Shows st s target depth rows)
    (names : List (Nat × String)) : ExactCallers st s target depth (rows.map (callerInfo names)) ↔
      (rows.map fun r => r.1.id).Nodup := by
  have honce : ((rows.map (callerInfo names)).map CallerInfo.nodeId).Nodup ↔
      (rows.map fun r => r.1.id).Nodup := by
    have hnodes := nodup_nodeId_iff h.live_fst
    simp only [List.map_map] at hnodes ⊢
    exact hnodes
  constructor
  · exact fun hexact => honce.mp hexact.once
  · refine fun hnodup => ⟨honce.mpr hnodup, fun nodeId k => ?_⟩
    constructor
    · rintro ⟨c, hc, rfl, rfl⟩
      obtain ⟨r, hr, rfl⟩ := List.mem_map.mp hc
      exact ⟨r.1, h.live r hr, rfl, ((h.distance r.1.id r.2.d).mp ⟨r, hr, rfl, rfl⟩).2⟩
    · rintro ⟨n, hn, rfl, hdist⟩
      obtain ⟨r, hr, hid, rfl⟩ := (h.distance n.id k).mpr ⟨⟨n, hn, rfl⟩, hdist⟩
      have hrn : r.1 = n := id_inj (h.live r hr) hn hid
      exact ⟨callerInfo names r, List.mem_map_of_mem hr, congrArg NodeRow.nodeId hrn, rfl⟩

/-! ## The recursive query -/

theorem transitiveCallers_least (o : RowOrder CallerRecord) (st : Store) (s : Scope)
    (target depth : Nat) :
    LeastPerKey (fun r : CallerRecord => r.1.id) (fun r => r.2.d)
      (joinNodes (st.nodes s) CallerRow.nid (callers (st.edges s calls) [target] depth))
      (transitiveCallers o st s target depth) :=
  distinctOn_orderBy o _ _ _

theorem transitiveCallers_shows (hdepth : 1 ≤ depth) :
    Shows st s target depth (transitiveCallers o st s target depth) where
  live r hr := (mem_joinNodes.mp ((transitiveCallers_least o st s target depth).least r hr).1).1
  distance := by
    intro v k
    have hleast := (transitiveCallers_least o st s target depth).isLeast_iff
      (D := fun v k => (∃ n ∈ st.nodes s, n.id = v) ∧
        1 ≤ k ∧ k ≤ depth ∧ Steps (Link (st.edges s calls)) k v target) ?_ ?_ v k
    · rw [hleast]
      constructor
      · rintro ⟨⟨hlive, hk⟩, hle⟩
        exact ⟨hlive, hk, fun j hj => hle ⟨hlive, hj⟩⟩
      · rintro ⟨hlive, hk, hle⟩
        exact ⟨⟨hlive, hk⟩, fun j hj => hle hj.2⟩
    · rintro ⟨n, c⟩ hr
      obtain ⟨hn, hc, hid⟩ := mem_joinNodes.mp hr
      have hsound := callers_sound hdepth c hc
      obtain ⟨hpos, hsteps⟩ := reaches_target_iff.mp hsound.reaches
      exact ⟨⟨n, hn, rfl⟩, hpos, hsound.within, by rw [hid]; exact hsteps⟩
    · rintro v j ⟨⟨n, hn, rfl⟩, hpos, hj, hsteps⟩
      obtain ⟨c, hc, hid, hle⟩ := callers_cover (reaches_target_iff.mpr ⟨hpos, hsteps⟩) hj
      exact ⟨(n, c), mem_joinNodes.mpr ⟨hn, hc, hid.symm⟩, rfl, hle⟩

/-! ## The query for direct callers -/

theorem mem_directCallers {r : CallerRecord} : r ∈ directCallers st s target ↔
    r.1 ∈ st.nodes s ∧ Link (st.edges s calls) r.1.id target ∧ r.2 = ⟨r.1.id, 1, []⟩ := by
  obtain ⟨n, c⟩ := r
  rw [directCallers, mem_joinNodes]
  refine and_congr_right fun _ => ?_
  simp only [List.mem_map, List.mem_filter, decide_eq_true_iff]
  constructor
  · rintro ⟨⟨e, ⟨he, hto⟩, rfl⟩, hid⟩
    exact ⟨⟨e, he, hid.symm, hto⟩, by rw [hid]⟩
  · rintro ⟨⟨e, he, hfrom, hto⟩, rfl⟩
    exact ⟨⟨e, ⟨he, hto⟩, by rw [hfrom]⟩, rfl⟩

theorem callDistance_one {v k : Nat} :
    CallDistance st s target 1 v k ↔ k = 1 ∧ Link (st.edges s calls) v target := by
  constructor
  · rintro ⟨⟨hpos, hle, hsteps⟩, -⟩
    obtain rfl := Nat.le_antisymm hle hpos
    exact ⟨rfl, Steps.one_iff.mp hsteps⟩
  · rintro ⟨rfl, hlink⟩
    exact ⟨⟨Nat.le_refl 1, Nat.le_refl 1, Steps.one_iff.mpr hlink⟩, fun j hj => hj.1⟩

theorem directCallers_shows : Shows st s target 1 (o.arrange (directCallers st s target)) where
  live r hr := (mem_directCallers.mp ((o.perm _).mem_iff.mp hr)).1
  distance := by
    intro v k
    rw [callDistance_one]
    constructor
    · rintro ⟨r, hr, rfl, rfl⟩
      obtain ⟨hn, hlink, hc⟩ := mem_directCallers.mp ((o.perm _).mem_iff.mp hr)
      exact ⟨⟨r.1, hn, rfl⟩, by rw [hc], hlink⟩
    · rintro ⟨⟨n, hn, rfl⟩, rfl, hlink⟩
      exact ⟨(n, ⟨n.id, 1, []⟩), (o.perm _).mem_iff.mpr (mem_directCallers.mpr ⟨hn, hlink, rfl⟩),
        rfl, rfl⟩

/-- A row for each row whose node is live. -/
theorem ids_joinNodes {ρ : Type} {nodes : List NodeRow} (h : (nodes.map NodeRow.id).Nodup)
    (nid : ρ → Nat) (rows : List ρ) : (joinNodes nodes nid rows).map (fun r => r.1.id) =
      (rows.filter fun r => nid r ∈ nodes.map NodeRow.id).map nid := by
  have hone : ∀ k, (nodes.filter fun n => n.id = k).map NodeRow.id =
      if k ∈ nodes.map NodeRow.id then [k] else [] := by
    intro k
    have hcomm : (nodes.filter fun n => n.id = k).map NodeRow.id =
        (nodes.map NodeRow.id).filter fun i => i = k := by
      rw [List.filter_map]
      rfl
    rw [hcomm]
    split
    · rename_i hk
      rw [List.filter_eq, List.count_eq_one_of_mem h hk, List.replicate_one]
    · rename_i hk
      rw [List.filter_eq, List.count_eq_zero_of_not_mem hk, List.replicate_zero]
  induction rows with
  | nil => rfl
  | cons r rows ih =>
    have hcons : joinNodes nodes nid (r :: rows) =
        ((nodes.filter fun n => n.id = nid r).map fun n => (n, r)) ++ joinNodes nodes nid rows := rfl
    rw [hcons, List.map_append, ih, List.map_map]
    have hmap : ((nodes.filter fun n => n.id = nid r).map ((fun r => r.1.id) ∘ fun n => (n, r))) =
        (nodes.filter fun n => n.id = nid r).map NodeRow.id := rfl
    rw [hmap, hone]
    by_cases hr : nid r ∈ nodes.map NodeRow.id
    · rw [if_pos hr, List.filter_cons_of_pos (by simpa using hr), List.map_cons,
        List.singleton_append]
    · rw [if_neg hr, List.filter_cons_of_neg (by simpa using hr), List.nil_append]

theorem nodup_ids (st : Store) (s : Scope) : ((st.nodes s).map NodeRow.id).Nodup :=
  st.primary.sublist (List.filter_sublist.map NodeRow.id)

/-- How often a node comes among the direct callers: once for each call it makes. -/
theorem count_directCallers {n : NodeRow} (hn : n ∈ st.nodes s) :
    ((directCallers st s target).map fun r => r.1.id).count n.id =
      ((st.edges s calls).filter fun e => e.fromId = n.id ∧ e.toId = target).length := by
  have hlive : n.id ∈ (st.nodes s).map NodeRow.id := List.mem_map_of_mem hn
  rw [directCallers, ids_joinNodes (nodup_ids st s), List.count, List.countP_map, List.countP_filter,
    List.countP_map, List.countP_filter, List.countP_eq_length_filter]
  refine congrArg List.length (List.filter_congr fun e _ => ?_)
  by_cases hfrom : e.fromId = n.id
  · simp only [hfrom, hlive, decide_true, true_and, Function.comp_apply]
    simp
  · simp [hfrom]

theorem nodup_directCallers_iff :
    ((directCallers st s target).map fun r => r.1.id).Nodup ↔ CallsOnce st s target := by
  rw [List.nodup_iff_count_le_one]
  constructor
  · intro h n hn
    exact count_directCallers hn ▸ h n.id
  · intro h v
    by_cases hv : v ∈ (directCallers st s target).map fun r => r.1.id
    · obtain ⟨r, hr, rfl⟩ := List.mem_map.mp hv
      have hn := (mem_directCallers.mp hr).1
      exact count_directCallers hn ▸ h r.1 hn
    · rw [List.count_eq_zero_of_not_mem hv]
      exact Nat.zero_le 1

/-! ## The tool -/

theorem findCallers_of_limit (hlimit : (callerRecords o st s target depth).length ≤ limit) :
    ∃ names, findCallers o st s target depth limit =
      (callerRecords o st s target depth).map (callerInfo names) := by
  rw [findCallers, List.take_of_length_le hlimit]
  exact ⟨_, rfl⟩

theorem entries_map (names : List (Nat × String)) (rows : List CallerRecord) :
    (rows.map (callerInfo names)).map CallerInfo.entry = rows.map callerEntry := by
  rw [List.map_map]
  rfl

/-- Two lists of records that show the same distances and repeat no node are equal up to order. -/
theorem Shows.perm {rows rows' : List CallerRecord} (h : Shows st s target depth rows)
    (h' : Shows st s target depth rows') (hnodup : (rows.map fun r => r.1.id).Nodup)
    (hnodup' : (rows'.map fun r => r.1.id).Nodup) :
    (rows.map callerEntry).Perm (rows'.map callerEntry) := by
  have hentries : ∀ {rows : List CallerRecord}, Shows st s target depth rows →
      (rows.map fun r => r.1.id).Nodup → (rows.map callerEntry).Nodup := by
    intro rows h hnodup
    have hnodes := (nodup_nodeId_iff h.live_fst).mpr (by rw [List.map_map]; exact hnodup)
    rw [List.map_map] at hnodes
    refine List.Nodup.of_map Prod.fst ?_
    rw [List.map_map]
    exact hnodes
  have hsub : ∀ {rows rows' : List CallerRecord}, Shows st s target depth rows →
      Shows st s target depth rows' → ∀ p ∈ rows.map callerEntry, p ∈ rows'.map callerEntry := by
    intro rows rows' h h' p hp
    obtain ⟨r, hr, rfl⟩ := List.mem_map.mp hp
    obtain ⟨r', hr', hid, hd⟩ := (h'.distance r.1.id r.2.d).mpr
      ((h.distance r.1.id r.2.d).mp ⟨r, hr, rfl, rfl⟩)
    have hnode : r'.1 = r.1 := id_inj (h'.live r' hr') (h.live r hr) hid
    refine List.mem_map.mpr ⟨r', hr', ?_⟩
    rw [callerEntry, callerEntry, hnode, hd]
  exact (List.perm_ext_iff_of_nodup (hentries h hnodup) (hentries h' hnodup')).mpr fun p =>
    ⟨hsub h h' p, hsub h' h p⟩

end

/-! ## A function that calls twice -/

def symbolRow (id : Nat) (nodeId : String) : NodeRow where
  id := id
  nodeId := nodeId
  type := "Function"
  subtype := none
  repo := "acme/app"
  commitSha := "c1"
  path := some "app.py"
  name := none
  properties := .obj []
  validTo := none

def edgeRow (type : String) (fromId toId : Nat) : EdgeRow :=
  ⟨fromId, toId, type, "c1", .obj [], none⟩

/-- `main` calls `load` on two lines. -/
def twoCalls : Store where
  graph := {
    nodes := {
      rows := [symbolRow 1 "py:function:load", symbolRow 2 "py:function:main"]
      nextId := 3
      unique := by decide }
    edges := [edgeRow "CALLS" 2 1, edgeRow "CALLS" 2 1] }
  primary := by decide

def headScope : Scope := ⟨none, 0⟩

end SpineFormal.Kg
