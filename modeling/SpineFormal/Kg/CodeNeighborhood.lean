import SpineFormal.Kg.TraceDependency

/-!
# The neighborhood of a node

`code_neighborhood` of `mcp/tools/kg.py`, from the resolved anchor on. The recursive query takes
an edge in either direction and blocks a node that is already on the path, a second query takes
the least distance of each node, and a third one the edges between the nodes that are shown.
-/

namespace SpineFormal.Kg

set_option autoImplicit false

/-! ## The queries -/

/-- The edges a query may take: there is no filter on types for `None`, nor for an empty list. -/
def Store.filteredEdges (st : Store) (s : Scope) (u : TypeTables)
    (edgeTypes : Option (List String)) : List EdgeRow :=
  match sanitizeEdgeTypes u edgeTypes with
  | some (t :: ts) => st.edges s (t :: ts)
  | _ => st.graph.edges.filter fun e => s.passes e.commitSha e.validTo

structure HoodRow where
  nid : Nat
  distance : Nat
  visited : List Nat
  deriving DecidableEq

/-- `CASE WHEN e.from_node_id = h.nid THEN e.to_node_id ELSE e.from_node_id END`. -/
def otherEnd (e : EdgeRow) (nid : Nat) : Nat := if e.fromId = nid then e.toId else e.fromId

def hoodStep (es : List EdgeRow) (radius : Nat) (h : HoodRow) : List HoodRow :=
  (es.filter fun e => (e.fromId = h.nid ∨ e.toId = h.nid) ∧ h.distance < radius ∧
      otherEnd e h.nid ∉ h.visited).map fun e =>
    ⟨otherEnd e h.nid, h.distance + 1, h.visited ++ [otherEnd e h.nid]⟩

/-- The recursive query `hood`: there is no row left after `radius + 1` rounds. -/
def hood (es : List EdgeRow) (target radius : Nat) : List HoodRow :=
  recursiveUnion (hoodStep es radius) (radius + 1) [⟨target, 0, [target]⟩]

/-- The query `min_dist`. -/
def minDist (es : List EdgeRow) (target radius : Nat) : List (Nat × Nat) :=
  groupMin HoodRow.nid HoodRow.distance (hood es target radius)

/-- A node, and its row of `min_dist`. -/
abbrev NeighborRecord := NodeRow × Nat × Nat

def neighborRows (o : RowOrder NeighborRecord) (st : Store) (s : Scope) (es : List EdgeRow)
    (target radius : Nat) : List NeighborRecord :=
  orderBy o (fun r => toLex (r.2.2, r.1.id))
    (joinNodes (st.nodes s) Prod.fst (minDist es target radius))

structure NeighborNode where
  nodeId : String
  name : String
  type : String
  path : String
  distance : Nat

structure NeighborEdge where
  fromNodeId : String
  toNodeId : String
  type : String

structure CodeNeighborhoodOutput where
  nodes : List NeighborNode
  edges : List NeighborEdge

def neighborNode (r : NeighborRecord) : NeighborNode where
  nodeId := r.1.nodeId
  name := r.1.display
  type := r.1.type
  path := r.1.path.getD ""
  distance := r.2.2

/-- An edge is shown when both its ends are. -/
def neighborEdge (ids : List (Nat × String)) (e : EdgeRow) : Option NeighborEdge := do
  let fromNodeId ← ids.lookup e.fromId
  let toNodeId ← ids.lookup e.toId
  return ⟨fromNodeId, toNodeId, e.type⟩

def codeNeighborhood (u : TypeTables) (o : RowOrder NeighborRecord) (o' : RowOrder EdgeRow)
    (st : Store) (s : Scope) (edgeTypes : Option (List String)) (target radius limit : Nat) :
    CodeNeighborhoodOutput :=
  let es := st.filteredEdges s u edgeTypes
  let rows := (neighborRows o st s es target radius).take limit
  let ids := rows.map fun r => (r.1.id, r.1.nodeId)
  let between := es.filter fun e =>
    e.fromId ∈ ids.map Prod.fst ∧ e.toId ∈ ids.map Prod.fst
  { nodes := rows.map neighborNode
    edges := ((o'.arrange between).take 5000).filterMap (neighborEdge ids) }

/-! ## The specification -/

/-- The edges a caller asks for: all of them, or those of the listed types. -/
def Store.askedEdges (st : Store) (s : Scope) : Option (List String) → List EdgeRow
  | none => st.graph.edges.filter fun e => s.passes e.commitSha e.validTo
  | some types => st.edges s types

/-- Some edge joins the two nodes, in either direction. -/
def Near (es : List EdgeRow) (u v : Nat) : Prop := Link es u v ∨ Link es v u

def Distance (es : List EdgeRow) (target v k : Nat) : Prop :=
  IsLeast {k | Steps (Near es) k target v} k

structure ExactNeighborhood (st : Store) (s : Scope) (es : List EdgeRow) (target radius : Nat)
    (out : CodeNeighborhoodOutput) : Prop where
  once : (out.nodes.map NeighborNode.nodeId).Nodup
  exact : ∀ nodeId k, (∃ n ∈ out.nodes, n.nodeId = nodeId ∧ n.distance = k) ↔
    ∃ n ∈ st.nodes s, n.nodeId = nodeId ∧ k ≤ radius ∧ Distance es target n.id k

/-! ## The recursive query -/

section Hood
variable {es : List EdgeRow} {target radius : Nat}

theorem mem_hoodStep {h h' : HoodRow} : h' ∈ hoodStep es radius h ↔
    ∃ v, Near es h.nid v ∧ h.distance < radius ∧ v ∉ h.visited ∧
      h' = ⟨v, h.distance + 1, h.visited ++ [v]⟩ := by
  rw [hoodStep, List.mem_map]
  simp only [List.mem_filter, decide_eq_true_iff]
  constructor
  · rintro ⟨e, ⟨he, hends, hlt, hvisited⟩, rfl⟩
    refine ⟨otherEnd e h.nid, ?_, hlt, hvisited, rfl⟩
    by_cases hfrom : e.fromId = h.nid
    · exact .inl ⟨e, he, hfrom, (if_pos hfrom).symm⟩
    · exact .inr ⟨e, he, (if_neg hfrom).symm, hends.resolve_left hfrom⟩
  · rintro ⟨v, ⟨e, he, hfrom, hto⟩ | ⟨e, he, hfrom, hto⟩, hlt, hvisited, rfl⟩
    · have hother : otherEnd e h.nid = v := (if_pos hfrom).trans hto
      exact ⟨e, ⟨he, .inl hfrom, hlt, hother.symm ▸ hvisited⟩, by rw [hother]⟩
    · have hother : otherEnd e h.nid = v := by
        rw [otherEnd]
        split
        · rename_i hloop
          rw [hto, ← hloop, hfrom]
        · exact hfrom
      exact ⟨e, ⟨he, .inr hto, hlt, hother.symm ▸ hvisited⟩, by rw [hother]⟩

theorem hoodStep_size (h : HoodRow) : ∀ h' ∈ hoodStep es radius h,
    h.distance + 1 < radius + 1 ∧ h'.distance + 1 = h.distance + 1 + 1 := by
  intro h' hh'
  obtain ⟨v, -, hlt, -, rfl⟩ := mem_hoodStep.mp hh'
  exact ⟨Nat.succ_lt_succ hlt, rfl⟩

/-- What a row says: its node is that many steps away, and no node on its path is further. -/
structure HoodRow.Sound (es : List EdgeRow) (target radius : Nat) (h : HoodRow) : Prop where
  steps : Steps (Near es) h.distance target h.nid
  within : h.distance ≤ radius
  visited : ∀ x ∈ h.visited, ∃ j ≤ h.distance, Steps (Near es) j target x

theorem hood_sound : ∀ h ∈ hood es target radius, h.Sound es target radius := by
  refine recursiveUnion_invariant ?_ ?_
  · intro h hh
    obtain rfl := List.mem_singleton.mp hh
    refine ⟨.refl target, Nat.zero_le _, fun x hx => ⟨0, Nat.le_refl 0, ?_⟩⟩
    obtain rfl := List.mem_singleton.mp hx
    exact .refl x
  · intro h hh h' hh'
    obtain ⟨v, hnear, hlt, -, rfl⟩ := mem_hoodStep.mp hh'
    refine ⟨hh.steps.tail hnear, hlt, fun x hx => ?_⟩
    rcases List.mem_append.mp hx with hx | hx
    · obtain ⟨j, hj, hsteps⟩ := hh.visited x hx
      exact ⟨j, Nat.le_succ_of_le hj, hsteps⟩
    · exact ⟨h.distance + 1, Nat.le_refl _, List.mem_singleton.mp hx ▸ hh.steps.tail hnear⟩

/-- On a shortest way no node has been visited before. -/
theorem hood_complete {k v : Nat} (h : Distance es target v k) (hk : k ≤ radius) :
    ∃ r ∈ hood es target radius, r.nid = v ∧ r.distance = k := by
  induction k generalizing v with
  | zero =>
    obtain rfl := Steps.zero_iff.mp h.1
    exact ⟨⟨target, 0, [target]⟩,
      mem_recursiveUnion.mpr ⟨0, Nat.zero_le _, _, List.mem_singleton_self _, .refl _⟩, rfl, rfl⟩
  | succ k ih =>
    obtain ⟨u, hsteps, hnear⟩ := Steps.exists_last h.1
    have hu : Distance es target u k := by
      refine ⟨hsteps, fun j hj => ?_⟩
      have hle := h.2 (Steps.tail hj hnear)
      omega
    obtain ⟨r, hr, rfl, rfl⟩ := ih hu (by omega)
    have hvisited : v ∉ r.visited := by
      intro hmem
      obtain ⟨j, hj, hback⟩ := (hood_sound r hr).visited v hmem
      have hle := h.2 hback
      omega
    refine ⟨⟨v, r.distance + 1, r.visited ++ [v]⟩, ?_, rfl, rfl⟩
    have hbase : ∀ b ∈ [(⟨target, 0, [target]⟩ : HoodRow)], 1 ≤ b.distance + 1 := by
      intro b _
      exact Nat.le_add_left 1 _
    exact recursiveUnion_step hbase hoodStep_size hr
      (mem_hoodStep.mpr ⟨v, hnear, by omega, hvisited, rfl⟩)

theorem mem_minDist {v k : Nat} :
    (v, k) ∈ minDist es target radius ↔ k ≤ radius ∧ Distance es target v k := by
  have hsound : ∀ r ∈ hood es target radius,
      r.distance ≤ radius ∧ Steps (Near es) r.distance target r.nid := fun r hr =>
    ⟨(hood_sound r hr).within, (hood_sound r hr).steps⟩
  have hcomplete : ∀ v k, k ≤ radius ∧ Steps (Near es) k target v →
      ∃ r ∈ hood es target radius, r.nid = v ∧ r.distance ≤ k := by
    classical
    rintro v k ⟨hk, hsteps⟩
    have hex : ∃ k, Steps (Near es) k target v := ⟨k, hsteps⟩
    have hmin := Nat.find_min' hex hsteps
    have hdist : Distance es target v (Nat.find hex) :=
      ⟨Nat.find_spec hex, fun j hj => Nat.find_min' hex hj⟩
    obtain ⟨r, hr, hnid, hd⟩ := hood_complete hdist (hmin.trans hk)
    exact ⟨r, hr, hnid, hd.trans_le hmin⟩
  rw [minDist, mem_groupMin_iff (D := fun v k => k ≤ radius ∧ Steps (Near es) k target v) hsound
    hcomplete]
  constructor
  · rintro ⟨⟨hk, hsteps⟩, hle⟩
    refine ⟨hk, hsteps, fun j hj => ?_⟩
    rcases Nat.le_total j radius with hj' | hj'
    · exact hle ⟨hj', hj⟩
    · exact hk.trans hj'
  · rintro ⟨hk, hsteps, hle⟩
    exact ⟨⟨hk, hsteps⟩, fun j hj => hle hj.2⟩

end Hood

/-! ## The tool -/

section
variable {u : TypeTables} {o : RowOrder NeighborRecord} {o' : RowOrder EdgeRow} {st : Store}
  {s : Scope} {edgeTypes : Option (List String)} {es : List EdgeRow} {target radius limit : Nat}

theorem mem_neighborRows {r : NeighborRecord} : r ∈ neighborRows o st s es target radius ↔
    r.1 ∈ st.nodes s ∧ r.1.id = r.2.1 ∧ r.2.2 ≤ radius ∧ Distance es target r.2.1 r.2.2 := by
  obtain ⟨n, v, k⟩ := r
  rw [neighborRows, mem_orderBy, mem_joinNodes, mem_minDist]
  exact ⟨fun ⟨hn, hk, hid⟩ => ⟨hn, hid, hk⟩, fun ⟨hn, hid, hk⟩ => ⟨hn, hk, hid⟩⟩

theorem nodup_neighborRows :
    ((neighborRows o st s es target radius).map fun r => r.1.id).Nodup := by
  have hperm := (orderBy_perm o (fun r : NeighborRecord => toLex (r.2.2, r.1.id))
    (joinNodes (st.nodes s) Prod.fst (minDist es target radius))).map fun r => r.1.id
  rw [neighborRows, hperm.nodup_iff, ids_joinNodes (nodup_ids st s)]
  exact nodup_groupMin.sublist (List.filter_sublist.map Prod.fst)

theorem exact_neighborNodes (edges : List NeighborEdge) : ExactNeighborhood st s es target radius
    ⟨(neighborRows o st s es target radius).map neighborNode, edges⟩ where
  once := by
    have hlive : ∀ n ∈ (neighborRows o st s es target radius).map Prod.fst, n ∈ st.nodes s := by
      intro n hn
      obtain ⟨r, hr, rfl⟩ := List.mem_map.mp hn
      exact (mem_neighborRows.mp hr).1
    have hnodes := nodup_nodeId_iff hlive
    rw [List.map_map, List.map_map] at hnodes
    rw [List.map_map]
    exact hnodes.mpr nodup_neighborRows
  exact := by
    intro nodeId k
    constructor
    · rintro ⟨n, hn, rfl, rfl⟩
      obtain ⟨r, hr, rfl⟩ := List.mem_map.mp hn
      obtain ⟨hlive, hid, hle, hdist⟩ := mem_neighborRows.mp hr
      exact ⟨r.1, hlive, rfl, hle, hid ▸ hdist⟩
    · rintro ⟨n, hn, rfl, hle, hdist⟩
      refine ⟨neighborNode (n, n.id, k), List.mem_map_of_mem ?_, rfl, rfl⟩
      exact mem_neighborRows.mpr ⟨hn, rfl, hle, hdist⟩

/-- Every edge that is shown joins two nodes that are shown. -/
theorem edges_codeNeighborhood {e : NeighborEdge}
    (he : e ∈ (codeNeighborhood u o o' st s edgeTypes target radius limit).edges) :
    (∃ n ∈ (codeNeighborhood u o o' st s edgeTypes target radius limit).nodes,
      n.nodeId = e.fromNodeId) ∧
    ∃ n ∈ (codeNeighborhood u o o' st s edgeTypes target radius limit).nodes,
      n.nodeId = e.toNodeId := by
  have hshown : ∀ {rows : List NeighborRecord} {id : Nat} {nodeId : String},
      (rows.map fun r => (r.1.id, r.1.nodeId)).lookup id = some nodeId →
        ∃ n ∈ rows.map neighborNode, n.nodeId = nodeId := by
    intro rows id nodeId hlookup
    obtain ⟨before, after, hsplit, -⟩ := List.lookup_eq_some_iff.mp hlookup
    have hmem : (id, nodeId) ∈ rows.map fun r => (r.1.id, r.1.nodeId) := by
      rw [hsplit]
      exact List.mem_append_right _ List.mem_cons_self
    obtain ⟨r, hr, heq⟩ := List.mem_map.mp hmem
    exact ⟨neighborNode r, List.mem_map_of_mem hr, (Prod.mk.inj heq).2⟩
  obtain ⟨row, -, hrow⟩ := List.mem_filterMap.mp he
  obtain ⟨fromNodeId, hfrom, hrow⟩ := Option.bind_eq_some_iff.mp hrow
  obtain ⟨toNodeId, hto, hrow⟩ := Option.bind_eq_some_iff.mp hrow
  obtain rfl := Option.some.inj hrow
  exact ⟨hshown hfrom, hshown hto⟩

theorem filteredEdges_eq (hwf : ∀ types, edgeTypes = some types → ∀ et ∈ types, WellFormedType et) :
    st.filteredEdges s u edgeTypes = st.askedEdges s (edgeTypes.filter fun types => types ≠ []) := by
  cases edgeTypes with
  | none => rfl
  | some types =>
    rw [Store.filteredEdges, sanitizeEdgeTypes_eq (hwf types rfl)]
    cases types with
    | nil => rfl
    | cons t ts => rfl

end

/-! ## A list of no types -/

theorem nodup_oneCall : ([symbolRow 1 "py:function:load", symbolRow 2 "py:function:main"].map
    NodeRow.nodeId).Nodup := by decide

theorem nodup_id_oneCall : ([symbolRow 1 "py:function:load", symbolRow 2 "py:function:main"].map
    NodeRow.id).Nodup := by decide

/-- `main` calls `load`. -/
def oneCall : Store where
  graph := {
    nodes := {
      rows := [symbolRow 1 "py:function:load", symbolRow 2 "py:function:main"]
      nextId := 3
      unique := nodup_oneCall }
    edges := [edgeRow "CALLS" 2 1] }
  primary := nodup_id_oneCall

end SpineFormal.Kg
