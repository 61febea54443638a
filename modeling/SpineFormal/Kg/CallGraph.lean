import SpineFormal.Base.GraphWalk
import SpineFormal.Base.QueryRows
import SpineFormal.Kg.DiffEngine

/-!
# The graph that the tools query

Nodes and edges as `_commit_filter` lets them through, and the recursive query for the callers
of a set of nodes, which blocks a node that is already on the path. Whatever writes have made the
tables, the primary key of `kg_node` holds in them.
-/

namespace SpineFormal.Kg

set_option autoImplicit false

structure Store where
  graph : Graph
  primary : (graph.nodes.rows.map NodeRow.id).Nodup

/-- What a query is scoped to, and the value of `NOW()`. -/
structure Scope where
  commitSha : Option String
  now : Int

/-- `valid_to IS NULL OR valid_to > NOW()`. -/
def current (now : Int) : Option Int → Bool
  | none => true
  | some validTo => now < validTo

/-- `_commit_filter`. -/
def Scope.passes (s : Scope) (commitSha : String) (validTo : Option Int) : Bool :=
  match s.commitSha with
  | some sha => if sha = "" then current s.now validTo else commitSha = sha
  | none => current s.now validTo

def Store.nodes (st : Store) (s : Scope) : List NodeRow :=
  st.graph.nodes.rows.filter fun n => s.passes n.commitSha n.validTo

def Store.edges (st : Store) (s : Scope) (types : List String) : List EdgeRow :=
  st.graph.edges.filter fun e => e.type ∈ types && s.passes e.commitSha e.validTo

def calls : List String := ["CALLS"]
def tests : List String := ["TESTS", "COVERS"]
def imports : List String := ["IMPORTS"]

/-- `JOIN spine_kg.kg_node n ON n.id = ...`. -/
def joinNodes {ρ : Type} (nodes : List NodeRow) (nid : ρ → Nat) (rows : List ρ) :
    List (NodeRow × ρ) :=
  rows.flatMap fun r => (nodes.filter fun n => n.id = nid r).map fun n => (n, r)

/-! ## Callers -/

structure CallerRow where
  nid : Nat
  d : Nat
  path : List Nat
  deriving DecidableEq

def callersBase (es : List EdgeRow) (seeds : List Nat) : List CallerRow :=
  (es.filter fun e => e.toId ∈ seeds).map fun e => ⟨e.fromId, 1, [e.fromId]⟩

def callersStep (es : List EdgeRow) (depth : Nat) (c : CallerRow) : List CallerRow :=
  (es.filter fun e => e.toId = c.nid ∧ c.d < depth ∧ e.fromId ∉ c.path).map fun e =>
    ⟨e.fromId, c.d + 1, c.path ++ [e.fromId]⟩

/-- The recursive query `callers`: there is no row left after `depth` rounds. -/
def callers (es : List EdgeRow) (seeds : List Nat) (depth : Nat) : List CallerRow :=
  recursiveUnion (callersStep es depth) depth (callersBase es seeds)

/-- Some edge leads from one node to the other. -/
def Link (es : List EdgeRow) (u v : Nat) : Prop := ∃ e ∈ es, e.fromId = u ∧ e.toId = v

/-- A chain of `k` edges leads from a node into the set. -/
def Reaches (es : List EdgeRow) (seeds : List Nat) (k v : Nat) : Prop :=
  1 ≤ k ∧ ∃ s, s ∈ seeds ∧ Steps (Link es) k v s

section Callers
variable {es : List EdgeRow} {seeds : List Nat} {depth : Nat}

theorem mem_callersBase {c : CallerRow} :
    c ∈ callersBase es seeds ↔ ∃ e ∈ es, e.toId ∈ seeds ∧ c = ⟨e.fromId, 1, [e.fromId]⟩ := by
  rw [callersBase, List.mem_map]
  simp only [List.mem_filter, decide_eq_true_iff]
  constructor
  · rintro ⟨e, ⟨he, hto⟩, rfl⟩
    exact ⟨e, he, hto, rfl⟩
  · rintro ⟨e, he, hto, rfl⟩
    exact ⟨e, ⟨he, hto⟩, rfl⟩

theorem mem_callersStep {c c' : CallerRow} :
    c' ∈ callersStep es depth c ↔ ∃ e ∈ es, e.toId = c.nid ∧ c.d < depth ∧ e.fromId ∉ c.path ∧
      c' = ⟨e.fromId, c.d + 1, c.path ++ [e.fromId]⟩ := by
  rw [callersStep, List.mem_map]
  simp only [List.mem_filter, decide_eq_true_iff]
  constructor
  · rintro ⟨e, ⟨he, hto, hd, hpath⟩, rfl⟩
    exact ⟨e, he, hto, hd, hpath, rfl⟩
  · rintro ⟨e, he, hto, hd, hpath, rfl⟩
    exact ⟨e, ⟨he, hto, hd, hpath⟩, rfl⟩

theorem callersStep_size (c : CallerRow) :
    ∀ c' ∈ callersStep es depth c, c.d < depth ∧ c'.d = c.d + 1 := by
  intro c' hc'
  obtain ⟨e, -, -, hd, -, rfl⟩ := mem_callersStep.mp hc'
  exact ⟨hd, rfl⟩

/-- The recursion ends by itself: more rounds add no row. -/
theorem callers_stable (m : Nat) : recursiveUnion (callersStep es depth) (depth + m)
    (callersBase es seeds) = callers es seeds depth := by
  refine recursiveUnion_stable callersStep_size m fun b hb => ?_
  omega

theorem reaches_iff_arrives {k v : Nat} : Reaches es seeds k v ↔
    Arrives (fun v => ∃ s, s ∈ seeds ∧ Link es v s) (fun u v => Link es v u) k v :=
  (arrives_iff_steps (S := fun s => s ∈ seeds)).symm

theorem Reaches.exists_link {k v : Nat} (h : Reaches es seeds k v) :
    ∃ e ∈ es, e.toId ∈ seeds := by
  obtain ⟨hpos, s, hs, hsteps⟩ := h
  obtain ⟨k, rfl⟩ : ∃ j, k = j + 1 := ⟨k - 1, by omega⟩
  obtain ⟨u, -, e, he, -, rfl⟩ := hsteps.exists_last
  exact ⟨e, he, hs⟩

/-- What a row says: it reaches a seed, and so does every node on its path, no further away. -/
structure CallerRow.Sound (es : List EdgeRow) (seeds : List Nat) (depth : Nat) (c : CallerRow) :
    Prop where
  reaches : Reaches es seeds c.d c.nid
  within : c.d ≤ depth
  path : ∀ x ∈ c.path, ∃ j ≤ c.d, Reaches es seeds j x

theorem callers_sound (hdepth : 1 ≤ depth) :
    ∀ c ∈ callers es seeds depth, c.Sound es seeds depth := by
  refine recursiveUnion_invariant ?_ ?_
  · intro c hc
    obtain ⟨e, he, hto, rfl⟩ := mem_callersBase.mp hc
    have hreach : Reaches es seeds 1 e.fromId :=
      ⟨Nat.le_refl 1, e.toId, hto, .single ⟨e, he, rfl, rfl⟩⟩
    refine ⟨hreach, hdepth, fun x hx => ⟨1, Nat.le_refl 1, ?_⟩⟩
    exact List.mem_singleton.mp hx ▸ hreach
  · intro c hc c' hc'
    obtain ⟨e, he, hto, hd, -, rfl⟩ := mem_callersStep.mp hc'
    obtain ⟨-, s, hs, hsteps⟩ := hc.reaches
    have hreach : Reaches es seeds (c.d + 1) e.fromId :=
      ⟨Nat.le_add_left 1 _, s, hs, .head ⟨e, he, rfl, hto⟩ hsteps⟩
    refine ⟨hreach, hd, fun x hx => ?_⟩
    rcases List.mem_append.mp hx with hx | hx
    · obtain ⟨j, hj, hxj⟩ := hc.path x hx
      exact ⟨j, Nat.le_succ_of_le hj, hxj⟩
    · exact ⟨c.d + 1, Nat.le_refl _, List.mem_singleton.mp hx ▸ hreach⟩

/-- Where a node is reached first, the blocking of cycles does not stand in the way. -/
theorem callers_complete {k v : Nat}
    (h : FirstArrival (fun v => ∃ s, s ∈ seeds ∧ Link es v s) (fun u v => Link es v u) k v)
    (hk : k ≤ depth) : ∃ c ∈ callers es seeds depth, c.nid = v ∧ c.d = k := by
  have hpos : ∀ b ∈ callersBase es seeds, 1 ≤ b.d := by
    intro b hb
    obtain ⟨e, -, -, rfl⟩ := mem_callersBase.mp hb
    exact Nat.le_refl 1
  induction k generalizing v with
  | zero => exact absurd h.1.pos (by omega)
  | succ k ih =>
    by_cases hk0 : k = 0
    · subst hk0
      obtain ⟨s, hs, e, he, hfrom, rfl⟩ := Arrives.one_iff.mp h.1
      refine ⟨⟨e.fromId, 1, [e.fromId]⟩, ?_, hfrom, rfl⟩
      exact mem_recursiveUnion.mpr ⟨0, Nat.zero_le _, _, mem_callersBase.mpr ⟨e, he, hs, rfl⟩,
        .refl _⟩
    · obtain ⟨u, hu, e, he, hfrom, hto⟩ := h.pred (by omega)
      obtain ⟨c, hc, rfl, hd⟩ := ih hu (by omega)
      have hpath : e.fromId ∉ c.path := by
        intro hmem
        obtain ⟨j, hj, hreach⟩ := (callers_sound (by omega) c hc).path _ hmem
        have hle := h.2 j (reaches_iff_arrives.mp (hfrom ▸ hreach))
        omega
      refine ⟨⟨e.fromId, c.d + 1, c.path ++ [e.fromId]⟩, ?_, hfrom, congrArg (· + 1) hd⟩
      exact recursiveUnion_step hpos callersStep_size hc
        (mem_callersStep.mpr ⟨e, he, hto, by omega, hpath, rfl⟩)

/-- The distances within the bound, and the rows that show them. -/
theorem callers_cover {k v : Nat} (h : Reaches es seeds k v) (hk : k ≤ depth) :
    ∃ c ∈ callers es seeds depth, c.nid = v ∧ c.d ≤ k := by
  obtain ⟨j, hj, hfirst⟩ := (reaches_iff_arrives.mp h).exists_first
  obtain ⟨c, hc, hnid, rfl⟩ := callers_complete hfirst (hj.trans hk)
  exact ⟨c, hc, hnid, hj⟩

end Callers

/-! ## Rows joined with their nodes -/

section Join
variable {ρ : Type} {nodes : List NodeRow} {nid : ρ → Nat} {rows : List ρ}

theorem mem_joinNodes {n : NodeRow} {r : ρ} :
    (n, r) ∈ joinNodes nodes nid rows ↔ n ∈ nodes ∧ r ∈ rows ∧ n.id = nid r := by
  rw [joinNodes, List.mem_flatMap]
  constructor
  · rintro ⟨r', hr', h⟩
    obtain ⟨n', hn', hpair⟩ := List.mem_map.mp h
    obtain ⟨rfl, rfl⟩ := Prod.mk.inj hpair
    obtain ⟨hn', hid⟩ := List.mem_filter.mp hn'
    exact ⟨hn', hr', of_decide_eq_true hid⟩
  · rintro ⟨hn, hr, hid⟩
    exact ⟨r, hr, List.mem_map.mpr ⟨n, List.mem_filter.mpr ⟨hn, decide_eq_true hid⟩, rfl⟩⟩

end Join

section Nodes
variable {st : Store} {s : Scope}

theorem mem_nodes {n : NodeRow} :
    n ∈ st.nodes s ↔ n ∈ st.graph.nodes.rows ∧ s.passes n.commitSha n.validTo = true :=
  List.mem_filter

theorem id_inj {n n' : NodeRow} (hn : n ∈ st.nodes s) (hn' : n' ∈ st.nodes s) (h : n.id = n'.id) :
    n = n' :=
  List.inj_on_of_nodup_map st.primary (mem_nodes.mp hn).1 (mem_nodes.mp hn').1 h

theorem nodeId_inj {n n' : NodeRow} (hn : n ∈ st.nodes s) (hn' : n' ∈ st.nodes s)
    (h : n.nodeId = n'.nodeId) : n = n' :=
  List.inj_on_of_nodup_map st.graph.nodes.unique (mem_nodes.mp hn).1 (mem_nodes.mp hn').1 h

/-- The external ids of some nodes repeat exactly when their ids do. -/
theorem nodup_nodeId_iff {ns : List NodeRow} (h : ∀ n ∈ ns, n ∈ st.nodes s) :
    (ns.map NodeRow.nodeId).Nodup ↔ (ns.map NodeRow.id).Nodup := by
  rw [List.Nodup, List.Nodup, List.pairwise_map, List.pairwise_map]
  apply List.Pairwise.iff_of_mem
  intro n n' hn hn'
  exact not_congr ⟨fun heq => congrArg NodeRow.id (nodeId_inj (h n hn) (h n' hn') heq),
    fun heq => congrArg NodeRow.nodeId (id_inj (h n hn) (h n' hn') heq)⟩

end Nodes

end SpineFormal.Kg
