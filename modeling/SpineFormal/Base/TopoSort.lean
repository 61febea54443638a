import Mathlib.Algebra.Order.Ring.Int
import Mathlib.Data.Fintype.Card
import Mathlib.Data.List.Dedup
import Mathlib.Data.Set.Finite.Basic
import Mathlib.Logic.Function.Basic
import Mathlib.Logic.Relation
import Mathlib.Order.WellFounded

/-!
# Topological sorting by in-degrees

Nodes without open predecessors wait in a queue; the first is taken, and its successors lose
a predecessor for every edge. The queue is kept in any order. Edges may repeat and may run in
cycles; what is on a cycle or behind one is never taken.
-/

namespace SpineFormal.TopoSort

open Relation
set_option autoImplicit false

universe u

/-! ## Cycles -/

section
variable {α : Type u} {R : α → α → Prop}

/-- On a cycle, or behind one. -/
def BehindCycle (R : α → α → Prop) (v : α) : Prop := ∃ c, TransGen R c c ∧ ReflTransGen R c v

/-- Going back from one predecessor to the next in a finite set comes round. -/
theorem exists_cycle {A : Set α} (hfinite : A.Finite) (hnonempty : A.Nonempty)
    (hpred : ∀ w ∈ A, ∃ u ∈ A, R u w) : ∃ c ∈ A, TransGen R c c := by
  by_contra hnone
  have hacyclic : ∀ c ∈ A, ¬TransGen R c c := fun c hc h => hnone ⟨c, hc, h⟩
  have : Finite A := hfinite
  have : IsTrans A fun a b => TransGen R a.1 b.1 := ⟨fun _ _ _ => TransGen.trans⟩
  have : Std.Irrefl fun a b : A => TransGen R a.1 b.1 := ⟨fun a => hacyclic a.1 a.2⟩
  have hwf : WellFounded fun a b : A => TransGen R a.1 b.1 :=
    Finite.wellFounded_of_trans_of_irrefl _
  obtain ⟨start, hstart⟩ := hnonempty
  obtain ⟨m, -, hmin⟩ := hwf.has_min Set.univ ⟨⟨start, hstart⟩, trivial⟩
  obtain ⟨u, hu, hum⟩ := hpred m.1 m.2
  exact hmin ⟨u, hu⟩ trivial (TransGen.single hum)

/-- In a finite set where everything has a predecessor, everything is behind a cycle. -/
theorem behindCycle_of_pred {A : Set α} (hfinite : A.Finite)
    (hpred : ∀ w ∈ A, ∃ u ∈ A, R u w) {v : α} (hv : v ∈ A) : BehindCycle R v := by
  have hsub : {w | w ∈ A ∧ ReflTransGen R w v}.Finite := hfinite.subset fun w hw => hw.1
  obtain ⟨c, hc, hcycle⟩ := exists_cycle hsub ⟨v, hv, ReflTransGen.refl⟩ (R := R)
    (by
      rintro w ⟨hw, hwv⟩
      obtain ⟨u, hu, huw⟩ := hpred w hw
      exact ⟨u, ⟨hu, hwv.head huw⟩, huw⟩)
  exact ⟨c, hcycle, hc.2⟩

end

/-! ## The queue -/

section
variable {α : Type u} [DecidableEq α]

structure Queue (α : Type u) where
  ready : List α
  inDeg : α → ℤ
  ordered : List α

variable (sort : List α → List α)

/-- One predecessor less. -/
def release (q : Queue α) (v : α) : Queue α where
  ready := if q.inDeg v - 1 = 0 then sort (q.ready ++ [v]) else q.ready
  inDeg := Function.update q.inDeg v (q.inDeg v - 1)
  ordered := q.ordered

def successors (edges : List (α × α)) (v : α) : List α :=
  (edges.filter fun e => decide (e.1 = v)).map Prod.snd

/-- What is taken releases its successors. -/
def take (edges : List (α × α)) (q : Queue α) (v : α) (rest : List α) : Queue α :=
  (sort (successors edges v)).foldl (release sort) ⟨rest, q.inDeg, q.ordered ++ [v]⟩

/-- At most `fuel` times. -/
def drain (edges : List (α × α)) : ℕ → Queue α → Queue α
  | 0, q => q
  | fuel + 1, q =>
    match q.ready with
    | [] => q
    | v :: rest => drain edges fuel (take sort edges q v rest)

def start (nodes : List α) (edges : List (α × α)) : Queue α :=
  let inDeg (v : α) : ℤ := edges.countP fun e => decide (e.2 = v)
  ⟨sort (nodes.filter fun v => decide (inDeg v = 0)), inDeg, []⟩

/-- What is ready or taken has no open predecessor, and what is taken comes after its
predecessors. -/
structure Valid (nodes : List α) (edges : List (α × α)) (q : Queue α) : Prop where
  nodup : (q.ordered ++ q.ready).Nodup
  mem : ∀ v, v ∈ q.ordered ++ q.ready ↔ v ∈ nodes ∧ q.inDeg v = 0
  inDeg : ∀ v, q.inDeg v = edges.countP fun e => decide (e.2 = v) && decide (e.1 ∉ q.ordered)
  preds : ∀ a v b, q.ordered = a ++ v :: b → ∀ u, (u, v) ∈ edges → u ∈ a

variable {sort} {nodes : List α} {edges : List (α × α)} {q : Queue α}

theorem start_valid (hsort : ∀ l, (sort l).Perm l) (hnodes : nodes.Nodup) :
    Valid nodes edges (start sort nodes edges) := by
  refine ⟨?_, fun v => ?_, fun v => ?_, fun a v b h => ?_⟩
  · rw [start, List.nil_append]
    exact ((hsort _).nodup_iff).mpr (hnodes.filter _)
  · rw [start, List.nil_append, (hsort _).mem_iff, List.mem_filter, decide_eq_true_eq]
  · simp [start]
  · exact absurd (congrArg List.length h) (by simp [start])

/-! ## Releasing the successors -/

theorem release_ordered (vs : List α) (q : Queue α) :
    (vs.foldl (release sort) q).ordered = q.ordered := by
  induction vs generalizing q with
  | nil => rfl
  | cons v vs ih => exact ih _

theorem release_inDeg (vs : List α) (q : Queue α) (x : α) :
    (vs.foldl (release sort) q).inDeg x = q.inDeg x - vs.count x := by
  induction vs generalizing q with
  | nil => simp
  | cons v vs ih =>
    rw [List.foldl_cons, ih, List.count_cons, release]
    by_cases hx : x = v
    · subst hx
      simp
      omega
    · simp [Function.update_of_ne hx, Ne.symm hx]

/-- Those that lose their last predecessor get ready, once each. -/
theorem release_ready (hsort : ∀ l, (sort l).Perm l) (vs : List α) (q : Queue α)
    (hcount : ∀ v ∈ vs, (vs.count v : ℤ) ≤ q.inDeg v) (hnodup : q.ready.Nodup)
    (hnew : ∀ v ∈ vs, v ∉ q.ready) :
    (vs.foldl (release sort) q).ready.Nodup ∧
      ∀ x, x ∈ (vs.foldl (release sort) q).ready ↔
        x ∈ q.ready ∨ x ∈ vs ∧ q.inDeg x = vs.count x := by
  induction vs generalizing q with
  | nil => exact ⟨hnodup, fun x => by simp⟩
  | cons v vs ih =>
    have hv := hcount v List.mem_cons_self
    rw [List.count_cons_self] at hv
    have hdeg (x : α) : (release sort q v).inDeg x = if x = v then q.inDeg v - 1 else q.inDeg x :=
      Function.update_apply q.inDeg v _ x
    have hcount' : ∀ x ∈ vs, (vs.count x : ℤ) ≤ (release sort q v).inDeg x := by
      intro x hx
      have := hcount x (List.mem_cons_of_mem v hx)
      rw [hdeg]
      by_cases hxv : x = v
      · subst hxv
        rw [if_pos rfl]
        rw [List.count_cons_self] at this
        omega
      · rw [if_neg hxv]
        rwa [List.count_cons_of_ne (Ne.symm hxv)] at this
    have hmem (x : α) : x ∈ (release sort q v).ready ↔ x ∈ q.ready ∨ x = v ∧ q.inDeg v = 1 := by
      rw [release]
      by_cases hzero : q.inDeg v - 1 = 0
      · rw [if_pos hzero, (hsort _).mem_iff, List.mem_append, List.mem_singleton,
          and_iff_left (by omega)]
      · rw [if_neg hzero, iff_comm, or_iff_left (fun h => hzero (by omega))]
    have hnodup' : (release sort q v).ready.Nodup := by
      rw [release]
      split
      · refine ((hsort _).nodup_iff).mpr (List.nodup_append.mpr
          ⟨hnodup, List.nodup_singleton v, fun a ha b hb => ?_⟩)
        rw [List.mem_singleton.mp hb]
        rintro rfl
        exact hnew a List.mem_cons_self ha
      · exact hnodup
    have hnew' : ∀ x ∈ vs, x ∉ (release sort q v).ready := by
      intro x hx hready
      rcases (hmem x).mp hready with hold | ⟨rfl, hone⟩
      · exact hnew x (List.mem_cons_of_mem v hx) hold
      · -- Its last predecessor would still be to come.
        have : 0 < vs.count x := List.count_pos_iff.mpr hx
        omega
    obtain ⟨hnext, hall⟩ := ih (release sort q v) hcount' hnodup' hnew'
    refine ⟨hnext, fun x => ?_⟩
    rw [List.foldl_cons, hall, hmem, hdeg]
    by_cases hxv : x = v
    · subst hxv
      rw [if_pos rfl, List.count_cons_self]
      have hin : x ∈ vs ↔ 0 < vs.count x := List.count_pos_iff.symm
      simp only [List.mem_cons, true_or, true_and, hin, or_assoc]
      refine or_congr_right ?_
      omega
    · rw [if_neg hxv, List.count_cons_of_ne (Ne.symm hxv)]
      simp [hxv]

/-! ## Taking the first of the queue -/

theorem count_successors (edges : List (α × α)) (v x : α) :
    (successors edges v).count x =
      edges.countP fun e => decide (e.2 = x) && decide (e.1 = v) := by
  induction edges with
  | nil => rfl
  | cons e edges ih =>
    rw [successors] at ih ⊢
    rw [List.filter_cons, List.countP_cons]
    by_cases hv : e.1 = v
    · by_cases hx : e.2 = x
      · simp [hv, hx, ih]
      · simp [hv, hx, ih]
    · simp [hv, ih]

/-- The open edges into a node, before and after one more is taken. -/
theorem countP_open {ordered : List α} {v : α} (hv : v ∉ ordered) (edges : List (α × α)) (x : α) :
    (edges.countP fun e => decide (e.2 = x) && decide (e.1 ∉ ordered)) =
      (edges.countP fun e => decide (e.2 = x) && decide (e.1 ∉ ordered ++ [v])) +
        (successors edges v).count x := by
  rw [count_successors]
  induction edges with
  | nil => rfl
  | cons e edges ih =>
    rw [List.countP_cons, List.countP_cons, List.countP_cons, ih]
    by_cases hx : e.2 = x
    · by_cases he : e.1 = v
      · subst he
        simp [hx, hv]
        omega
      · by_cases hin : e.1 ∈ ordered
        · simp [hx, he, hin]
        · simp [hx, he, hin]
          omega
    · simp [hx]

theorem take_inDeg (hsort : ∀ l, (sort l).Perm l) (v : α) (rest : List α) (x : α) :
    (take sort edges q v rest).inDeg x = q.inDeg x - (successors edges v).count x := by
  rw [take, release_inDeg, (hsort _).count_eq]

theorem Valid.take (hsort : ∀ l, (sort l).Perm l)
    (hedges : ∀ e ∈ edges, e.1 ∈ nodes ∧ e.2 ∈ nodes) (hq : Valid nodes edges q) {v : α}
    {rest : List α} (hready : q.ready = v :: rest) :
    Valid nodes edges (take sort edges q v rest) := by
  have hnodup := hq.nodup
  have hmem := hq.mem
  rw [hready] at hnodup hmem
  have hv : v ∉ q.ordered := fun h =>
    (List.nodup_append.mp hnodup).2.2 v h v List.mem_cons_self rfl
  -- What is left of an in-degree is the number of the edges that stay open.
  have hopen (x : α) : q.inDeg x - (successors edges v).count x =
      edges.countP fun e => decide (e.2 = x) && decide (e.1 ∉ q.ordered ++ [v]) := by
    rw [hq.inDeg, countP_open hv]
    omega
  have hcount (x : α) : ((successors edges v).count x : ℤ) ≤ q.inDeg x := by
    have := hopen x
    omega
  have hopened {x : α} (hx : x ∈ successors edges v) : x ∉ q.ordered ++ v :: rest := by
    intro hin
    have hzero := ((hmem x).mp hin).2
    have hpos : 0 < (successors edges v).count x := List.count_pos_iff.mpr hx
    have := hcount x
    omega
  obtain ⟨hreadyNodup, hreadyMem⟩ := release_ready hsort (sort (successors edges v))
    ⟨rest, q.inDeg, q.ordered ++ [v]⟩
    (fun x _ => by rw [(hsort _).count_eq]; exact hcount x)
    (List.nodup_cons.mp (List.nodup_append.mp hnodup).2.1).2
    (fun x hx hrest => hopened ((hsort _).mem_iff.mp hx)
      (List.mem_append_right _ (List.mem_cons_of_mem v hrest)))
  simp only [(hsort _).mem_iff, (hsort _).count_eq] at hreadyMem
  have hordered : (TopoSort.take sort edges q v rest).ordered = q.ordered ++ [v] :=
    release_ordered _ _
  have hall (x : α) : x ∈ (TopoSort.take sort edges q v rest).ordered ++
      (TopoSort.take sort edges q v rest).ready ↔
        x ∈ q.ordered ++ v :: rest ∨
          x ∈ successors edges v ∧ q.inDeg x = (successors edges v).count x := by
    rw [hordered, List.mem_append, TopoSort.take, hreadyMem]
    simp only [List.mem_append, List.mem_cons, List.mem_nil_iff, or_false]
    tauto
  have hsplit : ((q.ordered ++ [v]) ++ rest).Nodup := by
    rwa [List.append_assoc, List.singleton_append]
  refine ⟨?_, fun x => ?_, fun x => ?_, fun a w b heq u hu => ?_⟩
  · rw [hordered]
    refine List.nodup_append.mpr ⟨(List.nodup_append.mp hsplit).1, hreadyNodup, ?_⟩
    rintro x hx _ hready' rfl
    rcases (hreadyMem x).mp hready' with hrest | ⟨hsucc, _⟩
    · exact (List.nodup_append.mp hsplit).2.2 x hx x hrest rfl
    · refine hopened hsucc ?_
      rw [← List.singleton_append, ← List.append_assoc]
      exact List.mem_append_left _ hx
  · rw [hall, take_inDeg hsort, hmem]
    have hle := hcount x
    constructor
    · rintro (⟨hnode, hzero⟩ | ⟨hsucc, hlast⟩)
      · exact ⟨hnode, by omega⟩
      · obtain ⟨e, he, rfl⟩ := List.mem_map.mp hsucc
        exact ⟨(hedges e (List.mem_filter.mp he).1).2, by omega⟩
    · rintro ⟨hnode, hzero⟩
      by_cases hsucc : x ∈ successors edges v
      · exact Or.inr ⟨hsucc, by omega⟩
      · have := List.count_eq_zero.mpr hsucc
        exact Or.inl ⟨hnode, by omega⟩
  · rw [take_inDeg hsort, hopen, hordered]
  · rw [hordered] at heq
    rcases List.eq_nil_or_concat b with rfl | ⟨b, last, rfl⟩
    · -- The one just taken: no edge into it is open.
      obtain ⟨rfl, hlast⟩ := List.append_inj' heq rfl
      obtain rfl : v = w := by simpa using hlast
      have hzero := ((hmem v).mp (List.mem_append_right _ List.mem_cons_self)).2
      rw [hq.inDeg] at hzero
      by_contra hout
      have hpos : 0 < edges.countP fun e => decide (e.2 = v) && decide (e.1 ∉ q.ordered) :=
        List.countP_pos_iff.mpr ⟨(u, v), hu, by simp [hout]⟩
      omega
    · rw [List.concat_eq_append, ← List.cons_append, ← List.append_assoc] at heq
      exact hq.preds a w b (List.append_inj' heq rfl).1 u hu

/-! ## The whole sort -/

theorem Valid.length_le (hq : Valid nodes edges q) :
    q.ordered.length + q.ready.length ≤ nodes.length := by
  rw [← List.length_append]
  exact (hq.nodup.subperm fun v hv => ((hq.mem v).mp hv).1).length_le

theorem Valid.drain (hsort : ∀ l, (sort l).Perm l)
    (hedges : ∀ e ∈ edges, e.1 ∈ nodes ∧ e.2 ∈ nodes) {fuel : ℕ} (hq : Valid nodes edges q)
    (hfuel : nodes.length ≤ q.ordered.length + fuel) :
    Valid nodes edges (drain sort edges fuel q) ∧ (drain sort edges fuel q).ready = [] := by
  induction fuel generalizing q with
  | zero =>
    have hroom := hq.length_le
    have hnone : q.ready.length = 0 := by omega
    exact ⟨hq, List.length_eq_zero_iff.mp hnone⟩
  | succ fuel ih =>
    rw [TopoSort.drain]
    split
    · exact ⟨hq, ‹_›⟩
    · rename_i v rest hready
      have hordered : (TopoSort.take sort edges q v rest).ordered = q.ordered ++ [v] :=
        release_ordered _ _
      refine ih (hq.take hsort hedges hready) ?_
      rw [hordered, List.length_append, List.length_singleton]
      omega

/-- The order in which the nodes are taken, with as much fuel as there are nodes. -/
def order (sort : List α → List α) (nodes : List α) (edges : List (α × α)) : List α :=
  (drain sort edges nodes.length (start sort nodes edges)).ordered

/-- Nobody waits in the end. -/
theorem drain_ready (hsort : ∀ l, (sort l).Perm l) (hnodes : nodes.Nodup)
    (hedges : ∀ e ∈ edges, e.1 ∈ nodes ∧ e.2 ∈ nodes) :
    (drain sort edges nodes.length (start sort nodes edges)).ready = [] :=
  ((start_valid hsort hnodes).drain hsort hedges (Nat.le_add_left _ _)).2

theorem order_nodup (hsort : ∀ l, (sort l).Perm l) (hnodes : nodes.Nodup)
    (hedges : ∀ e ∈ edges, e.1 ∈ nodes ∧ e.2 ∈ nodes) : (order sort nodes edges).Nodup := by
  obtain ⟨hvalid, _⟩ := (start_valid hsort hnodes).drain hsort hedges (Nat.le_add_left _ _)
  exact (List.nodup_append.mp hvalid.nodup).1

theorem order_subset (hsort : ∀ l, (sort l).Perm l) (hnodes : nodes.Nodup)
    (hedges : ∀ e ∈ edges, e.1 ∈ nodes ∧ e.2 ∈ nodes) {v : α} (hv : v ∈ order sort nodes edges) :
    v ∈ nodes := by
  obtain ⟨hvalid, _⟩ := (start_valid hsort hnodes).drain hsort hedges (Nat.le_add_left _ _)
  exact ((hvalid.mem v).mp (List.mem_append_left _ hv)).1

/-- A node is taken unless it is behind a cycle. -/
theorem mem_order (hsort : ∀ l, (sort l).Perm l) (hnodes : nodes.Nodup)
    (hedges : ∀ e ∈ edges, e.1 ∈ nodes ∧ e.2 ∈ nodes) {v : α} (hv : v ∈ nodes)
    (hcycle : ¬BehindCycle (fun u v => (u, v) ∈ edges) v) : v ∈ order sort nodes edges := by
  obtain ⟨hvalid, hready⟩ := (start_valid hsort hnodes).drain hsort hedges (Nat.le_add_left _ _)
  have hmem := hvalid.mem
  rw [hready, List.append_nil] at hmem
  by_contra hout
  refine hcycle (behindCycle_of_pred (A := {w | w ∈ nodes ∧ w ∉ order sort nodes edges})
    (nodes.finite_toSet.subset fun w hw => hw.1) ?_ ⟨hv, hout⟩)
  rintro w ⟨hw, hwout⟩
  -- What was never taken has an open edge into it.
  have hpos : 0 < edges.countP fun e =>
      decide (e.2 = w) && decide (e.1 ∉ order sort nodes edges) := by
    have hdeg := hvalid.inDeg w
    have hne : (TopoSort.drain sort edges nodes.length (start sort nodes edges)).inDeg w ≠ 0 :=
      fun h => hwout ((hmem w).mpr ⟨hw, h⟩)
    rw [order]
    omega
  obtain ⟨e, he, hopen⟩ := List.countP_pos_iff.mp hpos
  obtain ⟨rfl, hlate⟩ : e.2 = w ∧ e.1 ∉ order sort nodes edges := by simpa using hopen
  exact ⟨e.1, ⟨(hedges e he).1, hlate⟩, he⟩

/-- What is taken comes after its predecessors. -/
theorem order_sublist (hsort : ∀ l, (sort l).Perm l) (hnodes : nodes.Nodup)
    (hedges : ∀ e ∈ edges, e.1 ∈ nodes ∧ e.2 ∈ nodes) {u v : α} (huv : (u, v) ∈ edges)
    (hv : v ∈ order sort nodes edges) : [u, v].Sublist (order sort nodes edges) := by
  obtain ⟨hvalid, _⟩ := (start_valid hsort hnodes).drain hsort hedges (Nat.le_add_left _ _)
  obtain ⟨a, b, hab⟩ := List.append_of_mem hv
  have hu := hvalid.preds a v b hab u huv
  rw [hab, ← List.singleton_append, ← List.singleton_append]
  exact (List.singleton_sublist.mpr hu).append
    ((List.Sublist.refl [v]).append (List.nil_sublist b))

end

end SpineFormal.TopoSort
