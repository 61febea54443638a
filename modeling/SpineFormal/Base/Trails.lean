import Mathlib.Data.List.Nodup
import SpineFormal.Base.GraphWalk

/-!
# Trails of a multigraph

A trail is the list of its edges, so that parallel edges make different trails. Trails are
enumerated by adding an edge at the end, and a guard on each added edge keeps some of them.
-/

namespace SpineFormal

set_option autoImplicit false

structure Multigraph (α ε : Type) where
  edges : List ε
  src : ε → α
  dst : ε → α

variable {α ε : Type}

namespace Multigraph

def Adj (G : Multigraph α ε) (a b : α) : Prop := ∃ e ∈ G.edges, G.src e = a ∧ G.dst e = b

/-- Where a trail from `a` ends. -/
def endOf (G : Multigraph α ε) (a : α) : List ε → α
  | [] => a
  | e :: tr => G.endOf (G.dst e) tr

def Leads (G : Multigraph α ε) (a : α) : List ε → Prop
  | [] => True
  | e :: tr => (e ∈ G.edges ∧ G.src e = a) ∧ G.Leads (G.dst e) tr

/-- The nodes of a trail from `a`, in order. -/
def trailNodes (G : Multigraph α ε) (a : α) (tr : List ε) : List α := a :: tr.map G.dst

variable {G : Multigraph α ε} {a b c : α} {e : ε} {tr x y : List ε}

theorem endOf_append : G.endOf a (x ++ y) = G.endOf (G.endOf a x) y := by
  induction x generalizing a with
  | nil => rfl
  | cons e x ih => exact ih

theorem leads_append : G.Leads a (x ++ y) ↔ G.Leads a x ∧ G.Leads (G.endOf a x) y := by
  induction x generalizing a with
  | nil => exact (and_iff_right trivial).symm
  | cons e x ih =>
    rw [List.cons_append, Leads, Leads, ih, and_assoc, and_assoc, and_assoc]
    rfl

theorem leads_snoc :
    G.Leads a (tr ++ [e]) ↔ G.Leads a tr ∧ e ∈ G.edges ∧ G.src e = G.endOf a tr := by
  rw [leads_append, Leads, Leads, and_true]

theorem steps_iff_trail {n : Nat} :
    Steps G.Adj n a b ↔ ∃ tr, G.Leads a tr ∧ tr.length = n ∧ G.endOf a tr = b := by
  induction n generalizing a with
  | zero =>
    rw [Steps.zero_iff]
    constructor
    · intro h
      exact ⟨[], trivial, rfl, h⟩
    · rintro ⟨tr, -, hlen, hend⟩
      obtain rfl := List.eq_nil_of_length_eq_zero hlen
      exact hend
  | succ n ih =>
    rw [Steps.succ_iff]
    constructor
    · rintro ⟨c, ⟨e, he, hsrc, rfl⟩, hsteps⟩
      obtain ⟨tr, htr, hlen, hend⟩ := ih.mp hsteps
      exact ⟨e :: tr, ⟨⟨he, hsrc⟩, htr⟩, congrArg (· + 1) hlen, hend⟩
    · rintro ⟨tr, htr, hlen, hend⟩
      cases tr with
      | nil => cases hlen
      | cons e tr =>
        obtain ⟨⟨he, hsrc⟩, htr⟩ := htr
        exact ⟨G.dst e, ⟨e, he, hsrc, rfl⟩, ih.mpr ⟨tr, htr, Nat.succ.inj hlen, hend⟩⟩

/-- A node on a trail is where a part of it ends. -/
theorem mem_trailNodes (h : c ∈ G.trailNodes a tr) : ∃ x y, tr = x ++ y ∧ G.endOf a x = c := by
  induction tr generalizing a with
  | nil => exact ⟨[], [], rfl, (List.mem_singleton.mp h).symm⟩
  | cons e tr ih =>
    rcases List.mem_cons.mp h with rfl | h
    · exact ⟨[], e :: tr, rfl, rfl⟩
    · obtain ⟨x, y, rfl, hx⟩ := ih h
      exact ⟨e :: x, y, rfl, hx⟩

/-! ## Shortest trails -/

structure Shortest (G : Multigraph α ε) (a b : α) (tr : List ε) : Prop where
  leads : G.Leads a tr
  ends : G.endOf a tr = b
  least : ∀ tr', G.Leads a tr' → G.endOf a tr' = b → tr.length ≤ tr'.length

theorem exists_shortest (h : G.Leads a tr) (hb : G.endOf a tr = b) : ∃ x, G.Shortest a b x := by
  classical
  have hex : ∃ n, ∃ tr, G.Leads a tr ∧ G.endOf a tr = b ∧ tr.length = n := ⟨_, tr, h, hb, rfl⟩
  obtain ⟨x, hx, hend, hlen⟩ := Nat.find_spec hex
  exact ⟨x, hx, hend, fun y hy hyb => hlen.trans_le (Nat.find_min' hex ⟨y, hy, hyb, rfl⟩)⟩

namespace Shortest

theorem length_eq (h : G.Shortest a b x) (h' : G.Shortest a b y) : x.length = y.length :=
  Nat.le_antisymm (h.least y h'.leads h'.ends) (h'.least x h.leads h.ends)

/-- The end comes last only. -/
theorem not_before (h : G.Shortest a b (x ++ e :: y)) : G.endOf a x ≠ b := by
  intro hb
  have hle := h.least x (leads_append.mp h.leads).1 hb
  rw [List.length_append, List.length_cons] at hle
  omega

/-- What returns to a node could have been left out. -/
theorem not_back (h : G.Shortest a b (x ++ e :: y)) : G.dst e ∉ G.trailNodes a x := by
  intro hmem
  obtain ⟨u, v, rfl, hu⟩ := mem_trailNodes hmem
  have hleads := h.leads
  rw [List.append_assoc] at hleads
  obtain ⟨hu', hrest⟩ := leads_append.mp hleads
  have hy : G.Leads (G.dst e) y := (leads_append.mp hrest).2.2
  have hend : G.endOf a (u ++ y) = b := by
    rw [← h.ends, endOf_append, endOf_append, hu]
    rfl
  have hle := h.least (u ++ y) (leads_append.mpr ⟨hu', hu ▸ hy⟩) hend
  simp only [List.length_append, List.length_cons] at hle
  omega

end Shortest

/-- A trail repeats no node when none of its edges goes back. -/
theorem nodup_trailNodes (hx : (G.trailNodes a x).Nodup)
    (h : ∀ u e v, y = u ++ e :: v → G.dst e ∉ G.trailNodes a (x ++ u)) :
    (G.trailNodes a (x ++ y)).Nodup := by
  induction y generalizing x with
  | nil => rwa [List.append_nil]
  | cons e y ih =>
    have hback : G.dst e ∉ G.trailNodes a x := by
      have := h [] e y rfl
      rwa [List.append_nil] at this
    have hnodes : G.trailNodes a (x ++ [e]) = G.trailNodes a x ++ [G.dst e] := by
      rw [trailNodes, List.map_append]
      rfl
    rw [List.append_cons]
    refine ih ?_ fun u e' v huv => ?_
    · rw [hnodes, List.nodup_append]
      refine ⟨hx, List.nodup_singleton _, fun c hc d hd => ?_⟩
      rw [List.mem_singleton.mp hd]
      exact fun hcd => hback (hcd ▸ hc)
    · rw [← List.append_cons]
      exact h (e :: u) e' v (by rw [huv, List.cons_append])

/-! ## Enumeration -/

section Enumeration
variable [DecidableEq α]

/-- The trails that have one more edge, which the guard lets through. -/
def extend (G : Multigraph α ε) (guard : List ε → ε → Bool) (a : α) (tr : List ε) :
    List (List ε) :=
  (G.edges.filter fun e => G.src e = G.endOf a tr ∧ guard tr e = true).map fun e => tr ++ [e]

/-- All trails of `n` edges. -/
def trails (G : Multigraph α ε) (a : α) (n : Nat) : List (List ε) :=
  round (G.extend (fun _ _ => true) a) [[]] n

/-- Each edge of `y`, added after those of `x` and the ones before it, passes the guard. -/
def passes (guard : List ε → ε → Bool) : List ε → List ε → Bool
  | _, [] => true
  | x, e :: y => guard x e && passes guard (x ++ [e]) y

variable {guard : List ε → ε → Bool} {n : Nat}

theorem passes_snoc :
    passes guard x (y ++ [e]) = (passes guard x y && guard (x ++ y) e) := by
  induction y generalizing x with
  | nil =>
    rw [List.nil_append, List.append_nil, passes, passes, passes, Bool.and_true, Bool.true_and]
  | cons e' y ih =>
    rw [List.cons_append, passes, ih, passes, Bool.and_assoc, List.append_assoc]
    rfl

theorem passes_iff :
    passes guard x y = true ↔ ∀ u e v, y = u ++ e :: v → guard (x ++ u) e = true := by
  induction y generalizing x with
  | nil =>
    refine iff_of_true rfl fun u e v huv => ?_
    exact absurd huv (List.append_ne_nil_of_right_ne_nil u (List.cons_ne_nil e v)).symm
  | cons e y ih =>
    rw [passes, Bool.and_eq_true, ih]
    constructor
    · rintro ⟨he, hy⟩ u e' v huv
      cases u with
      | nil =>
        obtain ⟨rfl, rfl⟩ := List.cons.inj huv
        rwa [List.append_nil]
      | cons e'' u =>
        obtain ⟨rfl, rfl⟩ := List.cons.inj huv
        rw [List.append_cons]
        exact hy u e' v rfl
    · intro h
      have he := h [] e y rfl
      rw [List.append_nil] at he
      refine ⟨he, fun u e' v huv => ?_⟩
      rw [← List.append_cons]
      exact h (e :: u) e' v (by rw [huv, List.cons_append])

theorem mem_extend {tr' : List ε} : tr' ∈ G.extend guard a tr ↔
    ∃ e ∈ G.edges, G.src e = G.endOf a tr ∧ guard tr e = true ∧ tr' = tr ++ [e] := by
  simp only [extend, List.mem_map, List.mem_filter, decide_eq_true_iff]
  constructor
  · rintro ⟨e, ⟨he, hsrc, hguard⟩, rfl⟩
    exact ⟨e, he, hsrc, hguard, rfl⟩
  · rintro ⟨e, he, hsrc, hguard, rfl⟩
    exact ⟨e, ⟨he, hsrc, hguard⟩, rfl⟩

theorem length_extend : ∀ tr' ∈ G.extend guard a tr, tr'.length = tr.length + 1 := by
  intro tr' h
  obtain ⟨e, -, -, -, rfl⟩ := mem_extend.mp h
  exact List.length_append

theorem mem_trails : tr ∈ G.trails a n ↔ G.Leads a tr ∧ tr.length = n := by
  induction n generalizing tr with
  | zero =>
    rw [trails, round, List.mem_singleton]
    constructor
    · rintro rfl
      exact ⟨trivial, rfl⟩
    · exact fun h => List.eq_nil_of_length_eq_zero h.2
  | succ n ih =>
    rw [trails, round, List.mem_flatMap]
    constructor
    · rintro ⟨x, hx, htr⟩
      obtain ⟨hleads, rfl⟩ := ih.mp hx
      obtain ⟨e, he, hsrc, -, rfl⟩ := mem_extend.mp htr
      exact ⟨leads_snoc.mpr ⟨hleads, he, hsrc⟩, List.length_append⟩
    · rintro ⟨hleads, hlen⟩
      obtain ⟨x, e, rfl⟩ : ∃ x e, tr = x ++ [e] :=
        ⟨_, _, (List.dropLast_append_getLast (List.ne_nil_of_length_eq_add_one hlen)).symm⟩
      obtain ⟨hx, he, hsrc⟩ := leads_snoc.mp hleads
      rw [List.length_append] at hlen
      exact ⟨x, ih.mpr ⟨hx, Nat.succ.inj hlen⟩, mem_extend.mpr ⟨e, he, hsrc, rfl, rfl⟩⟩

/-- The guarded rounds find exactly the trails whose edges all pass, each as often. -/
theorem round_extend (G : Multigraph α ε) (guard : List ε → ε → Bool) (a : α) (n : Nat) :
    round (G.extend guard a) [[]] n = (G.trails a n).filter (passes guard []) := by
  have hone : ∀ tr, (G.extend (fun _ _ => true) a tr).filter (passes guard []) =
      if passes guard [] tr = true then G.extend guard a tr else [] := by
    intro tr
    rw [extend, List.filter_map, List.filter_filter]
    split
    · rename_i htr
      refine congrArg _ (List.filter_congr fun e _ => ?_)
      rw [Function.comp_apply, passes_snoc, htr, List.nil_append]
      simp only [and_true, Bool.true_and, Bool.decide_and, Bool.decide_eq_true]
      exact Bool.and_comm _ _
    · rename_i htr
      rw [List.map_eq_nil_iff, List.filter_eq_nil_iff]
      intro e _
      rw [Function.comp_apply, passes_snoc, Bool.eq_false_iff.mpr htr, Bool.false_and,
        Bool.false_and]
      exact Bool.false_ne_true
  induction n with
  | zero => rfl
  | succ n ih =>
    have htrails : G.trails a (n + 1) =
        (G.trails a n).flatMap (G.extend (fun _ _ => true) a) := rfl
    rw [round, ih, htrails, List.filter_flatMap]
    induction G.trails a n with
    | nil => rfl
    | cons tr trs ihs =>
      rw [List.flatMap_cons, hone, ← ihs]
      by_cases htr : passes guard [] tr = true
      · rw [if_pos htr, List.filter_cons_of_pos htr, List.flatMap_cons]
      · rw [if_neg htr, List.filter_cons_of_neg htr, List.nil_append]

end Enumeration

end Multigraph

end SpineFormal
