import Mathlib.Data.List.Basic
import Mathlib.Data.Nat.Find
import Mathlib.Order.Bounds.Basic

/-!
# Walks and recursive queries

Steps of a relation, counted; the first time a search from a set of nodes can arrive at a node;
and the rows of `WITH RECURSIVE ... UNION ALL`, which extends the rows of one round to those of
the next until no row is left.
-/

namespace SpineFormal

set_option autoImplicit false

universe u
variable {α : Type u}

/-- `n` steps of a relation. -/
inductive Steps (E : α → α → Prop) : Nat → α → α → Prop where
  | refl (a : α) : Steps E 0 a a
  | head {n : Nat} {a b c : α} : E a b → Steps E n b c → Steps E (n + 1) a c

section Steps
variable {E : α → α → Prop} {n m : Nat} {a b c : α}

theorem Steps.single (h : E a b) : Steps E 1 a b := .head h (.refl b)

theorem Steps.zero_iff : Steps E 0 a b ↔ a = b := by
  constructor
  · rintro ⟨⟩
    rfl
  · rintro rfl
    exact .refl a

theorem Steps.succ_iff : Steps E (n + 1) a c ↔ ∃ b, E a b ∧ Steps E n b c := by
  constructor
  · rintro (_ | ⟨h, hs⟩)
    exact ⟨_, h, hs⟩
  · rintro ⟨b, h, hs⟩
    exact .head h hs

theorem Steps.one_iff : Steps E 1 a b ↔ E a b := by
  rw [Steps.succ_iff]
  simp only [Steps.zero_iff, exists_eq_right]

theorem Steps.trans (h : Steps E n a b) (h' : Steps E m b c) : Steps E (n + m) a c := by
  induction h with
  | refl => rwa [Nat.zero_add]
  | @head n a b _ hab _ ih => exact Nat.succ_add n m ▸ .head hab (ih h')

theorem Steps.tail (h : Steps E n a b) (h' : E b c) : Steps E (n + 1) a c :=
  h.trans (Steps.single h')

theorem Steps.exists_last (h : Steps E (n + 1) a c) : ∃ b, Steps E n a b ∧ E b c := by
  induction n generalizing a with
  | zero => exact ⟨a, .refl a, Steps.one_iff.mp h⟩
  | succ n ih =>
    obtain ⟨b, hab, hbc⟩ := Steps.succ_iff.mp h
    obtain ⟨d, hbd, hdc⟩ := ih hbc
    exact ⟨d, .head hab hbd, hdc⟩

theorem Steps.mono {E' : α → α → Prop} (hE : ∀ a b, E a b → E' a b) (h : Steps E n a b) :
    Steps E' n a b := by
  induction h with
  | refl a => exact .refl a
  | head hab _ ih => exact .head (hE _ _ hab) ih

end Steps

/-! ## The first arrival -/

/-- A search that begins at the nodes of `start` and goes on by `next` has `v` as its `k`-th
node. -/
inductive Arrives (start : α → Prop) (next : α → α → Prop) : Nat → α → Prop where
  | first {v : α} : start v → Arrives start next 1 v
  | further {k : Nat} {u v : α} : Arrives start next k u → next u v →
      Arrives start next (k + 1) v

def FirstArrival (start : α → Prop) (next : α → α → Prop) (k : Nat) (v : α) : Prop :=
  Arrives start next k v ∧ ∀ j, Arrives start next j v → k ≤ j

section Arrives
variable {start : α → Prop} {next : α → α → Prop} {k : Nat} {v : α}

theorem Arrives.pos (h : Arrives start next k v) : 1 ≤ k := by
  cases h with
  | first => exact Nat.le_refl 1
  | further => exact Nat.le_add_left 1 _

theorem Arrives.one_iff : Arrives start next 1 v ↔ start v := by
  constructor
  · rintro (h | ⟨h, -⟩)
    · exact h
    · exact absurd h.pos (by omega)
  · exact .first

theorem Arrives.exists_first (h : Arrives start next k v) :
    ∃ j ≤ k, FirstArrival start next j v := by
  classical
  have hex : ∃ j, Arrives start next j v := ⟨k, h⟩
  exact ⟨Nat.find hex, Nat.find_min' hex h, Nat.find_spec hex, fun j hj => Nat.find_min' hex hj⟩

/-- Before a first arrival comes a first arrival. -/
theorem FirstArrival.pred (h : FirstArrival start next (k + 1) v) (hk : 1 ≤ k) :
    ∃ u, FirstArrival start next k u ∧ next u v := by
  obtain ⟨harrive, hleast⟩ := h
  cases harrive with
  | first => omega
  | @further _ u _ hu huv =>
    refine ⟨u, ⟨hu, fun j hj => ?_⟩, huv⟩
    have hle := hleast (j + 1) (.further hj huv)
    omega

/-- Steps towards a set of nodes, walked against their direction. -/
theorem arrives_iff_steps {E : α → α → Prop} {S : α → Prop} :
    Arrives (fun v => ∃ s, S s ∧ E v s) (fun u v => E v u) k v ↔
      1 ≤ k ∧ ∃ s, S s ∧ Steps E k v s := by
  constructor
  · intro h
    refine ⟨h.pos, ?_⟩
    induction h with
    | first h =>
      obtain ⟨s, hs, hvs⟩ := h
      exact ⟨s, hs, .single hvs⟩
    | further _ hvu ih =>
      obtain ⟨s, hs, hsteps⟩ := ih
      exact ⟨s, hs, .head hvu hsteps⟩
  · rintro ⟨hk, s, hs, hsteps⟩
    induction hsteps with
    | refl => omega
    | @head n a b c hab hbc ih =>
      cases n with
      | zero =>
        rw [Steps.zero_iff] at hbc
        exact .first ⟨c, hs, hbc ▸ hab⟩
      | succ n => exact .further (ih (by omega) hs) hab

end Arrives

/-! ## Recursive queries -/

section Recursive
universe v
variable {ρ : Type v} (step : ρ → List ρ)

/-- The rows of `n` rounds after the first. -/
def recursiveUnion : Nat → List ρ → List ρ
  | 0, working => working
  | n + 1, working => working ++ recursiveUnion n (working.flatMap step)

variable {step}

theorem recursiveUnion_succ (n : Nat) (working : List ρ) : recursiveUnion step (n + 1) working =
    working ++ recursiveUnion step n (working.flatMap step) := rfl

theorem mem_recursiveUnion {n : Nat} {working : List ρ} {r : ρ} :
    r ∈ recursiveUnion step n working ↔
      ∃ k ≤ n, ∃ b ∈ working, Steps (fun r r' => r' ∈ step r) k b r := by
  induction n generalizing working with
  | zero =>
    constructor
    · intro h
      exact ⟨0, Nat.le_refl 0, r, h, .refl r⟩
    · rintro ⟨k, hk, b, hb, hsteps⟩
      obtain rfl := Nat.le_zero.mp hk
      exact Steps.zero_iff.mp hsteps ▸ hb
  | succ n ih =>
    rw [recursiveUnion, List.mem_append, ih]
    constructor
    · rintro (h | ⟨k, hk, b, hb, hsteps⟩)
      · exact ⟨0, Nat.zero_le _, r, h, .refl r⟩
      · obtain ⟨b', hb', hbb'⟩ := List.mem_flatMap.mp hb
        exact ⟨k + 1, Nat.succ_le_succ hk, b', hb', .head hbb' hsteps⟩
    · rintro ⟨k, hk, b, hb, hsteps⟩
      cases hsteps with
      | refl => exact .inl hb
      | @head k _ b' _ hbb' hsteps =>
        exact .inr ⟨k, Nat.le_of_succ_le_succ hk, b', List.mem_flatMap.mpr ⟨b, hb, hbb'⟩, hsteps⟩

/-- What holds of the first rows and goes over to the next holds of all. -/
theorem recursiveUnion_invariant {P : ρ → Prop} {working : List ρ} (hbase : ∀ b ∈ working, P b)
    (hstep : ∀ r, P r → ∀ r' ∈ step r, P r') {n : Nat} :
    ∀ r ∈ recursiveUnion step n working, P r := by
  induction n generalizing working with
  | zero => exact hbase
  | succ n ih =>
    rw [recursiveUnion, List.forall_mem_append]
    refine ⟨hbase, ih fun r' hr' => ?_⟩
    obtain ⟨r, hr, hrr'⟩ := List.mem_flatMap.mp hr'
    exact hstep r (hbase r hr) r' hrr'

/-- What keeps the steps keeps the rows. -/
theorem recursiveUnion_map {σ : Type v} {step' : σ → List σ} {f : ρ → σ} {P : ρ → Prop}
    (hmap : ∀ r, P r → step' (f r) = (step r).map f) (hstep : ∀ r, P r → ∀ r' ∈ step r, P r')
    {n : Nat} {working : List ρ} (hworking : ∀ r ∈ working, P r) :
    recursiveUnion step' n (working.map f) = (recursiveUnion step n working).map f := by
  induction n generalizing working with
  | zero => rfl
  | succ n ih =>
    have hnext : (working.map f).flatMap step' = (working.flatMap step).map f := by
      rw [List.flatMap_map, List.map_flatMap]
      exact List.flatMap_congr fun r hr => hmap r (hworking r hr)
    have hnextP : ∀ r' ∈ working.flatMap step, P r' := by
      intro r' hr'
      obtain ⟨r, hr, hrr'⟩ := List.mem_flatMap.mp hr'
      exact hstep r (hworking r hr) r' hrr'
    rw [recursiveUnion, recursiveUnion, List.map_append, hnext, ih hnextP]

/-- The rows that the `n`-th round after the first adds. -/
def round (step : ρ → List ρ) (working : List ρ) : Nat → List ρ
  | 0 => working
  | n + 1 => (round step working n).flatMap step

theorem round_flatMap (working : List ρ) (n : Nat) :
    round step (working.flatMap step) n = round step working (n + 1) := by
  induction n with
  | zero => rfl
  | succ n ih => exact congrArg (List.flatMap step) ih

/-- Where each round makes the rows greater by one, the rows of one size are those of a round. -/
theorem filter_recursiveUnion {size : ρ → Nat} {a : Nat} {working : List ρ}
    (hbase : ∀ b ∈ working, size b = a) (hsize : ∀ r, ∀ r' ∈ step r, size r' = size r + 1)
    {j n : Nat} (hj : j ≤ n) :
    (recursiveUnion step n working).filter (fun r => size r = a + j) = round step working j := by
  have hnext : ∀ {a : Nat} {working : List ρ}, (∀ b ∈ working, size b = a) →
      ∀ b ∈ working.flatMap step, size b = a + 1 := by
    intro a working hbase b hb
    obtain ⟨r, hr, hrb⟩ := List.mem_flatMap.mp hb
    rw [hsize r b hrb, hbase r hr]
  have hge : ∀ {n a : Nat} {working : List ρ}, (∀ b ∈ working, size b = a) →
      ∀ r ∈ recursiveUnion step n working, a ≤ size r := fun hbase =>
    recursiveUnion_invariant (fun b hb => (hbase b hb).ge)
      fun r hr r' hr' => (hsize r r' hr').symm ▸ Nat.le_succ_of_le hr
  induction n generalizing a working j with
  | zero =>
    obtain rfl := Nat.le_zero.mp hj
    exact List.filter_eq_self.mpr fun b hb => decide_eq_true (hbase b hb)
  | succ n ih =>
    rw [recursiveUnion_succ, List.filter_append]
    cases j with
    | zero =>
      have hnone : (recursiveUnion step n (working.flatMap step)).filter
          (fun r => size r = a + 0) = [] := by
        rw [List.filter_eq_nil_iff]
        intro r hr
        have hle := hge (hnext hbase) r hr
        simp only [decide_eq_true_iff]
        omega
      have hall : working.filter (fun r => size r = a + 0) = working :=
        List.filter_eq_self.mpr fun b hb => decide_eq_true (hbase b hb)
      rw [hnone, hall, List.append_nil, round]
    | succ j =>
      have hnone : working.filter (fun r => size r = a + (j + 1)) = [] := by
        rw [List.filter_eq_nil_iff]
        intro r hr
        have heq := hbase r hr
        simp only [decide_eq_true_iff]
        omega
      have hshift : ∀ r, (size r = a + (j + 1)) = (size r = a + 1 + j) := fun r => by
        rw [Nat.add_right_comm, Nat.add_assoc]
      rw [hnone, List.nil_append, ← round_flatMap, ← ih (hnext hbase) (Nat.le_of_succ_le_succ hj)]
      simp only [hshift]

/-- A row that an `n`-th round still extends is extended. -/
theorem recursiveUnion_step {size : ρ → Nat} {bound : Nat} {working : List ρ}
    (hbase : ∀ b ∈ working, 1 ≤ size b)
    (hsize : ∀ r, ∀ r' ∈ step r, size r < bound ∧ size r' = size r + 1) {r r' : ρ}
    (h : r ∈ recursiveUnion step bound working) (hr' : r' ∈ step r) :
    r' ∈ recursiveUnion step bound working := by
  obtain ⟨k, -, b, hb, hsteps⟩ := mem_recursiveUnion.mp h
  have hgrow : ∀ {k : Nat} {b r : ρ}, Steps (fun r r' => r' ∈ step r) k b r →
      size r = size b + k := by
    intro k b r h
    induction h with
    | refl => rfl
    | head hbb' _ ih => rw [ih, (hsize _ _ hbb').2, Nat.add_right_comm, Nat.add_assoc]
  have hr := hgrow hsteps
  have hlt := (hsize r r' hr').1
  have hpos := hbase b hb
  exact mem_recursiveUnion.mpr ⟨k + 1, by omega, b, hb, hsteps.tail hr'⟩

theorem recursiveUnion_nil (n : Nat) : recursiveUnion step n [] = [] := by
  induction n with
  | zero => rfl
  | succ n ih => rw [recursiveUnion, List.flatMap_nil, ih, List.append_nil]

/-- The recursion has ended: no round after the bound adds a row. -/
theorem recursiveUnion_stable {size : ρ → Nat} {bound : Nat}
    (hsize : ∀ r, ∀ r' ∈ step r, size r < bound ∧ size r' = size r + 1) {n : Nat} (m : Nat)
    {working : List ρ} (hbase : ∀ b ∈ working, bound ≤ n + size b) :
    recursiveUnion step (n + m) working = recursiveUnion step n working := by
  induction n generalizing working with
  | zero =>
    have hempty : working.flatMap step = [] := by
      rw [List.flatMap_eq_nil_iff]
      intro b hb
      rw [List.eq_nil_iff_forall_not_mem]
      intro r' hr'
      have hlt := (hsize b r' hr').1
      have hle := hbase b hb
      omega
    cases m with
    | zero => rfl
    | succ m =>
      rw [Nat.zero_add, recursiveUnion_succ, hempty, recursiveUnion_nil, List.append_nil,
        recursiveUnion]
  | succ n ih =>
    rw [Nat.succ_add, recursiveUnion, recursiveUnion, ih]
    intro b hb
    obtain ⟨r, hr, hrb⟩ := List.mem_flatMap.mp hb
    have hle := hbase r hr
    rw [(hsize r b hrb).2]
    omega

end Recursive

end SpineFormal
