import Mathlib.Data.Nat.Basic

/-!
# Graphs of nodes over a state

A node makes a state of a state, and the state says which node comes next. A run is bounded by a
number of nodes. A cycle of two nodes that is taken while a count of attempts is below a limit is
the loop with that many attempts.
-/

namespace SpineFormal

set_option autoImplicit false

structure StateGraph (ν σ ε : Type) where
  entry : ν
  node : ν → σ → Except ε σ
  /-- `none` is the end. -/
  next : ν → σ → Option ν

variable {ν σ ε : Type}

namespace StateGraph

/-- At most `steps` nodes, from the node `n`; `none` when they do not reach the end. -/
def run (g : StateGraph ν σ ε) : Nat → ν → σ → Option (Except ε σ)
  | 0, _, _ => none
  | steps + 1, n, s =>
    match g.node n s with
    | .error e => some (.error e)
    | .ok s' =>
      match g.next n s' with
      | none => some (.ok s')
      | some n' => run g steps n' s'

variable {g : StateGraph ν σ ε}

theorem run_error {n : ν} {s : σ} {e : ε} (h : g.node n s = .error e) (steps : Nat) :
    g.run (steps + 1) n s = some (.error e) := by
  rw [run, h]

theorem run_next {n n' : ν} {s s' : σ} (h : g.node n s = .ok s') (hnext : g.next n s' = some n')
    (steps : Nat) : g.run (steps + 1) n s = g.run steps n' s' := by
  rw [run, h]
  dsimp only
  rw [hnext]

end StateGraph

/-! ## A loop of attempts -/

/-- At most `n` attempts, while the last of them wants another. -/
def attempts (attempt : σ → Except ε σ) (again : σ → Prop) [DecidablePred again] :
    Nat → σ → Except ε σ
  | 0, s => .ok s
  | n + 1, s =>
    match attempt s with
    | .error e => .error e
    | .ok s' => if again s' then attempts attempt again n s' else .ok s'

section
variable {attempt : σ → Except ε σ} {again : σ → Prop} [DecidablePred again]

theorem attempts_two {s s₁ s₂ : σ} (h₁ : attempt s = .ok s₁) (hagain : again s₁)
    (h₂ : attempt s₁ = .ok s₂) : attempts attempt again 2 s = .ok s₂ := by
  rw [attempts, h₁]
  dsimp only
  rw [if_pos hagain, attempts, h₂]
  dsimp only
  split <;> rfl

theorem attempts_one {s s₁ : σ} {n : Nat} (h₁ : attempt s = .ok s₁) (hagain : ¬ again s₁) :
    attempts attempt again (n + 1) s = .ok s₁ := by
  rw [attempts, h₁]
  exact if_neg hagain

theorem attempts_error {s : σ} {e : ε} {n : Nat} (h : attempt s = .error e) :
    attempts attempt again (n + 1) s = .error e := by
  rw [attempts, h]

end

namespace StateGraph

variable {g : StateGraph ν σ ε} {a b : ν} {again : σ → Prop} [DecidablePred again]

/-- The node `b` after the node `a`. -/
def both (g : StateGraph ν σ ε) (a b : ν) (s : σ) : Except ε σ :=
  match g.node a s with
  | .error e => .error e
  | .ok s' => g.node b s'

theorem both_error {s : σ} {e : ε} (h : g.node a s = .error e) : g.both a b s = .error e := by
  rw [both, h]

theorem both_ok {s s' : σ} (h : g.node a s = .ok s') : g.both a b s = g.node b s' := by
  rw [both, h]

theorem run_both (ha : ∀ s, g.next a s = some b) (steps : Nat) (s : σ) :
    g.run (steps + 2) a s =
      match g.both a b s with
      | .error e => some (.error e)
      | .ok s' =>
        match g.next b s' with
        | none => some (.ok s')
        | some n => g.run steps n s' := by
  cases hnode : g.node a s with
  | error e =>
    rw [both_error hnode]
    exact run_error hnode _
  | ok s₁ =>
    rw [both_ok hnode]
    exact (run_next hnode (ha s₁) _).trans rfl

theorem run_cycle (count : σ → Nat) (limit : Nat) (ha : ∀ s, g.next a s = some b)
    (hb : ∀ s, g.next b s = if again s ∧ count s < limit then some a else none)
    (hcount : ∀ s s', g.both a b s = .ok s' → count s' = count s + 1)
    (n steps : Nat) (s : σ) (hn : count s + (n + 1) = limit) (hsteps : 2 * (n + 1) ≤ steps) :
    g.run steps a s = some (attempts (g.both a b) again (n + 1) s) := by
  induction n generalizing steps s with
  | zero =>
    obtain ⟨steps, rfl⟩ : ∃ k, steps = k + 2 := ⟨steps - 2, by omega⟩
    rw [run_both ha, attempts]
    cases hboth : g.both a b s with
    | error e => rfl
    | ok s' =>
      have hlast : ¬ count s' < limit := by
        have := hcount s s' hboth
        omega
      dsimp only
      rw [hb, if_neg fun h => hlast h.2, attempts, ite_self]
  | succ n ih =>
    obtain ⟨steps, rfl⟩ : ∃ k, steps = k + 2 := ⟨steps - 2, by omega⟩
    rw [run_both ha, attempts]
    cases hboth : g.both a b s with
    | error e => rfl
    | ok s' =>
      have hmore := hcount s s' hboth
      dsimp only
      rw [hb]
      by_cases hagain : again s'
      · rw [if_pos ⟨hagain, by omega⟩, if_pos hagain]
        dsimp only
        apply ih
        · omega
        · omega
      · rw [if_neg fun h => hagain h.1, if_neg hagain]

end StateGraph

end SpineFormal
