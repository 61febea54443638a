import Mathlib.Data.List.Basic

/-!
# Sessions on a shared store

Any number of sessions work on one store. A step picks a session and lets it run
up to its next wait, with whatever answer it was waiting for. Nothing is said
here about what the sessions do.
-/

namespace SpineFormal

set_option autoImplicit false

universe u v w
variable {Store : Type u} {Session : Type v} {Answer : Type w}

structure Pool (Store : Type u) (Session : Type v) where
  store : Store
  sessions : List Session

namespace Pool

/-- The `i`-th session runs on, with the answer `o`. -/
def advance (run : Store → Session → Answer → Store × Session) (p : Pool Store Session) (i : Nat)
    (o : Answer) : Option (Pool Store Session) :=
  p.sessions[i]?.map fun s => ⟨(run p.store s o).1, p.sessions.set i (run p.store s o).2⟩

def add (p : Pool Store Session) (s : Session) : Pool Store Session := ⟨p.store, p.sessions ++ [s]⟩

/-- The other sessions stay where they are. -/
theorem advance_split {run : Store → Session → Answer → Store × Session} {p q : Pool Store Session}
    {i : Nat} {o : Answer} (h : p.advance run i o = some q) :
    ∃ pre s post, p.sessions[i]? = some s ∧ p.sessions = pre ++ s :: post ∧
      q = ⟨(run p.store s o).1, pre ++ (run p.store s o).2 :: post⟩ := by
  obtain ⟨s, hs, rfl⟩ := Option.map_eq_some_iff.mp h
  obtain ⟨hi, hget⟩ := List.getElem?_eq_some_iff.mp hs
  refine ⟨p.sessions.take i, s, p.sessions.drop (i + 1), hs, ?_, ?_⟩
  · rw [← hget, List.getElem_cons_drop, List.take_append_drop]
  · rw [List.set_eq_take_append_cons_drop, if_pos hi]

theorem advance_eq_some {run : Store → Session → Answer → Store × Session}
    {p q : Pool Store Session} {i : Nat} {o : Answer} (h : p.advance run i o = some q) :
    ∃ s, p.sessions[i]? = some s ∧
      q = ⟨(run p.store s o).1, p.sessions.set i (run p.store s o).2⟩ := by
  obtain ⟨s, hs, rfl⟩ := Option.map_eq_some_iff.mp h
  exact ⟨s, hs, rfl⟩

end Pool

theorem mem_set_iff_eraseIdx {α : Type u} {l : List α} {i : Nat} {s s' x : α}
    (hs : l[i]? = some s) : x ∈ l.set i s' ↔ x = s' ∨ x ∈ l.eraseIdx i := by
  obtain ⟨hi, -⟩ := List.getElem?_eq_some_iff.mp hs
  rw [List.set_eq_take_append_cons_drop, if_pos hi, List.eraseIdx_eq_take_drop_succ,
    List.mem_append, List.mem_cons, List.mem_append]
  exact or_left_comm

theorem mem_iff_eraseIdx {α : Type u} {l : List α} {i : Nat} {s x : α} (hs : l[i]? = some s) :
    x ∈ l ↔ x = s ∨ x ∈ l.eraseIdx i := by
  obtain ⟨hi, hget⟩ := List.getElem?_eq_some_iff.mp hs
  have hself : l.set i s = l := by rw [← hget, List.set_getElem_self]
  rw [← mem_set_iff_eraseIdx hs, hself]

/-- How many entries hold, when one is replaced. -/
theorem countP_set_add {α : Type u} (holds : α → Bool) {l : List α} {i : Nat} {s : α} (s' : α)
    (hs : l[i]? = some s) :
    (l.set i s').countP holds + (holds s).toNat = l.countP holds + (holds s').toNat := by
  obtain ⟨hi, hget⟩ := List.getElem?_eq_some_iff.mp hs
  have hsplit : l.take i ++ s :: l.drop (i + 1) = l := by
    rw [← hget, List.getElem_cons_drop, List.take_append_drop]
  have hl : l.countP holds = (l.take i ++ s :: l.drop (i + 1)).countP holds := by rw [hsplit]
  rw [hl, List.set_eq_take_append_cons_drop, if_pos hi, List.countP_append, List.countP_append,
    List.countP_cons, List.countP_cons]
  cases holds s <;> cases holds s' <;>
    simp only [Bool.toNat_true, Bool.toNat_false, if_true, if_false, Bool.false_eq_true] <;> omega

theorem forall_mem_replace {α : Type u} {P : α → Prop} {pre post : List α} {s s' : α}
    (h : ∀ x ∈ pre ++ s :: post, P x) (hs' : P s') : ∀ x ∈ pre ++ s' :: post, P x := by
  intro x hx
  rcases List.mem_append.mp hx with hx | hx
  · exact h x (List.mem_append_left _ hx)
  · rcases List.mem_cons.mp hx with rfl | hx
    · exact hs'
    · exact h x (List.mem_append_right _ (List.mem_cons_of_mem _ hx))

/-- When at most one entry of a list holds and this one does, no other entry does. -/
theorem sole_holder {α : Type u} {holds : α → Bool} {pre post : List α} {s : α}
    (h : (pre ++ s :: post).countP holds ≤ 1) (hs : holds s = true) :
    (∀ x ∈ pre, holds x = false) ∧ ∀ x ∈ post, holds x = false := by
  rw [List.countP_append, List.countP_cons_of_pos hs] at h
  have hpre : pre.countP holds = 0 := by omega
  have hpost : post.countP holds = 0 := by omega
  rw [List.countP_eq_zero] at hpre hpost
  exact ⟨fun x hx => by simpa using hpre x hx, fun x hx => by simpa using hpost x hx⟩

end SpineFormal
