import Mathlib.Data.List.Induction

/-!
# Runs of a transition system

A run is a list of events, newest last, that leads from the initial state to
the present one. An invariant is checked once on the initial state and once
across a step.
-/

namespace SpineFormal

set_option autoImplicit false

universe u v
variable {State : Type u} {Event : Type v}

/-- `Run Step init es s`: the events `es` lead from `init` to `s`. -/
inductive Run (Step : State → Event → State → Prop) (init : State) : List Event → State → Prop where
  | start : Run Step init [] init
  | snoc {es : List Event} {s t : State} {e : Event} :
      Run Step init es s → Step s e t → Run Step init (es ++ [e]) t

namespace Run
variable {Step : State → Event → State → Prop} {init s : State} {es : List Event}

theorem single {e : Event} (h : Step init e s) : Run Step init [e] s := .snoc .start h

/-- What holds initially and across every step holds after every run. -/
theorem invariant {I : List Event → State → Prop} (h : Run Step init es s) (start : I [] init)
    (step : ∀ {es s t e}, I es s → Step s e t → I (es ++ [e]) t) : I es s := by
  induction h with
  | start => exact start
  | snoc _ hstep ih => exact step ih hstep

/-- Steps of one system that are steps of another. -/
theorem mono {Step' : State → Event → State → Prop} (h : Run Step init es s)
    (sub : ∀ {s e t}, Step s e t → Step' s e t) : Run Step' init es s := by
  induction h with
  | start => exact .start
  | snoc _ hstep ih => exact .snoc ih (sub hstep)

/-- Where a step between states with the invariant `I` keeps `P` just when the state and the event
meet `C`, the runs through states with `P` are the runs whose steps meet `C`. -/
theorem guard_iff_of_invariant {I P : State → Prop} {C : State → Event → Prop} (hI : I init)
    (hinit : P init) (keep : ∀ {s e t}, I s → Step s e t → I t)
    (step : ∀ {s e t}, I s → P s → Step s e t → (P t ↔ C s e)) :
    Run (fun s e t => P t ∧ Step s e t) init es s ↔
      Run (fun s e t => C s e ∧ Step s e t) init es s := by
  constructor
  · intro h
    have hall : I s ∧ P s ∧ Run (fun s e t => C s e ∧ Step s e t) init es s := by
      refine h.invariant (I := fun es s => I s ∧ P s ∧ Run _ init es s) ⟨hI, hinit, .start⟩ ?_
      rintro es s t e ⟨hi, hs, hrun⟩ ⟨ht, hstep⟩
      exact ⟨keep hi hstep, ht, hrun.snoc ⟨(step hi hs hstep).mp ht, hstep⟩⟩
    exact hall.2.2
  · intro h
    have hall : I s ∧ P s ∧ Run (fun s e t => P t ∧ Step s e t) init es s := by
      refine h.invariant (I := fun es s => I s ∧ P s ∧ Run _ init es s) ⟨hI, hinit, .start⟩ ?_
      rintro es s t e ⟨hi, hs, hrun⟩ ⟨hguard, hstep⟩
      have ht := (step hi hs hstep).mpr hguard
      exact ⟨keep hi hstep, ht, hrun.snoc ⟨ht, hstep⟩⟩
    exact hall.2.2

theorem guard_iff {P : State → Prop} {C : State → Event → Prop} (hinit : P init)
    (step : ∀ {s e t}, P s → Step s e t → (P t ↔ C s e)) :
    Run (fun s e t => P t ∧ Step s e t) init es s ↔
      Run (fun s e t => C s e ∧ Step s e t) init es s :=
  guard_iff_of_invariant (I := fun _ => True) trivial hinit (fun _ _ => trivial)
    fun _ hs hstep => step hs hstep

/-- Executing a partial step function along the events gives a run. -/
theorem of_foldlM {step : State → Event → Option State}
    (sound : ∀ {s e t}, step s e = some t → Step s e t) (h : es.foldlM step init = some s) :
    Run Step init es s := by
  induction es using List.reverseRecOn generalizing s with
  | nil =>
    obtain rfl : init = s := by simpa using h
    exact .start
  | append_singleton es e ih =>
    rw [List.foldlM_append] at h
    obtain ⟨t, ht, hlast⟩ := Option.bind_eq_some_iff.mp h
    exact .snoc (ih ht) (sound (by simpa using hlast))

/-- The run of a total step function. -/
theorem of_foldl {step : State → Event → State} (h : es.foldl step init = s) :
    Run (fun s e t => step s e = t) init es s := by
  induction es using List.reverseRecOn generalizing s with
  | nil =>
    obtain rfl : init = s := h
    exact .start
  | append_singleton es e ih =>
    rw [List.foldl_append] at h
    exact .snoc (ih rfl) h

theorem of_guarded_foldlM {C : State → Event → Prop} [∀ s e, Decidable (C s e)]
    {step : State → Event → Option State}
    (h : es.foldlM (fun s e => if C s e then step s e else none) init = some s) :
    Run (fun s e t => C s e ∧ step s e = some t) init es s := by
  refine of_foldlM (fun hstep => ?_) h
  split_ifs at hstep with hguard
  exact ⟨hguard, hstep⟩

end Run
end SpineFormal
