import Mathlib.Algebra.Order.Group.Unbundled.Basic
import Mathlib.Algebra.Order.Monoid.Unbundled.Basic
import Mathlib.Algebra.Order.Group.Defs

/-!
# Sliding windows

A limiter logs a time for each permit it gives. Before the next one it drops the
times before a cutoff and counts what is left. The log may forget what no later
cutoff reaches; every window, wherever it begins, then holds no more permits than the
limit.
-/

namespace SpineFormal.SlidingWindow

set_option autoImplicit false

variable {T : Type} [LinearOrder T]

/-- From `cutoff` on, the log holds what was recorded. -/
def Keeps (cutoff : T) (log recorded : List T) : Prop :=
  ∀ c, cutoff ≤ c → (log.filter fun t => c ≤ t) = recorded.filter fun t => c ≤ t

namespace Keeps
variable {cutoff later : T} {log recorded : List T}

theorem nil (cutoff : T) : Keeps cutoff [] [] := fun _ _ => rfl

theorem mono (h : Keeps cutoff log recorded) (hle : cutoff ≤ later) : Keeps later log recorded :=
  fun c hc => h c (hle.trans hc)

/-- Dropping what is before a cutoff loses nothing from there on. -/
theorem prune (h : Keeps cutoff log recorded) (hle : cutoff ≤ later) :
    Keeps later (log.filter fun t => later ≤ t) recorded := by
  intro c hc
  rw [List.filter_filter, ← h c (hle.trans hc)]
  apply List.filter_congr
  intro t _
  by_cases ht : c ≤ t
  · simp [ht, hc.trans ht]
  · simp [ht]

theorem snoc (h : Keeps cutoff log recorded) (t : T) :
    Keeps cutoff (log ++ [t]) (recorded ++ [t]) := by
  intro c hc
  rw [List.filter_append, List.filter_append, h c hc]

end Keeps

/-- What a permit was given by: the cutoff of the count, the time at which it counts for the
windows, and the time logged. -/
structure Permit (T : Type) where
  cutoff : T
  moment : T
  recorded : T

/-- Permits in the order given, each while fewer than `limit` earlier ones were recorded from its
cutoff on. -/
inductive Admitted (limit : Nat) : List (Permit T) → Prop where
  | nil : Admitted limit []
  | snoc {ps : List (Permit T)} {p : Permit T} : Admitted limit ps →
      ps.countP (fun q => p.cutoff ≤ q.recorded) < limit → Admitted limit (ps ++ [p])

/-- When no time recorded within a window's length before a permit falls short of its cutoff, no
window holds more than `limit` permits. -/
theorem Admitted.countP_window_le [AddCommGroup T] [IsOrderedAddMonoid T] {limit : Nat}
    {ps : List (Permit T)} (h : Admitted limit ps) (window : T)
    (hcutoff : ∀ p ∈ ps, ∀ q ∈ ps, p.moment ≤ q.recorded + window → p.cutoff ≤ q.recorded)
    (hlogged : ∀ p ∈ ps, p.moment ≤ p.recorded) (start : T) :
    ps.countP (fun p => start ≤ p.moment ∧ p.moment ≤ start + window) ≤ limit := by
  induction h with
  | nil => exact Nat.zero_le _
  | @snoc ps p _ hroom ih =>
    have hmem {q : Permit T} (hq : q ∈ ps) : q ∈ ps ++ [p] := List.mem_append_left _ hq
    rw [List.countP_append, List.countP_singleton]
    by_cases hp : start ≤ p.moment ∧ p.moment ≤ start + window
    · -- every earlier permit of the window was recorded from the last one's cutoff on
      have hsub : ps.countP (fun q => start ≤ q.moment ∧ q.moment ≤ start + window) ≤
          ps.countP (fun q => p.cutoff ≤ q.recorded) := by
        apply List.countP_mono_left
        intro q hq hin
        have hq' := hlogged q (hmem hq)
        refine decide_eq_true
          (hcutoff p (List.mem_append_right _ List.mem_cons_self) q (hmem hq) ?_)
        calc p.moment ≤ start + window := hp.2
          _ ≤ q.recorded + window := by
            gcongr
            exact (of_decide_eq_true hin).1.trans hq'
      rw [if_pos (decide_eq_true hp)]
      omega
    · have hrest := ih (fun p hp q hq => hcutoff p (hmem hp) q (hmem hq))
        fun p hp => hlogged p (hmem hp)
      rw [if_neg (by simpa using hp)]
      exact hrest

end SpineFormal.SlidingWindow
