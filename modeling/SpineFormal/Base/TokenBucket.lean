import Mathlib.Algebra.Order.Field.Basic
import Mathlib.Data.List.Pairwise
import Mathlib.Tactic.Linarith
import Mathlib.Tactic.Ring

/-!
# Token buckets

A bucket holds at most its capacity, gains tokens at a steady rate and gives one to each
request that finds one. Requests come in the order of time.
-/

namespace SpineFormal

set_option autoImplicit false

universe u

structure TokenBucket (K : Type u) where
  capacity : K
  tokens : K
  rate : K
  last : K

namespace TokenBucket

section
variable {K : Type u} [Field K] [LinearOrder K]

def refill (b : TokenBucket K) (now : K) : TokenBucket K :=
  if now ≤ b.last then b
  else { b with tokens := min b.capacity (b.tokens + (now - b.last) * b.rate), last := now }

/-- Whether there is a token, and the bucket without it. -/
def spend (b : TokenBucket K) : Bool × TokenBucket K :=
  if 1 ≤ b.tokens then (true, { b with tokens := b.tokens - 1 }) else (false, b)

def request (b : TokenBucket K) (now : K) : Bool × TokenBucket K := (b.refill now).spend

/-- The times of the requests that get a token. -/
def served (b : TokenBucket K) : List K → List K
  | [] => []
  | t :: ts =>
    if (b.request t).1 then t :: (b.request t).2.served ts else (b.request t).2.served ts

def full (capacity rate now : K) : TokenBucket K := ⟨capacity, capacity, rate, now⟩

structure Valid (b : TokenBucket K) : Prop where
  tokens_nonneg : 0 ≤ b.tokens
  tokens_le : b.tokens ≤ b.capacity
  rate_nonneg : 0 ≤ b.rate

end

section
variable {K : Type u} [Field K] [LinearOrder K] {b : TokenBucket K}

@[simp] theorem refill_last {now : K} (h : b.last ≤ now) : (b.refill now).last = now := by
  rw [refill]
  split
  · exact le_antisymm h ‹_›
  · rfl

@[simp] theorem refill_rate (now : K) : (b.refill now).rate = b.rate := by
  rw [refill]
  split <;> rfl

@[simp] theorem refill_capacity (now : K) : (b.refill now).capacity = b.capacity := by
  rw [refill]
  split <;> rfl

@[simp] theorem refill_refill (now : K) : (b.refill now).refill now = b.refill now := by
  have hlast : now ≤ (b.refill now).last := by
    rw [refill]
    split
    · assumption
    · exact le_refl now
  rw [refill, if_pos hlast]

/-- One formula for both branches of `refill`. -/
theorem Valid.refill_tokens (hb : b.Valid) {now : K} (h : b.last ≤ now) :
    (b.refill now).tokens = min b.capacity (b.tokens + (now - b.last) * b.rate) := by
  rw [refill]
  split
  · rename_i hle
    rw [le_antisymm hle h, sub_self, zero_mul, add_zero, min_eq_right hb.tokens_le]
  · rfl

/-- What a request finds and leaves. -/
theorem request_cases (now : K) :
    (1 ≤ (b.refill now).tokens ∧ (b.request now).1 = true ∧
        (b.request now).2 = { b.refill now with tokens := (b.refill now).tokens - 1 }) ∨
      ((b.refill now).tokens < 1 ∧ (b.request now).1 = false ∧
        (b.request now).2 = b.refill now) := by
  rw [request, spend]
  split
  · exact Or.inl ⟨‹_›, rfl, rfl⟩
  · exact Or.inr ⟨not_le.mp ‹_›, rfl, rfl⟩

theorem request_last {now : K} (h : b.last ≤ now) : (b.request now).2.last = now := by
  rcases b.request_cases now with ⟨_, _, heq⟩ | ⟨_, _, heq⟩ <;> rw [heq] <;> exact refill_last h

theorem request_rate (now : K) : (b.request now).2.rate = b.rate := by
  rcases b.request_cases now with ⟨_, _, heq⟩ | ⟨_, _, heq⟩ <;> rw [heq] <;> exact refill_rate now

theorem request_capacity (now : K) : (b.request now).2.capacity = b.capacity := by
  rcases b.request_cases now with ⟨_, _, heq⟩ | ⟨_, _, heq⟩ <;> rw [heq] <;>
    exact refill_capacity now

theorem valid_full {capacity rate : K} (hc : 0 ≤ capacity) (hr : 0 ≤ rate) (now : K) :
    (full capacity rate now).Valid := ⟨hc, le_refl capacity, hr⟩

theorem served_sublist (b : TokenBucket K) (ts : List K) : (b.served ts).Sublist ts := by
  induction ts generalizing b with
  | nil => exact List.Sublist.refl []
  | cons t ts ih =>
    rw [served]
    split
    · exact (ih _).cons_cons t
    · exact (ih _).cons t

end

section
variable {K : Type u} [Field K] [LinearOrder K] [IsStrictOrderedRing K] {b : TokenBucket K}

theorem Valid.refill (hb : b.Valid) {now : K} (h : b.last ≤ now) : (b.refill now).Valid := by
  have hgain : 0 ≤ (now - b.last) * b.rate := mul_nonneg (sub_nonneg.mpr h) hb.rate_nonneg
  refine ⟨?_, ?_, ?_⟩
  · rw [hb.refill_tokens h]
    exact le_min (hb.tokens_nonneg.trans hb.tokens_le) (add_nonneg hb.tokens_nonneg hgain)
  · rw [hb.refill_tokens h, refill_capacity]
    exact min_le_left ..
  · rw [refill_rate]
    exact hb.rate_nonneg

theorem Valid.request (hb : b.Valid) {now : K} (h : b.last ≤ now) : (b.request now).2.Valid := by
  have hfilled := hb.refill h
  rcases b.request_cases now with ⟨htoken, _, heq⟩ | ⟨_, _, heq⟩
  · rw [heq]
    exact ⟨sub_nonneg.mpr htoken, by linarith [hfilled.tokens_le], hfilled.rate_nonneg⟩
  · rw [heq]
    exact hfilled

/-! ## How many are served -/

/-- Up to the time `e`, a bucket serves no more than it holds and gains. -/
theorem Valid.served_upTo_le (hb : b.Valid) {ts : List K} (hts : (b.last :: ts).Pairwise (· ≤ ·))
    {e : K} (he : b.last ≤ e) (p : K → Bool) :
    (((b.served ts).filter fun t => p t && decide (t ≤ e)).length : K) ≤
      b.tokens + (e - b.last) * b.rate := by
  induction ts generalizing b with
  | nil =>
    rw [served, List.filter_nil, List.length_nil, Nat.cast_zero]
    exact add_nonneg hb.tokens_nonneg (mul_nonneg (sub_nonneg.mpr he) hb.rate_nonneg)
  | cons t ts ih =>
    obtain ⟨hlast, hrest⟩ := List.pairwise_cons.mp hts
    have ht : b.last ≤ t := hlast t List.mem_cons_self
    have hgain : 0 ≤ (e - b.last) * b.rate := mul_nonneg (sub_nonneg.mpr he) hb.rate_nonneg
    rcases lt_or_ge e t with hlate | hearly
    · -- Every request from here on is too late.
      have hnone : ((b.served (t :: ts)).filter fun t => p t && decide (t ≤ e)) = [] := by
        apply List.filter_eq_nil_iff.mpr
        intro s hs
        have hts : t ≤ s := by
          rcases List.mem_cons.mp ((b.served_sublist (t :: ts)).subset hs) with rfl | hs
          · exact le_refl s
          · exact (List.pairwise_cons.mp hrest).1 s hs
        simp [not_le.mpr (lt_of_lt_of_le hlate hts)]
      rw [hnone, List.length_nil, Nat.cast_zero]
      exact add_nonneg hb.tokens_nonneg hgain
    · have hnext := ih (hb.request ht) (by rwa [request_last ht]) (by rwa [request_last ht])
      rw [request_last ht, request_rate] at hnext
      have hfilled : (b.refill t).tokens ≤ b.tokens + (t - b.last) * b.rate := by
        rw [hb.refill_tokens ht]
        exact min_le_right ..
      have hsplit : (e - b.last) * b.rate = (t - b.last) * b.rate + (e - t) * b.rate := by ring
      rcases b.request_cases t with ⟨_, hserved, heq⟩ | ⟨_, hserved, heq⟩
      · rw [heq] at hnext
        rw [served, if_pos hserved, List.filter_cons, heq]
        dsimp only at hnext
        split
        · rw [List.length_cons, Nat.cast_add, Nat.cast_one]
          linarith
        · linarith
      · rw [heq] at hnext
        rw [served, if_neg (by simp [hserved]), heq]
        linarith

/-- In an interval a bucket serves no more than its capacity and what it gains meanwhile. -/
theorem Valid.served_between_le (hb : b.Valid) {ts : List K}
    (hts : (b.last :: ts).Pairwise (· ≤ ·)) {a e : K} (hae : a ≤ e) :
    (((b.served ts).filter fun t => decide (a ≤ t) && decide (t ≤ e)).length : K) ≤
      b.capacity + (e - a) * b.rate := by
  have hwhole : 0 ≤ (e - a) * b.rate := mul_nonneg (sub_nonneg.mpr hae) hb.rate_nonneg
  induction ts generalizing b with
  | nil =>
    rw [served, List.filter_nil, List.length_nil, Nat.cast_zero]
    exact add_nonneg (hb.tokens_nonneg.trans hb.tokens_le) hwhole
  | cons t ts ih =>
    obtain ⟨hlast, hrest⟩ := List.pairwise_cons.mp hts
    have ht : b.last ≤ t := hlast t List.mem_cons_self
    have hnext := hb.request ht
    have hsorted : ((b.request t).2.last :: ts).Pairwise (· ≤ ·) := by rwa [request_last ht]
    have hbound := ih hnext hsorted (by rwa [request_rate])
    rw [request_capacity, request_rate] at hbound
    rw [served]
    by_cases hserved : (b.request t).1 = true
    · rw [if_pos hserved, List.filter_cons]
      by_cases hinside : (decide (a ≤ t) && decide (t ≤ e)) = true
      · -- The first one counted: from here on the bucket holds at most its capacity less one.
        obtain ⟨hat, hte⟩ : a ≤ t ∧ t ≤ e := by simpa using hinside
        have hafter := hnext.served_upTo_le (e := e) hsorted
          (by rw [request_last ht]; exact hte)
          (fun t => decide (a ≤ t))
        rw [request_last ht, request_rate] at hafter
        have htokens : (b.request t).2.tokens + 1 ≤ b.capacity := by
          rcases b.request_cases t with ⟨_, _, heq⟩ | ⟨_, hrefused, _⟩
          · have hfilled := (hb.refill ht).tokens_le
            rw [refill_capacity] at hfilled
            rw [heq]
            linarith
          · rw [hrefused] at hserved
            exact absurd hserved Bool.false_ne_true
        have hshorter : (e - t) * b.rate ≤ (e - a) * b.rate :=
          mul_le_mul_of_nonneg_right (by linarith) hb.rate_nonneg
        rw [if_pos hinside, List.length_cons, Nat.cast_add, Nat.cast_one]
        linarith
      · rw [if_neg hinside]
        exact hbound
    · rw [if_neg hserved]
      exact hbound

/-! ## How long to wait -/

/-- The time a bucket that has just been filled takes to gain what it lacks of one token. -/
theorem Valid.request_after_iff (hb : b.Valid) (hcapacity : 1 ≤ b.capacity) (hrate : 0 < b.rate)
    {s : K} (hs : b.last ≤ s) :
    (b.request s).1 = true ↔ b.last + (1 - b.tokens) / b.rate ≤ s := by
  have hneeded : (1 - b.tokens) / b.rate ≤ s - b.last ↔
      1 - b.tokens ≤ (s - b.last) * b.rate := div_le_iff₀ hrate
  have htoken : (b.request s).1 = true ↔ 1 ≤ (b.refill s).tokens := by
    rcases b.request_cases s with ⟨hle, hyes, _⟩ | ⟨hlt, hno, _⟩
    · exact iff_of_true hyes hle
    · exact iff_of_false (by simp [hno]) (not_le.mpr hlt)
  calc (b.request s).1 = true
      ↔ 1 ≤ min b.capacity (b.tokens + (s - b.last) * b.rate) := by
        rw [htoken, hb.refill_tokens hs]
    _ ↔ 1 - b.tokens ≤ (s - b.last) * b.rate := by
        rw [le_min_iff, and_iff_right hcapacity, sub_le_iff_le_add']
    _ ↔ b.last + (1 - b.tokens) / b.rate ≤ s := by
        rw [← hneeded, le_sub_iff_add_le']

/-! ## A larger bucket serves at least as many -/

/-- `lead` is how many more the larger bucket has served so far. -/
theorem Valid.served_length_le {small large : TokenBucket K} (hs : small.Valid) (hl : large.Valid)
    (hcapacity : small.capacity ≤ large.capacity) (hrate : small.rate ≤ large.rate)
    (hlast : small.last = large.last) {ts : List K} (hts : (small.last :: ts).Pairwise (· ≤ ·))
    {lead : ℕ} (hlead : small.tokens ≤ large.tokens + lead) :
    (small.served ts).length ≤ (large.served ts).length + lead := by
  induction ts generalizing small large lead with
  | nil => exact Nat.zero_le _
  | cons t ts ih =>
    obtain ⟨hbefore, hrest⟩ := List.pairwise_cons.mp hts
    have htsmall : small.last ≤ t := hbefore t List.mem_cons_self
    have htlarge : large.last ≤ t := hlast ▸ htsmall
    have hlast' : (small.request t).2.last = (large.request t).2.last := by
      rw [request_last htsmall, request_last htlarge]
    have hfilled : (small.refill t).tokens ≤ (large.refill t).tokens + lead := by
      have hgain : (t - small.last) * small.rate ≤ (t - large.last) * large.rate := by
        rw [hlast]
        exact mul_le_mul_of_nonneg_left hrate (sub_nonneg.mpr htlarge)
      have hlead0 : (0 : K) ≤ lead := Nat.cast_nonneg lead
      rw [hs.refill_tokens htsmall, hl.refill_tokens htlarge, ← min_add_add_right]
      exact min_le_min (by linarith) (by linarith)
    have hnext (lead' : ℕ)
        (hlead' : (small.request t).2.tokens ≤ (large.request t).2.tokens + lead') :=
      ih (hs.request htsmall) (hl.request htlarge)
        (by rwa [request_capacity, request_capacity]) (by rwa [request_rate, request_rate])
        hlast' (by rwa [request_last htsmall]) hlead'
    rw [served, served]
    rcases small.request_cases t with ⟨hone, hyes, heq⟩ | ⟨hone, hno, heq⟩ <;>
      rcases large.request_cases t with ⟨hone', hyes', heq'⟩ | ⟨hone', hno', heq'⟩
    · rw [if_pos hyes, if_pos hyes', List.length_cons, List.length_cons]
      have := hnext lead (by rw [heq, heq']; dsimp only; linarith)
      omega
    · -- Only the smaller one serves, so the larger one was ahead.
      have hahead : 0 < lead := by
        have : (0 : K) < lead := by linarith
        exact_mod_cast this
      obtain ⟨lead', rfl⟩ : ∃ lead', lead = lead' + 1 := ⟨lead - 1, by omega⟩
      rw [if_pos hyes, if_neg (by simp [hno']), List.length_cons]
      rw [Nat.cast_add, Nat.cast_one] at hfilled
      have := hnext lead' (by rw [heq, heq']; dsimp only; linarith)
      omega
    · rw [if_neg (by simp [hno]), if_pos hyes', List.length_cons]
      have := hnext (lead + 1) (by
        rw [heq, heq', Nat.cast_add, Nat.cast_one]
        dsimp only
        linarith)
      omega
    · rw [if_neg (by simp [hno]), if_neg (by simp [hno'])]
      exact hnext lead (by rw [heq, heq']; exact hfilled)

/-! ## When everything is served -/

end

section
variable {K : Type u} [Field K] [LinearOrder K] {b : TokenBucket K}

/-- No run of requests from the first on is longer than the budget and what is gained since
`start`. -/
def WithinFrom (budget rate start : K) (ts : List K) : Prop :=
  ∀ t run, (t :: run) <+: ts →
    (run.length + 1 : K) ≤ budget + (run.getLastD t - start) * rate

/-- No run of successive requests is longer than the capacity and what is gained meanwhile. -/
def Conforms (capacity rate : K) (ts : List K) : Prop :=
  ∀ t run, (t :: run) <:+: ts →
    (run.length + 1 : K) ≤ capacity + (run.getLastD t - t) * rate

theorem conforms_cons {capacity rate t : K} {ts : List K} :
    Conforms capacity rate (t :: ts) ↔
      WithinFrom capacity rate t (t :: ts) ∧ Conforms capacity rate ts := by
  constructor
  · intro h
    refine ⟨fun s run hrun => ?_, fun s run hrun => h s run (List.infix_cons hrun)⟩
    obtain ⟨rfl, _⟩ := List.cons_prefix_cons.mp hrun
    exact h s run hrun.isInfix
  · rintro ⟨hfirst, hrest⟩ s run hrun
    rcases List.infix_cons_iff.mp hrun with hpre | hinfix
    · obtain ⟨rfl, _⟩ := List.cons_prefix_cons.mp hpre
      exact hfirst s run hpre
    · exact hrest s run hinfix

theorem Conforms.of_prefix {capacity rate : K} {ts us : List K} (h : Conforms capacity rate us)
    (hpre : ts <+: us) : Conforms capacity rate ts :=
  fun t run hrun => h t run (hrun.trans hpre.isInfix)

theorem served_eq_cons_iff {t : K} {ts : List K} :
    b.served (t :: ts) = t :: ts ↔
      1 ≤ (b.refill t).tokens ∧ (b.request t).2.served ts = ts := by
  rw [served]
  rcases b.request_cases t with ⟨hone, hyes, _⟩ | ⟨hone, hno, _⟩
  · rw [if_pos hyes, List.cons_inj_right, and_iff_right hone]
  · rw [if_neg (by simp [hno])]
    refine iff_of_false (fun h => ?_) (fun h => not_le.mpr hone h.1)
    have := ((b.request t).2.served_sublist ts).length_le
    rw [h, List.length_cons] at this
    omega

end

section
variable {K : Type u} [Field K] [LinearOrder K] [IsStrictOrderedRing K] {b : TokenBucket K}

theorem withinFrom_cons {budget rate start t : K} {ts : List K} :
    WithinFrom budget rate start (t :: ts) ↔
      1 ≤ budget + (t - start) * rate ∧
        WithinFrom (budget + (t - start) * rate - 1) rate t ts := by
  constructor
  · intro h
    refine ⟨by simpa using h t [] (by simp), fun s run hrun => ?_⟩
    have := h t (s :: run) (by simpa using hrun)
    rw [List.length_cons, Nat.cast_add, Nat.cast_one, List.getLastD_cons] at this
    linarith
  · rintro ⟨hone, hrest⟩ s run hrun
    obtain ⟨rfl, hshort⟩ := List.cons_prefix_cons.mp hrun
    cases run with
    | nil => simpa using hone
    | cons s run =>
      have := hrest s run hshort
      rw [List.length_cons, Nat.cast_add, Nat.cast_one, List.getLastD_cons]
      linarith

theorem withinFrom_min {x y rate start : K} {ts : List K} :
    WithinFrom (min x y) rate start ts ↔
      WithinFrom x rate start ts ∧ WithinFrom y rate start ts := by
  simp only [WithinFrom, ← min_add_add_right, le_min_iff]
  exact ⟨fun h => ⟨fun t run hrun => (h t run hrun).1, fun t run hrun => (h t run hrun).2⟩,
    fun h t run hrun => ⟨h.1 t run hrun, h.2 t run hrun⟩⟩

theorem Valid.served_eq_self_iff (hb : b.Valid) {ts : List K}
    (hts : (b.last :: ts).Pairwise (· ≤ ·)) :
    b.served ts = ts ↔
      WithinFrom b.tokens b.rate b.last ts ∧ Conforms b.capacity b.rate ts := by
  induction ts generalizing b with
  | nil => simp [served, WithinFrom, Conforms]
  | cons t ts ih =>
    obtain ⟨hlast, hrest⟩ := List.pairwise_cons.mp hts
    have ht : b.last ≤ t := hlast t List.mem_cons_self
    have hnext := ih (hb.request ht) (by rwa [request_last ht])
    rw [request_last ht, request_rate, request_capacity] at hnext
    rw [served_eq_cons_iff, hnext, conforms_cons]
    have hstart : WithinFrom b.capacity b.rate t (t :: ts) ∧
        WithinFrom b.tokens b.rate b.last (t :: ts) ↔
          1 ≤ (b.refill t).tokens ∧ WithinFrom ((b.refill t).tokens - 1) b.rate t ts := by
      have hshift : WithinFrom b.tokens b.rate b.last (t :: ts) ↔
          WithinFrom (b.tokens + (t - b.last) * b.rate) b.rate t (t :: ts) := by
        rw [withinFrom_cons, withinFrom_cons, sub_self, zero_mul, add_zero]
      rw [hshift, ← withinFrom_min, ← hb.refill_tokens ht, withinFrom_cons, sub_self, zero_mul,
        add_zero]
    rcases b.request_cases t with ⟨hone, _, heq⟩ | ⟨hone, _, _⟩
    · rw [heq]
      tauto
    · have := not_le.mpr hone
      tauto

/-- A bucket that starts full serves every request exactly if they conform. -/
theorem served_full_eq_self_iff {capacity rate t : K} (hc : 0 ≤ capacity) (hr : 0 ≤ rate)
    {ts : List K} (hts : (t :: ts).Pairwise (· ≤ ·)) :
    (full capacity rate t).served (t :: ts) = t :: ts ↔ Conforms capacity rate (t :: ts) := by
  have hsorted : ((full capacity rate t).last :: t :: ts).Pairwise (· ≤ ·) := by
    refine List.pairwise_cons.mpr ⟨fun s hs => ?_, hts⟩
    rcases List.mem_cons.mp hs with rfl | hs
    · exact le_refl s
    · exact (List.pairwise_cons.mp hts).1 s hs
  rw [(valid_full hc hr t).served_eq_self_iff hsorted]
  exact ⟨fun h => h.2, fun h => ⟨(conforms_cons.mp h).1, h⟩⟩

end

end TokenBucket

end SpineFormal
