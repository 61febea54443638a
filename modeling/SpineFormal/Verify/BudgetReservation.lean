import Mathlib.Algebra.Order.BigOperators.Group.List
import Mathlib.Data.Rat.Floor
import Mathlib.Tactic.Linarith
import SpineFormal.Base.Interleaving
import SpineFormal.Base.Run

/-!
# Reserving budget for calls

`infra/llm/budget_reservation.py`: a caller reads what was spent, raises a counter in Redis by
its estimate and looks at the new total; past the cap it takes its part back and gives up.
Any number of callers run these statements in any order, and Redis may fail under each of them.
Without Redis a lock of the process takes the place of the counter.
-/

namespace SpineFormal.Verify.Reservation

set_option autoImplicit false

/-- `_usd_to_cents`, on exact amounts. -/
def usdToCents (usd : ℚ) : Int := if usd ≤ 0 then 0 else max ⌊usd * 100 + 9999 / 10000⌋ 1

theorem usdToCents_nonneg (usd : ℚ) : 0 ≤ usdToCents usd := by
  unfold usdToCents
  split
  · exact le_rfl
  · exact le_max_of_le_right zero_le_one

/-- Rounding falls short of the amount by less than a ten-thousandth of a cent. -/
theorem lt_usdToCents (usd : ℚ) : 100 * usd < usdToCents usd + 1 / 10000 := by
  unfold usdToCents
  split
  · rename_i h
    have hcast : ((0 : Int) : ℚ) = 0 := Int.cast_zero
    linarith
  · have hfloor : usd * 100 + 9999 / 10000 < ⌊usd * 100 + 9999 / 10000⌋ + 1 := Int.lt_floor_add_one _
    have hmax : ((⌊usd * 100 + 9999 / 10000⌋ : Int) : ℚ) ≤
        (max ⌊usd * 100 + 9999 / 10000⌋ 1 : Int) := Int.cast_le.mpr (le_max_left _ _)
    linarith

structure Settings where
  enforce : Bool
  budgetUsd : ℚ

/-- The cap in cents; there is none when nothing is enforced. -/
def Settings.capCents (settings : Settings) : Option Int :=
  if settings.enforce = false ∨ settings.budgetUsd ≤ 0 then none
  else some (usdToCents settings.budgetUsd)

/-! ## The counter in Redis -/

/-- Where a caller stands between its statements. -/
inductive Phase where
  /-- There is no cap, the call runs without a reservation. -/
  | unlimited
  | called
  /-- The spend that was read is below the cap. -/
  | checked (spentCents : Int)
  /-- The counter was raised past the cap. -/
  | overCap
  /-- The call runs. -/
  | granted (spentCents : Int)
  | refused
  | released
  /-- The call is over, its part of the counter is not taken back. -/
  | leaked
  deriving DecidableEq

structure Caller where
  estCents : Int
  phase : Phase
  /-- What the usage rows of this call come to. -/
  billedUsd : ℚ

/-- The counter, and the sum of the usage rows. -/
structure Store where
  reservedCents : Int
  spentUsd : ℚ

/-- What becomes of a Redis command: it is carried out and answered, it is carried out and the
answer is lost, or it is not carried out. -/
inductive Answer where
  | replied
  | unanswered
  | failed
  deriving DecidableEq

def reserve (settings : Settings) (estimatedUsd : ℚ) : Caller :=
  match settings.capCents with
  | none => ⟨usdToCents estimatedUsd, .unlimited, 0⟩
  | some _ => ⟨usdToCents estimatedUsd, .called, 0⟩

/-- The next statement of `reserve_llm_budget`. -/
def runStatement (cap : Int) (st : Store) (c : Caller) (answer : Answer) : Store × Caller :=
  match c.phase with
  | .called =>
    let spentCents := usdToCents st.spentUsd
    (st, { c with phase := if cap ≤ spentCents then .refused else .checked spentCents })
  | .checked spentCents =>
    let raised := { st with reservedCents := st.reservedCents + c.estCents }
    match answer with
    | .replied =>
      (raised, { c with
        phase := if cap < spentCents + raised.reservedCents then .overCap else .granted spentCents })
    | .unanswered => (raised, { c with phase := .leaked })
    | .failed => (st, { c with phase := .refused })
  | .overCap =>
    match answer with
    | .failed => (st, { c with phase := .leaked })
    | _ => ({ st with reservedCents := st.reservedCents - c.estCents }, { c with phase := .refused })
  | .granted _ =>
    match answer with
    | .failed => (st, { c with phase := .leaked })
    | _ => ({ st with reservedCents := st.reservedCents - c.estCents }, { c with phase := .released })
  | _ => (st, c)

inductive Event where
  | arrive (estimatedUsd : ℚ)
  | statement (i : Nat) (answer : Answer)
  /-- A usage row of the call that runs. -/
  | persistUsage (i : Nat) (costUsd : ℚ)

abbrev Callers := Pool Store Caller

def bill (costUsd : ℚ) (st : Store) (c : Caller) (_ : Answer) : Store × Caller :=
  ({ st with spentUsd := st.spentUsd + costUsd }, { c with billedUsd := c.billedUsd + costUsd })

def Caller.running (c : Caller) : Bool :=
  match c.phase with
  | .granted _ => true
  | _ => false

def step (settings : Settings) (cap : Int) (p : Callers) : Event → Option Callers
  | .arrive estimatedUsd => some (p.add (reserve settings estimatedUsd))
  | .statement i answer => p.advance (runStatement cap) i answer
  | .persistUsage i costUsd =>
    if (p.sessions[i]?.any Caller.running) then p.advance (bill costUsd) i .replied else none

/-- No caller yet: a counter at zero, and what was spent before. -/
def idle (spentUsd : ℚ) : Callers := ⟨⟨0, spentUsd⟩, []⟩

/-! ## What is in flight -/

/-- The caller's part of the counter. -/
def Caller.inFlight (c : Caller) : Int :=
  match c.phase with
  | .overCap | .granted _ | .leaked => c.estCents
  | _ => 0

def Caller.grantedCents (c : Caller) : Int := if c.running then c.estCents else 0

/-- The counter is what is in flight, and the calls that run fit under the cap. -/
structure Accounted (cap : Int) (p : Callers) : Prop where
  estimates : ∀ c ∈ p.sessions, 0 ≤ c.estCents
  reads : ∀ c ∈ p.sessions, ∀ spentCents, c.phase = .checked spentCents → 0 ≤ spentCents
  counter : p.store.reservedCents = (p.sessions.map Caller.inFlight).sum
  granted : (p.sessions.map Caller.grantedCents).sum ≤ cap

theorem grantedCents_le_inFlight {c : Caller} (h : 0 ≤ c.estCents) : c.grantedCents ≤ c.inFlight := by
  unfold Caller.grantedCents Caller.running Caller.inFlight
  cases c.phase <;> simp [h]

theorem sum_grantedCents_le {cs : List Caller} (h : ∀ c ∈ cs, 0 ≤ c.estCents) :
    (cs.map Caller.grantedCents).sum ≤ (cs.map Caller.inFlight).sum := by
  induction cs with
  | nil => exact le_rfl
  | cons c cs ih =>
    obtain ⟨hc, hcs⟩ := List.forall_mem_cons.mp h
    rw [List.map_cons, List.map_cons, List.sum_cons, List.sum_cons]
    exact add_le_add (grantedCents_le_inFlight hc) (ih hcs)

/-- A statement moves the counter by what it moves the caller's part. -/
theorem runStatement_counter (cap : Int) (st : Store) (c : Caller) (answer : Answer) :
    (runStatement cap st c answer).1.reservedCents + c.inFlight =
      st.reservedCents + (runStatement cap st c answer).2.inFlight := by
  unfold runStatement
  cases hphase : c.phase with
  | called =>
    dsimp only
    split <;> simp [Caller.inFlight, hphase]
  | checked spentCents =>
    cases answer with
    | replied =>
      dsimp only
      split <;> simp [Caller.inFlight, hphase]
    | unanswered | failed => simp [Caller.inFlight, hphase]
  | overCap | granted spentCents => cases answer <;> simp [Caller.inFlight, hphase]
  | unlimited | refused | released | leaked => simp [Caller.inFlight, hphase]

theorem runStatement_estCents (cap : Int) (st : Store) (c : Caller) (answer : Answer) :
    (runStatement cap st c answer).2.estCents = c.estCents := by
  unfold runStatement
  cases c.phase with
  | called | unlimited | refused | released | leaked => rfl
  | checked spentCents | overCap | granted spentCents => cases answer <;> rfl

/-- The call begins to run with this statement only if what was spent and the whole counter fit
under the cap. -/
theorem granted_of_runStatement {cap : Int} {st : Store} {c : Caller} {answer : Answer}
    (hc : c.running = false) (h : (runStatement cap st c answer).2.running = true) :
    ∃ spentCents, c.phase = .checked spentCents ∧ answer = .replied ∧
      (runStatement cap st c answer).2 = { c with phase := .granted spentCents } ∧
      spentCents + (runStatement cap st c answer).1.reservedCents ≤ cap := by
  unfold runStatement at h ⊢
  cases hphase : c.phase with
  | called =>
    rw [hphase] at h
    dsimp only at h
    split at h <;> cases h
  | checked spentCents =>
    rw [hphase] at h
    cases answer with
    | replied =>
      dsimp only at h ⊢
      split at h
      · cases h
      · rename_i hcap
        refine ⟨spentCents, rfl, rfl, by rw [if_neg hcap], ?_⟩
        exact not_lt.mp hcap
    | unanswered | failed => cases h
  | granted spentCents => simp [Caller.running, hphase] at hc
  | overCap =>
    rw [hphase] at h
    cases answer <;> cases h
  | unlimited | refused | released | leaked =>
    rw [hphase] at h
    simp [Caller.running, hphase] at h

theorem grantedCents_of_not_running {c : Caller} (h : c.running = false) : c.grantedCents = 0 := by
  rw [Caller.grantedCents, h]
  exact if_neg Bool.false_ne_true

theorem reads_runStatement {cap : Int} {st : Store} {c : Caller} {answer : Answer}
    (hc : ∀ spentCents, c.phase = .checked spentCents → 0 ≤ spentCents) (spentCents : Int)
    (h : (runStatement cap st c answer).2.phase = .checked spentCents) : 0 ≤ spentCents := by
  unfold runStatement at h
  cases hphase : c.phase with
  | called =>
    rw [hphase] at h
    dsimp only at h
    split at h
    · cases h
    · obtain rfl := Phase.checked.inj h
      exact usdToCents_nonneg _
  | checked spent =>
    rw [hphase] at h
    cases answer with
    | replied =>
      dsimp only at h
      split at h <;> cases h
    | unanswered | failed => cases h
  | overCap | granted spent =>
    rw [hphase] at h
    cases answer <;> cases h
  | unlimited | refused | released | leaked =>
    rw [hphase] at h
    exact hc spentCents h

theorem not_running_after {cap : Int} {st : Store} {c : Caller} (answer : Answer)
    (hc : c.running = true) : (runStatement cap st c answer).2.running = false := by
  unfold runStatement
  cases hphase : c.phase with
  | granted spent => cases answer <;> rfl
  | called | checked _ | overCap | unlimited | refused | released | leaked =>
    simp [Caller.running, hphase] at hc

variable {settings : Settings} {cap : Int}

theorem capCents_nonneg (h : settings.capCents = some cap) : 0 ≤ cap := by
  unfold Settings.capCents at h
  split at h
  · cases h
  · obtain rfl := Option.some.inj h
    exact usdToCents_nonneg _

theorem reserve_eq (h : settings.capCents = some cap) (estimatedUsd : ℚ) :
    reserve settings estimatedUsd = ⟨usdToCents estimatedUsd, .called, 0⟩ := by
  rw [reserve, h]

theorem accounted_idle (hcap : 0 ≤ cap) (spentUsd : ℚ) : Accounted cap (idle spentUsd) where
  estimates := fun _ hc => absurd hc List.not_mem_nil
  reads := fun _ hc => absurd hc List.not_mem_nil
  counter := rfl
  granted := hcap

theorem accounted_statement {p q : Callers} {i : Nat} {answer : Answer} (hp : Accounted cap p)
    (h : p.advance (runStatement cap) i answer = some q) : Accounted cap q := by
  obtain ⟨pre, c, post, -, hsplit, rfl⟩ := Pool.advance_split h
  obtain ⟨hest, hreads, hcounter, hgranted⟩ := hp
  have hc : c ∈ p.sessions := hsplit ▸ List.mem_append_right pre List.mem_cons_self
  have hmove := runStatement_counter cap p.store c answer
  rw [hsplit] at hest hreads hcounter hgranted
  have hest' : ∀ x ∈ pre ++ (runStatement cap p.store c answer).2 :: post, 0 ≤ x.estCents := by
    apply forall_mem_replace hest
    rw [runStatement_estCents]
    exact hest c (List.mem_append_right pre List.mem_cons_self)
  have hcounter' : (runStatement cap p.store c answer).1.reservedCents =
      ((pre ++ (runStatement cap p.store c answer).2 :: post).map Caller.inFlight).sum := by
    simp only [List.map_append, List.map_cons, List.sum_append, List.sum_cons] at hcounter ⊢
    omega
  refine ⟨hest', ?_, hcounter', ?_⟩
  · apply forall_mem_replace hreads
    exact reads_runStatement (hreads c (List.mem_append_right pre List.mem_cons_self))
  · cases hrun : (runStatement cap p.store c answer).2.running with
    | true =>
      have hidle : c.running = false := by
        by_contra hno
        rw [not_running_after answer (by simpa using hno)] at hrun
        cases hrun
      obtain ⟨spentCents, hphase, -, -, hfits⟩ := granted_of_runStatement hidle hrun
      have hspent := hreads c (List.mem_append_right pre List.mem_cons_self) spentCents hphase
      have hsum := sum_grantedCents_le hest'
      rw [← hcounter'] at hsum
      dsimp only
      omega
    | false =>
      have hnone := grantedCents_of_not_running hrun
      have hpart : 0 ≤ c.grantedCents := by
        unfold Caller.grantedCents
        split
        · exact hest c (List.mem_append_right pre List.mem_cons_self)
        · exact le_rfl
      simp only [List.map_append, List.map_cons, List.sum_append, List.sum_cons] at hgranted ⊢
      omega

theorem accounted_bill {p q : Callers} {i : Nat} {costUsd : ℚ} (hp : Accounted cap p)
    (h : p.advance (bill costUsd) i .replied = some q) : Accounted cap q := by
  obtain ⟨pre, c, post, -, hsplit, rfl⟩ := Pool.advance_split h
  obtain ⟨hest, hreads, hcounter, hgranted⟩ := hp
  rw [hsplit] at hest hreads hcounter hgranted
  have hmem : c ∈ pre ++ c :: post := List.mem_append_right pre List.mem_cons_self
  refine ⟨forall_mem_replace hest (hest c hmem), forall_mem_replace hreads (hreads c hmem), ?_, ?_⟩
  · simp only [List.map_append, List.map_cons] at hcounter ⊢
    exact hcounter
  · simp only [List.map_append, List.map_cons] at hgranted ⊢
    exact hgranted

theorem accounted_step (hcap : settings.capCents = some cap) {p q : Callers} {e : Event}
    (hp : Accounted cap p) (h : step settings cap p e = some q) : Accounted cap q := by
  cases e with
  | arrive estimatedUsd =>
    obtain rfl := Option.some.inj h
    obtain ⟨hest, hreads, hcounter, hgranted⟩ := hp
    rw [reserve_eq hcap]
    refine ⟨?_, ?_, ?_, ?_⟩
    · apply List.forall_mem_append.mpr ⟨hest, ?_⟩
      exact List.forall_mem_singleton.mpr (usdToCents_nonneg estimatedUsd)
    · apply List.forall_mem_append.mpr ⟨hreads, ?_⟩
      exact List.forall_mem_singleton.mpr fun _ hphase => nomatch hphase
    · simp [Pool.add, Caller.inFlight, hcounter]
    · simpa [Pool.add, Caller.grantedCents, Caller.running] using hgranted
  | statement i answer => exact accounted_statement hp h
  | persistUsage i costUsd =>
    have hbill : (if p.sessions[i]?.any Caller.running then p.advance (bill costUsd) i .replied
        else none) = some q := h
    split at hbill
    · exact accounted_bill hp hbill
    · cases hbill

/-- A budget of one dollar. -/
def oneDollar : Settings := ⟨true, 1⟩

theorem capCents_oneDollar : oneDollar.capCents = some 100 := by decide +kernel

/-- A caller that asks for sixty cents, before its first statement. -/
def oneCaller : Callers := (idle 0).add ⟨60, .called, 0⟩

theorem step_oneCaller : step oneDollar 100 (idle 0) (.arrive (3 / 5)) = some oneCaller := by
  have hcents : usdToCents (3 / 5) = 60 := by decide +kernel
  rw [step, reserve_eq capCents_oneDollar, hcents, oneCaller]

/-- What the call may still be billed. -/
def Caller.pending (c : Caller) : ℚ := if c.running then c.estCents - 100 * c.billedUsd else 0

/-- No usage row came between a caller's read and its increment, and a call is not billed more
than was reserved for it. -/
def Fresh (p : Callers) : Event → Prop
  | .arrive _ => True
  | .statement i _ => ∀ c ∈ p.sessions[i]?, ∀ spentCents, c.phase = .checked spentCents →
      usdToCents p.store.spentUsd = spentCents
  | .persistUsage i costUsd => 0 ≤ costUsd ∧
      ∀ c ∈ p.sessions[i]?, 100 * (c.billedUsd + costUsd) ≤ c.estCents

/-- The call has not begun. -/
def Caller.waiting (c : Caller) : Bool :=
  match c.phase with
  | .called | .checked _ => true
  | _ => false

/-- No usage row before the call runs, and then no more than was reserved for it. -/
structure Billed (bound : ℚ) (p : Callers) : Prop where
  unbilled : ∀ c ∈ p.sessions, c.waiting = true → c.billedUsd = 0
  nonneg : ∀ c ∈ p.sessions, 0 ≤ c.billedUsd
  reserved : ∀ c ∈ p.sessions, c.running = true → 100 * c.billedUsd ≤ c.estCents
  fits : 100 * p.store.spentUsd + (p.sessions.map Caller.pending).sum ≤ bound

theorem sum_pending_le {cs : List Caller} (h : ∀ c ∈ cs, 0 ≤ c.billedUsd) :
    (cs.map Caller.pending).sum ≤ ((cs.map Caller.grantedCents).sum : Int) := by
  induction cs with
  | nil => simp
  | cons c cs ih =>
    obtain ⟨hc, hcs⟩ := List.forall_mem_cons.mp h
    have hrest := ih hcs
    rw [List.map_cons, List.map_cons, List.sum_cons, List.sum_cons, Int.cast_add]
    have hone : c.pending ≤ (c.grantedCents : ℚ) := by
      unfold Caller.pending Caller.grantedCents
      split
      · linarith
      · simp
    linarith

theorem runStatement_spentUsd (cap : Int) (st : Store) (c : Caller) (answer : Answer) :
    (runStatement cap st c answer).1.spentUsd = st.spentUsd := by
  unfold runStatement
  cases c.phase with
  | called | unlimited | refused | released | leaked => rfl
  | checked spentCents | overCap | granted spentCents => cases answer <;> rfl

theorem runStatement_billedUsd (cap : Int) (st : Store) (c : Caller) (answer : Answer) :
    (runStatement cap st c answer).2.billedUsd = c.billedUsd := by
  unfold runStatement
  cases c.phase with
  | called | unlimited | refused | released | leaked => rfl
  | checked spentCents | overCap | granted spentCents => cases answer <;> rfl

theorem waiting_before {st : Store} {c : Caller} {answer : Answer}
    (h : (runStatement cap st c answer).2.waiting = true) : c.waiting = true := by
  unfold runStatement at h
  cases hphase : c.phase with
  | called | checked spentCents => simp [Caller.waiting, hphase]
  | overCap | granted spentCents =>
    rw [hphase] at h
    cases answer <;> cases h
  | unlimited | refused | released | leaked =>
    rw [hphase] at h
    exact h

theorem billed_statement {bound : ℚ} (hbound : (cap : ℚ) + 1 / 10000 ≤ bound) {p q : Callers}
    {i : Nat} {answer : Answer} (hacc : Accounted cap p) (hp : Billed bound p)
    (hfresh : Fresh p (.statement i answer))
    (h : p.advance (runStatement cap) i answer = some q) : Billed bound q := by
  have haccq := accounted_statement hacc h
  obtain ⟨pre, c, post, hc, hsplit, rfl⟩ := Pool.advance_split h
  obtain ⟨hunbilled, hnonneg, hreserved, hfits⟩ := hp
  have hest := hacc.estimates
  rw [hsplit] at hunbilled hnonneg hreserved hfits hest
  have hmem : c ∈ pre ++ c :: post := List.mem_append_right pre List.mem_cons_self
  have hnonneg' : ∀ x ∈ pre ++ (runStatement cap p.store c answer).2 :: post, 0 ≤ x.billedUsd := by
    apply forall_mem_replace hnonneg
    rw [runStatement_billedUsd]
    exact hnonneg c hmem
  have hunbilled' : ∀ x ∈ pre ++ (runStatement cap p.store c answer).2 :: post,
      x.waiting = true → x.billedUsd = 0 := by
    apply forall_mem_replace hunbilled
    rw [runStatement_billedUsd]
    exact fun hwaiting => hunbilled c hmem (waiting_before hwaiting)
  cases hrun : (runStatement cap p.store c answer).2.running with
  | true =>
    have hidle : c.running = false := by
      by_contra hno
      rw [not_running_after answer (by simpa using hno)] at hrun
      cases hrun
    obtain ⟨spentCents, hphase, -, -, hcap⟩ := granted_of_runStatement hidle hrun
    have hwaiting : c.waiting = true := by rw [Caller.waiting, hphase]
    refine ⟨hunbilled', hnonneg', forall_mem_replace hreserved fun _ => ?_, ?_⟩
    · rw [runStatement_billedUsd, runStatement_estCents, hunbilled c hmem hwaiting, mul_zero]
      exact Int.cast_nonneg (hest c hmem)
    · have hread : 100 * p.store.spentUsd < (spentCents : ℚ) + 1 / 10000 := by
        rw [← hfresh c hc spentCents hphase]
        exact lt_usdToCents p.store.spentUsd
      have hsum := sum_pending_le hnonneg'
      have hflight := sum_grantedCents_le haccq.estimates
      rw [← haccq.counter] at hflight
      have hcents : spentCents + ((pre ++ (runStatement cap p.store c answer).2 :: post).map
          Caller.grantedCents).sum ≤ cap := by
        dsimp only at hflight
        omega
      have hcast := (Int.cast_le (R := ℚ)).mpr hcents
      rw [Int.cast_add] at hcast
      dsimp only
      rw [runStatement_spentUsd]
      linarith
  | false =>
    refine ⟨hunbilled', hnonneg', forall_mem_replace hreserved fun hno => ?_, ?_⟩
    · rw [hrun] at hno
      cases hno
    · have hpart : 0 ≤ c.pending := by
        unfold Caller.pending
        split
        · rename_i hrunning
          exact sub_nonneg.mpr (hreserved c hmem hrunning)
        · exact le_rfl
      have hnone : (runStatement cap p.store c answer).2.pending = 0 := by
        rw [Caller.pending, hrun]
        exact if_neg Bool.false_ne_true
      simp only [List.map_append, List.map_cons, List.sum_append, List.sum_cons,
        runStatement_spentUsd, hnone] at hfits ⊢
      linarith

theorem not_waiting {c : Caller} (h : c.running = true) : c.waiting = false := by
  cases hphase : c.phase with
  | granted spentCents => rw [Caller.waiting, hphase]
  | _ => simp [Caller.running, hphase] at h

theorem billed_persistUsage {bound : ℚ} {p q : Callers} {i : Nat} {costUsd : ℚ}
    (hp : Billed bound p) (hfresh : Fresh p (.persistUsage i costUsd))
    (hrunning : p.sessions[i]?.any Caller.running = true)
    (h : p.advance (bill costUsd) i .replied = some q) : Billed bound q := by
  obtain ⟨pre, c, post, hc, hsplit, rfl⟩ := Pool.advance_split h
  obtain ⟨hcost, hreserve⟩ := hfresh
  obtain ⟨hunbilled, hnonneg, hreserved, hfits⟩ := hp
  rw [hc, Option.any_some] at hrunning
  rw [hsplit] at hunbilled hnonneg hreserved hfits
  have hmem : c ∈ pre ++ c :: post := List.mem_append_right pre List.mem_cons_self
  have hbegun : (bill costUsd p.store c .replied).2.waiting = false := not_waiting hrunning
  refine ⟨forall_mem_replace hunbilled fun hno => ?_, forall_mem_replace hnonneg (add_nonneg (hnonneg c hmem) hcost),
    forall_mem_replace hreserved fun _ => hreserve c hc, ?_⟩
  · rw [hbegun] at hno
    cases hno
  have hrunning' : (bill costUsd p.store c .replied).2.running = true := hrunning
  have hafter : (bill costUsd p.store c .replied).2.pending = c.pending - 100 * costUsd := by
    rw [Caller.pending, if_pos hrunning', Caller.pending, if_pos hrunning]
    simp only [bill]
    ring
  have hspent : (bill costUsd p.store c .replied).1.spentUsd = p.store.spentUsd + costUsd := rfl
  simp only [List.map_append, List.map_cons, List.sum_append, List.sum_cons, hafter,
    hspent] at hfits ⊢
  linarith

theorem billed_step (hcap : settings.capCents = some cap) {bound : ℚ}
    (hbound : (cap : ℚ) + 1 / 10000 ≤ bound) {p q : Callers} {e : Event} (hacc : Accounted cap p)
    (hp : Billed bound p) (hfresh : Fresh p e) (h : step settings cap p e = some q) :
    Billed bound q := by
  cases e with
  | arrive estimatedUsd =>
    obtain rfl := Option.some.inj h
    obtain ⟨hunbilled, hnonneg, hreserved, hfits⟩ := hp
    rw [reserve_eq hcap]
    refine ⟨?_, ?_, ?_, ?_⟩
    · exact List.forall_mem_append.mpr ⟨hunbilled, List.forall_mem_singleton.mpr fun _ => rfl⟩
    · exact List.forall_mem_append.mpr ⟨hnonneg, List.forall_mem_singleton.mpr le_rfl⟩
    · apply List.forall_mem_append.mpr ⟨hreserved, ?_⟩
      exact List.forall_mem_singleton.mpr fun hno => nomatch hno
    · simpa [Pool.add, Caller.pending, Caller.running] using hfits
  | statement i answer => exact billed_statement hbound hacc hp hfresh h
  | persistUsage i costUsd =>
    have hbill : (if p.sessions[i]?.any Caller.running then p.advance (bill costUsd) i .replied
        else none) = some q := h
    split at hbill
    · rename_i hrunning
      exact billed_persistUsage hp hfresh hrunning hbill
    · cases hbill

inductive LockPhase where
  | waiting
  /-- The lock is held, the spend is not yet read. -/
  | locked
  /-- The call runs with the lock held. -/
  | granted
  | finished
  deriving DecidableEq

structure Waiter where
  estCents : Int
  phase : LockPhase
  billedUsd : ℚ

def Waiter.holds (w : Waiter) : Bool := w.phase == .locked || w.phase == .granted

/-- The next statement of `_fallback_reserve`. -/
def runLocked (cap : Int) (requireRedis : Bool) (spentUsd : ℚ) (w : Waiter) (_ : Unit) :
    ℚ × Waiter :=
  match w.phase with
  | .waiting => (spentUsd, { w with phase := if requireRedis then .finished else .locked })
  | .locked =>
    (spentUsd, { w with
      phase := if cap < usdToCents spentUsd + w.estCents then .finished else .granted })
  | .granted | .finished => (spentUsd, { w with phase := .finished })

def billWaiter (costUsd : ℚ) (spentUsd : ℚ) (w : Waiter) (_ : Unit) : ℚ × Waiter :=
  (spentUsd + costUsd, { w with billedUsd := w.billedUsd + costUsd })

inductive LockEvent where
  | arrive (estimatedUsd : ℚ)
  | statement (i : Nat)
  | persistUsage (i : Nat) (costUsd : ℚ)

abbrev Queue := Pool ℚ Waiter

/-- Nobody takes the lock while another caller holds it, and only the call that runs is billed. -/
def lockStep (cap : Int) (requireRedis : Bool) (p : Queue) : LockEvent → Option Queue
  | .arrive estimatedUsd => some (p.add ⟨usdToCents estimatedUsd, .waiting, 0⟩)
  | .statement i =>
    if requireRedis = false ∧ (p.sessions[i]?.any fun w => w.phase == .waiting) ∧
        p.sessions.any Waiter.holds then none
    else p.advance (runLocked cap requireRedis) i ()
  | .persistUsage i costUsd =>
    if p.sessions[i]?.any fun w => w.phase == .granted then p.advance (billWaiter costUsd) i ()
    else none

/-- A call is not billed more than its estimate. -/
def WithinEstimate (p : Queue) : LockEvent → Prop
  | .persistUsage i costUsd => 0 ≤ costUsd ∧
      ∀ w ∈ p.sessions[i]?, 100 * (w.billedUsd + costUsd) ≤ w.estCents
  | _ => True

def Waiter.pending (w : Waiter) : ℚ :=
  if w.phase = .granted then w.estCents - 100 * w.billedUsd else 0

structure Serialised (bound : ℚ) (p : Queue) : Prop where
  exclusive : p.sessions.countP Waiter.holds ≤ 1
  unbilled : ∀ w ∈ p.sessions, w.phase = .waiting ∨ w.phase = .locked → w.billedUsd = 0
  estimate : ∀ w ∈ p.sessions, w.phase = .granted → 100 * w.billedUsd ≤ w.estCents
  fits : 100 * p.store + (p.sessions.map Waiter.pending).sum ≤ bound

theorem pending_of_not_holds {w : Waiter} (h : w.holds = false) : w.pending = 0 := by
  rw [Waiter.pending, if_neg]
  intro hgranted
  simp [Waiter.holds, hgranted] at h

theorem sum_pending_eq_zero {ws : List Waiter} (h : ∀ w ∈ ws, w.holds = false) :
    (ws.map Waiter.pending).sum = 0 := by
  apply List.sum_eq_zero
  intro x hx
  obtain ⟨w, hw, rfl⟩ := List.mem_map.mp hx
  exact pending_of_not_holds (h w hw)

theorem countP_holds_replace {pre post : List Waiter} {w w' : Waiter} (h : w'.holds → w.holds) :
    (pre ++ w' :: post).countP Waiter.holds ≤ (pre ++ w :: post).countP Waiter.holds := by
  simp only [List.countP_append, List.countP_cons]
  cases hw' : w'.holds with
  | false => simp
  | true => simp [h hw']

/-- A waiter that ends leaves the lock, and nothing of it is pending. -/
theorem serialised_finish {bound : ℚ} {spentUsd : ℚ} {pre post : List Waiter} {w : Waiter}
    (hp : Serialised bound ⟨spentUsd, pre ++ w :: post⟩) :
    Serialised bound ⟨spentUsd, pre ++ { w with phase := .finished } :: post⟩ := by
  obtain ⟨hexclusive, hunbilled, hestimate, hfits⟩ := hp
  have hholds : ({ w with phase := .finished } : Waiter).holds → w.holds := fun hno =>
    absurd hno Bool.false_ne_true
  refine ⟨(countP_holds_replace hholds).trans hexclusive,
    forall_mem_replace hunbilled fun hno => ?_, forall_mem_replace hestimate (fun hno => nomatch hno),
    ?_⟩
  · rcases hno with hno | hno <;> cases hno
  · have hpart : 0 ≤ w.pending := by
      unfold Waiter.pending
      split
      · rename_i hgranted
        exact sub_nonneg.mpr (hestimate w (List.mem_append_right pre List.mem_cons_self) hgranted)
      · exact le_rfl
    have hnone : Waiter.pending { w with phase := .finished } = 0 := pending_of_not_holds rfl
    simp only [List.map_append, List.map_cons, List.sum_append, List.sum_cons, hnone] at hfits ⊢
    linarith

theorem serialised_lock {bound : ℚ} {spentUsd : ℚ} {pre post : List Waiter} {w : Waiter}
    (hp : Serialised bound ⟨spentUsd, pre ++ w :: post⟩) (hwaiting : w.phase = .waiting)
    (hfree : ∀ x ∈ pre ++ w :: post, x.holds = false) :
    Serialised bound ⟨spentUsd, pre ++ { w with phase := .locked } :: post⟩ := by
  obtain ⟨-, hunbilled, hestimate, hfits⟩ := hp
  have hpre : pre.countP Waiter.holds = 0 := List.countP_eq_zero.mpr fun x hx => by
    simp [hfree x (List.mem_append_left _ hx)]
  have hpost : post.countP Waiter.holds = 0 := List.countP_eq_zero.mpr fun x hx => by
    simp [hfree x (List.mem_append_right pre (List.mem_cons_of_mem w hx))]
  have hmem : w ∈ pre ++ w :: post := List.mem_append_right pre List.mem_cons_self
  refine ⟨?_, forall_mem_replace hunbilled fun _ => hunbilled w hmem (.inl hwaiting),
    forall_mem_replace hestimate (fun hno => nomatch hno), ?_⟩
  · dsimp only
    rw [List.countP_append, List.countP_cons, hpre, hpost]
    split <;> omega
  · have hbefore : w.pending = 0 := pending_of_not_holds (hfree w hmem)
    have hafter : Waiter.pending { w with phase := .locked } = 0 := if_neg fun hno => nomatch hno
    simp only [List.map_append, List.map_cons, List.sum_append, List.sum_cons, hafter,
      hbefore] at hfits ⊢
    exact hfits

theorem serialised_grant {bound : ℚ} (hbound : (cap : ℚ) + 1 / 10000 ≤ bound) {spentUsd : ℚ}
    {pre post : List Waiter} {w : Waiter} (hp : Serialised bound ⟨spentUsd, pre ++ w :: post⟩)
    (hlocked : w.phase = .locked) (hest : 0 ≤ w.estCents)
    (hcap : usdToCents spentUsd + w.estCents ≤ cap) :
    Serialised bound ⟨spentUsd, pre ++ { w with phase := .granted } :: post⟩ := by
  obtain ⟨hexclusive, hunbilled, hestimate, -⟩ := hp
  have hmem : w ∈ pre ++ w :: post := List.mem_append_right pre List.mem_cons_self
  have hholds : w.holds = true := by rw [Waiter.holds, hlocked]; rfl
  have hbilled : w.billedUsd = 0 := hunbilled w hmem (.inr hlocked)
  obtain ⟨hpre, hpost⟩ := sole_holder hexclusive hholds
  refine ⟨(countP_holds_replace fun _ => hholds).trans hexclusive,
    forall_mem_replace hunbilled fun _ => hbilled, forall_mem_replace hestimate fun _ => ?_, ?_⟩
  · rw [hbilled, mul_zero]
    exact Int.cast_nonneg hest
  · have hafter : Waiter.pending { w with phase := .granted } = w.estCents := by
      rw [Waiter.pending, if_pos rfl, hbilled, mul_zero, sub_zero]
    have hread := lt_usdToCents spentUsd
    have hcast := (Int.cast_le (R := ℚ)).mpr hcap
    rw [Int.cast_add] at hcast
    simp only [List.map_append, List.map_cons, List.sum_append, List.sum_cons, hafter,
      sum_pending_eq_zero hpre, sum_pending_eq_zero hpost]
    linarith

theorem runLocked_estCents (cap : Int) (requireRedis : Bool) (spentUsd : ℚ) (w : Waiter) :
    (runLocked cap requireRedis spentUsd w ()).2.estCents = w.estCents := by
  unfold runLocked
  cases w.phase <;> rfl

theorem serialised_statement {bound : ℚ} (hbound : (cap : ℚ) + 1 / 10000 ≤ bound)
    {requireRedis : Bool} {p q : Queue} {i : Nat} (hest : ∀ w ∈ p.sessions, 0 ≤ w.estCents)
    (hp : Serialised bound p) (h : lockStep cap requireRedis p (.statement i) = some q) :
    (∀ w ∈ q.sessions, 0 ≤ w.estCents) ∧ Serialised bound q := by
  have hstep : (if requireRedis = false ∧ (p.sessions[i]?.any fun w => w.phase == .waiting) ∧
        p.sessions.any Waiter.holds then none
      else p.advance (runLocked cap requireRedis) i ()) = some q := h
  split at hstep
  · cases hstep
  · rename_i hfree
    obtain ⟨pre, w, post, hw, hsplit, rfl⟩ := Pool.advance_split hstep
    obtain ⟨spentUsd, sessions⟩ := p
    obtain rfl : sessions = pre ++ w :: post := hsplit
    have hmem : w ∈ pre ++ w :: post := List.mem_append_right pre List.mem_cons_self
    refine ⟨forall_mem_replace hest ?_, ?_⟩
    · rw [runLocked_estCents]
      exact hest w hmem
    · unfold runLocked
      cases hphase : w.phase with
      | waiting =>
        cases requireRedis with
        | true => exact serialised_finish hp
        | false =>
          apply serialised_lock hp hphase
          intro x hx
          by_contra hno
          have hheld : x.holds = true := by simpa using hno
          exact hfree ⟨rfl, by simp [hw, hphase], List.any_eq_true.mpr ⟨x, hx, hheld⟩⟩
      | locked =>
        by_cases hcap : cap < usdToCents spentUsd + w.estCents
        · simp only [if_pos hcap]
          exact serialised_finish hp
        · simp only [if_neg hcap]
          exact serialised_grant hbound hp hphase (hest w hmem) (not_lt.mp hcap)
      | granted | finished => exact serialised_finish hp

theorem serialised_persistUsage {bound : ℚ} {requireRedis : Bool} {p q : Queue} {i : Nat}
    {costUsd : ℚ} (hest : ∀ w ∈ p.sessions, 0 ≤ w.estCents) (hp : Serialised bound p)
    (hwithin : WithinEstimate p (.persistUsage i costUsd))
    (h : lockStep cap requireRedis p (.persistUsage i costUsd) = some q) :
    (∀ w ∈ q.sessions, 0 ≤ w.estCents) ∧ Serialised bound q := by
  have hstep : (if p.sessions[i]?.any fun w => w.phase == .granted then
      p.advance (billWaiter costUsd) i () else none) = some q := h
  split at hstep
  · rename_i hrunning
    obtain ⟨pre, w, post, hw, hsplit, rfl⟩ := Pool.advance_split hstep
    obtain ⟨hexclusive, hunbilled, hestimate, hfits⟩ := hp
    have hphase : w.phase = .granted := by simpa [hw] using hrunning
    rw [hsplit] at hest hexclusive hunbilled hestimate hfits
    have hmem : w ∈ pre ++ w :: post := List.mem_append_right pre List.mem_cons_self
    refine ⟨forall_mem_replace hest (hest w hmem), ?_, ?_, ?_, ?_⟩
    · have hholds : (billWaiter costUsd p.store w ()).2.holds → w.holds := id
      exact (countP_holds_replace hholds).trans hexclusive
    · refine forall_mem_replace hunbilled fun hno => ?_
      have hno' : w.phase = .waiting ∨ w.phase = .locked := hno
      rw [hphase] at hno'
      rcases hno' with hno' | hno' <;> cases hno'
    · exact forall_mem_replace hestimate fun _ => hwithin.2 w hw
    · have hbefore : w.pending = w.estCents - 100 * w.billedUsd := if_pos hphase
      have hafter : (billWaiter costUsd p.store w ()).2.pending =
          w.estCents - 100 * (w.billedUsd + costUsd) := if_pos hphase
      have hspent : (billWaiter costUsd p.store w ()).1 = p.store + costUsd := rfl
      simp only [List.map_append, List.map_cons, List.sum_append, List.sum_cons, hbefore, hafter,
        hspent] at hfits ⊢
      linarith
  · cases hstep

/-- A waiter that asks for sixty cents. -/
def oneWaiter : Queue := ⟨0, [⟨60, .waiting, 0⟩]⟩

theorem lockStep_oneWaiter : lockStep 100 false ⟨0, []⟩ (.arrive (3 / 5)) = some oneWaiter := by
  have hcents : usdToCents (3 / 5) = 60 := by decide +kernel
  rw [lockStep, hcents]
  rfl

end SpineFormal.Verify.Reservation
