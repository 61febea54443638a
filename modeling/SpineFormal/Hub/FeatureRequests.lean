import Mathlib.Data.List.Basic
import SpineFormal.Base.Run
import SpineFormal.Base.TextCodec

/-!
# The feature requests of a project in operation

A list of requests in the project's metadata, each with a status, and beside it the text
of the latest one. A dispatch reads a text off them for the engineer and marks a request
as being worked on.
-/

namespace SpineFormal.Hub.Features

set_option autoImplicit false

/-- `str.strip`. -/
def strip (s : String) : String := String.ofList (trimBy pySpace s.toList)

inductive FeatureStatus where
  | requested
  | inProgress
  | completed
  | backlog
  | other (status : String)
  deriving DecidableEq

/-- The `priority` of an entry, as `int(priority or 999)` takes it. -/
inductive Priority where
  | missing
  | int (n : Int)
  /-- `int` raises. -/
  | unreadable
  deriving DecidableEq

def Priority.key : Priority → Option Int
  | .missing => some 999
  | .int n => some (if n = 0 then 999 else n)
  | .unreadable => none

/-- An entry of `feature_requests`; a text that is missing is empty. -/
structure FeatureEntry where
  feature : String := ""
  title : String := ""
  priority : Priority := .missing
  status : FeatureStatus
  deriving DecidableEq

def FeatureEntry.featureText (e : FeatureEntry) : String := strip e.feature

/-- What a promotion writes to `latest_feature_request`. -/
def FeatureEntry.nextTitle (e : FeatureEntry) : String :=
  String.ofList ((if e.title = "" then e.feature else e.title).toList.take 80)

/-- `latest` is `latest_feature_request`, empty when there is none. -/
structure FeatureMetadata where
  requests : List FeatureEntry := []
  latest : String := ""
  inFlight : Bool := false

/-! ## The helpers -/

/-- The loop of `_pending_feature_request`. -/
def requestedFeature (requests : List FeatureEntry) : Option String :=
  ((requests.reverse.filter fun e => e.status = .requested).map FeatureEntry.featureText).find?
    fun t => t ≠ ""

/-- `_pending_feature_request`. -/
def pendingFeatureRequest (md : FeatureMetadata) : Option String :=
  match requestedFeature md.requests with
  | some feature => some feature
  | none =>
    if ∃ e ∈ md.requests, e.status = .inProgress then none
    else if strip md.latest = "" then none
    else some (strip md.latest)

/-- The first entry with one status gets another. -/
def markFirst (status target : FeatureStatus) (requests : List FeatureEntry) : List FeatureEntry :=
  requests.replaceF fun e => if e.status = status then some { e with status := target } else none

/-- The loops over `reversed(requests)` that mark an entry. -/
def markLast (status target : FeatureStatus) (requests : List FeatureEntry) : List FeatureEntry :=
  (markFirst status target requests.reverse).reverse

/-- `_feature_iteration_start_patch`. -/
def featureIterationStart (md : FeatureMetadata) : FeatureMetadata :=
  { md with requests := markLast .requested .inProgress md.requests }

/-- `complete_active_feature_request_patch`. -/
def completeActiveFeatureRequest (md : FeatureMetadata) : FeatureMetadata :=
  { md with requests := markLast .inProgress .completed md.requests }

def backlogOf (requests : List FeatureEntry) : List FeatureEntry :=
  requests.filter fun e => e.status = .backlog

/-- `backlog[0]` once the backlog is sorted. -/
def nextBacklog (requests : List FeatureEntry) : Option FeatureEntry :=
  ((backlogOf requests).mergeSort fun a b => a.priority.key.getD 0 ≤ b.priority.key.getD 0).head?

/-- `promote_next_feature_request_patch`; nothing is written when a priority cannot be read. -/
def promoteNextFeatureRequest (md : FeatureMetadata) : FeatureMetadata :=
  if ∃ e ∈ backlogOf md.requests, e.priority.key = none then md
  else match nextBacklog md.requests with
    | none => md
    | some next =>
      { md with
        requests := md.requests.replaceF fun e =>
          if e = next then some { e with status := .requested } else none
        latest := next.nextTitle }

/-! ## Runs -/

/-- A dispatch of the engineer: the text, and the entries in progress once it is recorded. -/
structure Dispatch where
  feature : String
  note : String
  marked : List FeatureEntry

def featureHeading : String := "## Operate-phase feature request\n\n"

def Dispatch.founderNote (d : Dispatch) : String :=
  if d.note = "" then "" else "\n\n## Founder note\n\n" ++ strip d.note

/-- The context that the engineer is given. -/
def Dispatch.context (d : Dispatch) : List Char :=
  (featureHeading ++ strip d.feature ++ d.founderNote).toList.take 12000

/-- The feature stands at the head of the context, as far as it fits. -/
theorem Dispatch.feature_context (d : Dispatch) :
    (featureHeading ++ strip d.feature).toList.take 12000 <+: d.context := by
  rw [Dispatch.context, @String.toList_append _ d.founderNote]
  generalize 12000 = n
  rw [List.take_append]
  exact List.prefix_append _ _

structure FeatureState where
  md : FeatureMetadata
  sent : List Dispatch := []

inductive FeatureOp where
  /-- The request of a founder; it is the latest one. -/
  | enqueue (feature : String)
  | enqueueBacklog (title feature : String) (priority : Priority)
  /-- `recovery_dispatch` with `retry_feature`. -/
  | start (note : String)
  /-- The worker of a dispatch ends, or its flag is cleared. -/
  | finish
  | complete
  | promote

/-- The dispatch is refused. -/
def FeatureMetadata.Refuses (md : FeatureMetadata) : Prop :=
  md.inFlight = true ∨ pendingFeatureRequest md = none

instance (md : FeatureMetadata) : Decidable md.Refuses := inferInstanceAs (Decidable (_ ∨ _))

def inProgress (requests : List FeatureEntry) : List FeatureEntry :=
  requests.filter fun e => e.status = .inProgress

def FeatureState.dispatched (s : FeatureState) (note : String) : FeatureState where
  md := { featureIterationStart s.md with inFlight := true }
  sent := s.sent ++ [⟨(pendingFeatureRequest s.md).getD "", note,
    inProgress (featureIterationStart s.md).requests⟩]

def FeatureState.step (s : FeatureState) : FeatureOp → FeatureState
  | .enqueue feature =>
    { s with md := { s.md with
      requests := s.md.requests ++ [{ feature, status := .requested }]
      latest := feature } }
  | .enqueueBacklog title feature priority =>
    { s with md := { s.md with
      requests := s.md.requests ++ [{ feature, title, priority, status := .backlog }] } }
  | .start note => if s.md.Refuses then s else s.dispatched note
  | .finish => { s with md := { s.md with inFlight := false } }
  | .complete => { s with md := completeActiveFeatureRequest s.md }
  | .promote => { s with md := promoteNextFeatureRequest s.md }

/-- The text is that of the entry: its feature, or its title when it has no feature. -/
def FeatureEntry.Owns (e : FeatureEntry) (feature : String) : Prop :=
  feature = e.featureText ∨ e.featureText = "" ∧ feature = strip e.nextTitle

structure FeatureState.Correct (s : FeatureState) : Prop where
  /-- At most one request is in progress. -/
  single : (inProgress s.md.requests).length ≤ 1
  /-- What was dispatched is the text of an entry that was marked then. -/
  owned : ∀ d ∈ s.sent, ∃ e ∈ d.marked, e.Owns d.feature
  /-- Once all are completed none is pending. -/
  settled : (∀ e ∈ s.md.requests, e.status = .completed) → pendingFeatureRequest s.md = none

/-! ## Marking -/

theorem markLast_cases (status target : FeatureStatus) (requests : List FeatureEntry) :
    (∀ e ∈ requests, e.status ≠ status) ∧ markLast status target requests = requests ∨
      ∃ l e r, requests = l ++ e :: r ∧ e.status = status ∧ (∀ b ∈ r, b.status ≠ status) ∧
        markLast status target requests = l ++ { e with status := target } :: r := by
  by_cases hmem : ∃ e ∈ requests.reverse, e.status = status
  · obtain ⟨e, he, hstatus⟩ := hmem
    obtain ⟨x, x', l, r, hl, hx, hsplit, hresult⟩ :=
      List.exists_of_replaceF (p := fun e : FeatureEntry =>
        if e.status = status then some { e with status := target } else none) he (if_pos hstatus)
    by_cases hxs : x.status = status
    · rw [if_pos hxs] at hx
      obtain rfl := Option.some.inj hx
      refine .inr ⟨r.reverse, x, l.reverse, ?_, hxs, ?_, ?_⟩
      · rw [← List.reverse_reverse requests, hsplit]
        simp
      · intro b hb hbs
        have hnone := hl b (List.mem_reverse.mp hb)
        rw [if_pos hbs] at hnone
        cases hnone
      · rw [markLast, markFirst, hresult]
        simp
    · rw [if_neg hxs] at hx
      cases hx
  · have hnone : ∀ e ∈ requests, e.status ≠ status := by
      intro e he hstatus
      exact hmem ⟨e, List.mem_reverse.mpr he, hstatus⟩
    refine .inl ⟨hnone, ?_⟩
    rw [markLast, markFirst, List.replaceF_of_forall_none, List.reverse_reverse]
    intro e he
    exact if_neg (hnone e (List.mem_reverse.mp he))

theorem inProgress_append (l r : List FeatureEntry) :
    inProgress (l ++ r) = inProgress l ++ inProgress r := List.filter_append ..

theorem inProgress_cons_of_ne {e : FeatureEntry} (h : e.status ≠ .inProgress)
    (r : List FeatureEntry) : inProgress (e :: r) = inProgress r :=
  List.filter_cons_of_neg (by simpa using h)

theorem inProgress_cons_of_eq {e : FeatureEntry} (h : e.status = .inProgress)
    (r : List FeatureEntry) : inProgress (e :: r) = e :: inProgress r :=
  List.filter_cons_of_pos (by simpa using h)

theorem inProgress_eq_nil_iff {requests : List FeatureEntry} :
    inProgress requests = [] ↔ ∀ e ∈ requests, e.status ≠ .inProgress := by
  simp [inProgress, List.filter_eq_nil_iff]

/-! ## The pending text -/

theorem requestedFeature_of_none {requests : List FeatureEntry}
    (h : ∀ e ∈ requests, e.status ≠ .requested) : requestedFeature requests = none := by
  have hnil : (requests.reverse.filter fun e => e.status = .requested) = [] := by
    rw [List.filter_eq_nil_iff]
    intro e he
    simpa using h e (List.mem_reverse.mp he)
  rw [requestedFeature, hnil]
  rfl

theorem requestedFeature_of_last {l r : List FeatureEntry} {e : FeatureEntry}
    (he : e.status = .requested) (hr : ∀ b ∈ r, b.status ≠ .requested)
    (htext : e.featureText ≠ "") : requestedFeature (l ++ e :: r) = some e.featureText := by
  have hnil : (r.reverse.filter fun e => e.status = .requested) = [] := by
    rw [List.filter_eq_nil_iff]
    intro b hb
    simpa using hr b (List.mem_reverse.mp hb)
  have hshape : (l ++ e :: r).reverse = r.reverse ++ e :: l.reverse := by simp
  rw [requestedFeature, hshape, List.filter_append, hnil, List.nil_append,
    List.filter_cons_of_pos (by simpa using he), List.map_cons,
    List.find?_cons_of_pos (by simpa using htext)]

theorem pendingFeatureRequest_ne {md : FeatureMetadata} {feature : String}
    (h : pendingFeatureRequest md = some feature) : feature ≠ "" := by
  rw [pendingFeatureRequest] at h
  split at h
  · rename_i t ht
    obtain rfl := Option.some.inj h
    have hne := List.find?_some ht
    exact of_decide_eq_true hne
  · split at h
    · cases h
    · split at h
      · cases h
      · rename_i hne
        obtain rfl := Option.some.inj h
        exact hne

/-- With nothing in progress. -/
theorem pendingFeatureRequest_idle {md : FeatureMetadata} {feature : String}
    (hidle : ∀ e ∈ md.requests, e.status ≠ .inProgress)
    (h : pendingFeatureRequest md = some feature) :
    feature = (requestedFeature md.requests).getD (strip md.latest) := by
  rw [pendingFeatureRequest] at h
  split at h
  · rename_i t ht
    rw [ht]
    exact (Option.some.inj h).symm
  · rename_i hnone
    have hno : ¬ ∃ e ∈ md.requests, e.status = .inProgress := fun ⟨e, he, hs⟩ => hidle e he hs
    rw [if_neg hno] at h
    split at h
    · cases h
    · rw [hnone]
      exact (Option.some.inj h).symm

theorem pendingFeatureRequest_completed {md : FeatureMetadata}
    (h : ∀ e ∈ md.requests, e.status = .completed) :
    pendingFeatureRequest md = none ↔ strip md.latest = "" := by
  have hno : ¬ ∃ e ∈ md.requests, e.status = .inProgress := by
    rintro ⟨e, he, hs⟩
    rw [h e he] at hs
    cases hs
  have hnone : requestedFeature md.requests = none := by
    refine requestedFeature_of_none fun e he hs => ?_
    rw [h e he] at hs
    cases hs
  rw [pendingFeatureRequest, hnone]
  dsimp only
  rw [if_neg hno]
  by_cases hblank : strip md.latest = "" <;> simp [hblank]

/-! ## Steps -/

def lastRequested (requests : List FeatureEntry) : Option FeatureEntry :=
  requests.reverse.find? fun e => e.status = .requested

/-- A dispatch that goes through finds nothing in progress, and the last entry that is
requested has a feature, or a title that the text is taken from. A completion leaves
something to do, or there is no latest text. -/
def FeatureState.Orderly (s : FeatureState) : FeatureOp → Prop
  | .start _ => s.md.Refuses ∨
    (∀ e ∈ s.md.requests, e.status ≠ .inProgress) ∧ ∃ e ∈ lastRequested s.md.requests,
      e.featureText ≠ "" ∨
        (requestedFeature s.md.requests).getD (strip s.md.latest) = strip e.nextTitle
  | .complete => (∃ e ∈ s.md.requests, e.status = .inProgress) →
    (∀ e ∈ s.md.requests, e.status = .inProgress ∨ e.status = .completed) →
      strip s.md.latest = ""
  | _ => True

theorem lastRequested_of_last {l r : List FeatureEntry} {e : FeatureEntry}
    (he : e.status = .requested) (hr : ∀ b ∈ r, b.status ≠ .requested) :
    lastRequested (l ++ e :: r) = some e := by
  have hnone : (r.reverse.find? fun e => e.status = .requested) = none := by
    rw [List.find?_eq_none]
    intro b hb
    simpa using hr b (List.mem_reverse.mp hb)
  simp [lastRequested, List.find?_append, hnone, he]

theorem dispatched_correct_iff {s : FeatureState} (h : s.Correct) {note : String}
    (hgo : ¬ s.md.Refuses) : (s.dispatched note).Correct ↔ s.Orderly (.start note) := by
  obtain ⟨feature, hpending⟩ := Option.ne_none_iff_exists'.mp (not_or.mp hgo).2
  have hne := pendingFeatureRequest_ne hpending
  rcases markLast_cases .requested .inProgress s.md.requests with
    ⟨hnone, hsame⟩ | ⟨l, e, r, hsplit, he, hr, hmark⟩
  · have hidle : inProgress s.md.requests = [] := by
      rw [inProgress_eq_nil_iff]
      intro e hmem hs
      rw [pendingFeatureRequest, requestedFeature_of_none hnone] at hpending
      dsimp only at hpending
      rw [if_pos ⟨e, hmem, hs⟩] at hpending
      cases hpending
    refine iff_of_false (fun hcorrect => ?_) ?_
    · obtain ⟨e, hmem, -⟩ := hcorrect.owned _ (List.mem_append_right _ (.head _))
      rw [featureIterationStart, hsame, hidle] at hmem
      cases hmem
    · rintro (hrefuses | ⟨-, e, hlast, -⟩)
      · exact hgo hrefuses
      · have hmem := List.mem_reverse.mp (List.mem_of_find?_eq_some hlast)
        have hs := List.find?_some hlast
        exact hnone e hmem (of_decide_eq_true hs)
  · have hcount : inProgress (featureIterationStart s.md).requests =
        inProgress l ++ { e with status := .inProgress } :: inProgress r := by
      rw [featureIterationStart, hmark, inProgress_append, inProgress_cons_of_eq rfl]
    have hold : inProgress s.md.requests = inProgress l ++ inProgress r := by
      rw [hsplit, inProgress_append, inProgress_cons_of_ne (by rw [he]; decide)]
    have howns (e' : FeatureEntry) (hfeature : e'.feature = e.feature) (htitle : e'.title = e.title)
        (hidle : ∀ x ∈ s.md.requests, x.status ≠ .inProgress) :
        e'.Owns feature ↔ e.featureText ≠ "" ∨
          (requestedFeature s.md.requests).getD (strip s.md.latest) = strip e.nextTitle := by
      rw [← pendingFeatureRequest_idle hidle hpending, FeatureEntry.Owns]
      simp only [FeatureEntry.featureText, FeatureEntry.nextTitle, hfeature, htitle]
      by_cases htext : strip e.feature = ""
      · simp [htext, hne]
      · have hlast := requestedFeature_of_last (l := l) he hr htext
        rw [← hsplit] at hlast
        have hsame : feature = strip e.feature := by
          rw [pendingFeatureRequest_idle hidle hpending, hlast]
          rfl
        simp [htext, hsame]
    constructor
    · intro hcorrect
      have hsingle := hcorrect.single
      change (inProgress (featureIterationStart s.md).requests).length ≤ 1 at hsingle
      rw [hcount, List.length_append, List.length_cons] at hsingle
      have hidle : ∀ x ∈ s.md.requests, x.status ≠ .inProgress := by
        rw [← inProgress_eq_nil_iff, hold, ← List.length_eq_zero_iff, List.length_append]
        omega
      refine .inr ⟨hidle, e, ?_, ?_⟩
      · rw [hsplit]
        exact lastRequested_of_last he hr
      · obtain ⟨e', hmem, hown⟩ := hcorrect.owned _ (List.mem_append_right _ (.head _))
        rw [← inProgress_eq_nil_iff, hold, List.append_eq_nil_iff] at hidle
        rw [hcount, hidle.1, hidle.2] at hmem
        obtain rfl := List.mem_singleton.mp hmem
        rw [hpending, Option.getD_some] at hown
        rw [← List.append_eq_nil_iff, ← hold, inProgress_eq_nil_iff] at hidle
        exact (howns _ rfl rfl hidle).mp hown
    · rintro (hrefuses | ⟨hidle, e', hlast, htext⟩)
      · exact absurd hrefuses hgo
      · rw [hsplit, lastRequested_of_last he hr] at hlast
        obtain rfl := Option.some.inj hlast
        have hnil := inProgress_eq_nil_iff.mpr hidle
        rw [hold, List.append_eq_nil_iff] at hnil
        have hmarked : inProgress (featureIterationStart s.md).requests =
            [{ e with status := .inProgress }] := by
          rw [hcount, hnil.1, hnil.2]
          rfl
        refine ⟨?_, fun d hd => ?_, fun hall => ?_⟩
        · change (inProgress (featureIterationStart s.md).requests).length ≤ 1
          rw [hmarked]
          exact Nat.le_refl 1
        · rcases List.mem_append.mp hd with hd | hd
          · exact h.owned d hd
          · obtain rfl := List.mem_singleton.mp hd
            refine ⟨_, hmarked ▸ List.mem_singleton_self _, ?_⟩
            rw [hpending, Option.getD_some]
            exact (howns _ rfl rfl hidle).mpr htext
        · have hmem : ({ e with status := .inProgress } : FeatureEntry) ∈
              (featureIterationStart s.md).requests := by
            rw [featureIterationStart, hmark]
            simp
          cases hall _ hmem

theorem complete_correct_iff {s : FeatureState} (h : s.Correct) :
    (s.step .complete).Correct ↔ s.Orderly .complete := by
  rw [FeatureState.step, completeActiveFeatureRequest]
  rcases markLast_cases .inProgress .completed s.md.requests with
    ⟨hnone, hsame⟩ | ⟨l, e, r, hsplit, he, hr, hmark⟩
  · rw [hsame]
    exact iff_of_true h fun ⟨e, hmem, hs⟩ => absurd hs (hnone e hmem)
  · have hold : inProgress s.md.requests = inProgress l ++ e :: inProgress r := by
      rw [hsplit, inProgress_append, inProgress_cons_of_eq he]
    have hsingle := h.single
    rw [hold, List.length_append, List.length_cons] at hsingle
    have hl : inProgress l = [] := List.length_eq_zero_iff.mp (by omega)
    have hiff : (∀ x ∈ l ++ { e with status := .completed } :: r, x.status = .completed) ↔
        ∀ x ∈ s.md.requests, x.status = .inProgress ∨ x.status = .completed := by
      rw [hsplit]
      simp only [List.forall_mem_append, List.forall_mem_cons, he, true_or, true_and]
      constructor
      · rintro ⟨hleft, hright⟩
        exact ⟨fun x hx => .inr (hleft x hx), fun x hx => .inr (hright x hx)⟩
      · rintro ⟨hleft, hright⟩
        exact ⟨fun x hx => (hleft x hx).resolve_left (inProgress_eq_nil_iff.mp hl x hx),
          fun x hx => (hright x hx).resolve_left (hr x hx)⟩
    have hmem : e ∈ s.md.requests := hsplit ▸ List.mem_append_right _ (.head _)
    rw [hmark]
    constructor
    · rintro hcorrect - hall
      have hdone := hiff.mpr hall
      have hnone := hcorrect.settled hdone
      rw [pendingFeatureRequest_completed hdone] at hnone
      exact hnone
    · intro horderly
      refine ⟨?_, h.owned, fun hall => ?_⟩
      · rw [inProgress_append, hl, inProgress_cons_of_ne (by simp), inProgress_eq_nil_iff.mpr hr]
        exact Nat.zero_le 1
      · exact (pendingFeatureRequest_completed hall).mpr
          (horderly ⟨e, hmem, he⟩ (hiff.mp hall))

theorem enqueue_correct {s : FeatureState} (h : s.Correct) {e : FeatureEntry} {latest : String}
    (he : e.status = .requested ∨ e.status = .backlog) :
    FeatureState.Correct ⟨{ s.md with requests := s.md.requests ++ [e], latest }, s.sent⟩ := by
  have hne : e.status ≠ .inProgress := by rcases he with he | he <;> simp [he]
  have hundone : e.status ≠ .completed := by rcases he with he | he <;> simp [he]
  refine ⟨?_, h.owned, fun hall => ?_⟩
  · rw [inProgress_append, inProgress_cons_of_ne hne, List.length_append]
    exact h.single
  · exact absurd (hall e (List.mem_append_right _ (.head _))) hundone

theorem promote_correct {s : FeatureState} (h : s.Correct) : (s.step .promote).Correct := by
  rw [FeatureState.step, promoteNextFeatureRequest]
  split
  · exact h
  · split
    · exact h
    · rename_i next hnext
      have hbacklog : next ∈ backlogOf s.md.requests := by
        have hmem := List.mem_of_mem_head? hnext
        exact (List.mergeSort_perm _ _).mem_iff.mp hmem
      obtain ⟨hmem, hs⟩ := List.mem_filter.mp hbacklog
      have hstatus : next.status = .backlog := of_decide_eq_true hs
      obtain ⟨x, x', l, r, -, hx, hsplit, hresult⟩ :=
        List.exists_of_replaceF (p := fun e : FeatureEntry =>
          if e = next then some { e with status := .requested } else none) hmem (if_pos rfl)
      by_cases hsame : x = next
      · rw [if_pos hsame] at hx
        obtain rfl := Option.some.inj hx
        subst hsame
        rw [hresult]
        refine ⟨?_, h.owned, fun hall => ?_⟩
        · have hsingle := h.single
          rw [hsplit, inProgress_append, inProgress_cons_of_ne (by rw [hstatus]; decide)]
            at hsingle
          rw [inProgress_append, inProgress_cons_of_ne (by simp)]
          exact hsingle
        · cases hall _ (List.mem_append_right _ (.head _))
      · rw [if_neg hsame] at hx
        cases hx

theorem step_correct_iff {s : FeatureState} (h : s.Correct) (op : FeatureOp) :
    (s.step op).Correct ↔ s.Orderly op := by
  cases op with
  | enqueue feature => exact iff_of_true (enqueue_correct h (.inl rfl)) trivial
  | enqueueBacklog title feature priority =>
    exact iff_of_true (enqueue_correct h (.inr rfl)) trivial
  | start note =>
    by_cases hrefuses : s.md.Refuses
    · rw [FeatureState.step, if_pos hrefuses]
      exact iff_of_true h (.inl hrefuses)
    · rw [FeatureState.step, if_neg hrefuses]
      exact dispatched_correct_iff h hrefuses
  | finish => exact iff_of_true ⟨h.single, h.owned, h.settled⟩ trivial
  | complete => exact complete_correct_iff h
  | promote => exact iff_of_true (promote_correct h) trivial

/-- From metadata in order: every state of a run is correct exactly when each dispatch that
goes through and each completion is orderly. -/
theorem features_correct_iff {s t : FeatureState} {ops : List FeatureOp} (h : s.Correct) :
    Run (fun s op t => t.Correct ∧ s.step op = t) s ops t ↔
      Run (fun s op t => s.Orderly op ∧ s.step op = t) s ops t := by
  refine Run.guard_iff h fun {s op t} hs hstep => ?_
  rw [← hstep]
  exact step_correct_iff hs op

/-! ## Runs in order and out of order -/

/-- A request that was put into the metadata without the text of the latest one. -/
def seeded : FeatureState := ⟨{ requests := [{ feature := "gift cards", status := .requested }] }, []⟩

theorem seeded_correct : seeded.Correct := by
  refine ⟨by decide, fun d hd => absurd hd List.not_mem_nil, fun hall => ?_⟩
  cases hall _ (.head _)

/-- It is worked on and completed. -/
theorem features_correct_iff_seeded : seeded.Correct ∧
    Run (fun s op t => t.Correct ∧ s.step op = t) seeded [.start "", .finish, .complete]
      (((seeded.step (.start "")).step .finish).step .complete) := by
  have hrun : Run (fun s op t => s.Orderly op ∧ s.step op = t) seeded
      [.start "", .finish, .complete]
      (((seeded.step (.start "")).step .finish).step .complete) := by
    refine .snoc (.snoc (.snoc .start ⟨.inr ⟨by decide, _, rfl, .inl (by decide)⟩, rfl⟩)
      ⟨trivial, rfl⟩) ⟨fun _ _ => by decide, rfl⟩
  exact ⟨seeded_correct, (features_correct_iff seeded_correct).mpr hrun⟩

def quiet : FeatureState := ⟨{}, []⟩

theorem quiet_correct : quiet.Correct :=
  ⟨by decide, fun _ hd => absurd hd List.not_mem_nil, fun _ => by decide⟩

/-- A request that is completed stays pending by its text, and one that comes in while another
is worked on is started beside it. -/
theorem completed_feature_stays_pending :
    (∃ ops t, Run (fun s op t => FeatureState.step s op = t) quiet ops t ∧
      (∀ e ∈ t.md.requests, e.status = .completed) ∧ pendingFeatureRequest t.md ≠ none) ∧
    ∃ ops t, Run (fun s op t => FeatureState.step s op = t) quiet ops t ∧
      1 < (inProgress t.md.requests).length := by
  refine ⟨⟨[.enqueue "dark mode", .start "", .finish, .complete], _, Run.of_foldl rfl,
    by decide, by decide⟩, ?_⟩
  exact ⟨[.enqueue "dark mode", .start "", .finish, .enqueue "gift cards", .start ""], _,
    Run.of_foldl rfl, by decide⟩

end SpineFormal.Hub.Features
