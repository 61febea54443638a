import Mathlib.Data.Rat.Floor
import Mathlib.Logic.Function.Basic
import Mathlib.Tactic.Linarith
import SpineFormal.Base.Run
import SpineFormal.Base.UrlSafe

/-!
# Sessions of the browser flow

`shared/api/middleware/oidc.py`: the callback of a login stores the access token under a fresh
session id and sends the signed id as a cookie. Later requests with that cookie get the token as
a bearer header, until the session has expired or was logged out.
-/

namespace SpineFormal.Api.Sessions

set_option autoImplicit false

abbrev Text := List Char

/-! ## Signed cookies -/

/-- `hmac.new(hmac_key, value.encode("utf-8"), hashlib.sha256).hexdigest()`. -/
def mac (hmacKey : Bytes) (value : Text) : Text := hex (hmacSha256 hmacKey (encodeUtf8 value))

/-- `_sign`. -/
def sign (hmacKey : Bytes) (value : Text) : Text := value ++ '|' :: mac hmacKey value

/-- The parts of `cookie_value.rpartition("|")` around the bar. -/
def rpartitionBar (cookie : Text) : Text × Text :=
  ((cookie.reverse.dropWhile (· ≠ '|')).tail.reverse, (cookie.reverse.takeWhile (· ≠ '|')).reverse)

/-- `_verify_signed`; `hmac.compare_digest` raises on text beyond ASCII. -/
def verifySigned (hmacKey : Bytes) (cookie : Text) : Except Unit (Option Text) :=
  if '|' ∉ cookie then .ok none
  else
    let (value, theirs) := rpartitionBar cookie
    if theirs.any (fun c => 128 ≤ c.toNat) then .error ()
    else .ok (if theirs = mac hmacKey value then some value else none)

theorem digit_ne_bar : ∀ d < 16, Nat.digitChar d ≠ '|' := by decide

theorem bar_notMem_mac (hmacKey : Bytes) (value : Text) : '|' ∉ mac hmacKey value := by
  intro h
  obtain ⟨b, -, hb⟩ := List.mem_flatMap.mp h
  obtain ⟨d, hd, heq⟩ := Numerals.mem_fixed (by decide) hb
  exact digit_ne_bar d hd heq.symm

theorem ascii_mac (hmacKey : Bytes) (value : Text) :
    (mac hmacKey value).any (fun c => 128 ≤ c.toNat) = false := by
  apply List.any_eq_false.mpr
  intro c hc
  obtain ⟨b, -, hb⟩ := List.mem_flatMap.mp hc
  have hrange := (Numerals.fixed_range (by decide) (by decide) hb).2
  simp only [decide_eq_true_eq, not_le]
  omega

theorem rpartitionBar_append {value tail : Text} (htail : '|' ∉ tail) :
    rpartitionBar (value ++ '|' :: tail) = (value, tail) := by
  have hclear : ∀ c ∈ tail.reverse, (decide (c ≠ '|')) = true := by
    intro c hc
    apply decide_eq_true
    rintro rfl
    exact htail (List.mem_reverse.mp hc)
  have hback : (value ++ '|' :: tail).reverse = tail.reverse ++ '|' :: value.reverse := by simp
  rw [rpartitionBar, hback, List.dropWhile_append_of_pos hclear, List.takeWhile_append_of_pos hclear,
    List.dropWhile_cons_of_neg (by simp), List.takeWhile_cons_of_neg (by simp), List.tail_cons,
    List.append_nil, List.reverse_reverse, List.reverse_reverse]

theorem rpartitionBar_spec {cookie : Text} (h : '|' ∈ cookie) :
    cookie = (rpartitionBar cookie).1 ++ '|' :: (rpartitionBar cookie).2 := by
  obtain ⟨value, tail, rfl, htail⟩ : ∃ value tail, cookie = value ++ '|' :: tail ∧ '|' ∉ tail := by
    induction cookie with
    | nil => cases h
    | cons c cookie ih =>
      by_cases hmem : '|' ∈ cookie
      · obtain ⟨value, tail, rfl, htail⟩ := ih hmem
        exact ⟨c :: value, tail, rfl, htail⟩
      · rcases List.mem_cons.mp h with rfl | hno
        · exact ⟨[], cookie, rfl, hmem⟩
        · exact absurd hno hmem
  rw [rpartitionBar_append htail]

/-- A cookie is accepted for a session id just when it is that id, signed. -/
theorem verifySigned_iff {hmacKey : Bytes} {cookie value : Text} :
    verifySigned hmacKey cookie = .ok (some value) ↔ cookie = sign hmacKey value := by
  constructor
  · intro h
    unfold verifySigned at h
    split at h
    · cases h
    · rename_i hbar
      have hspec := rpartitionBar_spec (not_not.mp hbar)
      dsimp only at h
      split at h
      · cases h
      · have hif := Except.ok.inj h
        split at hif
        · rename_i hmac
          obtain rfl := Option.some.inj hif
          rw [sign, ← hmac]
          exact hspec
        · cases hif
  · rintro rfl
    have hbar : '|' ∈ sign hmacKey value := List.mem_append_right value List.mem_cons_self
    rw [verifySigned, if_neg (not_not.mpr hbar), sign, rpartitionBar_append (bar_notMem_mac _ _)]
    dsimp only
    rw [ascii_mac, if_neg Bool.false_ne_true, if_pos rfl]

/-! ## The store and the routes -/

structure SessionConfig where
  hmacKey : Bytes
  sessionTtlSeconds : ℚ

structure Session where
  accessToken : Text
  expiresAt : ℚ

/-- `_SessionStore`. -/
abbrev Store := Text → Option Session

/-- `_SessionStore.get`: an expired entry is dropped. -/
def getSession (store : Store) (sid : Text) (now : ℚ) : Store × Option Session :=
  match store sid with
  | none => (store, none)
  | some session =>
    if session.expiresAt ≤ now then (Function.update store sid none, none)
    else (store, some session)

def bearer (token : Text) : Text := "Bearer ".toList ++ token

/-- `OidcCookieMiddleware.dispatch`: the `Authorization` headers that the application sees. -/
def dispatch (cfg : SessionConfig) (store : Store) (headers : List Text) (cookie : Option Text)
    (now : ℚ) : Store × Except Unit (List Text) :=
  if headers.head?.any (· ≠ []) then (store, .ok headers)
  else
    match cookie with
    | none => (store, .ok headers)
    | some cookie =>
      match verifySigned cfg.hmacKey cookie with
      | .error e => (store, .error e)
      | .ok none => (store, .ok headers)
      | .ok (some sid) =>
        match getSession store sid now with
        | (store, none) => (store, .ok headers)
        | (store, some session) =>
          if session.accessToken.any (fun c => 128 ≤ c.toNat) then (store, .error ())
          else (store, .ok (headers ++ [bearer session.accessToken]))

inductive CallbackReply where
  | badRequest
  | badGateway
  | redirect (cookie : Text)

/-- The callback of the login; `sid` is what `secrets.token_urlsafe` returns. -/
def callback (cfg : SessionConfig) (store : Store) (code : Text) (accessToken : Option Text)
    (sid : Text) (now : ℚ) : Store × CallbackReply :=
  if code = [] then (store, .badRequest)
  else
    match accessToken.filter (· ≠ []) with
    | none => (store, .badGateway)
    | some token =>
      (Function.update store sid (some ⟨token, now + cfg.sessionTtlSeconds⟩),
        .redirect (sign cfg.hmacKey sid))

def logout (cfg : SessionConfig) (store : Store) (cookie : Option Text) : Store :=
  match cookie.map (verifySigned cfg.hmacKey) with
  | some (.ok (some sid)) => if sid ≠ [] then Function.update store sid none else store
  | _ => store

/-! ## Runs -/

inductive Act where
  | callback (code : Text) (accessToken : Option Text) (sid : Text)
  | logout (cookie : Option Text)
  | request (headers : List Text) (cookie : Option Text)

structure Event where
  now : ℚ
  act : Act

/-- `drawn` are the session ids so far. -/
structure Server where
  clock : ℚ
  store : Store
  drawn : List Text

/-- Time does not go back, and a session id is new. -/
def step (cfg : SessionConfig) (s : Server) (e : Event) : Option Server :=
  if e.now < s.clock then none
  else
    match e.act with
    | .callback code accessToken sid =>
      if sid = [] ∨ s.drawn.contains sid = true then none
      else some ⟨e.now, (callback cfg s.store code accessToken sid e.now).1, s.drawn ++ [sid]⟩
    | .logout cookie => some ⟨e.now, logout cfg s.store cookie, s.drawn⟩
    | .request headers cookie => some ⟨e.now, (dispatch cfg s.store headers cookie e.now).1, s.drawn⟩

def Server.new (clock : ℚ) : Server := ⟨clock, fun _ => none, []⟩

/-- The session that a login begins, and its token. -/
def Event.begins (e : Event) : Option (Text × Text) :=
  match e.act with
  | .callback code accessToken sid =>
    if code = [] then none else (accessToken.filter (· ≠ [])).map fun token => (sid, token)
  | _ => none

/-- The event is the logout of this session. -/
def Event.ends (cfg : SessionConfig) (sid : Text) (e : Event) : Prop :=
  sid ≠ [] ∧ e.act = .logout (some (sign cfg.hmacKey sid))

/-- A login began the session with this token, nobody has logged it out since, and it has not
expired. -/
def Live (cfg : SessionConfig) (es : List Event) (sid token : Text) (now : ℚ) : Prop :=
  ∃ before e after, es = before ++ e :: after ∧ e.begins = some (sid, token) ∧
    (∀ e' ∈ after, ¬ e'.ends cfg sid) ∧ now < e.now + cfg.sessionTtlSeconds

variable {cfg : SessionConfig}

theorem getSession_store (store : Store) (sid sid' : Text) (now : ℚ) :
    (getSession store sid now).1 sid' = store sid' ∨ ∃ session, store sid' = some session ∧
      session.expiresAt ≤ now ∧ (getSession store sid now).1 sid' = none := by
  unfold getSession
  cases hget : store sid with
  | none => exact .inl rfl
  | some session =>
    dsimp only
    split
    · rename_i hlapsed
      by_cases hsid : sid' = sid
      · subst hsid
        exact .inr ⟨session, hget, hlapsed, Function.update_self ..⟩
      · exact .inl (Function.update_of_ne hsid ..)
    · exact .inl rfl

/-- A request changes nothing but that sessions lapse. -/
theorem dispatch_store (store : Store) (headers : List Text) (cookie : Option Text) (now : ℚ)
    (sid : Text) :
    (dispatch cfg store headers cookie now).1 sid = store sid ∨ ∃ session, store sid = some session ∧
      session.expiresAt ≤ now ∧ (dispatch cfg store headers cookie now).1 sid = none := by
  unfold dispatch
  split
  · exact .inl rfl
  · cases cookie with
    | none => exact .inl rfl
    | some cookie =>
      dsimp only
      cases verifySigned cfg.hmacKey cookie with
      | error e => exact .inl rfl
      | ok value =>
        cases value with
        | none => exact .inl rfl
        | some sid' =>
          have hget := getSession_store store sid' sid now
          dsimp only
          generalize getSession store sid' now = got at hget
          obtain ⟨store', session⟩ := got
          cases session with
          | none => exact hget
          | some session =>
            dsimp only
            split <;> exact hget

theorem logout_store (store : Store) {cookie : Option Text} {sid : Text} (hsid : sid ≠ []) :
    logout cfg store cookie sid =
      if cookie = some (sign cfg.hmacKey sid) then none else store sid := by
  unfold logout
  by_cases hcookie : cookie = some (sign cfg.hmacKey sid)
  · rw [if_pos hcookie, hcookie, Option.map_some, verifySigned_iff.mpr rfl]
    dsimp only
    rw [if_pos hsid, Function.update_self]
  · rw [if_neg hcookie]
    cases cookie with
    | none => rfl
    | some cookie =>
      rw [Option.map_some]
      cases hverified : verifySigned cfg.hmacKey cookie with
      | error e => rfl
      | ok value =>
        cases value with
        | none => rfl
        | some sid' =>
          dsimp only
          split
          · apply Function.update_of_ne
            rintro rfl
            exact hcookie (congrArg some (verifySigned_iff.mp hverified))
          · rfl

/-- What an event does to a session. -/
theorem step_store {s t : Server} {e : Event} (h : step cfg s e = some t) {sid : Text}
    (hsid : sid ≠ []) :
    (∃ token, e.begins = some (sid, token) ∧
      t.store sid = some ⟨token, e.now + cfg.sessionTtlSeconds⟩) ∨
    (∀ token, e.begins ≠ some (sid, token)) ∧
      (e.ends cfg sid ∧ t.store sid = none ∨
        ¬ e.ends cfg sid ∧ (t.store sid = s.store sid ∨ ∃ session, s.store sid = some session ∧
          session.expiresAt ≤ e.now ∧ t.store sid = none)) := by
  obtain ⟨now, act⟩ := e
  unfold step at h
  split at h
  · cases h
  · cases act with
    | callback code accessToken sid' =>
      dsimp only at h
      split at h
      · cases h
      · obtain rfl := Option.some.inj h
        have hends : ¬ Event.ends cfg sid ⟨now, .callback code accessToken sid'⟩ :=
          fun hno => nomatch hno.2
        unfold callback Event.begins
        dsimp only
        by_cases hcode : code = []
        · rw [if_pos hcode, if_pos hcode]
          exact .inr ⟨(fun _ hno => nomatch hno), .inr ⟨hends, .inl rfl⟩⟩
        · rw [if_neg hcode, if_neg hcode]
          cases hfilter : accessToken.filter (· ≠ []) with
          | none => exact .inr ⟨(fun _ hno => nomatch hno), .inr ⟨hends, .inl rfl⟩⟩
          | some token =>
            by_cases hsame : sid = sid'
            · subst hsame
              exact .inl ⟨token, rfl, Function.update_self ..⟩
            · refine .inr ⟨fun _ hno => ?_, .inr ⟨hends, .inl (Function.update_of_ne hsame ..)⟩⟩
              exact hsame (congrArg Prod.fst (Option.some.inj hno)).symm
    | logout cookie =>
      obtain rfl := Option.some.inj h
      refine .inr ⟨(fun _ hno => nomatch hno), ?_⟩
      dsimp only
      rw [logout_store s.store hsid]
      by_cases hcookie : cookie = some (sign cfg.hmacKey sid)
      · rw [if_pos hcookie]
        exact .inl ⟨⟨hsid, congrArg Act.logout hcookie⟩, rfl⟩
      · rw [if_neg hcookie]
        exact .inr ⟨fun hno => hcookie (Act.logout.inj hno.2), .inl rfl⟩
    | request headers cookie =>
      obtain rfl := Option.some.inj h
      refine .inr ⟨(fun _ hno => nomatch hno), .inr ⟨(fun hno => nomatch hno.2), ?_⟩⟩
      exact dispatch_store s.store headers cookie now sid

theorem step_clock {s t : Server} {e : Event} (h : step cfg s e = some t) :
    s.clock ≤ e.now ∧ t.clock = e.now := by
  unfold step at h
  split at h
  · cases h
  · rename_i hnow
    refine ⟨not_lt.mp hnow, ?_⟩
    split at h
    · split at h
      · cases h
      · obtain rfl := Option.some.inj h
        rfl
    · obtain rfl := Option.some.inj h
      rfl
    · obtain rfl := Option.some.inj h
      rfl

theorem step_drawn {s t : Server} {e : Event} (h : step cfg s e = some t) :
    (∀ sid ∈ s.drawn, sid ∈ t.drawn) ∧ ∀ sid token, e.begins = some (sid, token) →
      sid ≠ [] ∧ sid ∉ s.drawn ∧ sid ∈ t.drawn := by
  obtain ⟨now, act⟩ := e
  unfold step at h
  split at h
  · cases h
  · cases act with
    | callback code accessToken sid' =>
      dsimp only at h
      split at h
      · cases h
      · rename_i hnew
        obtain ⟨hne, hfresh⟩ := not_or.mp hnew
        obtain rfl := Option.some.inj h
        refine ⟨fun _ hmem => List.mem_append_left _ hmem, fun sid token hbegins => ?_⟩
        unfold Event.begins at hbegins
        dsimp only at hbegins
        split at hbegins
        · cases hbegins
        · obtain ⟨_, -, heq⟩ := Option.map_eq_some_iff.mp hbegins
          obtain ⟨rfl, -⟩ := Prod.mk.inj heq
          refine ⟨hne, fun hmem => hfresh (List.contains_iff_mem.mpr hmem), ?_⟩
          exact List.mem_append_right _ (List.mem_singleton.mpr rfl)
    | logout cookie =>
      obtain rfl := Option.some.inj h
      exact ⟨fun _ hmem => hmem, fun _ _ hno => nomatch hno⟩
    | request headers cookie =>
      obtain rfl := Option.some.inj h
      exact ⟨fun _ hmem => hmem, fun _ _ hno => nomatch hno⟩

/-! ## What the store knows -/

/-- The store holds what the history says, but for sessions that have expired. -/
structure Recorded (cfg : SessionConfig) (es : List Event) (s : Server) : Prop where
  drawn : ∀ e ∈ es, ∀ sid token, e.begins = some (sid, token) → sid ≠ [] ∧ sid ∈ s.drawn
  sound : ∀ sid ≠ [], ∀ session, s.store sid = some session → ∃ before e after,
    es = before ++ e :: after ∧ e.begins = some (sid, session.accessToken) ∧
      (∀ e' ∈ after, ¬ e'.ends cfg sid) ∧ session.expiresAt = e.now + cfg.sessionTtlSeconds
  complete : ∀ before e after sid token, es = before ++ e :: after →
    e.begins = some (sid, token) → (∀ e' ∈ after, ¬ e'.ends cfg sid) →
      s.store sid = some ⟨token, e.now + cfg.sessionTtlSeconds⟩ ∨
        e.now + cfg.sessionTtlSeconds ≤ s.clock
  empty : s.store [] = none

theorem recorded_new (clock : ℚ) : Recorded cfg [] (Server.new clock) where
  drawn := fun _ he => absurd he List.not_mem_nil
  sound := fun _ _ _ hno => nomatch hno
  complete := fun before _ _ _ _ hno => by
    cases before <;> cases hno
  empty := rfl

theorem store_nil {s t : Server} {e : Event} (h : step cfg s e = some t) (hs : s.store [] = none) :
    t.store [] = none := by
  obtain ⟨now, act⟩ := e
  unfold step at h
  split at h
  · cases h
  · cases act with
    | callback code accessToken sid =>
      dsimp only at h
      split at h
      · cases h
      · rename_i hnew
        obtain rfl := Option.some.inj h
        have hne : [] ≠ sid := fun hno => hnew (.inl hno.symm)
        unfold callback
        dsimp only
        split
        · exact hs
        · cases accessToken.filter (· ≠ []) with
          | none => exact hs
          | some token => exact (Function.update_of_ne hne ..).trans hs
    | logout cookie =>
      obtain rfl := Option.some.inj h
      unfold logout
      dsimp only
      cases cookie.map (verifySigned cfg.hmacKey) with
      | none => exact hs
      | some verified =>
        cases verified with
        | error e => exact hs
        | ok value =>
          cases value with
          | none => exact hs
          | some sid =>
            dsimp only
            split
            · rename_i hne
              exact (Function.update_of_ne hne.symm ..).trans hs
            · exact hs
    | request headers cookie =>
      obtain rfl := Option.some.inj h
      rcases @dispatch_store cfg s.store headers cookie now [] with hsame | ⟨_, -, -, hnone⟩
      · exact hsame.trans hs
      · exact hnone

theorem recorded_step {es : List Event} {s t : Server} {e : Event} (hs : Recorded cfg es s)
    (h : step cfg s e = some t) : Recorded cfg (es ++ [e]) t := by
  obtain ⟨hnow, hclock⟩ := step_clock h
  obtain ⟨hgrow, hbegins⟩ := step_drawn h
  refine ⟨?_, ?_, ?_, store_nil h hs.empty⟩
  · intro e' he' sid token hbegin
    rcases List.mem_append.mp he' with he' | he'
    · obtain ⟨hne, hmem⟩ := hs.drawn e' he' sid token hbegin
      exact ⟨hne, hgrow sid hmem⟩
    · rw [List.mem_singleton.mp he'] at hbegin
      obtain ⟨hne, -, hmem⟩ := hbegins sid token hbegin
      exact ⟨hne, hmem⟩
  · intro sid hsid session hsession
    have hold (hkept : s.store sid = some session) (hends : ¬ e.ends cfg sid) :
        ∃ before e₀ after, es ++ [e] = before ++ e₀ :: after ∧
          e₀.begins = some (sid, session.accessToken) ∧
          (∀ e' ∈ after, ¬ e'.ends cfg sid) ∧
            session.expiresAt = e₀.now + cfg.sessionTtlSeconds := by
      obtain ⟨before, e₀, after, rfl, hbegin, hafter, hexpires⟩ := hs.sound sid hsid session hkept
      refine ⟨before, e₀, after ++ [e], by simp, hbegin, ?_, hexpires⟩
      intro e' he'
      rcases List.mem_append.mp he' with he' | he'
      · exact hafter e' he'
      · rw [List.mem_singleton.mp he']
        exact hends
    rcases step_store h hsid with ⟨token, hbegin, hstore⟩ | ⟨-, ⟨-, hnone⟩ | ⟨hends, hsame | hlapsed⟩⟩
    · rw [hstore] at hsession
      obtain rfl := Option.some.inj hsession
      exact ⟨es, e, [], rfl, hbegin, fun _ hno => absurd hno List.not_mem_nil, rfl⟩
    · rw [hnone] at hsession
      cases hsession
    · exact hold (hsame.symm.trans hsession) hends
    · obtain ⟨_, -, -, hnone⟩ := hlapsed
      rw [hnone] at hsession
      cases hsession
  · intro before e₀ after sid token hsplit hbegin hafter
    rcases List.eq_nil_or_concat after with rfl | ⟨after', last, rfl⟩
    · obtain ⟨rfl, hlast⟩ := List.append_inj' hsplit rfl
      obtain rfl := List.head_eq_of_cons_eq hlast
      obtain ⟨hsid, -, -⟩ := hbegins sid token hbegin
      rcases step_store h hsid with ⟨token', hbegin', hstore⟩ | ⟨hno, -⟩
      · obtain rfl := (Prod.mk.inj (Option.some.inj (hbegin.symm.trans hbegin'))).2
        exact .inl hstore
      · exact absurd hbegin (hno token)
    · rw [List.concat_eq_append] at hsplit hafter
      have hassoc : before ++ e₀ :: (after' ++ [last]) = (before ++ e₀ :: after') ++ [last] := by simp
      obtain ⟨rfl, hlast⟩ := List.append_inj' (hsplit.trans hassoc) rfl
      obtain rfl := List.head_eq_of_cons_eq hlast
      have hmem : e₀ ∈ before ++ e₀ :: after' := List.mem_append_right before List.mem_cons_self
      obtain ⟨hsid, hdrawn⟩ := hs.drawn e₀ hmem sid token hbegin
      have hends : ¬ e.ends cfg sid := hafter e (List.mem_append_right _ (List.mem_singleton.mpr rfl))
      rcases hs.complete before e₀ after' sid token rfl hbegin
        (fun e' he' => hafter e' (List.mem_append_left _ he')) with hstore | hexpired
      · rcases step_store h hsid with ⟨token', hbegin', -⟩ | ⟨-, ⟨hno, -⟩ | ⟨-, hsame | hlapsed⟩⟩
        · exact absurd hdrawn (hbegins sid token' hbegin').2.1
        · exact absurd hno hends
        · exact .inl (hsame.trans hstore)
        · obtain ⟨session, hsession, hexpires, -⟩ := hlapsed
          obtain rfl := Option.some.inj (hstore.symm.trans hsession)
          rw [hclock]
          exact .inr hexpires
      · rw [hclock]
        exact .inr (hexpired.trans hnow)

theorem getSession_live (store : Store) (sid : Text) (now : ℚ) :
    (getSession store sid now).2 = (store sid).filter fun session => now < session.expiresAt := by
  unfold getSession
  cases store sid with
  | none => rfl
  | some session =>
    dsimp only
    by_cases hlapsed : session.expiresAt ≤ now
    · rw [if_pos hlapsed, Option.filter_some, if_neg]
      simpa using hlapsed
    · rw [if_neg hlapsed, Option.filter_some, if_pos]
      simpa using hlapsed

theorem dispatch_signed (store : Store) (sid : Text) (now : ℚ) :
    (dispatch cfg store [] (some (sign cfg.hmacKey sid)) now).2 =
      match (store sid).filter fun session => now < session.expiresAt with
      | none => .ok []
      | some session =>
        if session.accessToken.any (fun c => 128 ≤ c.toNat) then .error ()
        else .ok [bearer session.accessToken] := by
  unfold dispatch
  rw [List.head?_nil, Option.any_none, if_neg Bool.false_ne_true]
  dsimp only
  rw [verifySigned_iff.mpr rfl, ← getSession_live]
  dsimp only
  obtain ⟨store', session⟩ := getSession store sid now
  cases session with
  | none => rfl
  | some session =>
    dsimp only
    split <;> rfl

theorem bearer_injective : Function.Injective bearer := fun _ _ h => List.append_cancel_left h

/-- What the application sees of a request that has a cookie and no header of its own. -/
theorem dispatch_cookie (store : Store) (cookie : Text) (now : ℚ) (token : Text) :
    (dispatch cfg store [] (some cookie) now).2 = .ok [bearer token] ↔
      ∃ sid session, cookie = sign cfg.hmacKey sid ∧ store sid = some session ∧
        now < session.expiresAt ∧ session.accessToken = token ∧ ∀ c ∈ token, c.toNat < 128 := by
  constructor
  · intro h
    obtain ⟨sid, rfl⟩ : ∃ sid, cookie = sign cfg.hmacKey sid := by
      unfold dispatch at h
      rw [List.head?_nil, Option.any_none, if_neg Bool.false_ne_true] at h
      dsimp only at h
      cases hverified : verifySigned cfg.hmacKey cookie with
      | error e =>
        rw [hverified] at h
        cases h
      | ok value =>
        cases value with
        | none =>
          rw [hverified] at h
          cases h
        | some sid => exact ⟨sid, verifySigned_iff.mp hverified⟩
    rw [dispatch_signed] at h
    cases hlive : (store sid).filter fun session => now < session.expiresAt with
    | none =>
      rw [hlive] at h
      cases h
    | some session =>
      rw [hlive] at h
      dsimp only at h
      split at h
      · cases h
      · rename_i hascii
        obtain ⟨hstore, hnow⟩ := Option.filter_eq_some_iff.mp hlive
        obtain rfl := bearer_injective (List.head_eq_of_cons_eq (Except.ok.inj h))
        refine ⟨sid, session, rfl, hstore, of_decide_eq_true hnow, rfl, fun c hc => ?_⟩
        by_contra hno
        exact hascii (List.any_eq_true.mpr ⟨c, hc, decide_eq_true (not_lt.mp hno)⟩)
  · rintro ⟨sid, session, rfl, hstore, hnow, rfl, hascii⟩
    have hlive : (store sid).filter (fun session => now < session.expiresAt) = some session :=
      Option.filter_eq_some_iff.mpr ⟨hstore, decide_eq_true hnow⟩
    have hclear : session.accessToken.any (fun c => 128 ≤ c.toNat) = false := by
      apply List.any_eq_false.mpr
      intro c hc
      simpa using hascii c hc
    rw [dispatch_signed, hlive]
    dsimp only
    rw [hclear, if_neg Bool.false_ne_true]

/-- After any logins, logouts and requests: a request that has only a cookie gets a token exactly
when the cookie is the signed id of a session that began with this token, was not logged out
since, and has not expired. -/
theorem request_gets_token_iff {clock : ℚ} {es : List Event} {s : Server}
    (hrun : Run (fun s e t => step cfg s e = some t) (Server.new clock) es s) {now : ℚ}
    (hnow : s.clock ≤ now) (cookie token : Text) :
    (dispatch cfg s.store [] (some cookie) now).2 = .ok [bearer token] ↔
      (∃ sid, cookie = sign cfg.hmacKey sid ∧ Live cfg es sid token now) ∧
        ∀ c ∈ token, c.toNat < 128 := by
  have hs : Recorded cfg es s := hrun.invariant (I := fun es s => Recorded cfg es s)
    (recorded_new clock) fun hs hstep => recorded_step hs hstep
  rw [dispatch_cookie]
  constructor
  · rintro ⟨sid, session, rfl, hstore, hlive, rfl, hascii⟩
    have hsid : sid ≠ [] := by
      rintro rfl
      rw [hs.empty] at hstore
      cases hstore
    obtain ⟨before, e, after, hsplit, hbegin, hafter, hexpires⟩ := hs.sound sid hsid session hstore
    exact ⟨⟨sid, rfl, before, e, after, hsplit, hbegin, hafter, hexpires ▸ hlive⟩, hascii⟩
  · rintro ⟨⟨sid, rfl, before, e, after, hsplit, hbegin, hafter, hlive⟩, hascii⟩
    rcases hs.complete before e after sid token hsplit hbegin hafter with hstore | hexpired
    · exact ⟨sid, _, rfl, hstore, hlive, rfl, hascii⟩
    · linarith

/-- A login. -/
def oneLogin : List Event := [⟨0, .callback ['c'] (some ['t']) ['s']⟩]

def minuteConfig : SessionConfig := ⟨[107], 60⟩

theorem request_gets_token_iff_oneLogin :
    ∃ s, oneLogin.foldlM (step minuteConfig) (Server.new 0) = some s ∧ ∀ now, s.clock ≤ now →
      ((dispatch minuteConfig s.store [] (some (sign minuteConfig.hmacKey ['s'])) now).2 =
          .ok [bearer ['t']] ↔
        (∃ sid, sign minuteConfig.hmacKey ['s'] = sign minuteConfig.hmacKey sid ∧
          Live minuteConfig oneLogin sid ['t'] now) ∧ ∀ c ∈ ['t'], c.toNat < 128) := by
  have hsome : (oneLogin.foldlM (step minuteConfig) (Server.new 0)).isSome = true := by
    decide +kernel
  obtain ⟨s, hs⟩ := Option.isSome_iff_exists.mp hsome
  have hrun : Run (fun s e t => step minuteConfig s e = some t) _ oneLogin s := Run.of_foldlM id hs
  exact ⟨s, hs, fun now hnow => request_gets_token_iff hrun hnow _ _⟩

end SpineFormal.Api.Sessions
