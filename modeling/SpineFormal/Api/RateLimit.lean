import Mathlib.Data.Rat.Defs
import Mathlib.Algebra.Order.Ring.Rat
import Mathlib.Logic.Function.Basic
import SpineFormal.Base.TokenBucket

/-!
# The request limiter of the Hub API

One bucket for each organisation and licence flag, sized by the flag's quota and refilled
over the window of its unit. Times and tokens are exact rationals here.
-/

namespace SpineFormal.Api

set_option autoImplicit false

/-- The units that are rates, with the seconds of their windows. -/
def quotaUnitWindowsSeconds : List (String × ℚ) :=
  [("runs_per_day", 86400), ("tokens_per_day", 86400), ("agents_per_month", 30 * 86400)]

def quotaCacheTtlSeconds : ℚ := 30

abbrev QuotaTuple := Option ℤ × Option String

/-- The organisation and the flag. -/
abbrev CacheKey := String × String

abbrev QuotaProvider := CacheKey → QuotaTuple

structure Bucket extends TokenBucket ℚ where
  quotaValue : ℤ
  quotaUnit : String

def Bucket.refill (b : Bucket) (now : ℚ) : Bucket :=
  { b with toTokenBucket := b.toTokenBucket.refill now }

/-- The seconds until there is a token, `⊤` when there never is, and the bucket refilled. -/
def Bucket.secondsUntilOneToken (b : Bucket) (now : ℚ) : WithTop ℚ × Bucket :=
  let b := b.refill now
  if 1 ≤ b.tokens then (0, b)
  else if b.rate ≤ 0 then (⊤, b)
  else (((1 - b.tokens) / b.rate : ℚ), b)

structure QuotaCacheEntry where
  quotaValue : Option ℤ
  quotaUnit : Option String
  expiresAt : ℚ

structure BucketStore where
  buckets : CacheKey → Option Bucket
  quotaCache : CacheKey → Option QuotaCacheEntry

structure Outcome where
  allowed : Bool
  bucket : Option Bucket
  retryAfter : WithTop ℚ

structure Request where
  cacheKey : CacheKey
  now : ℚ

namespace BucketStore

/-- The store after a reset. -/
def empty : BucketStore := ⟨fun _ => none, fun _ => none⟩

def setBucket (s : BucketStore) (key : CacheKey) (b : Bucket) : BucketStore :=
  { s with buckets := Function.update s.buckets key (some b) }

def readQuota (provider : QuotaProvider) (s : BucketStore) (key : CacheKey) (now : ℚ) :
    QuotaCacheEntry × BucketStore :=
  let cached := ⟨(provider key).1, (provider key).2, now + quotaCacheTtlSeconds⟩
  (cached, { s with quotaCache := Function.update s.quotaCache key (some cached) })

/-- The cached quota row while it is fresh. -/
def resolveQuota (provider : QuotaProvider) (s : BucketStore) (key : CacheKey) (now : ℚ) :
    QuotaCacheEntry × BucketStore :=
  match s.quotaCache key with
  | some cached => if cached.expiresAt ≤ now then s.readQuota provider key now else (cached, s)
  | none => s.readQuota provider key now

/-- The quota, its unit and its window, unless no rate limit applies. -/
def rateLimitOf (windows : List (String × ℚ)) : QuotaTuple → Option (ℤ × String × ℚ)
  | (some qv, some qu) => if qv ≤ 0 then none else (windows.lookup qu).map fun w => (qv, qu, w)
  | _ => none

def newBucket (qv : ℤ) (qu : String) (refillPerSec now : ℚ) : Bucket :=
  { TokenBucket.full (qv : ℚ) refillPerSec now with quotaValue := qv, quotaUnit := qu }

/-- A quota that has changed starts a new bucket. -/
def resolveBucket (s : BucketStore) (key : CacheKey) (qv : ℤ) (qu : String)
    (refillPerSec now : ℚ) : Bucket :=
  match s.buckets key with
  | some b =>
    if b.capacity ≠ qv then newBucket qv qu refillPerSec now else { b with rate := refillPerSec }
  | none => newBucket qv qu refillPerSec now

def spend (s : BucketStore) (key : CacheKey) (b : Bucket) (now : ℚ) : Outcome × BucketStore :=
  let b := b.refill now
  if 1 ≤ b.tokens then
    let b := { b with tokens := b.tokens - 1 }
    (⟨true, some b, 0⟩, s.setBucket key b)
  else
    let waited := b.secondsUntilOneToken now
    (⟨false, some waited.2, waited.1⟩, s.setBucket key waited.2)

def consume (windows : List (String × ℚ)) (provider : QuotaProvider) (s : BucketStore)
    (key : CacheKey) (now : ℚ) : Outcome × BucketStore :=
  let resolved := s.resolveQuota provider key now
  match rateLimitOf windows (resolved.1.quotaValue, resolved.1.quotaUnit) with
  | none => (⟨true, none, 0⟩, resolved.2)
  | some (qv, qu, window) =>
    resolved.2.spend key (resolved.2.resolveBucket key qv qu (qv / window) now) now

def run (windows : List (String × ℚ)) (provider : QuotaProvider) (s : BucketStore) :
    List Request → BucketStore
  | [] => s
  | r :: rs => ((s.consume windows provider r.cacheKey r.now).2).run windows provider rs

/-- The times at which requests under the key are allowed. -/
def allowedTimes (windows : List (String × ℚ)) (provider : QuotaProvider) (key : CacheKey)
    (s : BucketStore) : List Request → List ℚ
  | [] => []
  | r :: rs =>
    let answer := s.consume windows provider r.cacheKey r.now
    if r.cacheKey = key ∧ answer.1.allowed = true then
      r.now :: answer.2.allowedTimes windows provider key rs
    else answer.2.allowedTimes windows provider key rs

end BucketStore

def timesOf (key : CacheKey) (requests : List Request) : List ℚ :=
  (requests.filter fun r => decide (r.cacheKey = key)).map Request.now

@[simp] theorem Bucket.refill_refill (b : Bucket) (now : ℚ) :
    (b.refill now).refill now = b.refill now := by
  simp only [refill, TokenBucket.refill_refill]

namespace BucketStore

variable {windows : List (String × ℚ)} {provider : QuotaProvider} {s : BucketStore}
  {key other : CacheKey} {now : ℚ}

/-! ## The quota row -/

/-- The cached row is what the provider answers. -/
def Cached (provider : QuotaProvider) (key : CacheKey) (s : BucketStore) : Prop :=
  ∀ cached, s.quotaCache key = some cached → (cached.quotaValue, cached.quotaUnit) = provider key

theorem readQuota_cached : (s.readQuota provider key now).2.Cached provider key := by
  intro cached h
  have hread : some _ = some cached := (Function.update_self key _ s.quotaCache).symm.trans h
  rw [← Option.some.inj hread]

theorem resolveQuota_spec (h : s.Cached provider key) (now : ℚ) :
    ((s.resolveQuota provider key now).1.quotaValue,
        (s.resolveQuota provider key now).1.quotaUnit) = provider key ∧
      (s.resolveQuota provider key now).2.Cached provider key ∧
      (s.resolveQuota provider key now).2.buckets = s.buckets := by
  rw [resolveQuota]
  split
  · rename_i cached hcached
    split
    · exact ⟨rfl, readQuota_cached, rfl⟩
    · exact ⟨h cached hcached, h, rfl⟩
  · exact ⟨rfl, readQuota_cached, rfl⟩

theorem resolveQuota_other (provider : QuotaProvider) (s : BucketStore) (h : other ≠ key)
    (now : ℚ) :
    (s.resolveQuota provider other now).2.buckets = s.buckets ∧
      (s.resolveQuota provider other now).2.quotaCache key = s.quotaCache key := by
  have hread : (s.readQuota provider other now).2.quotaCache key = s.quotaCache key :=
    Function.update_of_ne h.symm _ _
  rw [resolveQuota]
  split
  · split
    · exact ⟨rfl, hread⟩
    · exact ⟨rfl, rfl⟩
  · exact ⟨rfl, hread⟩

/-! ## One request -/

theorem spend_of_token {b : Bucket} (h : 1 ≤ (b.refill now).tokens) :
    s.spend key b now =
      (⟨true, some { b.refill now with tokens := (b.refill now).tokens - 1 }, 0⟩,
        s.setBucket key { b.refill now with tokens := (b.refill now).tokens - 1 }) := by
  simp only [spend, if_pos h]

theorem spend_of_no_token {b : Bucket} (h : (b.refill now).tokens < 1) :
    s.spend key b now =
      (⟨false, some (b.refill now), ((b.refill now).secondsUntilOneToken now).1⟩,
        s.setBucket key (b.refill now)) := by
  have hsame : ((b.refill now).secondsUntilOneToken now).2 = b.refill now := by
    simp only [Bucket.secondsUntilOneToken, Bucket.refill_refill, if_neg (not_le.mpr h)]
    split <;> rfl
  simp only [spend, if_neg (not_le.mpr h), hsame]

/-- Under the store's bookkeeping, one request on the bucket. -/
theorem spend_request (s : BucketStore) (key : CacheKey) (b : Bucket) (now : ℚ) :
    (s.spend key b now).1.allowed = (b.toTokenBucket.request now).1 ∧
      ∃ b' : Bucket, (s.spend key b now).2 = s.setBucket key b' ∧
        b'.toTokenBucket = (b.toTokenBucket.request now).2 := by
  rcases b.toTokenBucket.request_cases now with ⟨hone, hyes, heq⟩ | ⟨hone, hno, heq⟩
  · rw [spend_of_token hone, hyes, heq]
    exact ⟨rfl, _, rfl, rfl⟩
  · rw [spend_of_no_token hone, hno, heq]
    exact ⟨rfl, _, rfl, rfl⟩

/-- The wait quoted to a refused request is what the refilled bucket lacks. -/
theorem spend_retryAfter {b : Bucket} (hrate : 0 < b.rate)
    (hrefused : (s.spend key b now).1.allowed = false) :
    (s.spend key b now).1.retryAfter =
      ((1 - (b.toTokenBucket.request now).2.tokens) / b.rate : ℚ) := by
  rcases b.toTokenBucket.request_cases now with ⟨hone, _, _⟩ | ⟨hone, _, heq⟩
  · rw [spend_of_token hone] at hrefused
    exact absurd hrefused (by simp)
  · have hlacks : ¬1 ≤ (b.refill now).tokens := not_le.mpr hone
    have hsame : (b.refill now).rate = b.rate := TokenBucket.refill_rate now
    rw [spend_of_no_token hone, heq]
    simp only [Bucket.secondsUntilOneToken, Bucket.refill_refill, if_neg hlacks, hsame,
      if_neg (not_le.mpr hrate)]
    rfl

theorem consume_unlimited (h : s.Cached provider key)
    (hnone : rateLimitOf windows (provider key) = none) (now : ℚ) :
    (s.consume windows provider key now).1.allowed = true ∧
      (s.consume windows provider key now).2.Cached provider key := by
  obtain ⟨hquota, hcached, _⟩ := resolveQuota_spec h now
  simp only [consume, hquota, hnone]
  exact ⟨trivial, hcached⟩

/-- The bucket under the key, a full one before the first request. -/
def bucketAt (key : CacheKey) (capacity rate now : ℚ) (s : BucketStore) : TokenBucket ℚ :=
  (s.buckets key).elim (TokenBucket.full capacity rate now) Bucket.toTokenBucket

/-- The bucket under the key, if there is one, has this capacity and rate. -/
def Sized (key : CacheKey) (capacity rate : ℚ) (s : BucketStore) : Prop :=
  ∀ b, s.buckets key = some b → b.capacity = capacity ∧ b.rate = rate

theorem resolveBucket_toTokenBucket {qv : ℤ} {qu : String} {rate : ℚ}
    (h : s.Sized key (qv : ℚ) rate) :
    (s.resolveBucket key qv qu rate now).toTokenBucket = s.bucketAt key qv rate now := by
  rw [resolveBucket, bucketAt]
  split
  · rename_i b hb
    obtain ⟨hcapacity, hrate⟩ := h b hb
    rw [if_neg (not_not.mpr hcapacity), hb, ← hrate]
    rfl
  · rename_i hb
    rw [hb]
    rfl

/-- A limited request is one on the key's bucket. -/
theorem consume_eq_spend {qv : ℤ} {qu : String} {w : ℚ} (h : s.Cached provider key)
    (hlimit : rateLimitOf windows (provider key) = some (qv, qu, w))
    (hsized : s.Sized key (qv : ℚ) (qv / w)) (now : ℚ) :
    ∃ (s' : BucketStore) (b : Bucket), s.consume windows provider key now = s'.spend key b now ∧
      b.toTokenBucket = s.bucketAt key qv (qv / w) now ∧ s'.Cached provider key := by
  obtain ⟨hquota, hcached, hbuckets⟩ := resolveQuota_spec h now
  refine ⟨(s.resolveQuota provider key now).2,
    (s.resolveQuota provider key now).2.resolveBucket key qv qu (qv / w) now, ?_, ?_, hcached⟩
  · simp only [consume, hquota, hlimit]
  · have hsized' : (s.resolveQuota provider key now).2.Sized key (qv : ℚ) (qv / w) := by
      rw [Sized, hbuckets]
      exact hsized
    rw [resolveBucket_toTokenBucket hsized', bucketAt, hbuckets, ← bucketAt]

theorem consume_limited {qv : ℤ} {qu : String} {w : ℚ} (h : s.Cached provider key)
    (hlimit : rateLimitOf windows (provider key) = some (qv, qu, w))
    (hsized : s.Sized key (qv : ℚ) (qv / w)) (now : ℚ) :
    (s.consume windows provider key now).1.allowed =
        ((s.bucketAt key qv (qv / w) now).request now).1 ∧
      (∃ b : Bucket, (s.consume windows provider key now).2.buckets key = some b ∧
        b.toTokenBucket = ((s.bucketAt key qv (qv / w) now).request now).2) ∧
      (s.consume windows provider key now).2.Cached provider key := by
  obtain ⟨s', b, heq, hb, hcached⟩ := consume_eq_spend h hlimit hsized now
  obtain ⟨hallowed, b', hstore, hb'⟩ := s'.spend_request key b now
  rw [heq, hstore, ← hb]
  exact ⟨hallowed, ⟨b', Function.update_self key _ _, hb'⟩, hcached⟩

theorem bucketAt_sized {capacity rate : ℚ} (h : s.Sized key capacity rate) :
    (s.bucketAt key capacity rate now).capacity = capacity ∧
      (s.bucketAt key capacity rate now).rate = rate := by
  rw [bucketAt]
  cases hb : s.buckets key with
  | none => exact ⟨rfl, rfl⟩
  | some b => exact h b hb

theorem consume_retryAfter {qv : ℤ} {qu : String} {w : ℚ} (h : s.Cached provider key)
    (hlimit : rateLimitOf windows (provider key) = some (qv, qu, w))
    (hsized : s.Sized key (qv : ℚ) (qv / w)) (hrate : 0 < (qv : ℚ) / w)
    (hrefused : (s.consume windows provider key now).1.allowed = false) :
    (s.consume windows provider key now).1.retryAfter =
      ((1 - ((s.bucketAt key qv (qv / w) now).request now).2.tokens) / (qv / w) : ℚ) := by
  obtain ⟨s', b, heq, hb, _⟩ := consume_eq_spend h hlimit hsized now
  have hrate' : b.rate = qv / w := by rw [hb, (bucketAt_sized hsized).2]
  rw [heq] at hrefused ⊢
  rw [spend_retryAfter (by rwa [hrate']) hrefused, hb, (bucketAt_sized hsized).2]

/-- What one key's requests see of the store. -/
def SameAt (key : CacheKey) (s t : BucketStore) : Prop :=
  s.buckets key = t.buckets key ∧ s.quotaCache key = t.quotaCache key

/-- Requests under other keys leave the key's entries alone. -/
theorem consume_other (h : other ≠ key) :
    (s.consume windows provider other now).2.SameAt key s := by
  obtain ⟨hbuckets, hquota⟩ := resolveQuota_other provider s h now
  rw [consume]
  split
  · exact ⟨congrFun hbuckets key, hquota⟩
  · obtain ⟨_, b', hstore, _⟩ :=
      (s.resolveQuota provider other now).2.spend_request other
        ((s.resolveQuota provider other now).2.resolveBucket other _ _ _ now) now
    rw [hstore]
    exact ⟨(Function.update_of_ne h.symm _ _).trans (congrFun hbuckets key), hquota⟩

/-! ## Runs of requests -/

theorem Cached.of_sameAt {t : BucketStore} (h : t.Cached provider key) (hsame : s.SameAt key t) :
    s.Cached provider key := by
  rw [Cached, hsame.2]
  exact h

theorem bucketAt_of_sameAt {t : BucketStore} {capacity rate : ℚ} (hsame : s.SameAt key t) :
    s.bucketAt key capacity rate now = t.bucketAt key capacity rate now := by
  rw [bucketAt, bucketAt, hsame.1]

theorem Sized.of_sameAt {t : BucketStore} {capacity rate : ℚ} (h : t.Sized key capacity rate)
    (hsame : s.SameAt key t) : s.Sized key capacity rate := by
  rw [Sized, hsame.1]
  exact h

theorem run_other {requests : List Request} (h : ∀ r ∈ requests, r.cacheKey ≠ key) :
    (s.run windows provider requests).SameAt key s := by
  induction requests generalizing s with
  | nil => exact ⟨rfl, rfl⟩
  | cons r rs ih =>
    have hstep : (s.consume windows provider r.cacheKey r.now).2.SameAt key s :=
      consume_other (h r List.mem_cons_self)
    have hrest := ih (s := (s.consume windows provider r.cacheKey r.now).2)
      fun r' hr' => h r' (List.mem_cons_of_mem r hr')
    exact ⟨hrest.1.trans hstep.1, hrest.2.trans hstep.2⟩

theorem allowedTimes_unlimited (hnone : rateLimitOf windows (provider key) = none)
    {requests : List Request} (h : s.Cached provider key) :
    s.allowedTimes windows provider key requests = timesOf key requests := by
  induction requests generalizing s with
  | nil => rfl
  | cons r rs ih =>
    rw [allowedTimes]
    by_cases hkey : r.cacheKey = key
    · subst hkey
      obtain ⟨hallowed, hcached⟩ := consume_unlimited h hnone r.now
      rw [if_pos ⟨rfl, hallowed⟩, ih hcached]
      simp [timesOf]
    · rw [if_neg (fun h => hkey h.1), ih (h.of_sameAt (consume_other hkey))]
      simp [timesOf, hkey]

/-- The key's requests go through its bucket, whatever is asked under other keys. -/
theorem allowedTimes_limited {qv : ℤ} {qu : String} {w : ℚ}
    (hlimit : rateLimitOf windows (provider key) = some (qv, qu, w)) {requests : List Request}
    (h : s.Cached provider key) (hsized : s.Sized key (qv : ℚ) (qv / w)) :
    s.allowedTimes windows provider key requests =
      (s.bucketAt key qv (qv / w) ((timesOf key requests).headD 0)).served
        (timesOf key requests) := by
  induction requests generalizing s with
  | nil => rfl
  | cons r rs ih =>
    rw [allowedTimes]
    by_cases hkey : r.cacheKey = key
    · subst hkey
      have htimes : timesOf r.cacheKey (r :: rs) = r.now :: timesOf r.cacheKey rs := by
        simp [timesOf]
      obtain ⟨hallowed, ⟨b, hb, hnext⟩, hcached⟩ := consume_limited h hlimit hsized r.now
      have hsized' : (s.consume windows provider r.cacheKey r.now).2.Sized r.cacheKey
          (qv : ℚ) (qv / w) := by
        intro b' hb'
        obtain rfl : b = b' := Option.some.inj (hb.symm.trans hb')
        rw [hnext, TokenBucket.request_capacity, TokenBucket.request_rate]
        exact bucketAt_sized hsized
      have hheld : (s.consume windows provider r.cacheKey r.now).2.bucketAt r.cacheKey qv (qv / w)
          ((timesOf r.cacheKey rs).headD 0) =
            ((s.bucketAt r.cacheKey qv (qv / w) r.now).request r.now).2 := by
        rw [bucketAt, hb]
        exact hnext
      rw [ih hcached hsized', hheld, htimes, TokenBucket.served, List.headD_cons]
      simp [hallowed]
    · have htimes : timesOf key (r :: rs) = timesOf key rs := by simp [timesOf, hkey]
      have hsame : (s.consume windows provider r.cacheKey r.now).2.SameAt key s :=
        consume_other hkey
      rw [if_neg (fun h => hkey h.1), ih (h.of_sameAt hsame) (hsized.of_sameAt hsame), htimes,
        bucketAt_of_sameAt hsame]

theorem empty_cached : empty.Cached provider key := by
  intro cached h
  cases h

theorem empty_sized {capacity rate : ℚ} : empty.Sized key capacity rate := by
  intro b h
  cases h

/-- The bucket under the key is one the requests from `upTo` on can use. -/
structure Serving (provider : QuotaProvider) (key : CacheKey) (capacity rate upTo : ℚ)
    (s : BucketStore) : Prop where
  cached : s.Cached provider key
  sized : s.Sized key capacity rate
  ready : ∀ b, s.buckets key = some b → b.Valid ∧ b.last ≤ upTo

theorem Serving.bucketAt_ready {capacity rate : ℚ} (h : s.Serving provider key capacity rate now)
    (hcapacity : 0 ≤ capacity) (hrate : 0 ≤ rate) :
    (s.bucketAt key capacity rate now).Valid ∧
      (s.bucketAt key capacity rate now).last ≤ now := by
  rw [bucketAt]
  cases hb : s.buckets key with
  | none => exact ⟨TokenBucket.valid_full hcapacity hrate now, le_refl now⟩
  | some b => exact h.ready b hb

theorem Serving.later {capacity rate upTo : ℚ} (h : s.Serving provider key capacity rate upTo)
    (hle : upTo ≤ now) : s.Serving provider key capacity rate now :=
  ⟨h.cached, h.sized, fun b hb => ⟨(h.ready b hb).1, (h.ready b hb).2.trans hle⟩⟩

theorem Serving.consume {qv : ℤ} {qu : String} {w : ℚ}
    (hlimit : rateLimitOf windows (provider key) = some (qv, qu, w)) (hq : (0 : ℚ) ≤ qv)
    (hrate : (0 : ℚ) ≤ qv / w) (h : s.Serving provider key (qv : ℚ) (qv / w) now)
    (asked : CacheKey) :
    (s.consume windows provider asked now).2.Serving provider key (qv : ℚ) (qv / w) now := by
  by_cases hkey : asked = key
  · subst hkey
    obtain ⟨_, ⟨b, hb, hnext⟩, hcached⟩ := consume_limited h.cached hlimit h.sized now
    obtain ⟨hvalid, hlast⟩ := h.bucketAt_ready hq hrate
    refine ⟨hcached, fun b' hb' => ?_, fun b' hb' => ?_⟩
    · obtain rfl : b = b' := Option.some.inj (hb.symm.trans hb')
      rw [hnext, TokenBucket.request_capacity, TokenBucket.request_rate]
      exact bucketAt_sized h.sized
    · obtain rfl : b = b' := Option.some.inj (hb.symm.trans hb')
      rw [hnext]
      exact ⟨hvalid.request hlast, le_of_eq (TokenBucket.request_last hlast)⟩
  · have hsame : (s.consume windows provider asked now).2.SameAt key s := consume_other hkey
    exact ⟨h.cached.of_sameAt hsame, h.sized.of_sameAt hsame, hsame.1 ▸ h.ready⟩

theorem Serving.run {qv : ℤ} {qu : String} {w upTo : ℚ}
    (hlimit : rateLimitOf windows (provider key) = some (qv, qu, w)) (hq : (0 : ℚ) ≤ qv)
    (hrate : (0 : ℚ) ≤ qv / w) {requests : List Request}
    (hsorted : requests.Pairwise fun r r' => r.now ≤ r'.now)
    (hafter : ∀ r ∈ requests, upTo ≤ r.now) (hbefore : ∀ r ∈ requests, r.now ≤ now)
    (hle : upTo ≤ now) (h : s.Serving provider key (qv : ℚ) (qv / w) upTo) :
    (s.run windows provider requests).Serving provider key (qv : ℚ) (qv / w) now := by
  induction requests generalizing s upTo with
  | nil => exact h.later hle
  | cons r rs ih =>
    obtain ⟨hfirst, hrest⟩ := List.pairwise_cons.mp hsorted
    have hstep := (h.later (hafter r List.mem_cons_self)).consume hlimit hq hrate r.cacheKey
    exact ih hrest hfirst (fun r' hr' => hbefore r' (List.mem_cons_of_mem r hr'))
      (hbefore r List.mem_cons_self) hstep

/-- A refused request is told how long to wait, to the moment. -/
theorem Serving.retryAfter_exact {qv : ℤ} {qu : String} {w : ℚ}
    (hlimit : rateLimitOf windows (provider key) = some (qv, qu, w)) (hq : (1 : ℚ) ≤ qv)
    (hrate : (0 : ℚ) < qv / w) (h : s.Serving provider key (qv : ℚ) (qv / w) now)
    (hrefused : (s.consume windows provider key now).1.allowed = false) :
    ∃ r : ℚ, 0 < r ∧ (s.consume windows provider key now).1.retryAfter = r ∧
      ∀ between : List Request, (∀ b ∈ between, b.cacheKey ≠ key) → ∀ next : ℚ, now ≤ next →
        (((((s.consume windows provider key now).2).run windows provider between).consume
          windows provider key next).1.allowed = true ↔ now + r ≤ next) := by
  obtain ⟨hvalid, hlast⟩ := h.bucketAt_ready (by linarith) hrate.le
  obtain ⟨hallowed, ⟨b, hb, hnext⟩, hcached⟩ := consume_limited h.cached hlimit h.sized now
  have hafter := h.consume hlimit (by linarith) hrate.le key
  have htokens : b.tokens < 1 := by
    rw [hnext]
    rcases (s.bucketAt key qv (qv / w) now).request_cases now with ⟨_, hyes, _⟩ | ⟨hlack, _, heq⟩
    · rw [hrefused, hyes] at hallowed
      exact absurd hallowed (by simp)
    · rw [heq]
      exact hlack
  have hnow : b.last = now := by rw [hnext, TokenBucket.request_last hlast]
  obtain ⟨hcapacity, hbrate⟩ := hafter.sized b hb
  refine ⟨(1 - b.tokens) / (qv / w), div_pos (by linarith) hrate, ?_, ?_⟩
  · rw [consume_retryAfter h.cached hlimit h.sized hrate hrefused, hnext]
  · intro between hbetween next hle
    have hsame : (((s.consume windows provider key now).2).run windows provider between).SameAt key
        (s.consume windows provider key now).2 := run_other hbetween
    obtain ⟨hanswer, _, _⟩ := consume_limited (hafter.cached.of_sameAt hsame) hlimit
      (hafter.sized.of_sameAt hsame) next
    rw [hanswer, bucketAt_of_sameAt hsame, bucketAt, hb, ← hnow, ← hbrate]
    exact (hafter.ready b hb).1.request_after_iff (by rw [hcapacity]; exact hq)
      (by rw [hbrate]; exact hrate) (by rw [hnow]; exact hle)

/-- What a new store has come to after requests up to now. -/
theorem serving_run_empty {qv : ℤ} {qu : String} {w : ℚ}
    (hlimit : rateLimitOf windows (provider key) = some (qv, qu, w)) (hq : (0 : ℚ) ≤ qv)
    (hrate : (0 : ℚ) ≤ qv / w) {requests : List Request}
    (hsorted : requests.Pairwise fun r r' => r.now ≤ r'.now)
    (hbefore : ∀ r ∈ requests, r.now ≤ now) :
    (empty.run windows provider requests).Serving provider key (qv : ℚ) (qv / w) now := by
  have hnone (upTo : ℚ) : empty.Serving provider key (qv : ℚ) (qv / w) upTo :=
    ⟨empty_cached, empty_sized, fun b hb => absurd hb (by simp [empty])⟩
  cases requests with
  | nil => exact hnone now
  | cons r rs =>
    refine (hnone r.now).run hlimit hq hrate hsorted (fun r' hr' => ?_) hbefore
      (hbefore r List.mem_cons_self)
    rcases List.mem_cons.mp hr' with rfl | hr'
    · exact le_refl _
    · exact (List.pairwise_cons.mp hsorted).1 r' hr'

theorem rateLimitOf_rate {q : ℤ} {qu : String} {w : ℚ} (hq : 0 < q)
    (hwindow : windows.lookup qu = some w) :
    rateLimitOf windows (some q, some qu) = some (q, qu, w) := by
  rw [rateLimitOf, if_neg (not_le.mpr hq), hwindow]
  rfl

theorem timesOf_sorted {requests : List Request}
    (hsorted : requests.Pairwise fun r r' => r.now ≤ r'.now) :
    (timesOf key requests).Pairwise (· ≤ ·) :=
  List.Pairwise.map Request.now (fun _ _ h => h) (hsorted.filter _)

/-- A new store serves a key from a full bucket. -/
theorem allowedTimes_empty {qv : ℤ} {qu : String} {w : ℚ}
    (hlimit : rateLimitOf windows (provider key) = some (qv, qu, w)) (requests : List Request) :
    empty.allowedTimes windows provider key requests =
      (TokenBucket.full (qv : ℚ) (qv / w) ((timesOf key requests).headD 0)).served
        (timesOf key requests) :=
  allowedTimes_limited hlimit empty_cached empty_sized

theorem pairwise_headD_cons {times : List ℚ} (h : times.Pairwise (· ≤ ·)) :
    (times.headD 0 :: times).Pairwise (· ≤ ·) := by
  cases times with
  | nil => exact List.pairwise_singleton _ _
  | cons t ts =>
    refine List.pairwise_cons.mpr ⟨fun s hs => ?_, h⟩
    rcases List.mem_cons.mp hs with rfl | hs
    · exact le_refl s
    · exact (List.pairwise_cons.mp h).1 s hs

/-- Under a quota `q` for a window `w`: no interval lets through more than `q` and its share of
the window, and a refused request is told exactly how long to wait. -/
theorem consume_bounded_and_exact {q : ℤ} {qu : String} {w : ℚ} (hq : 1 ≤ q) (hw : 0 < w)
    (hprovider : provider key = (some q, some qu)) (hwindow : windows.lookup qu = some w)
    {requests : List Request} (hsorted : requests.Pairwise fun r r' => r.now ≤ r'.now) :
    (∀ a t : ℚ, 0 ≤ t →
        (((empty.allowedTimes windows provider key requests).filter
          fun s => decide (a ≤ s) && decide (s ≤ a + t)).length : ℚ) ≤ q + q * t / w) ∧
      ∀ now : ℚ, (∀ r ∈ requests, r.now ≤ now) →
        ((empty.run windows provider requests).consume windows provider key now).1.allowed = false →
        ∃ r : ℚ, 0 < r ∧
          ((empty.run windows provider requests).consume windows provider key now).1.retryAfter =
            r ∧
          ∀ between : List Request, (∀ b ∈ between, b.cacheKey ≠ key) → ∀ next : ℚ, now ≤ next →
            ((((((empty.run windows provider requests).consume windows provider key now).2).run
              windows provider between).consume windows provider key next).1.allowed = true ↔
                now + r ≤ next) := by
  have hq' : (1 : ℚ) ≤ q := by exact_mod_cast hq
  have hrate : (0 : ℚ) < q / w := div_pos (by linarith) hw
  have hlimit : rateLimitOf windows (provider key) = some (q, qu, w) := by
    rw [hprovider]
    exact rateLimitOf_rate (by omega) hwindow
  constructor
  · intro a t ht
    have hbound := (TokenBucket.valid_full (show (0 : ℚ) ≤ q by linarith) hrate.le
      ((timesOf key requests).headD 0)).served_between_le
        (pairwise_headD_cons (timesOf_sorted hsorted)) (by linarith : a ≤ a + t)
    rw [allowedTimes_empty hlimit]
    refine hbound.trans (le_of_eq ?_)
    rw [TokenBucket.full]
    ring
  · intro now hbefore hrefused
    have hserving := serving_run_empty hlimit (by linarith) hrate.le hsorted hbefore
    exact hserving.retryAfter_exact hlimit hq' hrate hrefused

/-- The second request of a moment under a quota of one a day. -/
theorem consume_bounded_and_exact_second :
    let provider : QuotaProvider := fun _ => (some 1, some "runs_per_day")
    let key : CacheKey := ("local", "federation")
    ∃ r : ℚ, 0 < r ∧
      ((empty.run quotaUnitWindowsSeconds provider [⟨key, 0⟩]).consume quotaUnitWindowsSeconds
        provider key 0).1.retryAfter = r := by
  intro provider key
  have hprovider : provider key = (some 1, some "runs_per_day") := rfl
  have hwindow : quotaUnitWindowsSeconds.lookup "runs_per_day" = some 86400 := by decide
  have hsorted : [(⟨key, 0⟩ : Request)].Pairwise fun r r' => r.now ≤ r'.now := by simp
  obtain ⟨r, hpos, hr, _⟩ := (consume_bounded_and_exact (by decide) (by decide) hprovider hwindow
    hsorted).2 0 (by simp) (by decide +kernel)
  exact ⟨r, hpos, hr⟩

/-! ## Larger and smaller quotas -/

theorem rateLimitOf_eq_some {quota : ℤ} {unit : Option String} {qv : ℤ} {qu : String} {w : ℚ} :
    rateLimitOf windows (some quota, unit) = some (qv, qu, w) ↔
      0 < quota ∧ qv = quota ∧ unit = some qu ∧ windows.lookup qu = some w := by
  cases unit with
  | none => simp [rateLimitOf]
  | some u =>
    rw [rateLimitOf]
    by_cases hq : quota ≤ 0
    · simp [hq, not_lt.mpr hq]
    · rw [if_neg hq, and_iff_right (not_le.mp hq)]
      constructor
      · intro h
        obtain ⟨w', hw', heq⟩ := Option.map_eq_some_iff.mp h
        obtain ⟨rfl, rfl, rfl⟩ : quota = qv ∧ u = qu ∧ w' = w := by simpa using heq
        exact ⟨rfl, rfl, hw'⟩
      · rintro ⟨rfl, hu, hw⟩
        rw [Option.some.inj hu, hw]
        rfl

theorem window_pos {qu : String} {w : ℚ} (h : quotaUnitWindowsSeconds.lookup qu = some w) :
    0 < w := by
  obtain ⟨before, after, heq, _⟩ := List.lookup_eq_some_iff.mp h
  have hmem : (qu, w) ∈ quotaUnitWindowsSeconds := by
    rw [heq]
    exact List.mem_append_right before List.mem_cons_self
  have hall : ∀ row ∈ quotaUnitWindowsSeconds, 0 < row.2 := by
    simp [quotaUnitWindowsSeconds]
  exact hall (qu, w) hmem

theorem timesOf_take (requests : List Request) (n : ℕ) :
    timesOf key (requests.take n) <+: timesOf key requests :=
  ((List.take_prefix n requests).filter _).map _

/-- One limited key under two quotas. -/
theorem allowedTimes_length_le {small large : QuotaProvider} {q₁ q₂ : ℤ} {qu : String} {w : ℚ}
    (hw : 0 < w) (hsmall : rateLimitOf windows (small key) = some (q₁, qu, w))
    (hlarge : rateLimitOf windows (large key) = some (q₂, qu, w)) (h0 : 0 ≤ q₁) (hle : q₁ ≤ q₂)
    {requests : List Request} (hsorted : requests.Pairwise fun r r' => r.now ≤ r'.now) :
    (empty.allowedTimes windows small key requests).length ≤
      (empty.allowedTimes windows large key requests).length := by
  have hq₁ : (0 : ℚ) ≤ q₁ := by exact_mod_cast h0
  have hqle : (q₁ : ℚ) ≤ q₂ := by exact_mod_cast hle
  have hrate : (q₁ : ℚ) / w ≤ q₂ / w := by
    rw [div_le_div_iff_of_pos_right hw]
    exact hqle
  rw [allowedTimes_empty hsmall, allowedTimes_empty hlarge]
  have hlead : (q₁ : ℚ) ≤ q₂ + (0 : ℕ) := by rwa [Nat.cast_zero, add_zero]
  exact (TokenBucket.valid_full hq₁ (div_nonneg hq₁ hw.le) _).served_length_le
    (TokenBucket.valid_full (hq₁.trans hqle) (div_nonneg (hq₁.trans hqle) hw.le) _) hqle hrate rfl
    (pairwise_headD_cons (timesOf_sorted hsorted)) hlead

/-- Every request is let through, at each length of the run, exactly if the requests conform. -/
theorem timesOf_length_le_iff {provider : QuotaProvider} {q : ℤ} {qu : String} {w : ℚ}
    (hw : 0 < w) (hq : 0 ≤ q) (hlimit : rateLimitOf windows (provider key) = some (q, qu, w))
    {requests : List Request} (hsorted : requests.Pairwise fun r r' => r.now ≤ r'.now) :
    (∀ n, (timesOf key (requests.take n)).length ≤
        (empty.allowedTimes windows provider key (requests.take n)).length) ↔
      TokenBucket.Conforms (q : ℚ) (q / w) (timesOf key requests) := by
  have hq' : (0 : ℚ) ≤ q := by exact_mod_cast hq
  have hserved {times : List ℚ} (htimes : times.Pairwise (· ≤ ·)) :
      times.length ≤ ((TokenBucket.full (q : ℚ) (q / w) (times.headD 0)).served times).length ↔
        TokenBucket.Conforms (q : ℚ) (q / w) times := by
    cases times with
    | nil => simp [TokenBucket.served, TokenBucket.Conforms]
    | cons t ts =>
      rw [← TokenBucket.served_full_eq_self_iff hq' (div_nonneg hq' hw.le) htimes]
      have hsub := (TokenBucket.full (q : ℚ) (q / w) t).served_sublist (t :: ts)
      exact ⟨fun h => hsub.eq_of_length_le h, fun h => (congrArg List.length h).ge⟩
  constructor
  · intro h
    have hall := h requests.length
    rw [List.take_length, allowedTimes_empty hlimit, hserved (timesOf_sorted hsorted)] at hall
    exact hall
  · intro h n
    rw [allowedTimes_empty hlimit,
      hserved (timesOf_sorted (hsorted.sublist (List.take_sublist n requests)))]
    exact h.of_prefix (timesOf_take requests n)

/-- A quota of zero lets everything through, so a larger one lets at least as much through
exactly if it never refuses. -/
theorem smaller_quota_iff {small large : QuotaProvider} {q₁ q₂ : ℤ} {unit : Option String}
    (hsmall : small key = (some q₁, unit)) (hlarge : large key = (some q₂, unit)) (h0 : 0 ≤ q₁)
    (hle : q₁ ≤ q₂) {requests : List Request}
    (hsorted : requests.Pairwise fun r r' => r.now ≤ r'.now) :
    (∀ n, (empty.allowedTimes quotaUnitWindowsSeconds small key (requests.take n)).length ≤
        (empty.allowedTimes quotaUnitWindowsSeconds large key (requests.take n)).length) ↔
      (q₁ = 0 → 0 < q₂ → ∀ qu w, unit = some qu → quotaUnitWindowsSeconds.lookup qu = some w →
        TokenBucket.Conforms (q₂ : ℚ) (q₂ / w) (timesOf key requests)) := by
  cases hlimit : rateLimitOf quotaUnitWindowsSeconds (large key) with
  | none =>
    -- Neither quota limits anything.
    have hno (hpos : 0 < q₂) (qu w) (hunit : unit = some qu)
        (hwindow : quotaUnitWindowsSeconds.lookup qu = some w) : False := by
      rw [hlarge, hunit, rateLimitOf_rate hpos hwindow] at hlimit
      cases hlimit
    have hnone : rateLimitOf quotaUnitWindowsSeconds (small key) = none := by
      refine Option.eq_none_iff_forall_ne_some.mpr fun found hfound => ?_
      rw [hsmall] at hfound
      obtain ⟨hpos, _, hunit, hwindow⟩ := rateLimitOf_eq_some.mp hfound
      exact hno (by omega) _ _ hunit hwindow
    refine iff_of_true (fun n => ?_) fun _ hpos qu w hunit hwindow =>
      (hno hpos qu w hunit hwindow).elim
    rw [allowedTimes_unlimited hnone empty_cached, allowedTimes_unlimited hlimit empty_cached]
  | some found =>
    obtain ⟨q, qu, w⟩ := found
    obtain ⟨hpos, rfl, hunit, hwindow⟩ := rateLimitOf_eq_some.mp (hlarge ▸ hlimit)
    have hw : 0 < w := window_pos hwindow
    by_cases hzero : q₁ = 0
    · have hnone : rateLimitOf quotaUnitWindowsSeconds (small key) = none := by
        rw [hsmall, hunit, rateLimitOf, if_pos (by omega)]
      have hgranted (n : ℕ) : empty.allowedTimes quotaUnitWindowsSeconds small key
          (requests.take n) = timesOf key (requests.take n) :=
        allowedTimes_unlimited hnone empty_cached
      simp only [hgranted]
      rw [timesOf_length_le_iff hw hpos.le hlimit hsorted]
      constructor
      · intro h _ _ qu' w' hunit' hwindow'
        obtain rfl : qu = qu' := Option.some.inj (hunit.symm.trans hunit')
        obtain rfl : w = w' := Option.some.inj (hwindow.symm.trans hwindow')
        exact h
      · exact fun h => h hzero hpos qu w hunit hwindow
    · refine iff_of_true (fun n => ?_) fun h => absurd h hzero
      have hsmall' : rateLimitOf quotaUnitWindowsSeconds (small key) = some (q₁, qu, w) := by
        rw [hsmall, hunit]
        exact rateLimitOf_rate (by omega) hwindow
      exact allowedTimes_length_le hw hsmall' hlimit h0 hle
        (hsorted.sublist (List.take_sublist n requests))

theorem smaller_quota_iff_one_two :
    let key : CacheKey := ("local", "federation")
    ∀ n, (empty.allowedTimes quotaUnitWindowsSeconds (fun _ => (some 1, some "runs_per_day")) key
          ([⟨key, 0⟩, ⟨key, 5⟩].take n)).length ≤
        (empty.allowedTimes quotaUnitWindowsSeconds (fun _ => (some 2, some "runs_per_day")) key
          ([⟨key, 0⟩, ⟨key, 5⟩].take n)).length := by
  intro key
  have hsorted : [(⟨key, 0⟩ : Request), ⟨key, 5⟩].Pairwise fun r r' => r.now ≤ r'.now := by simp
  exact (smaller_quota_iff rfl rfl (by decide) (by decide) hsorted).mpr
    fun h => absurd h (by decide)

/-- Both requests of a moment, where a quota of one lets one through. -/
theorem no_quota_outruns_one :
    let key : CacheKey := ("local", "federation")
    (empty.allowedTimes quotaUnitWindowsSeconds (fun _ => (some 0, some "runs_per_day")) key
        [⟨key, 0⟩, ⟨key, 0⟩]).length = 2 ∧
      (empty.allowedTimes quotaUnitWindowsSeconds (fun _ => (some 1, some "runs_per_day")) key
        [⟨key, 0⟩, ⟨key, 0⟩]).length = 1 := by
  decide +kernel

end BucketStore

end SpineFormal.Api
