import Mathlib.Data.List.Dedup
import SpineFormal.Base.LineFile
import SpineFormal.Json.Loads
import SpineFormal.License.BundleVerifier

/-!
# Shares of the vendor's key

A key is split into shares by a library, and the shares are handed out as hexadecimal
texts. The texts come back in any order, typed by hand, and are checked before the library
combines them.
-/

namespace SpineFormal.License.Shamir

open Json
set_option autoImplicit false

/-- `SECRET_LEN_BYTES`. -/
def secretLenBytes : Nat := 32

/-- `SHARE_LEN_HEX`. -/
def shareLenHex : Nat := (secretLenBytes + 1) * 2

/-- The codes of `ShamirError`, and any other exception. -/
inductive ShamirError where
  | libraryUnavailable
  | badSecretLength
  | badShareFormat
  | tooFewShares
  | duplicateShares
  | combineFailed
  | shareFileUnreadable
  | raised
  deriving DecidableEq

/-- `pyshamir`; `none` is an exception. The seed stands for its random choices. -/
structure Pyshamir where
  split : Nat → Bytes → Nat → Nat → Option (List Bytes)
  combine : List Bytes → Option Bytes

/-- `str.strip`. -/
def strip (s : List Char) : List Char := trimBy pySpace s

/-! ## Checking a share -/

def isHexDigit (c : Char) : Bool := (hexVal c).isSome

/-- `int(s, 16)`. -/
def intBase16 (s : List Char) : Nat := s.foldl (fun n c => n * 16 + (hexVal c).getD 0) 0

def validateShare (shareHex : List Char) : Except ShamirError Unit :=
  let s := strip shareHex
  if s = [] then .error .badShareFormat
  else if ¬ s.all isHexDigit then .error .badShareFormat
  else if s.length ≠ shareLenHex then .error .badShareFormat
  else if intBase16 s = 0 then .error .badShareFormat
  else .ok ()

/-- `bytes.fromhex(s.strip())`. -/
def shareBytes (shareHex : List Char) : Option Bytes := fromHex (strip shareHex)

/-- The bytes of a share end with its x-coordinate. -/
def xCoordinate (shareHex : List Char) : Option UInt8 := (shareBytes shareHex).bind List.getLast?

/-! ## Splitting and combining -/

def splitSecret (library : Option Pyshamir) (seed : Nat) (secret : Bytes) (parts threshold : Nat) :
    Except ShamirError (List (List Char)) :=
  if secret.length ≠ secretLenBytes then .error .badSecretLength
  else if ¬ (1 < threshold ∧ threshold ≤ parts) then .error .badSecretLength
  else
    match library with
    | none => .error .libraryUnavailable
    | some pyshamir =>
      match pyshamir.split seed secret parts threshold with
      | none => .error .raised
      | some rawShares => .ok (rawShares.map hex)

/-- `combine_shares` once each share is known to be well formed. -/
def combineBytes (library : Option Pyshamir) (shares : List Bytes) : Except ShamirError Bytes :=
  if ¬ (shares.map List.getLast?).Nodup then .error .duplicateShares
  else
    match library with
    | none => .error .libraryUnavailable
    | some pyshamir =>
      match pyshamir.combine shares with
      | none => .error .combineFailed
      | some secret => if secret.length ≠ secretLenBytes then .error .combineFailed else .ok secret

def combineShares (library : Option Pyshamir) (sharesHex : List (List Char)) (threshold : Nat) :
    Except ShamirError Bytes :=
  if sharesHex.length < threshold then .error .tooFewShares
  else
    match sharesHex.forM validateShare, sharesHex.mapM shareBytes with
    | .error e, _ => .error e
    | .ok _, none => .error .badShareFormat
    | .ok _, some shares => combineBytes library shares

/-! ## What passes the checks -/

structure WellFormed (shareHex : List Char) : Prop where
  hex : ∀ c ∈ strip shareHex, (hexVal c).isSome = true
  length : (strip shareHex).length = shareLenHex
  nonzero : intBase16 (strip shareHex) ≠ 0

theorem validateShare_ok_iff {shareHex : List Char} :
    validateShare shareHex = .ok () ↔ WellFormed shareHex := by
  have hiff : WellFormed shareHex ↔ (strip shareHex).all isHexDigit = true ∧
      (strip shareHex).length = shareLenHex ∧ intBase16 (strip shareHex) ≠ 0 := by
    rw [List.all_eq_true]
    exact ⟨fun h => ⟨h.hex, h.length, h.nonzero⟩, fun h => ⟨h.1, h.2.1, h.2.2⟩⟩
  rw [hiff, validateShare]
  by_cases hempty : strip shareHex = []
  · simp [hempty, shareLenHex, secretLenBytes]
  · by_cases hhex : (strip shareHex).all isHexDigit = true
    · by_cases hlen : (strip shareHex).length = shareLenHex
      · by_cases hzero : intBase16 (strip shareHex) = 0 <;> simp [hempty, hhex, hlen, hzero]
      · simp [hempty, hhex, hlen]
    · simp [hempty, hhex]

theorem forM_validateShare_ok_iff {sharesHex : List (List Char)} :
    (∃ u, sharesHex.forM validateShare = .ok u) ↔ ∀ s ∈ sharesHex, WellFormed s := by
  induction sharesHex with
  | nil => exact iff_of_true ⟨(), rfl⟩ (List.forall_mem_nil _)
  | cons s rest ih =>
    rw [List.forall_mem_cons, ← ih, ← validateShare_ok_iff]
    change (∃ u, (validateShare s >>= fun _ => rest.forM validateShare) = .ok u) ↔ _
    cases hs : validateShare s with
    | error e => exact iff_of_false (fun ⟨_, h⟩ => by cases h) fun h => by cases h.1
    | ok u => exact ⟨fun h => ⟨rfl, h⟩, fun h => h.2⟩

theorem combineBytes_ok_iff {library : Option Pyshamir} {shares : List Bytes} {secret : Bytes} :
    combineBytes library shares = .ok secret ↔ (shares.map List.getLast?).Nodup ∧
      ∃ pyshamir, library = some pyshamir ∧ pyshamir.combine shares = some secret ∧
        secret.length = secretLenBytes := by
  unfold combineBytes
  by_cases hnodup : (shares.map List.getLast?).Nodup
  · rw [if_neg (not_not_intro hnodup)]
    cases library with
    | none => simp
    | some pyshamir =>
      dsimp only
      cases hcombine : pyshamir.combine shares with
      | none => simp [hcombine]
      | some found =>
        dsimp only
        by_cases hlen : found.length = secretLenBytes
        · rw [if_neg (not_not_intro hlen)]
          constructor
          · intro h
            obtain rfl := Except.ok.inj h
            exact ⟨hnodup, pyshamir, rfl, hcombine, hlen⟩
          · rintro ⟨-, p, hp, hfound, -⟩
            obtain rfl := Option.some.inj hp
            rw [hcombine] at hfound
            rw [Option.some.inj hfound]
        · rw [if_pos hlen]
          refine iff_of_false (by simp) ?_
          rintro ⟨-, p, hp, hfound, hlen'⟩
          obtain rfl := Option.some.inj hp
          rw [hcombine] at hfound
          obtain rfl := Option.some.inj hfound
          exact hlen hlen'
  · simp [hnodup]

/-- Every check that a set of shares goes through. -/
theorem combineShares_ok_iff {library : Option Pyshamir} {sharesHex : List (List Char)}
    {threshold : Nat} {secret : Bytes} :
    combineShares library sharesHex threshold = .ok secret ↔
      threshold ≤ sharesHex.length ∧ (∀ s ∈ sharesHex, WellFormed s) ∧
        ∃ shares, sharesHex.mapM shareBytes = some shares ∧
          combineBytes library shares = .ok secret := by
  rw [combineShares, ← forM_validateShare_ok_iff]
  by_cases hfew : sharesHex.length < threshold
  · simp [hfew]
  · rw [if_neg hfew]
    cases hvalid : sharesHex.forM validateShare with
    | error e => simp
    | ok u =>
      cases hbytes : sharesHex.mapM shareBytes with
      | none => simp
      | some shares => simp [Nat.le_of_not_lt hfew]

theorem xCoordinates_eq {shares : List (List Char)} {bytes : List Bytes}
    (h : shares.map shareBytes = bytes.map some) :
    shares.map xCoordinate = bytes.map List.getLast? := by
  have hcompose : shares.map xCoordinate =
      (shares.map shareBytes).map fun o => o.bind List.getLast? := by
    rw [List.map_map]
    rfl
  rw [hcompose, h, List.map_map]
  rfl

/-- What is combined comes from shares of distinct bytes, at distinct x-coordinates. -/
theorem distinct_of_combineShares {library : Option Pyshamir} {sharesHex : List (List Char)}
    {threshold : Nat} {secret : Bytes}
    (h : combineShares library sharesHex threshold = .ok secret) :
    (sharesHex.map shareBytes).Nodup ∧ (sharesHex.map xCoordinate).Nodup := by
  obtain ⟨-, -, shares, hbytes, hcombine⟩ := combineShares_ok_iff.mp h
  have hnodup := (combineBytes_ok_iff.mp hcombine).1
  have hmap := (mapM_eq_some_iff _ _ _).mp hbytes
  rw [hmap, xCoordinates_eq hmap]
  exact ⟨(List.Nodup.of_map _ hnodup).map (Option.some_injective _), hnodup⟩

theorem rejected_of_repeated {library : Option Pyshamir} {sharesHex : List (List Char)}
    {threshold : Nat} (h : (sharesHex.map shareBytes).dedup.length < threshold ∨
      ¬ (sharesHex.map xCoordinate).Nodup) :
    ∃ e, combineShares library sharesHex threshold = .error e := by
  cases hcombine : combineShares library sharesHex threshold with
  | error e => exact ⟨e, rfl⟩
  | ok secret =>
    obtain ⟨hbytes, hx⟩ := distinct_of_combineShares hcombine
    have hlen := (combineShares_ok_iff.mp hcombine).1
    rcases h with hfew | hrepeated
    · rw [List.dedup_eq_self.mpr hbytes, List.length_map] at hfew
      omega
    · exact absurd hx hrepeated

/-! ## The texts of a share -/

/-- The text is that of the share in letters of any case, with white space around it. -/
def Variant (text share : List Char) : Prop :=
  ∃ before digits after, text = before ++ digits ++ after ∧ (∀ c ∈ before, pySpace c = true) ∧
    (∀ c ∈ after, pySpace c = true) ∧ digits.map Char.toLower = share

theorem hexVal_upper : ∀ n < 26, ∀ d < 16,
    (Char.ofNat (65 + n)).toLower = Nat.digitChar d → hexVal (Char.ofNat (65 + n)) = some d := by
  decide +kernel

theorem isUpper_iff (c : Char) : c.isUpper = true ↔ 'A'.val ≤ c.val ∧ c.val ≤ 'Z'.val :=
  decide_eq_true_iff

theorem hexVal_of_toLower {c : Char} {d : Nat} (hd : d < 16) (h : c.toLower = Nat.digitChar d) :
    hexVal c = some d := by
  by_cases hupper : c.isUpper = true
  · have hrange : 65 ≤ c.toNat ∧ c.toNat ≤ 90 := by
      simpa [isUpper_iff, UInt32.le_iff_toNat_le] using hupper
    obtain ⟨n, hn⟩ := Nat.exists_eq_add_of_le hrange.1
    have hc : c = Char.ofNat (65 + n) := by rw [← hn, Char.ofNat_toNat]
    rw [hc] at h ⊢
    exact hexVal_upper n (by omega) d hd h
  · have hsame : c.toLower = c := dif_neg fun hrange => hupper ((isUpper_iff c).mpr hrange)
    rw [← hsame, h]
    exact hexVal_digitChar d hd

theorem range_of_hexVal {c : Char} (h : (hexVal c).isSome = true) :
    0x30 ≤ c.toNat ∧ c.toNat ≤ 0x66 := by
  unfold hexVal Numerals.digitVal at h
  split_ifs at h with hu hd hl
  · exact ⟨Nat.le_trans (by decide) (Char.le_def.mp hu.1), Nat.le_trans (Char.le_def.mp hu.2) (by decide)⟩
  · exact ⟨Char.le_def.mp hd.1, Nat.le_trans (Char.le_def.mp hd.2) (by decide)⟩
  · exact ⟨Nat.le_trans (by decide) (Char.le_def.mp hl.1), Char.le_def.mp hl.2⟩
  · cases h

theorem pySpace_of_hexVal {c : Char} (h : (hexVal c).isSome = true) : pySpace c = false := by
  have hrange := range_of_hexVal h
  simp only [pySpace, whiteSpace, Bool.or_eq_false_iff, decide_eq_false_iff_not,
    List.contains_eq_mem, List.mem_cons, List.not_mem_nil, or_false]
  omega

theorem fromHex_of_toLower {digits : List Char} {bs : Bytes}
    (h : digits.map Char.toLower = hex bs) :
    fromHex digits = some bs ∧ ∀ c ∈ digits, (hexVal c).isSome = true := by
  induction bs generalizing digits with
  | nil =>
    obtain rfl := List.map_eq_nil_iff.mp h
    exact ⟨rfl, List.forall_mem_nil _⟩
  | cons b bs ih =>
    have hhex : hex (b :: bs) =
        Nat.digitChar (b.toNat / 16 % 16) :: Nat.digitChar (b.toNat % 16) :: hex bs := rfl
    rw [hhex] at h
    obtain ⟨c, rest, rfl, hc, hrest⟩ := List.map_eq_cons_iff.mp h
    obtain ⟨d, rest, rfl, hd, hrest⟩ := List.map_eq_cons_iff.mp hrest
    obtain ⟨hbytes, hdigits⟩ := ih hrest
    have hhigh := hexVal_of_toLower (Nat.mod_lt _ (by decide)) hc
    have hlow := hexVal_of_toLower (Nat.mod_lt _ (by decide)) hd
    have hb := b.toNat_lt
    have hbyte : UInt8.ofNat (b.toNat / 16 % 16 * 16 + b.toNat % 16) = b := by
      have hvalue : b.toNat / 16 % 16 * 16 + b.toNat % 16 = b.toNat := by omega
      rw [hvalue, UInt8.ofNat_toNat]
    refine ⟨?_, ?_⟩
    · rw [fromHex, hhigh, hlow, hbytes]
      exact congrArg some (congrArg (· :: bs) hbyte)
    · rw [List.forall_mem_cons, List.forall_mem_cons, hhigh, hlow]
      exact ⟨rfl, rfl, hdigits⟩

theorem intBase16_eq_zero_iff {s : List Char} :
    intBase16 s = 0 ↔ ∀ c ∈ s, (hexVal c).getD 0 = 0 := by
  have hfold : ∀ (s : List Char) (n : Nat),
      s.foldl (fun n c => n * 16 + (hexVal c).getD 0) n = 0 ↔
        n = 0 ∧ ∀ c ∈ s, (hexVal c).getD 0 = 0 := by
    intro s
    induction s with
    | nil => simp
    | cons c s ih =>
      intro n
      rw [List.foldl_cons, ih, List.forall_mem_cons]
      constructor
      · rintro ⟨hn, hs⟩
        exact ⟨by omega, by omega, hs⟩
      · rintro ⟨rfl, hc, hs⟩
        exact ⟨by omega, hs⟩
  rw [intBase16, hfold]
  exact and_iff_right rfl

theorem zeros_of_fromHex {s : List Char} {bs : Bytes} (h : fromHex s = some bs)
    (hzero : ∀ c ∈ s, (hexVal c).getD 0 = 0) : ∀ b ∈ bs, b = 0 := by
  induction s using fromHex.induct generalizing bs with
  | case1 =>
    obtain rfl := Option.some.inj h
    exact List.forall_mem_nil _
  | case2 c d s ih =>
    rw [fromHex] at h
    obtain ⟨x, hx, h⟩ := Option.bind_eq_some_iff.mp h
    obtain ⟨y, hy, h⟩ := Option.bind_eq_some_iff.mp h
    obtain ⟨rest, hrest, h⟩ := Option.bind_eq_some_iff.mp h
    obtain rfl := Option.some.inj h
    rw [List.forall_mem_cons, List.forall_mem_cons, hx, hy] at hzero
    obtain ⟨hx0, hy0, hzero⟩ := hzero
    simp only [Option.getD_some] at hx0 hy0
    rw [List.forall_mem_cons, hx0, hy0]
    exact ⟨rfl, ih hrest hzero⟩
  | case3 s hnil hcons =>
    rw [fromHex] at h
    · contradiction
    · exact hnil
    · exact hcons

theorem shareBytes_of_variant {text : List Char} {b : Bytes} (h : Variant text (hex b))
    (hlen : b.length = secretLenBytes + 1) (hb : ∃ x ∈ b, x ≠ 0) :
    WellFormed text ∧ shareBytes text = some b := by
  obtain ⟨before, digits, after, rfl, hbefore, hafter, hlower⟩ := h
  obtain ⟨hbytes, hdigits⟩ := fromHex_of_toLower hlower
  have hstrip : strip (before ++ digits ++ after) = digits := by
    rw [strip, trimBy_append_space _ hafter, trimBy_space_append hbefore,
      trimBy_eq_self fun c hc => pySpace_of_hexVal (hdigits c hc)]
  refine ⟨⟨?_, ?_, ?_⟩, ?_⟩
  · rwa [hstrip]
  · have hcount := congrArg List.length hlower
    rw [List.length_map, hex_length, hlen] at hcount
    rw [hstrip, hcount, shareLenHex, Nat.mul_comm]
  · rw [hstrip]
    intro hzero
    obtain ⟨x, hx, hne⟩ := hb
    exact hne (zeros_of_fromHex hbytes (intBase16_eq_zero_iff.mp hzero) x hx)
  · rw [shareBytes, hstrip, hbytes]

/-! ## The shares of a split -/

/-- What the library promises of the shares of a split: a byte more than the secret, the last
of them the share's own nonzero x-coordinate, and enough of them in any order give the
secret. -/
structure Pyshamir.Scheme (pyshamir : Pyshamir) (secret : Bytes) (threshold : Nat)
    (rawShares : List Bytes) : Prop where
  width : ∀ b ∈ rawShares, b.length = secret.length + 1
  nonzero : ∀ b ∈ rawShares, ∀ x ∈ b.getLast?, x ≠ 0
  distinct : (rawShares.map List.getLast?).Nodup
  recovers : ∀ shares : List Bytes, shares.Nodup → (∀ b ∈ shares, b ∈ rawShares) →
    threshold ≤ shares.length → pyshamir.combine shares = some secret

theorem exists_raw {rawShares : List Bytes} {chosen : List (List Char)}
    (h : ∀ s ∈ chosen, s ∈ rawShares.map hex) :
    ∃ shares : List Bytes, chosen = shares.map hex ∧ ∀ b ∈ shares, b ∈ rawShares := by
  induction chosen with
  | nil => exact ⟨[], rfl, List.forall_mem_nil _⟩
  | cons s chosen ih =>
    obtain ⟨hs, hrest⟩ := List.forall_mem_cons.mp h
    obtain ⟨b, hb, rfl⟩ := List.mem_map.mp hs
    obtain ⟨shares, rfl, hshares⟩ := ih hrest
    exact ⟨b :: shares, rfl, List.forall_mem_cons.mpr ⟨hb, hshares⟩⟩

theorem splitSecret_ok {library : Option Pyshamir} {seed : Nat} {secret : Bytes}
    {parts threshold : Nat} {shares : List (List Char)}
    (h : splitSecret library seed secret parts threshold = .ok shares) :
    secret.length = secretLenBytes ∧ 1 < threshold ∧ threshold ≤ parts ∧ ∃ pyshamir rawShares,
      library = some pyshamir ∧ pyshamir.split seed secret parts threshold = some rawShares ∧
        shares = rawShares.map hex := by
  unfold splitSecret at h
  split_ifs at h with hlen hparts
  rw [not_not] at hlen
  cases library with
  | none => cases h
  | some pyshamir =>
    dsimp only at h
    cases hsplit : pyshamir.split seed secret parts threshold with
    | none =>
      rw [hsplit] at h
      cases h
    | some rawShares =>
      rw [hsplit] at h
      exact ⟨hlen, hparts.1, hparts.2, pyshamir, rawShares, rfl, hsplit, (Except.ok.inj h).symm⟩

theorem reads_of_variants {pyshamir : Pyshamir} {secret : Bytes} {threshold : Nat}
    {rawShares shares : List Bytes} {texts : List (List Char)}
    (hscheme : pyshamir.Scheme secret threshold rawShares) (hlen : secret.length = secretLenBytes)
    (hsub : ∀ b ∈ shares, b ∈ rawShares) (htexts : List.Forall₂ Variant texts (shares.map hex)) :
    (∀ t ∈ texts, WellFormed t) ∧ texts.map shareBytes = shares.map some := by
  induction shares generalizing texts with
  | nil =>
    obtain rfl := List.forall₂_nil_right_iff.mp htexts
    exact ⟨List.forall_mem_nil _, rfl⟩
  | cons b shares ih =>
    obtain ⟨t, rest, hvariant, hrest, rfl⟩ := List.forall₂_cons_right_iff.mp htexts
    obtain ⟨hb, hsub⟩ := List.forall_mem_cons.mp hsub
    obtain ⟨hformed, hbytes⟩ := ih hsub hrest
    have hwidth := hscheme.width b hb
    obtain ⟨x, hx⟩ : ∃ x, b.getLast? = some x := by
      refine Option.ne_none_iff_exists'.mp fun hnone => ?_
      rw [List.getLast?_eq_none_iff.mp hnone] at hwidth
      cases hwidth
    obtain ⟨hwell, hread⟩ := shareBytes_of_variant hvariant (by rw [hwidth, hlen])
      ⟨x, List.mem_of_getLast? hx, hscheme.nonzero b hb x hx⟩
    refine ⟨List.forall_mem_cons.mpr ⟨hwell, hformed⟩, ?_⟩
    rw [List.map_cons, List.map_cons, hread, hbytes]

theorem combine_of_variants {pyshamir : Pyshamir} {secret : Bytes} {threshold : Nat}
    {rawShares shares : List Bytes} {texts : List (List Char)}
    (hscheme : pyshamir.Scheme secret threshold rawShares) (hlen : secret.length = secretLenBytes)
    (hnodup : shares.Nodup) (hsub : ∀ b ∈ shares, b ∈ rawShares)
    (henough : threshold ≤ shares.length) (htexts : List.Forall₂ Variant texts (shares.map hex)) :
    combineShares (some pyshamir) texts threshold = .ok secret := by
  obtain ⟨hformed, hbytes⟩ := reads_of_variants hscheme hlen hsub htexts
  have hlast : (shares.map List.getLast?).Nodup := by
    refine List.Nodup.map_on ?_ hnodup
    intro a ha b hb heq
    exact List.inj_on_of_nodup_map hscheme.distinct (hsub a ha) (hsub b hb) heq
  refine combineShares_ok_iff.mpr ⟨?_, hformed, shares, (mapM_eq_some_iff _ _ _).mpr hbytes, ?_⟩
  · rw [htexts.length_eq, List.length_map]
    exact henough
  · exact combineBytes_ok_iff.mpr
      ⟨hlast, pyshamir, rfl, hscheme.recovers shares hnodup hsub henough, hlen⟩

/-- Enough shares of a split give the secret back, however they are ordered and typed, and
what holds too few shares or one x-coordinate twice is refused. -/
theorem combineShares_recovers {pyshamir : Pyshamir} {seed : Nat} {secret : Bytes}
    {parts threshold : Nat} {shares : List (List Char)}
    (hsplit : splitSecret (some pyshamir) seed secret parts threshold = .ok shares)
    (hscheme : ∀ rawShares, pyshamir.split seed secret parts threshold = some rawShares →
      pyshamir.Scheme secret threshold rawShares) :
    (∀ chosen texts : List (List Char), chosen.Nodup → (∀ s ∈ chosen, s ∈ shares) →
      threshold ≤ chosen.length → List.Forall₂ Variant texts chosen →
        combineShares (some pyshamir) texts threshold = .ok secret) ∧
    ∀ (texts : List (List Char)) (needed : Nat),
      (texts.map shareBytes).dedup.length < needed ∨ ¬ (texts.map xCoordinate).Nodup →
        ∃ e, combineShares (some pyshamir) texts needed = .error e := by
  refine ⟨?_, fun texts needed h => rejected_of_repeated h⟩
  intro chosen texts hnodup hsub henough htexts
  obtain ⟨hlen, -, -, p, rawShares, hp, hraw, rfl⟩ := splitSecret_ok hsplit
  obtain rfl := Option.some.inj hp
  obtain ⟨picked, rfl, hpicked⟩ := exists_raw hsub
  rw [List.length_map] at henough
  exact combine_of_variants (hscheme rawShares hraw) hlen (hnodup.of_map _) hpicked henough htexts

/-! ## A split of two shares -/

/-- Multiplication in GF(256), modulo x^8 + x^4 + x^3 + x + 1. -/
def gfMul : Nat → Nat → Nat → Nat
  | 0, _, _ => 0
  | steps + 1, a, b =>
    (if b % 2 = 1 then a else 0) ^^^
      gfMul steps (if a < 128 then 2 * a else (2 * a) ^^^ 0x11b) (b / 2)

/-- The inverse, as the 254th power. -/
def gfInv (a : Nat) : Nat := (List.range 253).foldl (fun p _ => gfMul 8 p a) a

/-- The value at 0 of the polynomial through the points. -/
def interpolate (points : List (Nat × Nat)) : Nat :=
  (points.map fun p => (points.filter fun q => q.1 ≠ p.1).foldl
    (fun acc q => gfMul 8 acc (gfMul 8 q.1 (gfInv (q.1 ^^^ p.1)))) p.2).foldl (· ^^^ ·) 0

/-- Interpolation of each byte, and a split along the line with slope 1. -/
def lineScheme : Pyshamir where
  split _ secret parts _ := some ((List.range parts).map fun i =>
    secret.map (fun b => UInt8.ofNat (b.toNat ^^^ (i + 1))) ++ [UInt8.ofNat (i + 1)])
  combine shares :=
    match shares.head? with
    | none => none
    | some b => some ((List.range (b.length - 1)).map fun k => UInt8.ofNat
        (interpolate (shares.map fun s => ((s.getLast?.getD 0).toNat, (s.getD k 0).toNat))))

def rangeSecret : Bytes := (List.range 32).map UInt8.ofNat

def shareAt (x : Nat) : Bytes :=
  rangeSecret.map (fun b => UInt8.ofNat (b.toNat ^^^ x)) ++ [UInt8.ofNat x]

theorem gfInv_three : gfInv 3 = 246 := by decide +kernel

/-- The two points share one inverse. -/
theorem interpolate_two (y z : Nat) :
    interpolate [(1, y), (2, z)] = gfMul 8 y (gfMul 8 2 246) ^^^ gfMul 8 z (gfMul 8 1 246) ∧
      interpolate [(2, z), (1, y)] =
        gfMul 8 z (gfMul 8 1 246) ^^^ gfMul 8 y (gfMul 8 2 246) := by
  simp [interpolate, gfInv_three]

theorem combine_points (a b : Nat) : lineScheme.combine [shareAt a, shareAt b] =
    some ((List.range 32).map fun k => UInt8.ofNat (interpolate
      [((UInt8.ofNat a).toNat, ((shareAt a).getD k 0).toNat),
        ((UInt8.ofNat b).toNat, ((shareAt b).getD k 0).toNat)])) := by
  simp [lineScheme, shareAt, rangeSecret]

theorem lineScheme_range : lineScheme.Scheme rangeSecret 2 [shareAt 1, shareAt 2] := by
  refine ⟨by decide +kernel, by decide +kernel, by decide +kernel, ?_⟩
  intro shares hnodup hsub henough
  have hfew := (List.subperm_of_subset hnodup hsub).length_le
  obtain ⟨a, b, rfl⟩ := List.length_eq_two.mp (Nat.le_antisymm hfew henough)
  have hne : a ≠ b := by simpa using hnodup
  have ha := hsub a (by simp)
  have hb := hsub b (by simp)
  simp only [List.mem_cons, List.not_mem_nil, or_false] at ha hb
  rcases ha with rfl | rfl <;> rcases hb with rfl | rfl
  · exact absurd rfl hne
  · rw [combine_points]
    simp only [UInt8.reduceOfNat, UInt8.reduceToNat, interpolate_two]
    decide +kernel
  · rw [combine_points]
    simp only [UInt8.reduceOfNat, UInt8.reduceToNat, interpolate_two]
    decide +kernel
  · exact absurd rfl hne

/-- Both shares, the second first and in capitals, the first with a line feed. -/
theorem combineShares_recovers_two :
    combineShares (some lineScheme)
      [(hex (shareAt 2)).map Char.toUpper, hex (shareAt 1) ++ ['\n']] 2 = .ok rangeSecret := by
  have hsplit : splitSecret (some lineScheme) 0 rangeSecret 2 2 =
      .ok [hex (shareAt 1), hex (shareAt 2)] := rfl
  refine (combineShares_recovers hsplit ?_).1 [hex (shareAt 2), hex (shareAt 1)] _ (by decide +kernel)
    (by decide +kernel) (Nat.le_refl 2) ?_
  · intro rawShares hraw
    obtain rfl : [shareAt 1, shareAt 2] = rawShares := Option.some.inj hraw
    exact lineScheme_range
  · refine .cons ?_ (.cons ?_ .nil)
    · exact ⟨[], (hex (shareAt 2)).map Char.toUpper, [], by simp, List.forall_mem_nil _,
        List.forall_mem_nil _, by decide +kernel⟩
    · exact ⟨[], hex (shareAt 1), ['\n'], rfl, List.forall_mem_nil _,
        List.forall_mem_singleton.mpr (by decide), by decide +kernel⟩

end SpineFormal.License.Shamir
