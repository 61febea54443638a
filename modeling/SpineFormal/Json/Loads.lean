import Mathlib.Data.List.Induction
import SpineFormal.Base.TextCodec
import SpineFormal.Json.Text

/-!
# Python values read from JSON files

`json.loads` of a `str` gives dictionaries, where of equal keys the last value
stays in the place of the first. `json.loads` of `bytes` guesses the encoding
from the first bytes.
-/

namespace SpineFormal.Json

set_option autoImplicit false

theorem mapM_eq_some_iff {α β : Type} (f : α → Option β) (xs : List α) (ys : List β) :
    xs.mapM f = some ys ↔ xs.map f = ys.map some := by
  induction xs generalizing ys with
  | nil => cases ys <;> simp
  | cons x xs ih =>
    rw [List.mapM_cons, List.map_cons]
    simp only [Option.bind_eq_bind, Option.bind_eq_some_iff, Option.pure_def, Option.some.injEq, ih]
    cases ys with
    | nil => simp
    | cons y ys =>
      rw [List.map_cons, List.cons.injEq]
      constructor
      · rintro ⟨z, hz, zs, hzs, heq⟩
        obtain ⟨rfl, rfl⟩ := List.cons.inj heq
        exact ⟨hz, hzs⟩
      · rintro ⟨hy, hys⟩
        exact ⟨y, hy, ys, hys, rfl⟩

theorem exists_of_mem_mapM {α β : Type} {f : α → Option β} {xs : List α} {ys : List β}
    (h : xs.mapM f = some ys) {y : β} (hy : y ∈ ys) : ∃ x ∈ xs, f x = some y := by
  have hmem : some y ∈ ys.map some := List.mem_map_of_mem hy
  rw [← (mapM_eq_some_iff f xs ys).mp h] at hmem
  exact List.mem_map.mp hmem

theorem exists_mem_of_mapM {α β : Type} {f : α → Option β} {xs : List α} {ys : List β}
    (h : xs.mapM f = some ys) {x : α} (hx : x ∈ xs) : ∃ y ∈ ys, f x = some y := by
  have hmem : f x ∈ xs.map f := List.mem_map_of_mem hx
  rw [(mapM_eq_some_iff f xs ys).mp h] at hmem
  obtain ⟨y, hy, heq⟩ := List.mem_map.mp hmem
  exact ⟨y, hy, heq.symm⟩

theorem mapM_isSome_iff {α β : Type} (f : α → Option β) (xs : List α) :
    (xs.mapM f).isSome = true ↔ ∀ x ∈ xs, (f x).isSome = true := by
  induction xs with
  | nil => simp
  | cons x xs ih =>
    rw [List.mapM_cons, List.forall_mem_cons, ← ih]
    cases f x <;> cases xs.mapM f <;> simp

theorem map_of_mapM {α β γ : Type} {f : α → Option β} {g : β → γ} {k : α → γ}
    (h : ∀ x y, f x = some y → g y = k x) {xs : List α} {ys : List β}
    (hxs : xs.mapM f = some ys) : ys.map g = xs.map k := by
  induction xs generalizing ys with
  | nil =>
    obtain rfl := Option.some.inj hxs
    rfl
  | cons x xs ih =>
    rw [List.mapM_cons] at hxs
    obtain ⟨y, hy, hxs⟩ := Option.bind_eq_some_iff.mp hxs
    obtain ⟨zs, hzs, hxs⟩ := Option.bind_eq_some_iff.mp hxs
    obtain rfl := Option.some.inj hxs
    rw [List.map_cons, List.map_cons, h x y hy, ih hzs]

/-- `dict(pairs)`. -/
def dictOf (ms : Members) : Members := ms.foldl (fun d m => dictSet d m.1 m.2) []

mutual
/-- The document with every object made a dictionary. -/
def Value.dicts : Value → Value
  | .arr xs => .arr (dictsElems xs)
  | .obj ms => .obj (dictOf (dictsMembers ms))
  | v => v
def dictsElems : List Value → List Value
  | [] => []
  | v :: vs => v.dicts :: dictsElems vs
def dictsMembers : Members → Members
  | [] => []
  | (k, v) :: ms => (k, v.dicts) :: dictsMembers ms
end

/-- `json.loads(text)`; `none` is `JSONDecodeError`. -/
def loadsText (text : List Char) : Option Value := (loads text).map Value.dicts

theorem loadsText_encode (v : Value) : loadsText (encode v) = some v.dicts := by
  rw [loadsText, loads_encode]
  rfl

theorem dictSet_of_notMem {ms : Members} {k : String} (h : k ∉ ms.map Prod.fst) (v : Value) :
    dictSet ms k v = ms ++ [(k, v)] := by
  induction ms with
  | nil => rfl
  | cons m ms ih =>
    obtain ⟨hm, hrest⟩ := List.ne_and_not_mem_of_not_mem_cons h
    rw [dictSet, if_neg (Ne.symm hm), ih hrest, List.cons_append]

theorem dictOf_of_nodup {ms : Members} (h : (ms.map Prod.fst).Nodup) : dictOf ms = ms := by
  induction ms using List.reverseRecOn with
  | nil => rfl
  | append_singleton ms m ih =>
    rw [List.map_append, List.nodup_append] at h
    have hm : m.1 ∉ ms.map Prod.fst := fun hmem => h.2.2 _ hmem _ (by simp) rfl
    rw [dictOf, List.foldl_append, ← dictOf, ih h.1, List.foldl_cons, List.foldl_nil,
      dictSet_of_notMem hm]

theorem dictsElems_eq_map (xs : List Value) : dictsElems xs = xs.map Value.dicts := by
  induction xs with
  | nil => rfl
  | cons v vs ih => rw [dictsElems, ih, List.map_cons]

theorem dictsMembers_eq_map (ms : Members) :
    dictsMembers ms = ms.map fun m => (m.1, m.2.dicts) := by
  induction ms with
  | nil => rfl
  | cons m ms ih => rw [dictsMembers, ih, List.map_cons]

/-- What has no key twice is read back as it is. -/
theorem dicts_of_distinct {v : Value} (h : v.Distinct) : v.dicts = v := by
  induction v using Value.inductionOn with
  | arr xs ih =>
    rw [distinct_arr] at h
    rw [Value.dicts, dictsElems_eq_map, List.map_congr_left fun v hv => ih v hv (h v hv),
      List.map_id']
  | obj ms ih =>
    rw [distinct_obj] at h
    have hmembers : (ms.map fun m => (m.1, m.2.dicts)) = ms := by
      have hcongr := List.map_congr_left fun m hm =>
        show (m.1, m.2.dicts) = m from Prod.ext rfl (ih m hm (h.2 m hm))
      rw [hcongr, List.map_id']
    rw [Value.dicts, dictsMembers_eq_map, hmembers, dictOf_of_nodup h.1]
  | _ => rfl

/-- A dictionary has no key twice. -/
theorem dictOf_distinct {ms : Members} (h : ∀ m ∈ ms, m.2.Distinct) :
    (Value.obj (dictOf ms)).Distinct := by
  induction ms using List.reverseRecOn with
  | nil => exact distinct_empty
  | append_singleton ms m ih =>
    have hms := ih fun n hn => h n (List.mem_append_left [m] hn)
    rw [dictOf, List.foldl_append, ← dictOf, List.foldl_cons, List.foldl_nil]
    exact hms.dictSet m.1 (h m (List.mem_append_right ms (List.mem_singleton_self m)))

theorem dicts_distinct (v : Value) : v.dicts.Distinct := by
  induction v using Value.inductionOn with
  | arr xs ih =>
    rw [Value.dicts, dictsElems_eq_map, distinct_arr]
    exact List.forall_mem_map.mpr ih
  | obj ms ih =>
    rw [Value.dicts, dictsMembers_eq_map]
    exact dictOf_distinct (List.forall_mem_map.mpr ih)
  | _ => trivial

theorem distinct_sortKeys {v : Value} (h : v.Distinct) : v.sortKeys.Distinct := by
  induction v using Value.inductionOn with
  | arr xs ih =>
    rw [distinct_arr] at h
    rw [sortKeys_arr, distinct_arr]
    intro w hw
    obtain ⟨v, hv, rfl⟩ := List.mem_map.mp hw
    exact ih v hv (h v hv)
  | obj ms ih =>
    rw [distinct_obj] at h
    obtain ⟨ms', heq, hp⟩ := sortKeys_obj ms
    rw [heq, distinct_obj]
    refine ⟨?_, fun m hm => ?_⟩
    · have hkeys : (ms.map fun m => (m.1, m.2.sortKeys)).map Prod.fst = ms.map Prod.fst := by
        simp [List.map_map, Function.comp_def]
      exact (hp.map Prod.fst).nodup_iff.mpr (hkeys ▸ h.1)
    · obtain ⟨a, ha, rfl⟩ := List.mem_map.mp (hp.mem_iff.mp hm)
      exact ih a ha (h.2 a ha)
  | _ => exact h

/-- A dictionary that was dumped is read back, its keys in order. -/
theorem loadsText_dumps {v : Value} (h : v.Distinct) : loadsText (dumps v) = some v.sortKeys := by
  rw [dumps, loadsText_encode, dicts_of_distinct (distinct_sortKeys h)]

inductive Encoding where
  | utf8
  | utf8Sig
  | utf16 (bigEndian : Bool)
  | utf32 (bigEndian : Bool)

/-- `json.detect_encoding`, with the bytes that are left once a byte order mark is taken off. -/
def detectEncoding : Bytes → Encoding × Bytes
  | 0x00 :: 0x00 :: 0xfe :: 0xff :: bs => (.utf32 true, bs)
  | 0xff :: 0xfe :: 0x00 :: 0x00 :: bs => (.utf32 false, bs)
  | 0xfe :: 0xff :: bs => (.utf16 true, bs)
  | 0xff :: 0xfe :: bs => (.utf16 false, bs)
  | 0xef :: 0xbb :: 0xbf :: bs => (.utf8Sig, bs)
  | a :: b :: c :: d :: bs =>
    (if a = 0 then (if b = 0 then .utf32 true else .utf16 true)
      else if b = 0 then (if c = 0 ∧ d = 0 then .utf32 false else .utf16 false)
      else .utf8, a :: b :: c :: d :: bs)
  | [a, b] => (if a = 0 then .utf16 true else if b = 0 then .utf16 false else .utf8, [a, b])
  | bs => (.utf8, bs)

def unit16 (bigEndian : Bool) (a b : UInt8) : Nat :=
  if bigEndian then a.toNat * 256 + b.toNat else b.toNat * 256 + a.toNat

def units16 (bigEndian : Bool) : Bytes → Option (List Nat)
  | [] => some []
  | a :: b :: bs => (units16 bigEndian bs).map (unit16 bigEndian a b :: ·)
  | [_] => none

def units32 (bigEndian : Bool) : Bytes → Option (List Nat)
  | [] => some []
  | a :: b :: c :: d :: bs =>
    let hi := if bigEndian then unit16 true a b else unit16 false c d
    let lo := if bigEndian then unit16 true c d else unit16 false a b
    if hi ≤ 0x10 then (units32 bigEndian bs).map ((hi * 65536 + lo) :: ·) else none
  | _ => none

/-- A surrogate is passed as the replacement character. -/
def passSurrogates : Bytes → Bytes
  | 0xed :: b :: c :: bs =>
    if 0xa0 ≤ b ∧ b ≤ 0xbf ∧ 0x80 ≤ c ∧ c ≤ 0xbf then 0xef :: 0xbf :: 0xbd :: passSurrogates bs
    else 0xed :: passSurrogates (b :: c :: bs)
  | b :: bs => b :: passSurrogates bs
  | [] => []

def decodeAs : Encoding → Bytes → Option (List Char)
  | .utf8, bs => decodeUtf8 (passSurrogates bs)
  | .utf8Sig, bs => decodeUtf8 (passSurrogates bs)
  | .utf16 bigEndian, bs => (units16 bigEndian bs).map joinSurrogates
  | .utf32 bigEndian, bs => (units32 bigEndian bs).map (List.map chr)

/-- `json.loads(bs)`; `none` is an exception. -/
def loadsBytes (bs : Bytes) : Option Value :=
  let (encoding, body) := detectEncoding bs
  (decodeAs encoding body).bind loadsText

/-! ## Text that was written as UTF-8 -/

theorem passSurrogates_cons {b : UInt8} (h : b ≠ 0xed) (bs : Bytes) :
    passSurrogates (b :: bs) = b :: passSurrogates bs := by
  rw [passSurrogates.eq_def]
  split
  · rename_i heq
    exact absurd (List.cons.inj heq).1 h
  · rename_i heq
    obtain ⟨rfl, rfl⟩ := List.cons.inj heq
    rfl
  · rename_i heq
    cases heq

/-- A character is not a surrogate. -/
theorem passSurrogates_encodeChar (c : Char) (bs : Bytes) :
    passSurrogates (String.utf8EncodeChar c ++ bs) = String.utf8EncodeChar c ++ passSurrogates bs := by
  have hbyte {n : Nat} (h : n % 256 ≠ 0xed) : UInt8.ofNat n ≠ 0xed := by
    intro heq
    have hnat := congrArg UInt8.toNat heq
    rw [UInt8.toNat_ofNat'] at hnat
    exact h hnat
  have hvalid : c.val.toNat < 0xd800 ∨ 0xdfff < c.val.toNat ∧ c.val.toNat < 0x110000 := c.valid
  rw [String.utf8EncodeChar]
  generalize c.val.toNat = v at hvalid
  split_ifs with hone htwo hthree
  · rw [List.singleton_append, List.singleton_append, passSurrogates_cons (hbyte (by omega))]
  · rw [List.cons_append, List.singleton_append, passSurrogates_cons (hbyte (by omega)),
      passSurrogates_cons (hbyte (by omega))]
    rfl
  · rw [List.cons_append, List.cons_append, List.singleton_append]
    by_cases hlead : v / 4096 = 0xd
    · have hsecond : ¬ 0xa0 ≤ UInt8.ofNat (v / 64 % 64 + 0x80) := by
        rw [UInt8.le_iff_toNat_le, UInt8.toNat_ofNat']
        simp only [UInt8.reduceToNat]
        omega
      have hfirst : UInt8.ofNat (v / 4096 % 16 + 0xe0) = 0xed := by
        rw [hlead]
        rfl
      rw [hfirst, passSurrogates, if_neg fun h => hsecond h.1,
        passSurrogates_cons (hbyte (by omega)), passSurrogates_cons (hbyte (by omega))]
      rfl
    · rw [passSurrogates_cons (hbyte (by omega)), passSurrogates_cons (hbyte (by omega)),
        passSurrogates_cons (hbyte (by omega))]
      rfl
  · rw [List.cons_append, List.cons_append, List.cons_append, List.singleton_append,
      passSurrogates_cons (hbyte (by omega)), passSurrogates_cons (hbyte (by omega)),
      passSurrogates_cons (hbyte (by omega)), passSurrogates_cons (hbyte (by omega))]
    rfl

theorem passSurrogates_encodeUtf8 (s : List Char) : passSurrogates (encodeUtf8 s) = encodeUtf8 s := by
  induction s with
  | nil => rfl
  | cons c s ih => rw [encodeUtf8_cons, passSurrogates_encodeChar, ih]

/-- Text that begins with a brace and has no zero is taken for UTF-8. -/
theorem detectEncoding_brace {bs : Bytes} (h : (0 : UInt8) ∉ bs) :
    detectEncoding (0x7b :: bs) = (.utf8, 0x7b :: bs) := by
  have hbrace : (0x7b : UInt8) ≠ 0 := by decide
  match bs with
  | [] => rfl
  | [b] =>
    have hb : b ≠ 0 := fun heq => h (heq ▸ List.mem_cons_self)
    have hpair : detectEncoding [0x7b, b] =
        (if (0x7b : UInt8) = 0 then .utf16 true else if b = 0 then .utf16 false else .utf8,
          [0x7b, b]) := rfl
    rw [hpair, if_neg hbrace, if_neg hb]
  | [b, c] => rfl
  | b :: c :: d :: bs =>
    have hb : b ≠ 0 := fun heq => h (heq ▸ List.mem_cons_self)
    have hfour : detectEncoding (0x7b :: b :: c :: d :: bs) =
        (if (0x7b : UInt8) = 0 then (if b = 0 then .utf32 true else .utf16 true)
          else if b = 0 then (if c = 0 ∧ d = 0 then .utf32 false else .utf16 false)
          else .utf8, 0x7b :: b :: c :: d :: bs) := rfl
    rw [hfour, if_neg hbrace, if_neg hb]

theorem loadsBytes_brace {s : List Char} (h : '\x00' ∉ s) :
    loadsBytes (encodeUtf8 ('\x7b' :: s)) = loadsText ('\x7b' :: s) := by
  have hzero : (0 : UInt8) ∉ encodeUtf8 s := fun hmem =>
    h ((ascii_mem_encodeUtf8 (a := '\x00') (by decide) s).mp hmem)
  have hbytes : encodeUtf8 ('\x7b' :: s) = 0x7b :: encodeUtf8 s := by
    rw [encodeUtf8_cons, encodeChar_of_ascii (by decide)]
    rfl
  rw [loadsBytes, hbytes, detectEncoding_brace hzero, ← hbytes]
  dsimp only
  rw [decodeAs, passSurrogates_encodeUtf8, decodeUtf8_encodeUtf8, Option.bind_some]

end SpineFormal.Json
