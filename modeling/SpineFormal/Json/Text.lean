import Mathlib.Data.Bool.AllAny
import SpineFormal.Base.TextCodec
import SpineFormal.Json.Strings
import SpineFormal.Json.Value

/-!
# Writing and reading JSON text

`encode` is `json.dumps(v, separators=(",", ":"))` with `ensure_ascii=True`;
`dumps` adds `sort_keys=True`. `parseValue` is the recursive descent of
`json.loads`. The central fact is `parseValue_encode`: an encoded document is
read back exactly, whatever follows it. Injectivity of the encoding and the
fact that no encoded object is a prefix of another both come from it.
-/

namespace SpineFormal.Json

open Numerals
set_option autoImplicit false

def joinWith (sep : Char) : List (List Char) → List Char
  | [] => []
  | [x] => x
  | x :: y :: xs => x ++ sep :: joinWith sep (y :: xs)

mutual
def encode : Value → List Char
  | .null => "null".toList
  | .bool true => "true".toList
  | .bool false => "false".toList
  | .int n => decimal n
  | .float x => x.floatstr
  | .str s => encodeString s
  | .arr xs => '[' :: (joinWith ',' (encodeElems xs) ++ [']'])
  | .obj ms => '{' :: (joinWith ',' (encodeMembers ms) ++ ['}'])
def encodeElems : List Value → List (List Char)
  | [] => []
  | v :: vs => encode v :: encodeElems vs
def encodeMembers : Members → List (List Char)
  | [] => []
  | (k, v) :: ms => (encodeString k ++ ':' :: encode v) :: encodeMembers ms
end

/-- `json.dumps(v, sort_keys=True, separators=(",", ":"))`. -/
def dumps (v : Value) : List Char := encode v.sortKeys

/-! ## Reading -/

def isWs (c : Char) : Bool := c == ' ' || c == '\t' || c == '\n' || c == '\r'

def skipWs (s : List Char) : List Char := s.dropWhile isWs

/-- The constants of `json.scanner`, with Python's non-finite floats. -/
def literals : List (List Char × Value) :=
  [("null".toList, .null), ("true".toList, .bool true), ("false".toList, .bool false),
   ("NaN".toList, .float .nan), ("Infinity".toList, .float (.inf false)),
   ("-Infinity".toList, .float (.inf true))]

def literal (s : List Char) : Option (Value × List Char) :=
  literals.findSome? fun p => if p.1.isPrefixOf s then some (p.2, s.drop p.1.length) else none

def Number.toValue : Number → Value
  | .int n => .int n
  | .float x => .float x

def scalar (s : List Char) : Option (Value × List Char) :=
  match literal s with
  | some p => some p
  | none => (number s).map fun p => (p.1.toValue, p.2)

mutual
/-- The value at the head of `s`, and what follows it. The fuel bounds the
number of nested calls; twice the length of the text is always enough. -/
def parseValue : Nat → List Char → Option (Value × List Char)
  | 0, _ => none
  | _ + 1, [] => none
  | fuel + 1, c :: s =>
    if c = '"' then (scanString s).map fun p => (.str (String.ofList p.1), p.2)
    else if c = '{' then
      match skipWs s with
      | '}' :: t => some (.obj [], t)
      | t => (parseMembers fuel t).map fun p => (.obj p.1, p.2)
    else if c = '[' then
      match skipWs s with
      | ']' :: t => some (.arr [], t)
      | t => (parseElems fuel t).map fun p => (.arr p.1, p.2)
    else scalar (c :: s)
def parseElems : Nat → List Char → Option (List Value × List Char)
  | 0, _ => none
  | fuel + 1, s =>
    match parseValue fuel s with
    | none => none
    | some (v, r) =>
      match skipWs r with
      | ',' :: t => (parseElems fuel (skipWs t)).map fun p => (v :: p.1, p.2)
      | ']' :: t => some ([v], t)
      | _ => none
def parseMembers : Nat → List Char → Option (Members × List Char)
  | 0, _ => none
  | _ + 1, [] => none
  | fuel + 1, q :: s =>
    if q = '"' then
      match scanString s with
      | none => none
      | some (k, r) =>
        match skipWs r with
        | ':' :: r =>
          match parseValue fuel (skipWs r) with
          | none => none
          | some (v, r) =>
            match skipWs r with
            | ',' :: t =>
              (parseMembers fuel (skipWs t)).map fun p => ((String.ofList k, v) :: p.1, p.2)
            | '}' :: t => some ([(String.ofList k, v)], t)
            | _ => none
        | _ => none
    else none
end

/-- `json.loads`; `none` is `JSONDecodeError`. -/
def loads (s : List Char) : Option Value :=
  match parseValue (2 * s.length) (skipWs s) with
  | some (v, r) => if skipWs r = [] then some v else none
  | none => none

/-! ## Round trip -/

theorem encodeElems_eq_map (xs : List Value) : encodeElems xs = xs.map encode := by
  induction xs with
  | nil => simp [encodeElems]
  | cons v vs ih => simp [encodeElems, ih]

def encodeMember (m : String × Value) : List Char := encodeString m.1 ++ ':' :: encode m.2

theorem encodeMembers_eq_map (ms : Members) : encodeMembers ms = ms.map encodeMember := by
  induction ms with
  | nil => simp [encodeMembers]
  | cons m ms ih => simp [encodeMembers, encodeMember, ih]

theorem encode_arr (xs : List Value) :
    encode (.arr xs) = '[' :: (joinWith ',' (xs.map encode) ++ [']']) := by
  simp [encode, encodeElems_eq_map]

theorem encode_obj (ms : Members) :
    encode (.obj ms) = '{' :: (joinWith ',' (ms.map encodeMember) ++ ['}']) := by
  simp [encode, encodeMembers_eq_map]

/-- A character no JSON value starts with, or a value's first character. -/
def StartChar (c : Char) : Prop := isWs c = false ∧ c ≠ ']' ∧ c ≠ '}'

instance (c : Char) : Decidable (StartChar c) :=
  inferInstanceAs (Decidable (isWs c = false ∧ c ≠ ']' ∧ c ≠ '}'))

/-- A number token starts like a number: a digit, or a minus sign before one. -/
def NumHead (s : List Char) : Prop :=
  ∃ c t, s = c :: t ∧ (c.isDigit = true ∨ (c = '-' ∧ ∃ d t', t = d :: t' ∧ d.isDigit = true))

theorem IntDigits.numHead {ds : List Char} (h : IntDigits ds) (neg : Bool) (s : List Char) :
    NumHead (signText neg ++ (ds ++ s)) := by
  obtain ⟨c, t, rfl, hc⟩ : ∃ c t, ds = c :: t ∧ c.isDigit = true := by
    rcases h with rfl | ⟨c, t, rfl, _, hd⟩
    · exact ⟨'0', [], rfl, rfl⟩
    · exact ⟨c, t, rfl, hd c List.mem_cons_self⟩
  cases neg with
  | false => exact ⟨c, t ++ s, rfl, Or.inl hc⟩
  | true => exact ⟨'-', c :: t ++ s, rfl, Or.inr ⟨rfl, c, t ++ s, rfl, hc⟩⟩

theorem numHead_decimal (n : Int) (rest : List Char) : NumHead (decimal n ++ rest) := by
  cases n with
  | ofNat m => exact (intDigits_toDigits m).numHead false rest
  | negSucc m => exact (intDigits_toDigits (m + 1)).numHead true rest

theorem numHead_floatstr (neg : Bool) {c : Nat} (e : Int) (hc : c % 10 ≠ 0) (rest : List Char) :
    NumHead ((PyFloat.finite neg c e hc).floatstr ++ rest) := by
  obtain ⟨i, f, x, htext, hi, _⟩ := shortText_shape hc e
  simp only [PyFloat.floatstr, htext, List.append_assoc]
  exact hi.numHead neg _

theorem isDigit_ne {c d : Char} (hc : c.isDigit = true) (hd : d.isDigit = false) : c ≠ d := by
  rintro rfl
  simp [hc] at hd

theorem literal_none {s : List Char} (h : NumHead s) : literal s = none := by
  obtain ⟨c, t, rfl, hc | ⟨rfl, d, t', rfl, hd⟩⟩ := h
  · have h1 := isDigit_ne hc (d := 'n') rfl
    have h2 := isDigit_ne hc (d := 't') rfl
    have h3 := isDigit_ne hc (d := 'f') rfl
    have h4 := isDigit_ne hc (d := 'N') rfl
    have h5 := isDigit_ne hc (d := 'I') rfl
    have h6 := isDigit_ne hc (d := '-') rfl
    simp [literal, literals, h1.symm, h2.symm, h3.symm, h4.symm, h5.symm, h6.symm]
  · have h5 := isDigit_ne hd (d := 'I') rfl
    simp [literal, literals, h5.symm]

theorem scalar_number {s rest : List Char} {n : Number} (hh : NumHead s)
    (h : number s = some (n, rest)) : scalar s = some (n.toValue, rest) := by
  simp [scalar, literal_none hh, h]

theorem parseValue_scalar {s : List Char} {p : Value × List Char} (fuel : Nat)
    (hs : ∀ c ∈ s.head?, c ≠ '"' ∧ c ≠ '{' ∧ c ≠ '[') (h : scalar s = some p) :
    parseValue (fuel + 1) s = some p := by
  cases s with
  | nil => simp [scalar, literal, literals, number, unsignedNumber, intPart] at h
  | cons c s =>
    obtain ⟨h1, h2, h3⟩ := hs c rfl
    simp [parseValue, h1, h2, h3, h]

theorem NumHead.head_ne {s : List Char} (h : NumHead s) :
    ∀ c ∈ s.head?, c ≠ '"' ∧ c ≠ '{' ∧ c ≠ '[' := by
  intro c hc
  obtain ⟨a, t, rfl, ha | ⟨rfl, _⟩⟩ := h
  · obtain rfl : a = c := by simpa using hc
    exact ⟨isDigit_ne ha rfl, isDigit_ne ha rfl, isDigit_ne ha rfl⟩
  · obtain rfl : '-' = c := by simpa using hc
    decide

theorem parseValue_number {s rest : List Char} {n : Number} (fuel : Nat) (hh : NumHead s)
    (h : number s = some (n, rest)) : parseValue (fuel + 1) s = some (n.toValue, rest) :=
  parseValue_scalar fuel hh.head_ne (scalar_number hh h)

theorem parseValue_float (x : PyFloat) (fuel : Nat) {rest : List Char} (hr : NumEnd rest) :
    parseValue (fuel + 1) (x.floatstr ++ rest) = some (.float x, rest) := by
  cases x with
  | nan => exact parseValue_scalar fuel (by simp [PyFloat.floatstr]) rfl
  | inf neg =>
    cases neg
    · exact parseValue_scalar fuel (by simp [PyFloat.floatstr, signText]) rfl
    · exact parseValue_scalar fuel (by simp [PyFloat.floatstr, signText]) rfl
  | zero neg =>
    have hh : NumHead ((PyFloat.zero neg).floatstr ++ rest) := by
      simpa [PyFloat.floatstr] using IntDigits.numHead (Or.inl rfl) neg ('.' :: '0' :: rest)
    exact parseValue_number fuel hh (number_floatstr_zero neg hr)
  | finite neg c e hc =>
    exact parseValue_number fuel (numHead_floatstr neg e hc rest) (number_floatstr neg e hc hr)

theorem skipWs_cons {c : Char} (h : isWs c = false) (s : List Char) : skipWs (c :: s) = c :: s := by
  simp [skipWs, h]

theorem NumHead.startChar {s : List Char} (h : NumHead s) :
    ∃ c, s.head? = some c ∧ StartChar c := by
  obtain ⟨c, t, rfl, hc | ⟨rfl, _⟩⟩ := h
  · refine ⟨c, rfl, ?_, isDigit_ne hc rfl, isDigit_ne hc rfl⟩
    simp [isWs, isDigit_ne hc (d := ' ') rfl, isDigit_ne hc (d := '\t') rfl,
      isDigit_ne hc (d := '\n') rfl, isDigit_ne hc (d := '\r') rfl]
  · exact ⟨'-', rfl, by decide⟩

/-- Encoded values are nonempty and start with a visible character that closes nothing. -/
theorem encode_head (v : Value) : ∃ c, (encode v).head? = some c ∧ StartChar c := by
  cases v with
  | null => exact ⟨'n', by simp [encode], by decide⟩
  | bool b =>
    cases b
    · exact ⟨'f', by simp [encode], by decide⟩
    · exact ⟨'t', by simp [encode], by decide⟩
  | int n => simpa [encode] using (numHead_decimal n []).startChar
  | float x =>
    cases x with
    | nan => exact ⟨'N', by simp [encode, PyFloat.floatstr], by decide⟩
    | inf neg =>
      cases neg
      · exact ⟨'I', by simp [encode, PyFloat.floatstr, signText], by decide⟩
      · exact ⟨'-', by simp [encode, PyFloat.floatstr, signText], by decide⟩
    | zero neg =>
      cases neg
      · exact ⟨'0', by simp [encode, PyFloat.floatstr, signText], by decide⟩
      · exact ⟨'-', by simp [encode, PyFloat.floatstr, signText], by decide⟩
    | finite neg c e hc => simpa [encode] using (numHead_floatstr neg e hc []).startChar
  | str s => exact ⟨'"', by simp [encode, encodeString], by decide⟩
  | arr xs => exact ⟨'[', by simp [encode], by decide⟩
  | obj ms => exact ⟨'{', by simp [encode], by decide⟩

theorem encode_cons (v : Value) : ∃ c t, encode v = c :: t ∧ StartChar c := by
  obtain ⟨c, h, hc⟩ := encode_head v
  obtain ⟨t, ht⟩ := List.head?_eq_some_iff.mp h
  exact ⟨c, t, ht, hc⟩

theorem skipWs_encode (v : Value) (s : List Char) : skipWs (encode v ++ s) = encode v ++ s := by
  obtain ⟨c, t, h, hc⟩ := encode_cons v
  rw [h, List.cons_append, skipWs_cons hc.1]

theorem encode_length_pos (v : Value) : 0 < (encode v).length := by
  obtain ⟨c, t, h, _⟩ := encode_cons v
  simp [h]

/-- The reader accepts `v` wherever the next character does not extend a number. -/
def Reads (v : Value) : Prop :=
  ∀ fuel rest, 2 * (encode v).length ≤ fuel → NumEnd rest →
    parseValue fuel (encode v ++ rest) = some (v, rest)

theorem parseElems_encode {xs : List Value} (hne : xs ≠ []) (hxs : ∀ v ∈ xs, Reads v)
    (fuel : Nat) (rest : List Char) (hf : 2 * (joinWith ',' (xs.map encode)).length < fuel) :
    parseElems fuel (joinWith ',' (xs.map encode) ++ ']' :: rest) = some (xs, rest) := by
  induction xs generalizing fuel with
  | nil => contradiction
  | cons v vs ih =>
    obtain ⟨fuel, rfl⟩ := Nat.exists_eq_succ_of_ne_zero (by omega : fuel ≠ 0)
    have hv := hxs v List.mem_cons_self
    cases vs with
    | nil =>
      simp only [List.map_cons, List.map_nil, joinWith] at hf ⊢
      simp [parseElems, hv fuel (']' :: rest) (by omega) (numEnd_cons (by simp) rest),
        skipWs_cons (c := ']') rfl]
    | cons w ws =>
      simp only [List.map_cons, joinWith, List.length_append, List.length_cons] at hf ⊢
      have hrec := ih (by simp) (fun u hu => hxs u (List.mem_cons_of_mem v hu)) fuel
        (by simp only [List.map_cons]; omega)
      have hws : skipWs (joinWith ',' ((w :: ws).map encode) ++ ']' :: rest) =
          joinWith ',' ((w :: ws).map encode) ++ ']' :: rest := by
        cases ws with
        | nil => exact skipWs_encode w _
        | cons u us =>
          simp only [List.map_cons, joinWith, List.append_assoc]
          exact skipWs_encode w _
      simp only [List.map_cons] at hrec hws
      rw [List.append_assoc, List.cons_append]
      simp only [parseElems, hv fuel _ (by omega) (numEnd_cons (c := ',') (by simp) _),
        skipWs_cons (c := ',') rfl, hws, hrec, Option.map_some]

theorem parseMembers_encode {ms : Members} (hne : ms ≠ []) (hms : ∀ m ∈ ms, Reads m.2)
    (fuel : Nat) (rest : List Char) (hf : 2 * (joinWith ',' (ms.map encodeMember)).length < fuel) :
    parseMembers fuel (joinWith ',' (ms.map encodeMember) ++ '}' :: rest) = some (ms, rest) := by
  induction ms generalizing fuel with
  | nil => contradiction
  | cons m ms ih =>
    obtain ⟨fuel, rfl⟩ := Nat.exists_eq_succ_of_ne_zero (by omega : fuel ≠ 0)
    obtain ⟨k, v⟩ := m
    have hv : Reads v := hms (k, v) List.mem_cons_self
    have hkey : ∀ s, scanString (k.toList.flatMap escapeChar ++ '"' :: s) = some (k.toList, s) :=
      scanString_escapes k.toList
    cases ms with
    | nil =>
      simp only [List.map_cons, List.map_nil, joinWith, encodeMember, encodeString,
        List.length_append, List.length_cons] at hf
      simp only [List.map_cons, List.map_nil, joinWith, encodeMember, encodeString,
        List.cons_append, List.append_assoc, List.nil_append, parseMembers, if_true, hkey,
        skipWs_cons (c := ':') rfl, skipWs_encode,
        hv fuel ('}' :: rest) (by omega) (numEnd_cons (by simp) rest),
        skipWs_cons (c := '}') rfl, String.ofList_toList]
    | cons m' ms =>
      simp only [List.map_cons, joinWith, encodeMember, encodeString, List.length_append,
        List.length_cons] at hf
      have hrec := ih (by simp) (fun u hu => hms u (List.mem_cons_of_mem (k, v) hu)) fuel
        (by simp only [List.map_cons, encodeMember, encodeString]; omega)
      have hws : skipWs (joinWith ',' ((m' :: ms).map encodeMember) ++ '}' :: rest) =
          joinWith ',' ((m' :: ms).map encodeMember) ++ '}' :: rest := by
        cases ms <;> simp [joinWith, encodeMember, encodeString, skipWs_cons (c := '"') rfl]
      rw [List.map_cons, List.map_cons, joinWith]
      simp only [List.map_cons] at hrec hws
      simp only [encodeMember, encodeString, List.cons_append, List.append_assoc, List.nil_append,
        parseMembers, if_true, hkey, skipWs_cons (c := ':') rfl, skipWs_encode,
        hv fuel _ (by omega) (numEnd_cons (c := ',') (by simp) _), skipWs_cons (c := ',') rfl]
      simp only [encodeMember, encodeString, List.cons_append, List.append_assoc,
        List.nil_append] at hrec hws
      rw [hws, hrec]
      simp

theorem parseValue_arr {xs : List Value} (hxs : ∀ v ∈ xs, Reads v) : Reads (.arr xs) := by
  intro fuel rest hf _
  rw [encode_arr] at hf ⊢
  simp only [List.length_cons, List.length_append, List.length_nil] at hf
  obtain ⟨fuel, rfl⟩ := Nat.exists_eq_succ_of_ne_zero (by omega : fuel ≠ 0)
  simp only [List.cons_append, List.append_assoc, List.nil_append, parseValue, Char.reduceEq,
    if_false, if_true]
  cases xs with
  | nil => simp [joinWith, skipWs_cons (c := ']') rfl]
  | cons v vs =>
    have helems := parseElems_encode (by simp) hxs fuel rest (by omega)
    obtain ⟨c, t, hc, hstart⟩ := encode_cons v
    obtain ⟨t', ht'⟩ : ∃ t', joinWith ',' ((v :: vs).map encode) = c :: t' := by
      cases vs <;> simp [joinWith, hc]
    rw [ht', List.cons_append] at helems ⊢
    rw [skipWs_cons hstart.1]
    split
    · rename_i heq
      exact absurd (List.cons.inj heq).1 hstart.2.1
    · rw [helems]
      rfl

theorem parseValue_obj {ms : Members} (hms : ∀ m ∈ ms, Reads m.2) {fuel : Nat} (rest : List Char)
    (hf : 2 * (encode (.obj ms)).length ≤ fuel) :
    parseValue fuel (encode (.obj ms) ++ rest) = some (.obj ms, rest) := by
  rw [encode_obj] at hf ⊢
  simp only [List.length_cons, List.length_append, List.length_nil] at hf
  obtain ⟨fuel, rfl⟩ := Nat.exists_eq_succ_of_ne_zero (by omega : fuel ≠ 0)
  simp only [List.cons_append, List.append_assoc, List.nil_append, parseValue, Char.reduceEq,
    if_false, if_true]
  cases ms with
  | nil => simp [joinWith, skipWs_cons (c := '}') rfl]
  | cons m ms =>
    have hmems := parseMembers_encode (by simp) hms fuel rest (by omega)
    obtain ⟨t, ht⟩ : ∃ t, joinWith ',' ((m :: ms).map encodeMember) = '"' :: t := by
      cases ms <;> simp [joinWith, encodeMember, encodeString]
    rw [ht, List.cons_append] at hmems ⊢
    rw [skipWs_cons (c := '"') rfl]
    simp [hmems]

theorem reads (v : Value) : Reads v := by
  induction v using Value.inductionOn with
  | null =>
    intro fuel rest hf _
    obtain ⟨fuel, rfl⟩ := Nat.exists_eq_succ_of_ne_zero
      (by have := encode_length_pos .null; omega : fuel ≠ 0)
    exact parseValue_scalar fuel (by simp [encode]) (by simp [encode, scalar, literal, literals])
  | bool b =>
    intro fuel rest hf _
    obtain ⟨fuel, rfl⟩ := Nat.exists_eq_succ_of_ne_zero
      (by have := encode_length_pos (.bool b); omega : fuel ≠ 0)
    cases b
    · exact parseValue_scalar fuel (by simp [encode]) (by simp [encode, scalar, literal, literals])
    · exact parseValue_scalar fuel (by simp [encode]) (by simp [encode, scalar, literal, literals])
  | int n =>
    intro fuel rest hf hr
    obtain ⟨fuel, rfl⟩ := Nat.exists_eq_succ_of_ne_zero
      (by have := encode_length_pos (.int n); omega : fuel ≠ 0)
    simpa [encode, Number.toValue] using
      parseValue_number fuel (numHead_decimal n rest) (number_decimal n hr)
  | float x =>
    intro fuel rest hf hr
    obtain ⟨fuel, rfl⟩ := Nat.exists_eq_succ_of_ne_zero
      (by have := encode_length_pos (.float x); omega : fuel ≠ 0)
    simpa [encode] using parseValue_float x fuel hr
  | str s =>
    intro fuel rest hf _
    obtain ⟨fuel, rfl⟩ := Nat.exists_eq_succ_of_ne_zero
      (by have := encode_length_pos (.str s); omega : fuel ≠ 0)
    simp [encode, encodeString, parseValue, scanString_escapes]
  | arr xs ih => exact parseValue_arr ih
  | obj ms ih => exact fun _ rest hf _ => parseValue_obj ih rest hf

theorem parseValue_encode_obj (ms : Members) {fuel : Nat} (rest : List Char)
    (hf : 2 * (encode (.obj ms)).length ≤ fuel) :
    parseValue fuel (encode (.obj ms) ++ rest) = some (.obj ms, rest) :=
  parseValue_obj (fun m _ => reads m.2) rest hf

theorem loads_encode (v : Value) : loads (encode v) = some v := by
  have hread := reads v (2 * (encode v).length) [] (Nat.le_refl _) numEnd_nil
  have hskip := skipWs_encode v []
  simp only [List.append_nil] at hread hskip
  have hend : skipWs [] = [] := rfl
  simp only [loads, hskip, hread, hend, if_true]

theorem encode_injective : Function.Injective encode := by
  intro v w h
  have hv := loads_encode v
  rw [h, loads_encode] at hv
  exact (Option.some.inj hv).symm

/-- No encoded object is a proper prefix of another: the closing brace delimits it. -/
theorem encode_obj_append_inj {ms ms' : Members} {s s' : List Char}
    (h : encode (.obj ms) ++ s = encode (.obj ms') ++ s') : ms = ms' ∧ s = s' := by
  have h1 := parseValue_encode_obj ms s
    (Nat.le_max_left (2 * (encode (.obj ms)).length) (2 * (encode (.obj ms')).length))
  have h2 := parseValue_encode_obj ms' s'
    (Nat.le_max_right (2 * (encode (.obj ms)).length) (2 * (encode (.obj ms')).length))
  rw [h, h2] at h1
  simp only [Option.some.injEq, Prod.mk.injEq, Value.obj.injEq] at h1
  exact ⟨h1.1.symm, h1.2.symm⟩

/-! ## Shape of the output -/

theorem joinWith_eq_intercalate (sep : Char) (xs : List (List Char)) :
    joinWith sep xs = [sep].intercalate xs := by
  induction xs with
  | nil => rfl
  | cons x xs ih =>
    cases xs with
    | nil => rw [joinWith, List.intercalate_singleton]
    | cons y ys =>
      rw [joinWith, List.intercalate_cons_cons, List.append_assoc, List.singleton_append, ih]

theorem mem_joinWith {sep : Char} {xs : List (List Char)} {c : Char} (h : c ∈ joinWith sep xs) :
    c = sep ∨ ∃ x ∈ xs, c ∈ x := by
  rw [joinWith_eq_intercalate] at h
  exact mem_intercalate h

/-- What numbers are written with: nothing that a string would have to escape, and no `u`. -/
def NumberChar (c : Char) : Prop := Printable c ∧ c ≠ '"' ∧ c ≠ '\\' ∧ c ≠ 'u'

instance : DecidablePred NumberChar := fun c => inferInstanceAs (Decidable (Printable c ∧ _))

theorem numberChar_of_isDigit {c : Char} (h : c.isDigit = true) : NumberChar c := by
  refine ⟨?_, isDigit_ne h (by decide), isDigit_ne h (by decide), isDigit_ne h (by decide)⟩
  simp only [Char.isDigit, Bool.and_eq_true, decide_eq_true_eq] at h
  have h1 : (48 : UInt32).toNat ≤ c.val.toNat := h.1
  have h2 : c.val.toNat ≤ (57 : UInt32).toNat := h.2
  have hc : c.toNat = c.val.toNat := rfl
  simp only [UInt32.reduceToNat] at h1 h2
  exact ⟨by omega, by omega⟩

theorem numberChar_decimal (n : Int) : ∀ c ∈ decimal n, NumberChar c := by
  intro c hc
  cases n with
  | ofNat m => exact numberChar_of_isDigit (isDigit_of_mem_toDigits c hc)
  | negSucc m =>
    rcases List.mem_cons.mp hc with rfl | hc
    · decide
    · exact numberChar_of_isDigit (isDigit_of_mem_toDigits c hc)

theorem numberChar_exponentText (e : Int) : ∀ c ∈ exponentText e, NumberChar c := by
  intro c hc
  simp only [exponentText, List.mem_cons] at hc
  rcases hc with rfl | rfl | hc
  · decide
  · split <;> decide
  · split at hc
    · exact numberChar_of_isDigit (isDigit_of_mem_fixed c hc)
    · exact numberChar_of_isDigit (isDigit_of_mem_toDigits c hc)

theorem numberChar_shortText {c : Nat} (hc : c % 10 ≠ 0) (e : Int) :
    ∀ d ∈ shortText (Nat.toDigits 10 c) ((Nat.toDigits 10 c).length + e), NumberChar d := by
  obtain ⟨i, f, x, htext, hi, hf, _⟩ := shortText_shape hc e
  intro d hd
  rw [htext] at hd
  rcases List.mem_append.mp hd with hd | hd
  · rcases hi with rfl | ⟨_, _, _, _, hdig⟩
    · obtain rfl := List.mem_singleton.mp hd
      decide
    · exact numberChar_of_isDigit (hdig d hd)
  · rcases List.mem_append.mp hd with hd | hd
    · split at hd
      · contradiction
      · rcases List.mem_cons.mp hd with rfl | hd
        · decide
        · exact numberChar_of_isDigit (hf d hd)
    · cases x with
      | none => contradiction
      | some x => exact numberChar_exponentText x d hd

theorem numberChar_signText (neg : Bool) : ∀ c ∈ signText neg, NumberChar c := by
  cases neg <;> exact List.all_iff_forall_prop.mp (by decide)

theorem numberChar_floatstr (x : PyFloat) : ∀ c ∈ x.floatstr, NumberChar c := by
  cases x with
  | nan => exact List.all_iff_forall_prop.mp (by decide)
  | inf neg => cases neg <;> exact List.all_iff_forall_prop.mp (by decide)
  | zero neg => cases neg <;> exact List.all_iff_forall_prop.mp (by decide)
  | finite neg m e hm =>
    intro c hc
    rcases List.mem_append.mp hc with hc | hc
    · exact numberChar_signText neg c hc
    · exact numberChar_shortText hm e c hc

/-- The encoder writes one line of printable ASCII: a byte is a character, and
neither a newline nor a carriage return occurs. -/
theorem printable_encode (v : Value) : ∀ c ∈ encode v, Printable c := by
  induction v using Value.inductionOn with
  | null => exact List.all_iff_forall_prop.mp (by decide)
  | bool b => cases b <;> exact List.all_iff_forall_prop.mp (by decide)
  | int n => exact fun c hc => (numberChar_decimal n c (by simpa [encode] using hc)).1
  | float x => exact fun c hc => (numberChar_floatstr x c (by simpa [encode] using hc)).1
  | str s => simpa [encode] using printable_encodeString s
  | arr xs ih =>
    intro c hc
    simp only [encode_arr, List.mem_cons, List.mem_append, List.not_mem_nil, or_false] at hc
    rcases hc with rfl | hc | rfl
    · decide
    · rcases mem_joinWith hc with rfl | ⟨x, hx, hc⟩
      · decide
      · obtain ⟨v, hv, rfl⟩ := List.mem_map.mp hx
        exact ih v hv c hc
    · decide
  | obj ms ih =>
    intro c hc
    simp only [encode_obj, List.mem_cons, List.mem_append, List.not_mem_nil, or_false] at hc
    rcases hc with rfl | hc | rfl
    · decide
    · rcases mem_joinWith hc with rfl | ⟨x, hx, hc⟩
      · decide
      · obtain ⟨m, hm, rfl⟩ := List.mem_map.mp hx
        simp only [encodeMember, List.mem_append, List.mem_cons] at hc
        rcases hc with hc | rfl | hc
        · exact printable_encodeString m.1 c hc
        · decide
        · exact ih m hm c hc
    · decide

theorem joinWith_length (sep : Char) (xs : List (List Char)) :
    (joinWith sep xs).length = (xs.map List.length).sum + (xs.length - 1) := by
  induction xs with
  | nil => rfl
  | cons x xs ih =>
    cases xs with
    | nil => simp [joinWith]
    | cons y ys =>
      simp only [joinWith, List.length_append, List.length_cons, List.map_cons, List.sum_cons] at ih ⊢
      omega

theorem length_le_joinWith (sep : Char) {xs : List (List Char)} {x : List Char} (h : x ∈ xs) :
    x.length ≤ (joinWith sep xs).length := by
  obtain ⟨as, bs, rfl⟩ := List.append_of_mem h
  simp only [joinWith_length, List.map_append, List.map_cons, List.sum_append, List.sum_cons]
  omega

/-- A document is at least as long as each of its parts. -/
theorem encode_elem_length {xs : List Value} {v : Value} (h : v ∈ xs) :
    (encode v).length ≤ (encode (.arr xs)).length := by
  have hjoin := length_le_joinWith ',' (List.mem_map_of_mem (f := encode) h)
  rw [encode_arr, List.length_cons, List.length_append]
  omega

theorem encode_member_length {ms : Members} {k : String} {v : Value} (h : (k, v) ∈ ms) :
    (encode v).length ≤ (encode (.obj ms)).length := by
  have hjoin := length_le_joinWith ',' (List.mem_map_of_mem (f := encodeMember) h)
  simp only [encodeMember, List.length_append, List.length_cons] at hjoin
  rw [encode_obj, List.length_cons, List.length_append]
  omega

theorem joinWith_length_perm (sep : Char) {xs ys : List (List Char)}
    (h : (xs.map List.length).Perm (ys.map List.length)) :
    (joinWith sep xs).length = (joinWith sep ys).length := by
  have hlen : xs.length = ys.length := by simpa using h.length_eq
  rw [joinWith_length, joinWith_length, h.sum_nat, hlen]

theorem dumps_length (v : Value) : (dumps v).length = (encode v).length := by
  unfold dumps
  induction v using Value.inductionOn with
  | null | bool | int | float | str => rw [Value.sortKeys] <;> simp
  | arr xs ih =>
    rw [sortKeys_arr, encode_arr, encode_arr]
    have hp : ((xs.map Value.sortKeys).map encode).map List.length = (xs.map encode).map List.length := by
      simp only [List.map_map]
      exact List.map_congr_left fun v hv => ih v hv
    simp only [List.length_cons, List.length_append, joinWith_length_perm ',' (List.Perm.of_eq hp)]
  | obj ms ih =>
    obtain ⟨ms', heq, hperm⟩ := sortKeys_obj ms
    rw [heq, encode_obj, encode_obj]
    have hmap : ((ms.map fun m => (m.1, m.2.sortKeys)).map encodeMember).map List.length =
        (ms.map encodeMember).map List.length := by
      simp only [List.map_map]
      apply List.map_congr_left
      intro m hm
      simp [encodeMember, ih m hm]
    have hp := ((hperm.map encodeMember).map List.length).trans (List.Perm.of_eq hmap)
    simp [joinWith_length_perm ',' hp]

end SpineFormal.Json
