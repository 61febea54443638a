import Mathlib.Data.List.Infix
import Mathlib.Data.Rat.Defs
import Mathlib.Data.Prod.Lex
import Mathlib.Algebra.Order.Ring.Unbundled.Rat
import SpineFormal.Json.Value

/-!
# Python values as YAML gives them

A key of a `dict` is an atom. Two atoms are the same key when Python compares them equal:
`1`, `1.0` and `True` are one key, and `NaN` is equal to nothing. A `dict` keeps the order
in which its keys came, and the elements of a `set` stand in the order in which it is
iterated.
-/

namespace SpineFormal.Py

open Json (PyFloat)
set_option autoImplicit false

/-- A hashable leaf. A date or time is compared by `ident` and printed as `text`. -/
inductive Atom where
  | null
  | bool (b : Bool)
  | int (n : Int)
  | float (x : PyFloat)
  | str (s : String)
  | bytes (bs : List UInt8)
  | time (ident text : String)
  deriving DecidableEq

inductive PyValue where
  | atom (a : Atom)
  | set (elems : List Atom)
  | list (elems : List PyValue)
  | dict (items : List (Atom × PyValue))

abbrev Dict := List (Atom × PyValue)

abbrev PyValue.none : PyValue := .atom .null

abbrev PyValue.text (s : String) : PyValue := .atom (.str s)

/-- Induction over values: lists and dictionaries see every element. -/
theorem PyValue.inductionOn {P : PyValue → Prop} (atom : ∀ a, P (.atom a)) (set : ∀ xs, P (.set xs))
    (list : ∀ xs, (∀ v ∈ xs, P v) → P (.list xs))
    (dict : ∀ ms : Dict, (∀ m ∈ ms, P m.2) → P (.dict ms)) (v : PyValue) : P v := by
  apply @PyValue.rec P (fun xs => ∀ v ∈ xs, P v) (fun ms => ∀ m ∈ ms, P m.2) (fun m => P m.2)
  · exact atom
  · exact set
  · exact list
  · exact dict
  · simp
  · intro v vs hv hvs w hw
    rcases List.mem_cons.mp hw with rfl | hw
    · exact hv
    · exact hvs w hw
  · simp
  · intro m ms hm hms w hw
    rcases List.mem_cons.mp hw with rfl | hw
    · exact hm
    · exact hms w hw
  · exact fun _ _ h => h

/-! ## Comparing -/

/-- The integer a double holds whose shortest decimal is `n`: 53 bits, half to even. -/
def nearestBinary (n : Nat) : Nat :=
  let unit := 2 ^ (n.log2 - 52)
  let q := n / unit
  let r := n % unit
  (if 2 * r < unit ∨ (2 * r = unit ∧ q % 2 = 0) then q else q + 1) * unit

/-- A number, with the infinities below and above all others. -/
abbrev Num := Int ×ₗ Rat

def Num.ofRat (q : Rat) : Num := toLex (0, q)

def floatNum : PyFloat → Option Num
  | .nan => none
  | .inf neg => some (toLex (if neg then -1 else 1, 0))
  | .zero _ => some (Num.ofRat 0)
  | .finite neg c e _ =>
    let size : Rat := if 0 ≤ e then nearestBinary (c * 10 ^ e.natAbs) else c / 10 ^ e.natAbs
    some (Num.ofRat (if neg then -size else size))

def Atom.num : Atom → Option Num
  | .bool b => some (Num.ofRat (if b then 1 else 0))
  | .int n => some (Num.ofRat n)
  | .float x => floatNum x
  | _ => Option.none

/-- What an atom is compared by. -/
inductive Ident where
  | null
  | num (x : Num)
  | str (s : String)
  | bytes (bs : List UInt8)
  | time (ident : String)
  deriving DecidableEq

def Atom.ident : Atom → Option Ident
  | .null => some .null
  | .str s => some (.str s)
  | .bytes bs => some (.bytes bs)
  | .time ident _ => some (.time ident)
  | a => a.num.map .num

/-- `a == b`. -/
def Atom.same (a b : Atom) : Bool := a.ident.isSome && a.ident = b.ident

theorem same_iff (a b : Atom) : a.same b = true ↔ ∃ i, a.ident = some i ∧ b.ident = some i := by
  rw [Atom.same, Bool.and_eq_true, decide_eq_true_iff, Option.isSome_iff_exists]
  constructor
  · rintro ⟨⟨i, hi⟩, heq⟩
    exact ⟨i, hi, heq ▸ hi⟩
  · rintro ⟨i, ha, hb⟩
    exact ⟨⟨i, ha⟩, ha.trans hb.symm⟩

theorem same_comm (a b : Atom) : a.same b = b.same a := by
  rw [Bool.eq_iff_iff, same_iff, same_iff]
  simp only [and_comm]

/-- Equal atoms are equal to the same atoms. -/
theorem same_congr {a b : Atom} (h : a.same b = true) (c : Atom) : a.same c = b.same c := by
  obtain ⟨i, ha, hb⟩ := (same_iff a b).mp h
  rw [Atom.same, Atom.same, ha, hb]

@[simp] theorem same_str (s t : String) : (Atom.str s).same (.str t) = decide (s = t) := by
  simp [Atom.same, Atom.ident]

theorem same_str_iff (a : Atom) (s : String) : a.same (.str s) = true ↔ a = .str s := by
  rw [same_iff]
  constructor
  · rintro ⟨i, ha, hs⟩
    obtain rfl : Ident.str s = i := Option.some.inj hs
    cases a <;> simp_all [Atom.ident, Atom.num]
  · rintro rfl
    exact ⟨.str s, rfl, rfl⟩

/-! ## Dictionaries -/

namespace Dict

/-- `d[k]` where `k in d`. -/
def get? : Dict → Atom → Option PyValue
  | [], _ => .none
  | m :: ms, k => if m.1.same k then some m.2 else get? ms k

/-- `d.get(k)`. -/
def get (d : Dict) (k : Atom) : PyValue := (get? d k).getD .none

/-- `d[k] = v`: a key that is there keeps its place. -/
def set : Dict → Atom → PyValue → Dict
  | [], k, v => [(k, v)]
  | m :: ms, k, v => if m.1.same k then (m.1, v) :: ms else m :: set ms k v

theorem get?_set (d : Dict) (k : Atom) (v : PyValue) (k' : Atom) :
    get? (set d k v) k' = if k.same k' then some v else get? d k' := by
  induction d with
  | nil => rfl
  | cons m ms ih =>
    rw [set]
    by_cases hm : m.1.same k = true
    · rw [if_pos hm, get?, get?, same_congr hm]
      split <;> rfl
    · rw [if_neg hm, get?, get?, ih]
      by_cases hmk : m.1.same k' = true
      · have hkk : ¬ k.same k' = true := by
          intro h
          rw [same_congr hmk, same_comm, h] at hm
          exact hm rfl
        rw [if_pos hmk, if_neg hkk, if_pos hmk]
      · rw [if_neg hmk, if_neg hmk]

theorem get_set_str (d : Dict) (s : String) (v : PyValue) :
    get (set d (.str s) v) (.str s) = v := by
  rw [get, get?_set, if_pos (by simp), Option.getD_some]

theorem get_set_of_ne (d : Dict) {s t : String} (h : s ≠ t) (v : PyValue) :
    get (set d (.str s) v) (.str t) = get d (.str t) := by
  rw [get, get, get?_set, if_neg (by simpa using h)]

end Dict

mutual
/-- `v == w`. -/
def PyValue.eq : PyValue → PyValue → Bool
  | .atom a, .atom b => a.same b
  | .set xs, .set ys => xs.length = ys.length && xs.all fun x => ys.any x.same
  | .list xs, .list ys => eqElems xs ys
  | .dict ms, .dict ns => ms.length = ns.length && eqItems ms ns
  | _, _ => false
def eqElems : List PyValue → List PyValue → Bool
  | [], [] => true
  | v :: vs, w :: ws => v.eq w && eqElems vs ws
  | _, _ => false
/-- Every item has an equal one under its key. -/
def eqItems : Dict → Dict → Bool
  | [], _ => true
  | (k, v) :: ms, ns =>
    (match Dict.get? ns k with
      | some w => v.eq w
      | .none => false) && eqItems ms ns
end

/-! ## What Python does with a value of any type; `none` is an exception -/

/-- `bool(v)`. -/
def PyValue.truthy : PyValue → Bool
  | .atom .null => false
  | .atom (.bool b) => b
  | .atom (.int n) => n ≠ 0
  | .atom (.float (.zero _)) => false
  | .atom (.float _) => true
  | .atom (.str s) => s ≠ ""
  | .atom (.bytes bs) => bs ≠ []
  | .atom (.time _ _) => true
  | .set xs => xs ≠ []
  | .list xs => !xs.isEmpty
  | .dict ms => !ms.isEmpty

/-- `v or w`. -/
def PyValue.or (v w : PyValue) : PyValue := if v.truthy then v else w

/-- The only type with `.get`, `.items` and `.setdefault`. -/
def PyValue.asDict : PyValue → Option Dict
  | .dict ms => some ms
  | _ => Option.none

/-- `for x in v`. -/
def PyValue.iter : PyValue → Option (List PyValue)
  | .atom (.str s) => some (s.toList.map fun c => .text (String.singleton c))
  | .atom (.bytes bs) => some (bs.map fun b => .atom (.int b.toNat))
  | .atom _ => Option.none
  | .set xs => some (xs.map .atom)
  | .list xs => some xs
  | .dict ms => some (ms.map fun m => .atom m.1)

/-- `hash(v)` is defined. -/
def PyValue.asKey : PyValue → Option Atom
  | .atom a => some a
  | _ => Option.none

/-- `set(v)`, as far as membership goes. -/
def PyValue.toSet (v : PyValue) : Option (List Atom) := do
  let xs ← v.iter
  xs.mapM PyValue.asKey

/-- `v in s`; a set is looked up as a frozen one, which no atom equals. -/
def PyValue.isIn (v : PyValue) (s : List Atom) : Option Bool :=
  match v with
  | .atom a => some (s.any a.same)
  | .set _ => some false
  | _ => Option.none

/-- `[x for x in xs if f(x)]`. -/
def keepIf {α : Type} (f : α → Option Bool) : List α → Option (List α)
  | [] => some []
  | x :: xs => do
    let keep ← f x
    let rest ← keepIf f xs
    return if keep then x :: rest else rest

theorem keepIf_sublist {α : Type} {f : α → Option Bool} {xs ys : List α}
    (h : keepIf f xs = some ys) : ys.Sublist xs := by
  induction xs generalizing ys with
  | nil =>
    obtain rfl : [] = ys := Option.some.inj h
    exact List.Sublist.refl []
  | cons x xs ih =>
    simp only [keepIf, Option.bind_eq_bind, Option.bind_eq_some_iff] at h
    obtain ⟨keep, -, zs, hzs, h⟩ := h
    obtain rfl : (if keep = true then x :: zs else zs) = ys := Option.some.inj h
    cases keep with
    | true => exact (ih hzs).cons_cons x
    | false => exact (ih hzs).cons x

/-- The place that `k` indexes in a sequence of `n` elements. -/
def seqIndex (n : Nat) (k : Atom) : Option Nat :=
  let index : Option Int :=
    match k with
    | .int i => some i
    | .bool b => some (if b then 1 else 0)
    | _ => Option.none
  index.bind fun i =>
    if 0 ≤ i ∧ i < n then some i.toNat
    else if i < 0 ∧ 0 ≤ i + n then some (i + n).toNat
    else Option.none

/-- `v[k]`. -/
def PyValue.item (v : PyValue) (k : Atom) : Option PyValue :=
  match v with
  | .dict ms => Dict.get? ms k
  | .list xs => (seqIndex xs.length k).bind fun i => xs[i]?
  | .atom (.str s) =>
    (seqIndex s.toList.length k).bind fun i =>
      s.toList[i]?.map fun c => .text (String.singleton c)
  | .atom (.bytes bs) =>
    (seqIndex bs.length k).bind fun i => bs[i]?.map fun b => .atom (.int b.toNat)
  | _ => Option.none

/-- `k in v`. -/
def PyValue.contains (v : PyValue) (k : Atom) : Option Bool :=
  match v, k with
  | .dict ms, k => some (Dict.get? ms k).isSome
  | .list xs, k => some (xs.any (PyValue.eq (.atom k)))
  | .set xs, k => some (xs.any k.same)
  | .atom (.str s), .str t => some (decide (t.toList <:+: s.toList))
  | .atom (.bytes bs), .int n =>
    if 0 ≤ n ∧ n < 256 then some (bs.contains (.ofNat n.toNat)) else Option.none
  | .atom (.bytes bs), .bool b => some (bs.contains (if b then 1 else 0))
  | .atom (.bytes bs), .bytes cs => some (decide (cs <:+: bs))
  | _, _ => Option.none

/-- `v[k] = w`. -/
def PyValue.setItem (v : PyValue) (k : Atom) (w : PyValue) : Option PyValue :=
  match v with
  | .dict ms => some (.dict (Dict.set ms k w))
  | .list xs => (seqIndex xs.length k).map fun i => .list (xs.set i w)
  | _ => Option.none

end SpineFormal.Py
