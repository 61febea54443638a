import SpineFormal.Json.Text
import SpineFormal.Py.Value

/-!
# `json.dumps` of a Python value

`json.dumps(v, sort_keys=True, separators=(",", ":"), default=str)`. The keys are sorted
as Python compares them and then written as texts, so numbers come in the order of their
values. A `set`, a date and `bytes` are written as the string that `str` makes of them.
-/

namespace SpineFormal.Py

open Json (PyFloat Value Members)
set_option autoImplicit false

/-- `¬ b < a`. -/
def keyLe (a b : Atom) : Bool :=
  match a, b with
  | .str s, .str t => s ≤ t
  | a, b =>
    match a.num, b.num with
    | some x, some y => x ≤ y
    | _, _ => true

/-- `sorted` compares any two of the keys without a `TypeError`. -/
def comparable (keys : List Atom) : Bool :=
  keys.length ≤ 1 || (keys.all fun k => k matches .str _) ||
    keys.all fun k => k matches .bool _ | .int _ | .float _

/-- A key as a member's name; `none` is `TypeError`. -/
def keyText : Atom → Option String
  | .null => some "null"
  | .bool true => some "true"
  | .bool false => some "false"
  | .int n => some (String.ofList (Numerals.decimal n))
  | .float x => some (String.ofList x.floatstr)
  | .str s => some s
  | .bytes _ => none
  | .time _ _ => none

def namedMember (m : Atom × Value) : Option (String × Value) :=
  (keyText m.1).map fun name => (name, m.2)

def sortItems (ms : List (Atom × Value)) : Option Members :=
  if comparable (ms.map Prod.fst) then
    (ms.insertionSort fun m m' => keyLe m.1 m'.1).mapM namedMember
  else none

section
-- Python's `repr`, asked for the values that are no text
variable (reprOf : PyValue → String)

/-- `str(v)`. -/
def pyStr : PyValue → String
  | .atom (.str s) => s
  | .atom (.time _ text) => text
  | v => reprOf v

def atomJson : Atom → Value
  | .null => .null
  | .bool b => .bool b
  | .int n => .int n
  | .float x => .float x
  | .str s => .str s
  | a => .str (pyStr reprOf (.atom a))

mutual
/-- The document that is written; `none` is `TypeError`. -/
def toJson : PyValue → Option Value
  | .atom a => some (atomJson reprOf a)
  | .set xs => some (.str (pyStr reprOf (.set xs)))
  | .list xs => (toJsonElems xs).map .arr
  | .dict ms => ((toJsonItems ms).bind sortItems).map .obj
def toJsonElems : List PyValue → Option (List Value)
  | [] => some []
  | v :: vs => do
    let j ← toJson v
    let js ← toJsonElems vs
    return j :: js
def toJsonItems : Dict → Option (List (Atom × Value))
  | [] => some []
  | (k, v) :: ms => do
    let j ← toJson v
    let js ← toJsonItems ms
    return (k, j) :: js
end

/-- `json.dumps`; `none` is an exception. -/
def dumps (v : PyValue) : Option (List Char) := (toJson reprOf v).map Json.encode

end

end SpineFormal.Py
