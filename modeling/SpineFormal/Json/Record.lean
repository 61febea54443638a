import SpineFormal.Json.Text

/-!
# Typed values in documents

A `Codec` writes a type as a JSON document and reads it back from the document
with its keys sorted, the form in which records reach a hash or a file. The law
is a field, so a codec that loses information cannot be built. Records are read
field by field, by name.
-/

namespace SpineFormal.Json

set_option autoImplicit false

structure Codec (α : Type) where
  dump : α → Value
  read : Value → Option α
  read_dump : ∀ a, read (dump a).sortKeys = some a

namespace Codec

def str : Codec String where
  dump := .str
  read
    | .str s => some s
    | _ => none
  read_dump _ := rfl

def int : Codec Int where
  dump := .int
  read
    | .int n => some n
    | _ => none
  read_dump _ := rfl

/-- An integer field with `ge=0`. -/
def nat : Codec Nat where
  dump n := .int n
  read
    | .int (.ofNat n) => some n
    | _ => none
  read_dump _ := rfl

def float : Codec PyFloat where
  dump := .float
  read
    | .float x => some x
    | _ => none
  read_dump _ := rfl

def bool : Codec Bool where
  dump := .bool
  read
    | .bool b => some b
    | _ => none
  read_dump _ := rfl

variable {α : Type}

/-- A type with a textual form. -/
def text (toText : α → List Char) (ofText : List Char → Option α)
    (law : ∀ a, ofText (toText a) = some a) : Codec α where
  dump a := .str (String.ofList (toText a))
  read
    | .str s => ofText s.toList
    | _ => none
  read_dump a := by simp [Value.sortKeys, law]

/-- A field constraint, checked on reading. -/
def subtype (c : Codec α) (p : α → Prop) [DecidablePred p] : Codec { a // p a } where
  dump a := c.dump a.1
  read v := (c.read v).bind fun a => if h : p a then some ⟨a, h⟩ else none
  read_dump a := by simp [c.read_dump, a.2]

/-- `T | None`; the type itself never dumps to `null`. -/
def option (c : Codec α) (hnull : ∀ a, (c.dump a).sortKeys ≠ .null) : Codec (Option α) where
  dump
    | none => .null
    | some a => c.dump a
  read
    | .null => some none
    | v => (c.read v).map some
  read_dump o := by
    cases o with
    | none => simp [Value.sortKeys]
    | some a => simp [hnull a, c.read_dump]

def list (c : Codec α) : Codec (List α) where
  dump xs := .arr (xs.map c.dump)
  read
    | .arr vs => vs.mapM c.read
    | _ => none
  read_dump xs := by
    simp only [sortKeys_arr, List.map_map]
    induction xs with
    | nil => rfl
    | cons x xs ih => simp [c.read_dump, ih]

end Codec

section
variable {α : Type}

/-- A field that has to be there. -/
def readField (v : Value) (key : String) (c : Codec α) : Option α :=
  match v with
  | .obj ms => (lookup ms key).bind c.read
  | _ => none

/-- A field that defaults to `None`. -/
def readOptional (v : Value) (key : String) (c : Codec (Option α)) : Option (Option α) :=
  match v with
  | .obj ms =>
    match lookup ms key with
    | none => some none
    | some w => c.read w
  | _ => none

theorem readField_sortKeys {ms : Members} (hd : (ms.map Prod.fst).Nodup) (key : String)
    (c : Codec α) {a : α} (h : lookup ms key = some (c.dump a)) :
    readField (Value.obj ms).sortKeys key c = some a := by
  obtain ⟨ms', heq, _⟩ := sortKeys_obj ms
  simp [readField, heq, lookup_sortKeys hd heq, h, c.read_dump]

theorem readOptional_sortKeys {ms : Members} (hd : (ms.map Prod.fst).Nodup) (key : String)
    (c : Codec (Option α)) {a : Option α} (h : lookup ms key = some (c.dump a)) :
    readOptional (Value.obj ms).sortKeys key c = some a := by
  obtain ⟨ms', heq, _⟩ := sortKeys_obj ms
  simp [readOptional, heq, lookup_sortKeys hd heq, h, c.read_dump]

theorem readOptional_missing {ms : Members} (hd : (ms.map Prod.fst).Nodup) (key : String)
    (c : Codec (Option α)) (h : lookup ms key = none) :
    readOptional (Value.obj ms).sortKeys key c = some none := by
  obtain ⟨ms', heq, _⟩ := sortKeys_obj ms
  simp [readOptional, heq, lookup_sortKeys hd heq, h]

/-! ## Fields with a default -/

/-- A field that need not be there. -/
def readOr (ms : Members) (key : String) (missing : Option α) (read : Value → Option α) : Option α :=
  match lookup ms key with
  | none => missing
  | some v => read v

/-- `extra="forbid"`. -/
def onlyKeys (keys : List String) (ms : Members) : Bool := ms.all fun m => keys.contains m.1

theorem readOr_sortKeys {ms sorted : Members} (hd : (ms.map Prod.fst).Nodup)
    (hsorted : (Value.obj ms).sortKeys = .obj sorted) (key : String) {v : Value}
    (h : lookup ms key = some v) (missing : Option α) (read : Value → Option α) :
    readOr sorted key missing read = read v.sortKeys := by
  rw [readOr, lookup_sortKeys hd hsorted, h]
  rfl

theorem readOr_dump {ms sorted : Members} (hd : (ms.map Prod.fst).Nodup)
    (hsorted : (Value.obj ms).sortKeys = .obj sorted) (key : String) (c : Codec α) {a : α}
    (h : lookup ms key = some (c.dump a)) (missing : Option α) :
    readOr sorted key missing c.read = some a := by
  rw [readOr_sortKeys hd hsorted key h, c.read_dump]

theorem onlyKeys_sortKeys {ms sorted : Members} {keys : List String}
    (hsorted : (Value.obj ms).sortKeys = .obj sorted) (h : ms.map Prod.fst = keys) :
    onlyKeys keys sorted = true := by
  obtain ⟨sorted', heq, hperm⟩ := sortKeys_obj ms
  obtain rfl := Value.obj.inj (hsorted.symm.trans heq)
  refine List.all_eq_true.mpr fun m hm => List.contains_iff_mem.mpr ?_
  obtain ⟨n, hn, rfl⟩ := List.mem_map.mp (hperm.mem_iff.mp hm)
  rw [← h]
  exact List.mem_map.mpr ⟨n, hn, rfl⟩

end
end SpineFormal.Json
