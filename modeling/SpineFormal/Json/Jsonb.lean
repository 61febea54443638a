import SpineFormal.Json.Value

/-!
# Documents in a JSONB column

What PostgreSQL gives back for a stored document. Numbers are kept as `numeric`:
there is no negative zero, and a number whose text has a positive exponent and no
fraction left comes back as an integer. Objects come back with their keys in
another order, which sorting the keys undoes.
-/

namespace SpineFormal.Json

set_option autoImplicit false

/-- A float that `repr` writes with a positive exponent and that has no fraction. -/
def PyFloat.Exponential : PyFloat → Prop
  | .finite _ c e _ => 0 ≤ e ∧ 16 < (Nat.toDigits 10 c).length + e
  | _ => False

instance : DecidablePred PyFloat.Exponential
  | .nan => inferInstanceAs (Decidable False)
  | .inf _ => inferInstanceAs (Decidable False)
  | .zero _ => inferInstanceAs (Decidable False)
  | .finite _ c e _ =>
    inferInstanceAs (Decidable (0 ≤ e ∧ 16 < ((Nat.toDigits 10 c).length : Int) + e))

/-- The number that is read back. -/
def PyFloat.jsonb (x : PyFloat) : Value :=
  match x with
  | .zero _ => .float (.zero false)
  | .finite neg c e _ =>
    if x.Exponential then .int ((if neg then -1 else 1) * (c * 10 ^ e.toNat)) else .float x
  | _ => .float x

/-- Shorter keys first, then by their bytes. -/
def jsonbKeyLe (a b : String × Value) : Prop :=
  a.1.utf8ByteSize < b.1.utf8ByteSize ∨ (a.1.utf8ByteSize = b.1.utf8ByteSize ∧ a.1 ≤ b.1)

instance : DecidableRel jsonbKeyLe := fun a b =>
  inferInstanceAs (Decidable (_ ∨ (_ ∧ a.1 ≤ b.1)))

mutual
/-- The document that is read back; keys are taken to be distinct. -/
def Value.jsonb : Value → Value
  | .float x => x.jsonb
  | .arr xs => .arr (jsonbElems xs)
  | .obj ms => .obj ((jsonbMembers ms).insertionSort jsonbKeyLe)
  | v => v
def jsonbElems : List Value → List Value
  | [] => []
  | v :: vs => v.jsonb :: jsonbElems vs
def jsonbMembers : List (String × Value) → Members
  | [] => []
  | (k, v) :: ms => (k, v.jsonb) :: jsonbMembers ms
end

def NoNul (s : String) : Prop := '\x00' ∉ s.toList

instance (s : String) : Decidable (NoNul s) := inferInstanceAs (Decidable ('\x00' ∉ s.toList))

mutual
/-- The input conversion accepts the document: no null characters, no `NaN`, no `Infinity`. -/
def Value.jsonbInput : Value → Bool
  | .float .nan => false
  | .float (.inf _) => false
  | .str s => NoNul s
  | .arr xs => jsonbInputElems xs
  | .obj ms => jsonbInputMembers ms
  | _ => true
def jsonbInputElems : List Value → Bool
  | [] => true
  | v :: vs => v.jsonbInput && jsonbInputElems vs
def jsonbInputMembers : List (String × Value) → Bool
  | [] => true
  | (k, v) :: ms => decide (NoNul k) && v.jsonbInput && jsonbInputMembers ms
end

mutual
/-- Every float of the document comes back as it was. -/
def Value.FloatsStable : Value → Prop
  | .float x => x ≠ .zero true ∧ ¬ x.Exponential
  | .arr xs => FloatsStableElems xs
  | .obj ms => FloatsStableMembers ms
  | _ => True
def FloatsStableElems : List Value → Prop
  | [] => True
  | v :: vs => v.FloatsStable ∧ FloatsStableElems vs
def FloatsStableMembers : List (String × Value) → Prop
  | [] => True
  | (_, v) :: ms => v.FloatsStable ∧ FloatsStableMembers ms
end

theorem jsonb_arr (xs : List Value) : (Value.arr xs).jsonb = .arr (xs.map Value.jsonb) := by
  rw [Value.jsonb]
  congr 1
  induction xs with
  | nil => rfl
  | cons v vs ih => rw [jsonbElems, ih, List.map_cons]

/-- The members of a stored object are the stored members, rearranged. -/
theorem jsonb_obj (ms : Members) :
    ∃ ms', (Value.obj ms).jsonb = .obj ms' ∧ ms'.Perm (ms.map fun m => (m.1, m.2.jsonb)) := by
  have hmap : jsonbMembers ms = ms.map fun m => (m.1, m.2.jsonb) := by
    induction ms with
    | nil => rfl
    | cons m ms ih => rw [jsonbMembers, ih, List.map_cons]
  refine ⟨_, by rw [Value.jsonb], ?_⟩
  rw [hmap]
  exact List.perm_insertionSort _ _

theorem floatsStable_arr (xs : List Value) :
    (Value.arr xs).FloatsStable ↔ ∀ v ∈ xs, v.FloatsStable := by
  rw [Value.FloatsStable]
  induction xs with
  | nil => simp [FloatsStableElems]
  | cons v vs ih => simp [FloatsStableElems, ih]

theorem floatsStable_obj (ms : Members) :
    (Value.obj ms).FloatsStable ↔ ∀ m ∈ ms, m.2.FloatsStable := by
  rw [Value.FloatsStable]
  induction ms with
  | nil => simp [FloatsStableMembers]
  | cons m ms ih => simp [FloatsStableMembers, ih]

theorem jsonb_float_iff (x : PyFloat) :
    x.jsonb = .float x ↔ x ≠ .zero true ∧ ¬ x.Exponential := by
  cases x with
  | nan | inf => simp [PyFloat.jsonb, PyFloat.Exponential]
  | zero neg => cases neg <;> simp [PyFloat.jsonb, PyFloat.Exponential]
  | finite neg c e h =>
    rw [PyFloat.jsonb]
    split <;> simp_all

theorem sortKeys_scalar_jsonb (x : PyFloat) : x.jsonb.sortKeys = x.jsonb := by
  cases x with
  | nan | inf | zero => rfl
  | finite neg c e h =>
    rw [PyFloat.jsonb]
    split <;> rfl

theorem jsonb_distinct {v : Value} (h : v.Distinct) : v.jsonb.Distinct := by
  induction v using Value.inductionOn with
  | null | bool | int | str => exact h
  | float x =>
    cases x with
    | nan | inf | zero => trivial
    | finite neg c e hc =>
      rw [Value.jsonb, PyFloat.jsonb]
      split <;> trivial
  | arr xs ih =>
    rw [distinct_arr] at h
    rw [jsonb_arr, distinct_arr]
    intro v hv
    obtain ⟨w, hw, rfl⟩ := List.mem_map.mp hv
    exact ih w hw (h w hw)
  | obj ms ih =>
    rw [distinct_obj] at h
    obtain ⟨ms', heq, hp⟩ := jsonb_obj ms
    have hkeys : (ms.map fun m => (m.1, m.2.jsonb)).map Prod.fst = ms.map Prod.fst := by
      simp [List.map_map, Function.comp_def]
    rw [heq, distinct_obj]
    refine ⟨(hp.map Prod.fst).nodup_iff.mpr (hkeys ▸ h.1), ?_⟩
    intro m hm
    obtain ⟨w, hw, rfl⟩ := List.mem_map.mp (hp.subset hm)
    exact ih w hw (h.2 w hw)

/-- Up to the order of keys a document survives storage exactly when its floats do. -/
theorem jsonb_sortKeys_iff {v : Value} (h : v.Distinct) :
    v.jsonb.sortKeys = v.sortKeys ↔ v.FloatsStable := by
  induction v using Value.inductionOn with
  | null | bool | int | str => simp [Value.jsonb, Value.FloatsStable]
  | float x =>
    rw [Value.jsonb, sortKeys_scalar_jsonb, Value.FloatsStable, ← jsonb_float_iff]
    rfl
  | arr xs ih =>
    rw [distinct_arr] at h
    rw [jsonb_arr, sortKeys_arr, sortKeys_arr, floatsStable_arr, Value.arr.injEq, List.map_map]
    constructor
    · intro heq v hv
      exact (ih v hv (h v hv)).mp (List.map_inj_left.mp heq v hv)
    · intro hstable
      exact List.map_inj_left.mpr fun v hv => (ih v hv (h v hv)).mpr (hstable v hv)
  | obj ms ih =>
    rw [distinct_obj] at h
    obtain ⟨ms', heq, hp⟩ := jsonb_obj ms
    have hkeys : (ms.map fun m => (m.1, m.2.jsonb)).map Prod.fst = ms.map Prod.fst := by
      simp [List.map_map, Function.comp_def]
    have hd : ((ms.map fun m => (m.1, m.2.jsonb)).map Prod.fst).Nodup := hkeys ▸ h.1
    rw [heq, ← sortKeys_perm hp.symm hd, floatsStable_obj]
    constructor
    · intro hsort m hm
      refine (ih m hm (h.2 m hm)).mp ?_
      obtain ⟨ns, hns, _⟩ := sortKeys_obj ms
      have hleft := lookup_sortKeys hd (hsort.trans hns) m.1
      have hright := lookup_sortKeys h.1 hns m.1
      rw [lookup_map, lookup_of_mem h.1 hm] at hleft
      rw [lookup_of_mem h.1 hm, hleft] at hright
      simpa using hright
    · intro hstable
      have hmap : (ms.map fun m => (m.1, m.2.jsonb)).map (fun m => (m.1, m.2.sortKeys)) =
          ms.map fun m => (m.1, m.2.sortKeys) := by
        rw [List.map_map]
        refine List.map_inj_left.mpr fun m hm => ?_
        simp only [Function.comp_apply, (ih m hm (h.2 m hm)).mpr (hstable m hm)]
      rw [Value.sortKeys, Value.sortKeys, sortMembers_eq_map, sortMembers_eq_map, hmap]

end SpineFormal.Json
