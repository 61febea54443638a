import Mathlib.Data.List.Sort
import Mathlib.Data.String.Basic
import SpineFormal.Json.Number

/-!
# JSON documents as Python values

A `dict` is an association list in insertion order. `sortKeys` is the effect of
`sort_keys=True`: every object at every depth is ordered by its keys, and
nothing else changes. Looking a key up does not see the order.
-/

namespace SpineFormal.Json

set_option autoImplicit false

inductive Value where
  | null
  | bool (b : Bool)
  | int (n : Int)
  | float (x : PyFloat)
  | str (s : String)
  | arr (xs : List Value)
  | obj (ms : List (String × Value))

abbrev Members := List (String × Value)

/-- Induction over documents: arrays and objects see every element. -/
theorem Value.inductionOn {P : Value → Prop} (null : P .null) (bool : ∀ b, P (.bool b))
    (int : ∀ n, P (.int n)) (float : ∀ x, P (.float x)) (str : ∀ s, P (.str s))
    (arr : ∀ xs, (∀ v ∈ xs, P v) → P (.arr xs))
    (obj : ∀ ms, (∀ m ∈ ms, P m.2) → P (.obj ms)) (v : Value) : P v := by
  apply @Value.rec P (fun xs => ∀ v ∈ xs, P v) (fun ms => ∀ m ∈ ms, P m.2) (fun m => P m.2)
  · exact null
  · exact bool
  · exact int
  · exact float
  · exact str
  · exact arr
  · exact obj
  · simp
  · intro v vs hv hvs w hw
    rcases List.mem_cons.mp hw with rfl | hw
    · exact hv
    · exact hvs w hw
  · simp
  · intro m ms hm hms w hw
    rcases List.mem_cons.mp hw with rfl | hw
    · exact hm
    · exact hms w hw
  · exact fun _ _ h => h

/-- `T | None` in a document. -/
def nullable (o : Option Value) : Value := o.getD .null

mutual
/-- No object of the document has a key twice: a Python `dict` all the way down. -/
def Value.Distinct : Value → Prop
  | .arr xs => DistinctElems xs
  | .obj ms => (ms.map Prod.fst).Nodup ∧ DistinctMembers ms
  | _ => True
def DistinctElems : List Value → Prop
  | [] => True
  | v :: vs => v.Distinct ∧ DistinctElems vs
def DistinctMembers : List (String × Value) → Prop
  | [] => True
  | (_, v) :: ms => v.Distinct ∧ DistinctMembers ms
end

theorem distinct_arr (xs : List Value) : (Value.arr xs).Distinct ↔ ∀ v ∈ xs, v.Distinct := by
  rw [Value.Distinct]
  induction xs with
  | nil => simp [DistinctElems]
  | cons v vs ih => simp [DistinctElems, ih]

theorem distinct_obj (ms : Members) :
    (Value.obj ms).Distinct ↔ (ms.map Prod.fst).Nodup ∧ ∀ m ∈ ms, m.2.Distinct := by
  have hmembers : DistinctMembers ms ↔ ∀ m ∈ ms, m.2.Distinct := by
    induction ms with
    | nil => simp [DistinctMembers]
    | cons m ms ih => simp [DistinctMembers, ih]
  rw [Value.Distinct, hmembers]

theorem distinct_empty : (Value.obj []).Distinct :=
  (distinct_obj []).mpr ⟨List.nodup_nil, fun _ hm => absurd hm List.not_mem_nil⟩

/-- The order in which `sorted(items)` puts two members with distinct keys. -/
def keyLe (a b : String × Value) : Prop := a.1 ≤ b.1

instance : DecidableRel keyLe := fun a b => inferInstanceAs (Decidable (a.1 ≤ b.1))

mutual
/-- The document that `json.dumps(..., sort_keys=True)` renders. -/
def Value.sortKeys : Value → Value
  | .arr xs => .arr (sortElems xs)
  | .obj ms => .obj ((sortMembers ms).insertionSort keyLe)
  | v => v
def sortElems : List Value → List Value
  | [] => []
  | v :: vs => v.sortKeys :: sortElems vs
def sortMembers : Members → Members
  | [] => []
  | (k, v) :: ms => (k, v.sortKeys) :: sortMembers ms
end

theorem sortElems_eq_map (xs : List Value) : sortElems xs = xs.map Value.sortKeys := by
  induction xs with
  | nil => simp [sortElems]
  | cons v vs ih => simp [sortElems, ih]

theorem sortMembers_eq_map (ms : Members) :
    sortMembers ms = ms.map fun m => (m.1, m.2.sortKeys) := by
  induction ms with
  | nil => simp [sortMembers]
  | cons m ms ih => simp [sortMembers, ih]

theorem sortKeys_arr (xs : List Value) :
    (Value.arr xs).sortKeys = .arr (xs.map Value.sortKeys) := by
  simp [Value.sortKeys, sortElems_eq_map]

theorem sortKeys_obj (ms : Members) :
    ∃ ms', (Value.obj ms).sortKeys = .obj ms' ∧
      ms'.Perm (ms.map fun m => (m.1, m.2.sortKeys)) := by
  refine ⟨_, by rw [Value.sortKeys], ?_⟩
  rw [sortMembers_eq_map]
  exact List.perm_insertionSort _ _

instance : Std.Total keyLe := ⟨fun a b => le_total a.1 b.1⟩

instance : IsTrans (String × Value) keyLe := ⟨fun _ _ _ hab hbc => le_trans hab hbc⟩

/-- With distinct keys the order of the members is lost in sorting. -/
theorem insertionSort_perm {ms ms' : Members} (hp : ms.Perm ms') (hd : (ms.map Prod.fst).Nodup) :
    ms.insertionSort keyLe = ms'.insertionSort keyLe := by
  have hperm : (ms.insertionSort keyLe).Perm (ms'.insertionSort keyLe) :=
    (List.perm_insertionSort _ _).trans (hp.trans (List.perm_insertionSort _ _).symm)
  refine hperm.eq_of_pairwise ?_ (List.pairwise_insertionSort keyLe _)
    (List.pairwise_insertionSort keyLe _)
  intro a b ha hb hab hba
  have hb' := hperm.mem_iff.mpr hb
  rw [List.mem_insertionSort] at ha hb'
  exact List.inj_on_of_nodup_map hd ha hb' (le_antisymm hab hba)

theorem sortKeys_perm {ms ms' : Members} (hp : ms.Perm ms') (hd : (ms.map Prod.fst).Nodup) :
    (Value.obj ms).sortKeys = (Value.obj ms').sortKeys := by
  have hkeys : ((sortMembers ms).map Prod.fst).Nodup := by
    simpa [sortMembers_eq_map, List.map_map, Function.comp_def] using hd
  have hmembers : (sortMembers ms).Perm (sortMembers ms') := by
    rw [sortMembers_eq_map, sortMembers_eq_map]
    exact hp.map _
  rw [Value.sortKeys, Value.sortKeys, insertionSort_perm hmembers hkeys]

/-- The value under a key; with distinct keys it does not depend on the order. -/
def lookup : Members → String → Option Value
  | [], _ => none
  | m :: ms, k => if m.1 = k then some m.2 else lookup ms k

theorem lookup_perm {ms ms' : Members} (h : ms.Perm ms') (hd : (ms.map Prod.fst).Nodup)
    (k : String) : lookup ms k = lookup ms' k := by
  induction h with
  | nil => rfl
  | cons m _ ih =>
    have hd' := (List.nodup_cons.mp hd).2
    simp only [lookup]
    rw [ih hd']
  | swap a b ms =>
    simp only [List.map_cons, List.nodup_cons, List.mem_cons, not_or] at hd
    simp only [lookup]
    by_cases ha : a.1 = k
    · have hb : ¬ b.1 = k := fun hb => hd.1.1 (hb.trans ha.symm)
      simp [ha, hb]
    · simp [ha]
  | trans hp _ ih1 ih2 =>
    rw [ih1 hd, ih2 ((hp.map Prod.fst).nodup_iff.mp hd)]

/-- `dict.get` on what `json.loads` returns: of equal keys the last one stays. -/
def dictGet (ms : Members) (k : String) : Option Value := lookup ms.reverse k

theorem dictGet_eq_lookup {ms : Members} (hd : (ms.map Prod.fst).Nodup) (k : String) :
    dictGet ms k = lookup ms k :=
  (lookup_perm (List.reverse_perm ms).symm hd k).symm

theorem lookup_append (ms ms' : Members) (k : String) :
    lookup (ms ++ ms') k = (lookup ms k).or (lookup ms' k) := by
  induction ms with
  | nil => rfl
  | cons m ms ih =>
    rw [List.cons_append, lookup, lookup, ih]
    split_ifs <;> rfl

theorem dictGet_append (ms ms' : Members) (k : String) :
    dictGet (ms ++ ms') k = (dictGet ms' k).or (dictGet ms k) := by
  rw [dictGet, List.reverse_append, lookup_append]
  rfl

theorem lookup_of_mem {ms : Members} (hd : (ms.map Prod.fst).Nodup) {m : String × Value}
    (hm : m ∈ ms) : lookup ms m.1 = some m.2 := by
  induction ms with
  | nil => cases hm
  | cons a ms ih =>
    obtain ⟨hfresh, hrest⟩ := List.nodup_cons.mp hd
    rw [lookup]
    rcases List.mem_cons.mp hm with rfl | hm
    · rw [if_pos rfl]
    · rw [if_neg, ih hrest hm]
      intro hkey
      exact hfresh (hkey ▸ List.mem_map_of_mem hm)

theorem lookup_eq_none_iff {ms : Members} {key : String} :
    lookup ms key = none ↔ key ∉ ms.map Prod.fst := by
  induction ms with
  | nil => simp [lookup]
  | cons m ms ih =>
    rw [lookup, List.map_cons, List.mem_cons, not_or, ← ih]
    by_cases hm : m.1 = key
    · rw [if_pos hm]
      exact iff_of_false (Option.some_ne_none _) fun h => h.1 hm.symm
    · rw [if_neg hm]
      exact ⟨fun h => ⟨Ne.symm hm, h⟩, And.right⟩

theorem dictGet_of_mem {ms : Members} (hd : (ms.map Prod.fst).Nodup) {m : String × Value}
    (hm : m ∈ ms) : dictGet ms m.1 = some m.2 :=
  (dictGet_eq_lookup hd m.1).trans (lookup_of_mem hd hm)

theorem dictGet_eq_none_iff {ms : Members} {key : String} :
    dictGet ms key = none ↔ key ∉ ms.map Prod.fst := by
  rw [dictGet, lookup_eq_none_iff, List.map_reverse, List.mem_reverse]

/-- `d[k] = v`. -/
def dictSet : Members → String → Value → Members
  | [], k, v => [(k, v)]
  | m :: ms, k, v => if m.1 = k then (k, v) :: ms else m :: dictSet ms k v

theorem mem_dictSet {ms : Members} {k : String} {v : Value} {m : String × Value}
    (h : m ∈ dictSet ms k v) : m ∈ ms ∨ m = (k, v) := by
  induction ms with
  | nil => exact Or.inr (List.mem_singleton.mp h)
  | cons a ms ih =>
    rw [dictSet] at h
    split at h
    · rcases List.mem_cons.mp h with rfl | h
      · exact Or.inr rfl
      · exact Or.inl (List.mem_cons_of_mem a h)
    · rcases List.mem_cons.mp h with rfl | h
      · exact Or.inl List.mem_cons_self
      · rcases ih h with h | h
        · exact Or.inl (List.mem_cons_of_mem a h)
        · exact Or.inr h

theorem lookup_dictSet_of_ne (ms : Members) {k k' : String} (h : k' ≠ k) (v : Value) :
    lookup (dictSet ms k v) k' = lookup ms k' := by
  induction ms with
  | nil => exact if_neg (Ne.symm h)
  | cons m ms ih =>
    rw [dictSet]
    split
    · rename_i hm
      rw [lookup, lookup, if_neg (Ne.symm h), if_neg (hm ▸ Ne.symm h)]
    · rw [lookup, lookup, ih]

/-- Members under other keys do not matter. -/
theorem lookup_filter (keep : String → Bool) {k : String} (hk : keep k = true) (ms : Members) :
    lookup (ms.filter fun m => keep m.1) k = lookup ms k := by
  induction ms with
  | nil => rfl
  | cons m ms ih =>
    rw [List.filter_cons]
    split
    · rw [lookup, lookup, ih]
    · rename_i hm
      have hne : m.1 ≠ k := fun h => hm (h ▸ hk)
      rw [ih, lookup, if_neg hne]

theorem Value.Distinct.dictSet {ms : Members} (h : (Value.obj ms).Distinct) (k : String) {v : Value}
    (hv : v.Distinct) : (Value.obj (dictSet ms k v)).Distinct := by
  rw [distinct_obj] at h ⊢
  refine ⟨?_, ?_⟩
  · have hkeys := h.1
    clear h
    induction ms with
    | nil => simp [Json.dictSet]
    | cons a ms ih =>
      obtain ⟨hfresh, hrest⟩ := List.nodup_cons.mp hkeys
      rw [Json.dictSet]
      split
      · rename_i hak
        exact List.nodup_cons.mpr ⟨hak ▸ hfresh, hrest⟩
      · rename_i hak
        refine List.nodup_cons.mpr ⟨?_, ih hrest⟩
        intro hmem
        obtain ⟨m, hm, hma⟩ := List.mem_map.mp hmem
        rcases mem_dictSet hm with hm | rfl
        · exact hfresh (List.mem_map.mpr ⟨m, hm, hma⟩)
        · exact hak hma.symm
  · intro m hm
    rcases mem_dictSet hm with hm | rfl
    · exact h.2 m hm
    · exact hv

theorem lookup_map (f : Value → Value) (ms : Members) (k : String) :
    lookup (ms.map fun m => (m.1, f m.2)) k = (lookup ms k).map f := by
  induction ms with
  | nil => rfl
  | cons m ms ih =>
    simp only [List.map_cons, lookup, ih]
    split <;> rfl

theorem lookup_sortKeys {ms ms' : Members} (hd : (ms.map Prod.fst).Nodup)
    (h : (Value.obj ms).sortKeys = .obj ms') (k : String) :
    lookup ms' k = (lookup ms k).map Value.sortKeys := by
  obtain ⟨ms'', heq, hp⟩ := sortKeys_obj ms
  obtain rfl : ms' = ms'' := by
    rw [h] at heq
    exact Value.obj.inj heq
  have hkeys : (ms.map fun m => (m.1, m.2.sortKeys)).map Prod.fst = ms.map Prod.fst := by
    simp [List.map_map, Function.comp_def]
  rw [lookup_perm hp ((hp.map Prod.fst).nodup_iff.mpr (hkeys ▸ hd)), lookup_map]

end SpineFormal.Json
