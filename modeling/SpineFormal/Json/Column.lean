import SpineFormal.Json.PsqlJson

/-!
# Documents that a column gives back as they were

A document is bound as a psql variable, cast to `jsonb` and read back with its keys in
order. It comes back as it was exactly when nothing in it has to be escaped, its numbers
are kept, and the keys of its objects stand in order already.
-/

namespace SpineFormal.Json

set_option autoImplicit false

/-- `text::jsonb`, as it is read back; `none` is an error of the server. -/
def castJsonb (text : List Char) : Option Value :=
  (loadsText text).bind fun v => if v.jsonbInput then some v.jsonb else none

/-- A character that is written as it is. -/
def Unescaped (c : Char) : Prop := Printable c ∧ c ≠ '"' ∧ c ≠ '\\'

instance : DecidablePred Unescaped := fun c => inferInstanceAs (Decidable (Printable c ∧ _))

def PlainText (s : String) : Prop := ∀ c ∈ s.toList, Unescaped c

instance : DecidablePred PlainText := fun s =>
  List.decidableBAll Unescaped s.toList

def PyFloat.Kept (x : PyFloat) : Prop :=
  x ≠ .nan ∧ x ≠ .inf false ∧ x ≠ .inf true ∧ x ≠ .zero true ∧ ¬ x.Exponential

mutual
/-- The document comes back as it was. -/
def Value.Stable : Value → Prop
  | .float x => x.Kept
  | .str s => PlainText s
  | .arr xs => StableElems xs
  | .obj ms => (ms.map Prod.fst).Pairwise (· < ·) ∧ StableMembers ms
  | _ => True
def StableElems : List Value → Prop
  | [] => True
  | v :: vs => v.Stable ∧ StableElems vs
def StableMembers : List (String × Value) → Prop
  | [] => True
  | (k, v) :: ms => (PlainText k ∧ v.Stable) ∧ StableMembers ms
end

theorem stable_arr (xs : List Value) : (Value.arr xs).Stable ↔ ∀ v ∈ xs, v.Stable := by
  rw [Value.Stable]
  induction xs with
  | nil => simp [StableElems]
  | cons v vs ih => simp [StableElems, ih]

theorem stable_obj (ms : Members) : (Value.obj ms).Stable ↔
    (ms.map Prod.fst).Pairwise (· < ·) ∧ ∀ m ∈ ms, PlainText m.1 ∧ m.2.Stable := by
  have hmembers : StableMembers ms ↔ ∀ m ∈ ms, PlainText m.1 ∧ m.2.Stable := by
    induction ms with
    | nil => simp [StableMembers]
    | cons m ms ih => simp [StableMembers, ih]
  rw [Value.Stable, hmembers]

/-! ## Backslashes -/

theorem backslash_mem_escapeChar (c : Char) : '\\' ∈ escapeChar c ↔ ¬ Unescaped c := by
  by_cases hc : Unescaped c
  · rw [escapeChar_self hc.1 hc.2.1 hc.2.2, List.mem_singleton]
    exact iff_of_false (Ne.symm hc.2.2) (not_not_intro hc)
  · refine iff_of_true ?_ hc
    unfold escapeChar
    split_ifs with hq hb _ _ _ _ _ hprint
    any_goals simp [unicodeEscape]
    exact absurd ⟨hprint, hq, hb⟩ hc

theorem backslash_notMem_encodeString (s : String) : '\\' ∉ encodeString s ↔ PlainText s := by
  have hchars : '\\' ∈ encodeString s ↔ ∃ c ∈ s.toList, '\\' ∈ escapeChar c := by
    simp [encodeString]
  rw [hchars, PlainText]
  simp only [backslash_mem_escapeChar, not_exists, not_and, not_not]

theorem notMem_joinWith {sep c : Char} (h : c ≠ sep) (xs : List (List Char)) :
    c ∉ joinWith sep xs ↔ ∀ x ∈ xs, c ∉ x := by
  induction xs with
  | nil => simp [joinWith]
  | cons x xs ih =>
    cases xs with
    | nil => simp [joinWith]
    | cons y ys =>
      rw [joinWith, List.forall_mem_cons, ← ih, List.mem_append, List.mem_cons]
      simp [h]

theorem backslash_notMem_arr (xs : List Value) :
    '\\' ∉ encode (.arr xs) ↔ ∀ v ∈ xs, '\\' ∉ encode v := by
  rw [encode_arr, ← List.forall_mem_map (f := encode) (P := ('\\' ∉ ·)),
    ← notMem_joinWith (show '\\' ≠ ',' by decide)]
  simp

theorem backslash_notMem_obj (ms : Members) :
    '\\' ∉ encode (.obj ms) ↔ ∀ m ∈ ms, PlainText m.1 ∧ '\\' ∉ encode m.2 := by
  have hmember : ∀ m : String × Value,
      '\\' ∉ encodeMember m ↔ PlainText m.1 ∧ '\\' ∉ encode m.2 := by
    intro m
    rw [← backslash_notMem_encodeString, encodeMember]
    simp
  simp only [← hmember]
  rw [encode_obj, ← List.forall_mem_map (f := encodeMember) (P := ('\\' ∉ ·)),
    ← notMem_joinWith (show '\\' ≠ ',' by decide)]
  simp

/-! ## What the server accepts -/

theorem jsonbInput_arr (xs : List Value) :
    (Value.arr xs).jsonbInput = true ↔ ∀ v ∈ xs, v.jsonbInput = true := by
  rw [Value.jsonbInput]
  induction xs with
  | nil => simp [jsonbInputElems]
  | cons v vs ih => simp [jsonbInputElems, ih]

theorem jsonbInput_obj (ms : Members) :
    (Value.obj ms).jsonbInput = true ↔ ∀ m ∈ ms, NoNul m.1 ∧ m.2.jsonbInput = true := by
  rw [Value.jsonbInput]
  induction ms with
  | nil => simp [jsonbInputMembers]
  | cons m ms ih => simp [jsonbInputMembers, ih, and_assoc]

theorem PlainText.noNul {s : String} (h : PlainText s) : NoNul s := by
  intro hmem
  exact absurd (h _ hmem).1 (by decide)

/-! ## Keys in order -/

theorem sortKeys_sortKeys (v : Value) : v.sortKeys.sortKeys = v.sortKeys := by
  induction v using Value.inductionOn with
  | arr xs ih =>
    rw [sortKeys_arr, sortKeys_arr, List.map_map]
    exact congrArg Value.arr (List.map_congr_left ih)
  | obj ms ih =>
    have hmap : sortMembers ((sortMembers ms).insertionSort keyLe) =
        (sortMembers ms).insertionSort keyLe := by
      rw [sortMembers_eq_map, ← List.map_id ((sortMembers ms).insertionSort keyLe), List.map_map]
      refine List.map_congr_left fun m hm => ?_
      rw [List.mem_insertionSort, sortMembers_eq_map] at hm
      obtain ⟨n, hn, rfl⟩ := List.mem_map.mp hm
      exact Prod.ext rfl (ih n hn)
    rw [Value.sortKeys, Value.sortKeys, hmap,
      List.Pairwise.insertionSort_eq (List.pairwise_insertionSort keyLe _)]
  | _ => rfl

theorem map_self_iff {α : Type} {f : α → α} {xs : List α} :
    xs.map f = xs ↔ ∀ x ∈ xs, f x = x := by
  have h := List.map_inj_left (l := xs) (f := f) (g := id)
  rwa [List.map_id] at h

theorem sortKeys_arr_self (xs : List Value) :
    (Value.arr xs).sortKeys = .arr xs ↔ ∀ v ∈ xs, v.sortKeys = v := by
  rw [sortKeys_arr, Value.arr.injEq]
  exact map_self_iff

theorem sortKeys_obj_self (ms : Members) :
    (Value.obj ms).sortKeys = .obj ms ↔ ms.Pairwise keyLe ∧ ∀ m ∈ ms, m.2.sortKeys = m.2 := by
  rw [Value.sortKeys, Value.obj.injEq, sortMembers_eq_map]
  constructor
  · intro h
    refine ⟨h ▸ List.pairwise_insertionSort keyLe _, fun m hm => ?_⟩
    rw [← h, List.mem_insertionSort] at hm
    obtain ⟨n, -, rfl⟩ := List.mem_map.mp hm
    exact sortKeys_sortKeys n.2
  · rintro ⟨hsorted, hmembers⟩
    have hmap : (ms.map fun m => (m.1, m.2.sortKeys)) = ms :=
      map_self_iff.mpr fun m hm => Prod.ext rfl (hmembers m hm)
    rw [hmap, hsorted.insertionSort_eq]

theorem keys_pairwise_lt (ms : Members) :
    (ms.map Prod.fst).Pairwise (· < ·) ↔ ms.Pairwise keyLe ∧ (ms.map Prod.fst).Nodup := by
  rw [List.Nodup, List.pairwise_map, List.pairwise_map, ← List.pairwise_and_iff]
  refine List.Pairwise.iff fun {m n} => ?_
  exact lt_iff_le_and_ne

/-! ## Coming back -/

theorem backslash_notMem_number {s : List Char} (h : ∀ c ∈ s, NumberChar c) : '\\' ∉ s :=
  fun hmem => (h _ hmem).2.2.1 rfl

theorem float_kept_iff (x : PyFloat) :
    x.Kept ↔ (Value.float x).jsonbInput = true ∧ (Value.float x).FloatsStable := by
  rw [PyFloat.Kept, Value.FloatsStable]
  cases x with
  | nan | zero | finite => simp [Value.jsonbInput]
  | inf neg => cases neg <;> simp [Value.jsonbInput]

theorem stable_iff (v : Value) : v.Stable ↔
    '\\' ∉ encode v ∧ v.jsonbInput = true ∧ v.Distinct ∧ v.FloatsStable ∧ v.sortKeys = v := by
  induction v using Value.inductionOn with
  | null => exact iff_of_true trivial ⟨by decide, rfl, trivial, trivial, rfl⟩
  | bool b => cases b <;> exact iff_of_true trivial ⟨by decide, rfl, trivial, trivial, rfl⟩
  | int n =>
    refine iff_of_true trivial ⟨?_, rfl, trivial, trivial, rfl⟩
    rw [encode]
    exact backslash_notMem_number (numberChar_decimal n)
  | float x =>
    have hplain : '\\' ∉ encode (.float x) := by
      rw [encode]
      exact backslash_notMem_number (numberChar_floatstr x)
    rw [Value.Stable, float_kept_iff]
    exact ⟨fun h => ⟨hplain, h.1, trivial, h.2, rfl⟩, fun h => ⟨h.2.1, h.2.2.2.1⟩⟩
  | str s =>
    rw [Value.Stable, encode, backslash_notMem_encodeString]
    exact ⟨fun h => ⟨h, decide_eq_true h.noNul, trivial, trivial, rfl⟩, fun h => h.1⟩
  | arr xs ih =>
    rw [stable_arr, backslash_notMem_arr, jsonbInput_arr, distinct_arr, floatsStable_arr,
      sortKeys_arr_self]
    simp only [← forall₂_and]
    exact forall₂_congr ih
  | obj ms ih =>
    rw [stable_obj, backslash_notMem_obj, jsonbInput_obj, distinct_obj, floatsStable_obj,
      sortKeys_obj_self, keys_pairwise_lt]
    constructor
    · rintro ⟨⟨hsorted, hnodup⟩, hmembers⟩
      have hparts := fun m hm => (ih m hm).mp (hmembers m hm).2
      exact ⟨fun m hm => ⟨(hmembers m hm).1, (hparts m hm).1⟩,
        fun m hm => ⟨(hmembers m hm).1.noNul, (hparts m hm).2.1⟩,
        ⟨hnodup, fun m hm => (hparts m hm).2.2.1⟩, fun m hm => (hparts m hm).2.2.2.1,
        hsorted, fun m hm => (hparts m hm).2.2.2.2⟩
    · rintro ⟨htext, hinput, ⟨hnodup, hdistinct⟩, hfloats, hsorted, hkeys⟩
      refine ⟨⟨hsorted, hnodup⟩, fun m hm => ⟨(htext m hm).1, (ih m hm).mpr ?_⟩⟩
      exact ⟨(htext m hm).2, (hinput m hm).2, hdistinct m hm, hfloats m hm, hkeys m hm⟩

theorem castJsonb_weight {text : List Char} (htext : ∀ c ∈ text, c.toNat ≤ 0x7e) {u : Value}
    (h : castJsonb text = some u) : u.weight ≤ weight text := by
  obtain ⟨v, hv, hu⟩ := Option.bind_eq_some_iff.mp h
  split at hu
  · obtain rfl := Option.some.inj hu
    obtain ⟨w, hw, rfl⟩ := Option.map_eq_some_iff.mp hv
    exact (jsonb_weight _).trans ((dicts_weight w).trans (loads_weight htext hw))
  · cases hu

theorem castJsonb_distinct {text : List Char} {u : Value} (h : castJsonb text = some u) :
    u.Distinct := by
  obtain ⟨v, hv, hu⟩ := Option.bind_eq_some_iff.mp h
  split at hu
  · obtain rfl := Option.some.inj hu
    obtain ⟨w, -, rfl⟩ := Option.map_eq_some_iff.mp hv
    exact jsonb_distinct (dicts_distinct w)
  · cases hu

theorem mem_dictOf {ms : Members} {m : String × Value} (h : m ∈ dictOf ms) : m ∈ ms := by
  induction ms using List.reverseRecOn with
  | nil => exact h
  | append_singleton ms n ih =>
    rw [dictOf, List.foldl_append, ← dictOf, List.foldl_cons, List.foldl_nil] at h
    rcases mem_dictSet h with h | rfl
    · exact List.mem_append_left _ (ih h)
    · exact List.mem_append_right _ (List.mem_singleton_self _)

/-- Cast as it was written, an object has no key it did not have. -/
theorem castJsonb_keys {ns ms : Members} (h : castJsonb (encode (.obj ns)) = some (.obj ms))
    {k : String} (hk : k ∈ ms.map Prod.fst) : k ∈ ns.map Prod.fst := by
  rw [castJsonb, loadsText_encode, Option.bind_some, Value.dicts, dictsMembers_eq_map] at h
  split at h
  · obtain ⟨ms', heq, hp⟩ := jsonb_obj (dictOf (ns.map fun m => (m.1, m.2.dicts)))
    rw [heq, Option.some.injEq, Value.obj.injEq] at h
    obtain rfl := h
    obtain ⟨m, hm, rfl⟩ := List.mem_map.mp hk
    obtain ⟨n, hn, rfl⟩ := List.mem_map.mp (hp.subset hm)
    obtain ⟨o, ho, rfl⟩ := List.mem_map.mp (mem_dictOf hn)
    exact List.mem_map.mpr ⟨o, ho, rfl⟩
  · cases h

/-- Cast as it was written, a document comes back up to the order of keys exactly when no
key is doubled and every float is kept. -/
theorem castJsonb_encode_iff (v : Value) :
    (∃ u, castJsonb (encode v) = some u ∧ u.sortKeys = v) ↔
      v.jsonbInput = true ∧ v.Distinct ∧ v.FloatsStable ∧ v.sortKeys = v := by
  rw [castJsonb, loadsText_encode, Option.bind_some]
  constructor
  · rintro ⟨u, hu, hsort⟩
    split at hu
    · rename_i hinput
      obtain rfl := Option.some.inj hu
      have hdistinct : v.Distinct := hsort ▸ distinct_sortKeys (jsonb_distinct (dicts_distinct v))
      have hself : v.sortKeys = v := by rw [← hsort, sortKeys_sortKeys]
      rw [dicts_of_distinct hdistinct] at hinput hsort
      exact ⟨hinput, hdistinct, (jsonb_sortKeys_iff hdistinct).mp (hsort.trans hself.symm), hself⟩
    · cases hu
  · rintro ⟨hinput, hdistinct, hfloats, hself⟩
    rw [dicts_of_distinct hdistinct, if_pos hinput]
    exact ⟨v.jsonb, rfl, ((jsonb_sortKeys_iff hdistinct).mpr hfloats).trans hself⟩

/-- A document with a backslash has lost weight when it is cast. -/
theorem castJsonb_unslash_lt {v u : Value} (hslash : '\\' ∈ encode v)
    (h : castJsonb (unslash (encode v)) = some u) : u.weight < v.weight := by
  have hlow : ∀ c ∈ encode v, c.toNat ≤ 0x7e := fun c hc => (printable_encode v c hc).2
  have hle := castJsonb_weight (ascii_unslash (escapeText_encode v) hlow) h
  exact Nat.lt_of_le_of_lt hle ((weight_unslash (escapeText_encode v)).2 hslash)

/-- Bound as a psql variable and cast, a stable document comes back. -/
theorem castJsonb_of_stable {v : Value} (h : v.Stable) :
    ∃ u, castJsonb (unslash (encode v)) = some u ∧ u.sortKeys = v := by
  obtain ⟨hslash, hrest⟩ := (stable_iff v).mp h
  rw [unslash_of_notMem hslash]
  exact (castJsonb_encode_iff v).mpr hrest

theorem stable_of_castJsonb {v u : Value} (hslash : '\\' ∉ encode v)
    (h : castJsonb (unslash (encode v)) = some u) (hsort : u.sortKeys = v) : v.Stable := by
  rw [unslash_of_notMem hslash] at h
  exact (stable_iff v).mpr ⟨hslash, (castJsonb_encode_iff v).mp ⟨u, h, hsort⟩⟩

end SpineFormal.Json
