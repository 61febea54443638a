import Mathlib.Data.List.Perm.Basic
import SpineFormal.Py.Stable

/-!
# Documents as Python values

What `json.loads` gives for a document, and what is dumped of a `dict` with texts as keys:
the order in which its items came is lost.
-/

namespace SpineFormal.Py

open Json (Value Members mapM_eq_some_iff)
set_option autoImplicit false

mutual
def ofJson : Value → PyValue
  | .null => .none
  | .bool b => .atom (.bool b)
  | .int n => .atom (.int n)
  | .float x => .atom (.float x)
  | .str s => .text s
  | .arr xs => .list (ofJsonElems xs)
  | .obj ms => .dict (ofJsonMembers ms)
def ofJsonElems : List Value → List PyValue
  | [] => []
  | v :: vs => ofJson v :: ofJsonElems vs
def ofJsonMembers : List (String × Value) → Dict
  | [] => []
  | (k, v) :: ms => (.str k, ofJson v) :: ofJsonMembers ms
end

theorem ofJsonElems_eq_map (xs : List Value) : ofJsonElems xs = xs.map ofJson := by
  induction xs with
  | nil => simp [ofJsonElems]
  | cons v vs ih => simp [ofJsonElems, ih]

theorem ofJsonMembers_eq_map (ms : Members) :
    ofJsonMembers ms = ms.map fun m => (.str m.1, ofJson m.2) := by
  induction ms with
  | nil => simp [ofJsonMembers]
  | cons m ms ih => simp [ofJsonMembers, ih]

theorem rebuild_ofJson (copySet : List Atom → List Atom) (v : Value) :
    rebuild copySet (ofJson v) = ofJson v := by
  induction v using Value.inductionOn with
  | arr xs ih =>
    rw [ofJson, ofJsonElems_eq_map, rebuild, rebuildElems_eq_map, List.map_map]
    exact congrArg PyValue.list (List.map_congr_left ih)
  | obj ms ih =>
    rw [ofJson, ofJsonMembers_eq_map, rebuild, rebuildItems_eq_map, List.map_map]
    exact congrArg PyValue.dict (List.map_congr_left fun m hm => Prod.ext rfl (ih m hm))
  | _ => rfl

theorem get?_ofJsonMembers (ms : Members) (k : String) :
    Dict.get? (ofJsonMembers ms) (.str k) = (Json.lookup ms k).map ofJson := by
  induction ms with
  | nil => rfl
  | cons m ms ih =>
    rw [ofJsonMembers, Dict.get?, Json.lookup, same_str, ih]
    by_cases hk : m.1 = k
    · rw [if_pos (decide_eq_true hk), if_pos hk, Option.map_some]
    · rw [if_neg (by simpa using hk), if_neg hk]

/-! ## Dictionaries with texts as keys -/

def StringKeys (d : Dict) : Prop := ∀ m ∈ d, ∃ s, m.1 = .str s

section
variable {reprOf : PyValue → String}

theorem toJsonItems_perm {d e : Dict} (h : d.Perm e) :
    (toJsonItems reprOf d = none ∧ toJsonItems reprOf e = none) ∨
      ∃ js js', toJsonItems reprOf d = some js ∧ toJsonItems reprOf e = some js' ∧ js.Perm js' := by
  induction h with
  | nil => exact Or.inr ⟨[], [], rfl, rfl, .nil⟩
  | cons m _ ih =>
    cases hm : toJson reprOf m.2 with
    | none => exact Or.inl ⟨by simp [toJsonItems, hm], by simp [toJsonItems, hm]⟩
    | some j =>
      rcases ih with ⟨hd, he⟩ | ⟨js, js', hd, he, hp⟩
      · exact Or.inl ⟨by simp [toJsonItems, hm, hd], by simp [toJsonItems, hm, he]⟩
      · exact Or.inr ⟨(m.1, j) :: js, (m.1, j) :: js', by simp [toJsonItems, hm, hd],
          by simp [toJsonItems, hm, he], hp.cons _⟩
  | swap m n d =>
    cases hm : toJson reprOf m.2 with
    | none =>
      cases hn : toJson reprOf n.2 <;>
        exact Or.inl ⟨by simp [toJsonItems, hm, hn], by simp [toJsonItems, hm, hn]⟩
    | some j =>
      cases hn : toJson reprOf n.2 with
      | none => exact Or.inl ⟨by simp [toJsonItems, hm, hn], by simp [toJsonItems, hm, hn]⟩
      | some i =>
        cases hd : toJsonItems reprOf d with
        | none => exact Or.inl ⟨by simp [toJsonItems, hm, hn, hd], by simp [toJsonItems, hm, hn, hd]⟩
        | some js =>
          exact Or.inr ⟨(n.1, i) :: (m.1, j) :: js, (m.1, j) :: (n.1, i) :: js,
            by simp [toJsonItems, hm, hn, hd], by simp [toJsonItems, hm, hn, hd], .swap _ _ _⟩
  | trans _ _ ih₁ ih₂ =>
    rcases ih₁ with ⟨hd, he⟩ | ⟨js, js', hd, he, hp⟩
    · rcases ih₂ with ⟨-, hf⟩ | ⟨_, _, he', -⟩
      · exact Or.inl ⟨hd, hf⟩
      · rw [he] at he'
        cases he'
    · rcases ih₂ with ⟨he', -⟩ | ⟨is, is', he', hf, hp'⟩
      · rw [he] at he'
        cases he'
      · obtain rfl : js' = is := Option.some.inj (he.symm.trans he')
        exact Or.inr ⟨js, is', hd, hf, hp.trans hp'⟩

/-- Members under texts. -/
def textItems (ms : Members) : List (Atom × Value) := ms.map fun m => (.str m.1, m.2)

theorem sortItems_textItems (ms : Members) :
    sortItems (textItems ms) = some (ms.insertionSort Json.keyLe) := by
  have hcomparable : comparable ((textItems ms).map Prod.fst) = true := by
    simp only [comparable, Bool.or_eq_true, List.all_eq_true]
    refine Or.inl (Or.inr fun k hk => ?_)
    obtain ⟨m, hm, rfl⟩ := List.mem_map.mp hk
    obtain ⟨n, -, rfl⟩ := List.mem_map.mp hm
    rfl
  have hsort := List.map_insertionSort Json.keyLe (fun m m' : Atom × Value => keyLe m.1 m'.1)
    (fun m : String × Value => (Atom.str m.1, m.2)) ms
    (fun m _ m' _ => (decide_eq_true_iff (p := m.1 ≤ m'.1)).symm)
  rw [sortItems, if_pos hcomparable, textItems, ← hsort, mapM_eq_some_iff, List.map_map]
  exact List.map_congr_left fun m _ => rfl

theorem exists_textItems {js : List (Atom × Value)} (h : ∀ m ∈ js, ∃ s, m.1 = .str s) :
    ∃ ms, js = textItems ms := by
  induction js with
  | nil => exact ⟨[], rfl⟩
  | cons m js ih =>
    obtain ⟨⟨s, hs⟩, hjs⟩ := List.forall_mem_cons.mp h
    obtain ⟨ms, rfl⟩ := ih hjs
    exact ⟨(s, m.2) :: ms, by rw [← Prod.mk.eta (p := m), hs]; rfl⟩

theorem textItems_injective : Function.Injective fun m : String × Value => (Atom.str m.1, m.2) := by
  intro m n h
  obtain ⟨hk, hv⟩ := Prod.mk.inj h
  exact Prod.ext (Atom.str.inj hk) hv

theorem sortItems_perm {js js' : List (Atom × Value)} (hp : js.Perm js')
    (hs : ∀ m ∈ js, ∃ s, m.1 = .str s) (hd : (js.map Prod.fst).Nodup) :
    sortItems js = sortItems js' := by
  obtain ⟨ms, rfl⟩ := exists_textItems hs
  obtain ⟨ms', rfl⟩ := exists_textItems fun m hm => hs m (hp.mem_iff.mpr hm)
  have hperm : ms.Perm ms' := (List.map_perm_map_iff textItems_injective).mp hp
  have hkeys : (ms.map Prod.fst).Nodup := by
    rw [textItems, List.map_map] at hd
    exact List.Nodup.of_map Atom.str (by rwa [List.map_map])
  rw [sortItems_textItems, sortItems_textItems, Json.insertionSort_perm hperm hkeys]

theorem lookup_textItems {d : Dict} {ms : Members}
    (h : toJsonItems reprOf d = some (textItems ms)) (key : String) :
    Json.lookup ms key = (Dict.get? d (.str key)).bind (toJson reprOf) := by
  induction d generalizing ms with
  | nil =>
    obtain rfl : ms = [] := List.map_eq_nil_iff.mp (Option.some.inj h).symm
    rfl
  | cons i d ih =>
    obtain ⟨j, js, hj, hjs, heq⟩ := (toJsonItems_cons i.1 i.2 d _).mp h
    cases ms with
    | nil => cases heq
    | cons m ms =>
      obtain ⟨hm, rfl⟩ := List.cons.inj heq
      obtain ⟨hkey, rfl⟩ := Prod.mk.inj hm
      have hsame : i.1.same (.str key) = true ↔ m.1 = key := by
        rw [same_str_iff, ← hkey, Atom.str.injEq]
      rw [Json.lookup, Dict.get?, ih hjs]
      by_cases hk : m.1 = key
      · rw [if_pos hk, if_pos (hsame.mpr hk), Option.bind_some, hj]
      · rw [if_neg hk, if_neg fun h => hk (hsame.mp h)]

/-- What stands in a dump under a text is the dump of what stood there. -/
theorem lookup_toJson {d : Dict} (hs : StringKeys d) (hd : (d.map Prod.fst).Nodup) {ns : Members}
    (h : toJson reprOf (.dict d) = some (.obj ns)) (key : String) :
    Json.lookup ns key = (Dict.get? d (.str key)).bind (toJson reprOf) := by
  obtain ⟨js, ns', hjs, hns, heq⟩ := (toJson_dict_iff _ _).mp h
  obtain rfl : ns = ns' := Value.obj.inj heq
  have hkeys := toJsonItems_keys hjs
  have htexts : ∀ m ∈ js, ∃ s, m.1 = .str s := by
    intro m hm
    have hmem : m.1 ∈ d.map Prod.fst := hkeys ▸ List.mem_map_of_mem hm
    obtain ⟨i, hi, heq⟩ := List.mem_map.mp hmem
    exact heq ▸ hs i hi
  obtain ⟨ms, rfl⟩ := exists_textItems htexts
  rw [sortItems_textItems] at hns
  obtain rfl := Option.some.inj hns
  have hnodup : (ms.map Prod.fst).Nodup := by
    rw [← hkeys, textItems, List.map_map] at hd
    exact List.Nodup.of_map Atom.str (by rwa [List.map_map])
  have hperm := List.perm_insertionSort Json.keyLe ms
  rw [Json.lookup_perm hperm ((hperm.map Prod.fst).nodup_iff.mpr hnodup), lookup_textItems hjs]

/-- What was read from a document is dumped as the document with its keys in order. -/
theorem toJson_ofJson (v : Value) : toJson reprOf (ofJson v) = some v.sortKeys := by
  induction v using Value.inductionOn with
  | arr xs ih =>
    rw [ofJson, ofJsonElems_eq_map, toJson_list_iff, Json.sortKeys_arr]
    refine ⟨xs.map Value.sortKeys, ?_, rfl⟩
    rw [List.map_map, List.map_map]
    exact List.map_congr_left ih
  | obj ms ih =>
    have hitems : toJsonItems reprOf (ofJsonMembers ms) = some (textItems (Json.sortMembers ms)) := by
      rw [toJsonItems_eq_mapM, mapM_eq_some_iff, ofJsonMembers_eq_map, Json.sortMembers_eq_map,
        textItems, List.map_map, List.map_map, List.map_map]
      refine List.map_congr_left fun m hm => ?_
      simp only [Function.comp_apply, ih m hm, Option.map_some]
    rw [ofJson, toJson_dict_iff, Value.sortKeys]
    exact ⟨_, _, hitems, sortItems_textItems _, rfl⟩
  | _ => rfl

/-- The items of a dictionary with texts as keys may stand in any order. -/
theorem toJson_dict_perm {d e : Dict} (hp : d.Perm e) (hs : StringKeys d)
    (hd : (d.map Prod.fst).Nodup) : toJson reprOf (.dict d) = toJson reprOf (.dict e) := by
  rw [toJson, toJson]
  rcases @toJsonItems_perm reprOf _ _ hp with ⟨hd', he'⟩ | ⟨js, js', hjs, hjs', hperm⟩
  · rw [hd', he']
  · rw [hjs, hjs', Option.bind_some, Option.bind_some, sortItems_perm hperm]
    · intro m hm
      obtain ⟨v, hv, -⟩ := (mem_toJsonItems hjs).mp hm
      exact hs _ hv
    · rw [toJsonItems_keys hjs]
      exact hd

end

end SpineFormal.Py
