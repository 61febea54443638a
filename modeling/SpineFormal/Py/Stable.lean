import SpineFormal.Json.Column
import SpineFormal.Py.Dumps

/-!
# Python values that are hashed alike after they were stored

A value is copied, where a `set` may come to be iterated in another order; it is dumped,
stored as a document and read back, where every key is a text. It is dumped alike each
time exactly when its sets print alike, its texts need no escape, its floats are kept and
the keys of its dictionaries are in the order of their texts.
-/

namespace SpineFormal.Py

open Json (PyFloat Value Members PlainText mapM_eq_some_iff)
set_option autoImplicit false

/-! ## Names of keys -/

/-- The keys in Python's order, as texts. -/
def sortedNames (keys : List Atom) : Option (List String) :=
  if comparable keys then (keys.insertionSort fun a b => keyLe a b).mapM keyText else none

theorem sortItems_names {js : List (Atom × Value)} {ns : Members} (h : sortItems js = some ns) :
    sortedNames (js.map Prod.fst) = some (ns.map Prod.fst) := by
  rw [sortItems] at h
  rw [sortedNames]
  split at h
  · rename_i hcomparable
    rw [if_pos hcomparable, mapM_eq_some_iff]
    rw [mapM_eq_some_iff] at h
    have hsort := List.map_insertionSort (fun m m' : Atom × Value => keyLe m.1 m'.1)
      (fun a b => keyLe a b) Prod.fst js (fun _ _ _ _ => Iff.rfl)
    have hnames := congrArg (List.map (Option.map Prod.fst)) h
    rw [← hsort, List.map_map]
    rw [List.map_map, List.map_map] at hnames
    rw [List.map_map]
    refine Eq.trans ?_ hnames
    refine List.map_congr_left fun m _ => ?_
    simp [namedMember, Function.comp_def]
  · cases h

theorem mem_sortItems {js : List (Atom × Value)} {ns : Members} (h : sortItems js = some ns)
    {name : String} {v : Value} :
    (name, v) ∈ ns ↔ ∃ k, (k, v) ∈ js ∧ keyText k = some name := by
  rw [sortItems] at h
  split at h
  · rw [mapM_eq_some_iff] at h
    have hmem : (name, v) ∈ ns ↔ some (name, v) ∈ ns.map some := by simp
    rw [hmem, ← h, List.mem_map]
    constructor
    · rintro ⟨⟨k, w⟩, hk, hname⟩
      obtain ⟨n, hn, heq⟩ := Option.map_eq_some_iff.mp hname
      obtain ⟨rfl, rfl⟩ := Prod.mk.inj heq
      exact ⟨k, List.mem_insertionSort _ |>.mp hk, hn⟩
    · rintro ⟨k, hk, hname⟩
      exact ⟨(k, v), List.mem_insertionSort _ |>.mpr hk, by rw [namedMember, hname]; rfl⟩
  · cases h

theorem keyText_of_mem {js : List (Atom × Value)} {ns : Members} (h : sortItems js = some ns)
    {m : Atom × Value} (hm : m ∈ js) : ∃ name, keyText m.1 = some name ∧ (name, m.2) ∈ ns := by
  have hall := h
  rw [sortItems] at hall
  split at hall
  · rw [mapM_eq_some_iff] at hall
    have hsorted : namedMember m ∈ ns.map some := by
      rw [← hall]
      exact List.mem_map_of_mem ((List.mem_insertionSort _).mpr hm)
    obtain ⟨n, hn, heq⟩ := List.mem_map.mp hsorted
    obtain ⟨name, hname, rfl⟩ := Option.map_eq_some_iff.mp heq.symm
    exact ⟨name, hname, hn⟩
  · cases hall

/-- The texts of the keys need no escape and stand in the order of the keys. -/
def KeysStand (keys : List Atom) : Prop :=
  match sortedNames keys with
  | some names => names.Pairwise (· < ·) ∧ ∀ name ∈ names, PlainText name
  | none => False

section
variable (reprOf : PyValue → String)
-- the order in which a set is iterated that was built from elements in an order
variable (copySet : List Atom → List Atom)

mutual
/-- The value with every set built anew. -/
def rebuild : PyValue → PyValue
  | .atom a => .atom a
  | .set xs => .set (copySet xs)
  | .list xs => .list (rebuildElems xs)
  | .dict ms => .dict (rebuildItems ms)
def rebuildElems : List PyValue → List PyValue
  | [] => []
  | v :: vs => rebuild v :: rebuildElems vs
def rebuildItems : Dict → Dict
  | [] => []
  | (k, v) :: ms => (k, rebuild v) :: rebuildItems ms
end

mutual
/-- The value is dumped alike when it is copied and when it is stored. -/
def Storable : PyValue → Prop
  | .atom a => (atomJson reprOf a).Stable
  | .set xs => pyStr reprOf (.set xs) = pyStr reprOf (.set (copySet xs)) ∧
      PlainText (pyStr reprOf (.set xs))
  | .list xs => StorableElems xs
  | .dict ms => KeysStand (ms.map Prod.fst) ∧ StorableItems ms
def StorableElems : List PyValue → Prop
  | [] => True
  | v :: vs => Storable v ∧ StorableElems vs
def StorableItems : List (Atom × PyValue) → Prop
  | [] => True
  | (_, v) :: ms => Storable v ∧ StorableItems ms
end

variable {reprOf} {copySet}

theorem rebuildElems_eq_map (xs : List PyValue) :
    rebuildElems copySet xs = xs.map (rebuild copySet) := by
  induction xs with
  | nil => simp [rebuildElems]
  | cons v vs ih => simp [rebuildElems, ih]

theorem rebuildItems_eq_map (ms : Dict) :
    rebuildItems copySet ms = ms.map fun m => (m.1, rebuild copySet m.2) := by
  induction ms with
  | nil => simp [rebuildItems]
  | cons m ms ih => simp [rebuildItems, ih]

theorem storable_list (xs : List PyValue) :
    Storable reprOf copySet (.list xs) ↔ ∀ v ∈ xs, Storable reprOf copySet v := by
  rw [Storable]
  induction xs with
  | nil => simp [StorableElems]
  | cons v vs ih => simp [StorableElems, ih]

theorem storable_dict (ms : Dict) :
    Storable reprOf copySet (.dict ms) ↔
      KeysStand (ms.map Prod.fst) ∧ ∀ m ∈ ms, Storable reprOf copySet m.2 := by
  have hitems : StorableItems reprOf copySet ms ↔ ∀ m ∈ ms, Storable reprOf copySet m.2 := by
    induction ms with
    | nil => simp [StorableItems]
    | cons m ms ih => simp [StorableItems, ih]
  rw [Storable, hitems]

theorem toJsonElems_eq_mapM (xs : List PyValue) :
    toJsonElems reprOf xs = xs.mapM (toJson reprOf) := by
  induction xs with
  | nil => simp [toJsonElems]
  | cons v vs ih => simp [toJsonElems, ih]

theorem toJsonItems_eq_mapM (ms : Dict) :
    toJsonItems reprOf ms = ms.mapM fun m => (toJson reprOf m.2).map fun j => (m.1, j) := by
  induction ms with
  | nil => simp [toJsonItems]
  | cons m ms ih =>
    cases hv : toJson reprOf m.2 <;> simp [toJsonItems, ih, hv]

theorem toJson_list_iff (xs : List PyValue) (w : Value) :
    toJson reprOf (.list xs) = some w ↔
      ∃ js, xs.map (toJson reprOf) = js.map some ∧ w = .arr js := by
  rw [toJson, toJsonElems_eq_mapM, Option.map_eq_some_iff]
  constructor
  · rintro ⟨js, hjs, rfl⟩
    exact ⟨js, (mapM_eq_some_iff _ _ _).mp hjs, rfl⟩
  · rintro ⟨js, hjs, rfl⟩
    exact ⟨js, (mapM_eq_some_iff _ _ _).mpr hjs, rfl⟩

theorem toJson_dict_iff (ms : Dict) (w : Value) :
    toJson reprOf (.dict ms) = some w ↔
      ∃ js ns, toJsonItems reprOf ms = some js ∧ sortItems js = some ns ∧ w = .obj ns := by
  rw [toJson, Option.map_eq_some_iff]
  simp only [Option.bind_eq_some_iff]
  constructor
  · rintro ⟨ns, ⟨js, hjs, hns⟩, rfl⟩
    exact ⟨js, ns, hjs, hns, rfl⟩
  · rintro ⟨js, ns, hjs, hns, rfl⟩
    exact ⟨ns, ⟨js, hjs, hns⟩, rfl⟩

theorem toJsonItems_cons (k : Atom) (v : PyValue) (ms : Dict) (js : List (Atom × Value)) :
    toJsonItems reprOf ((k, v) :: ms) = some js ↔
      ∃ j js', toJson reprOf v = some j ∧ toJsonItems reprOf ms = some js' ∧
        js = (k, j) :: js' := by
  rw [toJsonItems]
  simp only [Option.bind_eq_bind, Option.bind_eq_some_iff, Option.pure_def, Option.some.injEq]
  constructor
  · rintro ⟨j, hj, js', hjs, rfl⟩
    exact ⟨j, js', hj, hjs, rfl⟩
  · rintro ⟨j, js', hj, hjs, rfl⟩
    exact ⟨j, hj, js', hjs, rfl⟩

theorem toJsonItems_keys {ms : Dict} {js : List (Atom × Value)}
    (h : toJsonItems reprOf ms = some js) : js.map Prod.fst = ms.map Prod.fst := by
  induction ms generalizing js with
  | nil =>
    obtain rfl : [] = js := Option.some.inj h
    rfl
  | cons m ms ih =>
    obtain ⟨j, js', -, hjs, rfl⟩ := (toJsonItems_cons m.1 m.2 ms js).mp h
    rw [List.map_cons, List.map_cons, ih hjs]

theorem mem_toJsonItems {ms : Dict} {js : List (Atom × Value)}
    (h : toJsonItems reprOf ms = some js) {k : Atom} {j : Value} :
    (k, j) ∈ js ↔ ∃ v, (k, v) ∈ ms ∧ toJson reprOf v = some j := by
  induction ms generalizing js with
  | nil =>
    obtain rfl : [] = js := Option.some.inj h
    simp
  | cons m ms ih =>
    obtain ⟨j₀, js', hj₀, hjs, rfl⟩ := (toJsonItems_cons m.1 m.2 ms js).mp h
    rw [List.mem_cons, ih hjs]
    constructor
    · rintro (heq | ⟨v, hv, hj⟩)
      · obtain ⟨rfl, rfl⟩ := Prod.mk.inj heq
        exact ⟨m.2, List.mem_cons_self, hj₀⟩
      · exact ⟨v, List.mem_cons_of_mem m hv, hj⟩
    · rintro ⟨v, hv, hj⟩
      rcases List.mem_cons.mp hv with heq | hv
      · obtain rfl := heq
        exact Or.inl (Prod.ext rfl (Option.some.inj (hj.symm.trans hj₀)))
      · exact Or.inr ⟨v, hv, hj⟩

theorem toJson_some_of_mem {ms : Dict} {js : List (Atom × Value)}
    (h : toJsonItems reprOf ms = some js) {m : Atom × PyValue} (hm : m ∈ ms) :
    ∃ j, toJson reprOf m.2 = some j := by
  induction ms generalizing js with
  | nil => cases hm
  | cons n ms ih =>
    obtain ⟨j, js', hj, hjs, rfl⟩ := (toJsonItems_cons n.1 n.2 ms js).mp h
    rcases List.mem_cons.mp hm with rfl | hm
    · exact ⟨j, hj⟩
    · exact ih hjs hm

/-- Values that are dumped alike under the same keys. -/
theorem toJsonItems_congr {f : PyValue → PyValue} {ms : Dict}
    (h : ∀ m ∈ ms, toJson reprOf (f m.2) = toJson reprOf m.2) :
    toJsonItems reprOf (ms.map fun m => (m.1, f m.2)) = toJsonItems reprOf ms := by
  rw [toJsonItems_eq_mapM, toJsonItems_eq_mapM]
  induction ms with
  | nil => rfl
  | cons m ms ih =>
    obtain ⟨hm, hms⟩ := List.forall_mem_cons.mp h
    rw [List.map_cons, List.mapM_cons, List.mapM_cons, ih hms, hm]

/-! ## Copied and stored alike -/

theorem exists_mapM {α β : Type} {f : α → Option β} {xs : List α}
    (h : ∀ x ∈ xs, ∃ y, f x = some y) : ∃ ys, xs.mapM f = some ys := by
  induction xs with
  | nil => exact ⟨[], rfl⟩
  | cons x xs ih =>
    obtain ⟨⟨y, hy⟩, hxs⟩ := List.forall_mem_cons.mp h
    obtain ⟨ys, hys⟩ := ih hxs
    exact ⟨y :: ys, by rw [List.mapM_cons, hy, hys]; rfl⟩

/-- Whether items can be sorted and named is seen from their keys. -/
theorem exists_sortItems {js is : List (Atom × Value)} {ns : Members} (h : sortItems js = some ns)
    (hkeys : is.map Prod.fst = js.map Prod.fst) : ∃ ns', sortItems is = some ns' := by
  have hnames : ∀ k ∈ is.map Prod.fst, ∃ name, keyText k = some name := by
    intro k hk
    rw [hkeys] at hk
    obtain ⟨m, hm, rfl⟩ := List.mem_map.mp hk
    obtain ⟨name, hname, -⟩ := keyText_of_mem h hm
    exact ⟨name, hname⟩
  rw [sortItems] at h
  split at h
  · rename_i hcomparable
    rw [sortItems, if_pos (hkeys ▸ hcomparable)]
    refine exists_mapM fun m hm => ?_
    obtain ⟨name, hname⟩ := hnames m.1 (List.mem_map_of_mem ((List.mem_insertionSort _).mp hm))
    exact ⟨(name, m.2), by rw [namedMember, hname]; rfl⟩
  · cases h

/-- What can be dumped can be dumped as a copy. -/
theorem toJson_rebuild {v : PyValue} {w : Value} (h : toJson reprOf v = some w) :
    ∃ w', toJson reprOf (rebuild copySet v) = some w' := by
  induction v using PyValue.inductionOn generalizing w with
  | atom a => exact ⟨_, rfl⟩
  | set xs => exact ⟨_, rfl⟩
  | list xs ih =>
    obtain ⟨js, hjs, rfl⟩ := (toJson_list_iff _ _).mp h
    have hsome : ∀ v ∈ xs.map (rebuild copySet), ∃ j, toJson reprOf v = some j := by
      refine List.forall_mem_map.mpr fun v hv => ?_
      have hmem : toJson reprOf v ∈ js.map some := by
        rw [← hjs]
        exact List.mem_map_of_mem hv
      obtain ⟨j, -, hj⟩ := List.mem_map.mp hmem
      exact ih v hv hj.symm
    obtain ⟨is, his⟩ := exists_mapM hsome
    rw [rebuild, rebuildElems_eq_map]
    exact ⟨.arr is, (toJson_list_iff _ _).mpr ⟨is, (mapM_eq_some_iff _ _ _).mp his, rfl⟩⟩
  | dict ms ih =>
    obtain ⟨js, ns, hjs, hns, rfl⟩ := (toJson_dict_iff _ _).mp h
    have hitems : ∃ is, toJsonItems reprOf (rebuildItems copySet ms) = some is := by
      rw [toJsonItems_eq_mapM, rebuildItems_eq_map]
      refine exists_mapM (List.forall_mem_map.mpr fun m hm => ?_)
      obtain ⟨j, hj⟩ := toJson_some_of_mem hjs hm
      obtain ⟨j', hj'⟩ := ih m hm hj
      exact ⟨(m.1, j'), by rw [hj']; rfl⟩
    obtain ⟨is, his⟩ := hitems
    have hkeys : is.map Prod.fst = js.map Prod.fst := by
      rw [toJsonItems_keys his, toJsonItems_keys hjs, rebuildItems_eq_map, List.map_map]
      rfl
    obtain ⟨ns', hns'⟩ := exists_sortItems hns hkeys
    rw [rebuild]
    exact ⟨.obj ns', (toJson_dict_iff _ _).mpr ⟨is, ns', his, hns', rfl⟩⟩

/-- A value whose copy is dumped as `w` is dumped as `w` itself, and `w` comes back from a
column, exactly when the value is storable. -/
theorem storable_iff {v : PyValue} {w : Value} (h : toJson reprOf (rebuild copySet v) = some w) :
    Storable reprOf copySet v ↔ toJson reprOf v = some w ∧ w.Stable := by
  induction v using PyValue.inductionOn generalizing w with
  | atom a =>
    rw [rebuild, toJson] at h
    obtain rfl := Option.some.inj h
    rw [Storable, toJson]
    exact ⟨fun hs => ⟨rfl, hs⟩, And.right⟩
  | set xs =>
    rw [rebuild, toJson] at h
    obtain rfl := Option.some.inj h
    rw [Storable, toJson, Option.some.injEq, Value.str.injEq, Value.Stable]
    exact and_congr_right fun heq => by rw [heq]
  | list xs ih =>
    rw [rebuild, rebuildElems_eq_map] at h
    obtain ⟨js, hjs, rfl⟩ := (toJson_list_iff _ _).mp h
    rw [List.map_map] at hjs
    have hsome : ∀ v ∈ xs, ∃ j ∈ js, toJson reprOf (rebuild copySet v) = some j := by
      intro v hv
      have hmem : toJson reprOf (rebuild copySet v) ∈ js.map some := by
        rw [← hjs]
        exact List.mem_map_of_mem (f := toJson reprOf ∘ rebuild copySet) hv
      obtain ⟨j, hj, heq⟩ := List.mem_map.mp hmem
      exact ⟨j, hj, heq.symm⟩
    rw [storable_list, toJson_list_iff, Json.stable_arr]
    constructor
    · intro hstorable
      have hsame : ∀ v ∈ xs, toJson reprOf v = toJson reprOf (rebuild copySet v) := by
        intro v hv
        obtain ⟨j, -, hj⟩ := hsome v hv
        rw [hj, ((ih v hv hj).mp (hstorable v hv)).1]
      refine ⟨⟨js, (List.map_congr_left hsame).trans hjs, rfl⟩, fun j hj => ?_⟩
      have hmem : some j ∈ xs.map (toJson reprOf ∘ rebuild copySet) := by
        rw [hjs]
        exact List.mem_map_of_mem hj
      obtain ⟨v, hv, heq⟩ := List.mem_map.mp hmem
      exact ((ih v hv heq).mp (hstorable v hv)).2
    · rintro ⟨⟨js', hjs', heq⟩, hstable⟩ v hv
      obtain rfl : js = js' := Value.arr.inj heq
      have hsame := List.map_inj_left.mp (hjs'.trans hjs.symm) v hv
      obtain ⟨j, hj, hrebuilt⟩ := hsome v hv
      exact (ih v hv hrebuilt).mpr ⟨hsame.trans hrebuilt, hstable j hj⟩
  | dict ms ih =>
    rw [rebuild, rebuildItems_eq_map] at h
    obtain ⟨js, ns, hjs, hns, rfl⟩ := (toJson_dict_iff _ _).mp h
    have hmem : ∀ m ∈ ms, ∃ j, toJson reprOf (rebuild copySet m.2) = some j ∧ (m.1, j) ∈ js := by
      intro m hm
      have hm' : (m.1, rebuild copySet m.2) ∈ ms.map fun m => (m.1, rebuild copySet m.2) :=
        List.mem_map_of_mem (f := fun m : Atom × PyValue => (m.1, rebuild copySet m.2)) hm
      obtain ⟨j, hj⟩ := toJson_some_of_mem hjs hm'
      exact ⟨j, hj, (mem_toJsonItems hjs).mpr ⟨_, hm', hj⟩⟩
    have hkeys : sortedNames (ms.map Prod.fst) = some (ns.map Prod.fst) := by
      have hnames := sortItems_names hns
      rw [toJsonItems_keys hjs, List.map_map] at hnames
      exact hnames
    rw [storable_dict, toJson_dict_iff, Json.stable_obj, KeysStand, hkeys]
    constructor
    · rintro ⟨⟨hsorted, hplain⟩, hstorable⟩
      have hsame : ∀ m ∈ ms, toJson reprOf (rebuild copySet m.2) = toJson reprOf m.2 := by
        intro m hm
        obtain ⟨j, hj, -⟩ := hmem m hm
        rw [hj, ((ih m hm hj).mp (hstorable m hm)).1]
      rw [toJsonItems_congr hsame] at hjs
      refine ⟨⟨js, ns, hjs, hns, rfl⟩, hsorted, fun n hn => ?_⟩
      refine ⟨hplain n.1 (List.mem_map_of_mem hn), ?_⟩
      obtain ⟨k, hk, -⟩ := (mem_sortItems hns).mp hn
      obtain ⟨v, hv, hj⟩ := (mem_toJsonItems hjs).mp hk
      have hrebuilt := (hsame (k, v) hv).trans hj
      exact ((ih (k, v) hv hrebuilt).mp (hstorable (k, v) hv)).2
    · rintro ⟨⟨js', ns', hjs', hns', heq⟩, hsorted, hmembers⟩
      obtain rfl : ns = ns' := Value.obj.inj heq
      refine ⟨⟨hsorted, List.forall_mem_map.mpr fun n hn => (hmembers n hn).1⟩, fun m hm => ?_⟩
      -- the value under the name of the key is the same on both sides
      obtain ⟨j, hj, hjmem⟩ := hmem m hm
      obtain ⟨j', hj'⟩ := toJson_some_of_mem hjs' hm
      have hjmem' : (m.1, j') ∈ js' := (mem_toJsonItems hjs').mpr ⟨m.2, hm, hj'⟩
      obtain ⟨name, hname, hn⟩ := keyText_of_mem hns hjmem
      have hn' : (name, j') ∈ ns := (mem_sortItems hns').mpr ⟨m.1, hjmem', hname⟩
      have hnodup : (ns.map Prod.fst).Nodup := hsorted.imp fun hlt => ne_of_lt hlt
      have hsame : (name, j) = (name, j') := List.inj_on_of_nodup_map hnodup hn hn' rfl
      obtain rfl : j = j' := (Prod.mk.inj hsame).2
      exact (ih m hm hj).mpr ⟨hj', (hmembers (name, j) hn).2⟩

end

end SpineFormal.Py
