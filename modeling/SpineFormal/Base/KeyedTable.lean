import Mathlib.Data.List.Induction
import Mathlib.Data.List.Nodup

/-!
# Tables with a unique key

A table is a list of rows whose keys are distinct. `put` is the assignment
`d[key(x)] = x` of a dictionary, `keyed` the dictionary comprehension over a
list, in which the last row with a key stays. `insertNew` is
`INSERT ... ON CONFLICT (key) DO NOTHING`.
-/

namespace SpineFormal

set_option autoImplicit false

universe u v
variable {α : Type u} {κ : Type v} [DecidableEq κ] (key : α → κ)

def put (x : α) : List α → List α
  | [] => [x]
  | y :: ys => if key y = key x then x :: ys else y :: put x ys

def keyed (xs : List α) : List α := xs.foldl (fun d x => put key x d) []

def insertNew (rows : List α) (x : α) : List α :=
  if key x ∈ rows.map key then rows else rows ++ [x]

variable {key}

theorem mem_of_mem_put {x y : α} {ys : List α} (h : y ∈ put key x ys) : y = x ∨ y ∈ ys := by
  induction ys with
  | nil => exact .inl (List.mem_singleton.mp h)
  | cons z ys ih =>
    rw [put] at h
    split at h
    · rcases List.mem_cons.mp h with rfl | h
      · exact .inl rfl
      · exact .inr (List.mem_cons_of_mem z h)
    · rcases List.mem_cons.mp h with rfl | h
      · exact .inr List.mem_cons_self
      · rcases ih h with rfl | h
        · exact .inl rfl
        · exact .inr (List.mem_cons_of_mem z h)

theorem put_of_notMem {x : α} {ys : List α} (h : key x ∉ ys.map key) :
    put key x ys = ys ++ [x] := by
  induction ys with
  | nil => rfl
  | cons y ys ih =>
    rw [List.map_cons, List.mem_cons, not_or] at h
    rw [put, if_neg fun heq => h.1 heq.symm, ih h.2, List.cons_append]

theorem keys_put (x : α) (ys : List α) (k : κ) :
    k ∈ (put key x ys).map key ↔ k = key x ∨ k ∈ ys.map key := by
  induction ys with
  | nil => simp [put]
  | cons y ys ih =>
    rw [put]
    split
    · rename_i hkey
      simp [hkey]
    · rw [List.map_cons, List.mem_cons, ih, List.map_cons, List.mem_cons]
      exact or_left_comm

theorem nodup_keys_put (x : α) {ys : List α} (h : (ys.map key).Nodup) :
    ((put key x ys).map key).Nodup := by
  induction ys with
  | nil => simp [put]
  | cons y ys ih =>
    obtain ⟨hfresh, hrest⟩ := List.nodup_cons.mp h
    rw [put]
    split
    · rename_i hkey
      exact List.nodup_cons.mpr ⟨hkey ▸ hfresh, hrest⟩
    · rename_i hkey
      refine List.nodup_cons.mpr ⟨?_, ih hrest⟩
      rw [keys_put]
      rintro (h | h)
      · exact hkey h
      · exact hfresh h

theorem nodup_keys_keyed (xs : List α) : ((keyed key xs).map key).Nodup := by
  have hfold : ∀ d : List α, (d.map key).Nodup →
      ((xs.foldl (fun d x => put key x d) d).map key).Nodup := by
    induction xs with
    | nil => exact fun _ h => h
    | cons x xs ih => exact fun d h => ih _ (nodup_keys_put x h)
  exact hfold [] List.nodup_nil

theorem mem_of_mem_keyed {xs : List α} {x : α} (h : x ∈ keyed key xs) : x ∈ xs := by
  have hfold : ∀ d : List α, x ∈ xs.foldl (fun d x => put key x d) d → x ∈ d ∨ x ∈ xs := by
    clear h
    induction xs with
    | nil => exact fun _ h => .inl h
    | cons y xs ih =>
      intro d h
      rcases ih _ h with h | h
      · rcases mem_of_mem_put h with rfl | h
        · exact .inr List.mem_cons_self
        · exact .inl h
      · exact .inr (List.mem_cons_of_mem y h)
  rcases hfold [] h with h | h
  · cases h
  · exact h

theorem keys_keyed (xs : List α) (k : κ) : k ∈ (keyed key xs).map key ↔ k ∈ xs.map key := by
  have hfold : ∀ d : List α, k ∈ (xs.foldl (fun d x => put key x d) d).map key ↔
      k ∈ d.map key ∨ k ∈ xs.map key := by
    induction xs with
    | nil => simp
    | cons x xs ih =>
      intro d
      rw [List.foldl_cons, ih, keys_put, List.map_cons, List.mem_cons]
      tauto
  rw [keyed, hfold]
  simp

theorem nodup_keys_insertNew {rows : List α} (h : (rows.map key).Nodup) (x : α) :
    ((insertNew key rows x).map key).Nodup := by
  unfold insertNew
  split
  · exact h
  · rename_i hfresh
    rw [List.map_append, List.map_singleton]
    refine List.nodup_append.mpr ⟨h, List.nodup_singleton _, ?_⟩
    intro k hk k' hk' heq
    rw [List.mem_singleton] at hk'
    exact hfresh (hk' ▸ heq ▸ hk)

theorem mem_insertNew_iff {rows : List α} {x y : α} :
    y ∈ insertNew key rows x ↔ y ∈ rows ∨ (y = x ∧ key x ∉ rows.map key) := by
  unfold insertNew
  split
  · rename_i hold
    simp [hold]
  · rename_i hfresh
    simp [hfresh]

theorem find_key_iff {xs : List α} (h : (xs.map key).Nodup) {k : κ} {x : α} :
    xs.find? (fun y => decide (key y = k)) = some x ↔ x ∈ xs ∧ key x = k := by
  constructor
  · intro hfind
    have hkey := List.find?_some hfind
    exact ⟨List.mem_of_find?_eq_some hfind, by simpa using hkey⟩
  · rintro ⟨hx, hkey⟩
    have hsome : (xs.find? fun y => decide (key y = k)).isSome :=
      List.find?_isSome.mpr ⟨x, hx, decide_eq_true hkey⟩
    obtain ⟨y, hy⟩ := Option.isSome_iff_exists.mp hsome
    have hyk : key y = k := by simpa using List.find?_some hy
    rw [hy, List.inj_on_of_nodup_map h (List.mem_of_find?_eq_some hy) hx (hyk.trans hkey.symm)]

/-- A list with distinct keys keeps all its rows as a dictionary. -/
theorem mem_keyed_iff {xs : List α} (h : (xs.map key).Nodup) {x : α} :
    x ∈ keyed key xs ↔ x ∈ xs := by
  refine ⟨mem_of_mem_keyed, fun hx => ?_⟩
  have hkeys : key x ∈ (keyed key xs).map key := (keys_keyed xs _).mpr (List.mem_map_of_mem hx)
  obtain ⟨y, hy, hkey⟩ := List.mem_map.mp hkeys
  rw [← List.inj_on_of_nodup_map h (mem_of_mem_keyed hy) hx hkey]
  exact hy

theorem mem_put_iff {x y : α} {ys : List α} (h : (ys.map key).Nodup) :
    y ∈ put key x ys ↔ y = x ∨ y ∈ ys ∧ key y ≠ key x := by
  induction ys with
  | nil => simp [put]
  | cons z ys ih =>
    obtain ⟨hfresh, hrest⟩ := List.nodup_cons.mp h
    rw [put]
    split
    · rename_i hkey
      have hys : y ∈ ys → key y ≠ key x := by
        intro hy heq
        exact hfresh (hkey ▸ heq ▸ List.mem_map_of_mem hy)
      rw [List.mem_cons, List.mem_cons]
      constructor
      · rintro (rfl | hy)
        · exact .inl rfl
        · exact .inr ⟨.inr hy, hys hy⟩
      · rintro (rfl | ⟨rfl | hy, hne⟩)
        · exact .inl rfl
        · exact absurd hkey hne
        · exact .inr hy
    · rename_i hkey
      rw [List.mem_cons, ih hrest, List.mem_cons]
      constructor
      · rintro (rfl | rfl | ⟨hy, hne⟩)
        · exact .inr ⟨.inl rfl, hkey⟩
        · exact .inl rfl
        · exact .inr ⟨.inr hy, hne⟩
      · rintro (rfl | ⟨rfl | hy, hne⟩)
        · exact .inr (.inl rfl)
        · exact .inl rfl
        · exact .inr (.inr ⟨hy, hne⟩)

/-- The rows of a dictionary are the last ones with their keys. -/
theorem mem_keyed_iff_last {xs : List α} {x : α} :
    x ∈ keyed key xs ↔ (xs.filter fun y => key y = key x).getLast? = some x := by
  induction xs using List.reverseRecOn with
  | nil => simp [keyed]
  | append_singleton xs y ih =>
    have hput : keyed key (xs ++ [y]) = put key y (keyed key xs) := by
      rw [keyed, List.foldl_append]
      rfl
    rw [hput, mem_put_iff (nodup_keys_keyed xs), ih, List.filter_append]
    by_cases hkey : key y = key x
    · have hone : [y].filter (fun y => key y = key x) = [y] :=
        List.filter_cons_of_pos (by simpa using hkey)
      rw [hone, List.getLast?_concat, Option.some.injEq]
      constructor
      · rintro (rfl | ⟨-, hne⟩)
        · rfl
        · exact absurd hkey.symm hne
      · exact fun h => .inl h.symm
    · have hne : x ≠ y := fun h => hkey (h ▸ rfl)
      have hnone : [y].filter (fun y => key y = key x) = [] :=
        List.filter_cons_of_neg (by simpa using hkey)
      rw [hnone, List.append_nil]
      exact ⟨fun h => (h.resolve_left hne).1, fun h => .inr ⟨h, fun heq => hkey heq.symm⟩⟩

end SpineFormal
