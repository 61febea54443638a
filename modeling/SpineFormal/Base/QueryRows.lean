import Mathlib.Data.Prod.Lex
import Mathlib.Order.Bounds.Basic
import SpineFormal.Base.BestOf
import SpineFormal.Base.StableSort

/-!
# Rows of a query

The order in which rows come is the executor's own; `ORDER BY` sorts them and leaves the rest of
the choice open. `DISTINCT ON` keeps the first row of each key.
-/

namespace SpineFormal

set_option autoImplicit false

/-- The order in which an executor comes by its rows. -/
structure RowOrder (ρ : Type) where
  arrange : List ρ → List ρ
  perm : ∀ rows, (arrange rows).Perm rows

variable {ρ κ δ : Type}

/-- The rows as they stand. -/
def RowOrder.stored : RowOrder ρ := ⟨id, List.Perm.refl⟩

def orderBy [LinearOrder δ] (o : RowOrder ρ) (key : ρ → δ) (rows : List ρ) : List ρ :=
  sortBy key (o.arrange rows)

/-- `DISTINCT ON (key)` over sorted rows. -/
def distinctOn [DecidableEq κ] (key : ρ → κ) (rows : List ρ) : List ρ :=
  bestOf key (fun _ _ => false) rows

theorem orderBy_perm [LinearOrder δ] (o : RowOrder ρ) (key : ρ → δ) (rows : List ρ) :
    (orderBy o key rows).Perm rows :=
  (sortBy_perm key _).trans (o.perm rows)

theorem mem_orderBy [LinearOrder δ] {o : RowOrder ρ} {key : ρ → δ} {rows : List ρ} {r : ρ} :
    r ∈ orderBy o key rows ↔ r ∈ rows := (orderBy_perm o key rows).mem_iff

theorem orderBy_pairwise [LinearOrder δ] (o : RowOrder ρ) (key : ρ → δ) (rows : List ρ) :
    (orderBy o key rows).Pairwise fun a b => key a ≤ key b := sortBy_pairwise key _

theorem mem_distinctOn [DecidableEq κ] {key : ρ → κ} {rows : List ρ} {r : ρ} :
    r ∈ distinctOn key rows ↔ ∃ rest, rows.filter (fun x => key x = key r) = r :: rest := by
  rw [distinctOn, mem_bestOf_iff]
  constructor
  · rintro ⟨x, rest, hrows, hr⟩
    rw [champion_eq_self fun _ _ => rfl] at hr
    exact ⟨rest, hr ▸ hrows⟩
  · rintro ⟨rest, hrows⟩
    exact ⟨r, rest, hrows, (champion_eq_self fun _ _ => rfl).symm⟩

/-- An order in which one row comes first. -/
def RowOrder.first [DecidableEq ρ] (r : ρ) : RowOrder ρ where
  arrange rows := if r ∈ rows then r :: rows.erase r else rows
  perm rows := by
    split
    · rename_i hr
      exact (List.perm_cons_erase hr).symm
    · exact List.Perm.refl rows

/-- Of sorted rows, one among the first `n` has fewer than `n` below it. -/
theorem length_below_lt [LinearOrder δ] {key : ρ → δ} {rows : List ρ}
    (hsorted : rows.Pairwise fun a b => key a ≤ key b) {n : Nat} {r : ρ} (hr : r ∈ rows.take n) :
    (rows.filter fun x => key x < key r).length < n := by
  rw [← List.take_append_drop n rows, List.pairwise_append] at hsorted
  have hdrop : (rows.drop n).filter (fun x => key x < key r) = [] := by
    rw [List.filter_eq_nil_iff]
    intro x hx
    simpa using hsorted.2.2 r hr x hx
  have hlt : ((rows.take n).filter fun x => key x < key r).length < (rows.take n).length :=
    List.length_filter_lt_length_iff_exists.mpr ⟨r, hr, by simp⟩
  rw [← List.take_append_drop n rows, List.filter_append, hdrop, List.append_nil]
  exact hlt.trans_le (List.length_take_le n rows)

/-- The row that comes first of all is among the first `n` when fewer than `n` are below it. -/
theorem mem_take_orderBy_first [DecidableEq ρ] [LinearOrder δ] {key : ρ → δ} {rows : List ρ} {r : ρ}
    (hr : r ∈ rows) {n : Nat} (h : (rows.filter fun x => key x < key r).length < n) :
    r ∈ (orderBy (RowOrder.first r) key rows).take n := by
  have harrange : (RowOrder.first r).arrange rows = r :: rows.erase r := if_pos hr
  rw [orderBy, harrange, sortBy_cons, List.orderedInsert_eq_take_drop]
  have hbelow : ((sortBy key (rows.erase r)).takeWhile fun b => ¬ key r ≤ key b).length < n := by
    refine lt_of_le_of_lt ?_ h
    have hsub : ((sortBy key (rows.erase r)).takeWhile fun b => ¬ key r ≤ key b).Sublist
        ((sortBy key (rows.erase r)).filter fun x => key x < key r) := by
      have hself : ((sortBy key (rows.erase r)).takeWhile fun b => ¬ key r ≤ key b).filter
          (fun x => key x < key r) = (sortBy key (rows.erase r)).takeWhile fun b => ¬ key r ≤ key b := by
        rw [List.filter_eq_self]
        intro x hx
        have hx' := List.mem_takeWhile_imp hx
        simpa using hx'
      rw [← hself]
      exact (List.takeWhile_sublist _).filter _
    have hperm := (sortBy_perm key (rows.erase r)).filter fun x => key x < key r
    exact hsub.length_le.trans (hperm.length_eq.le.trans
      ((List.erase_sublist.filter _).length_le))
  rw [List.take_append, List.mem_append]
  refine .inr ?_
  obtain ⟨m, hm⟩ := Nat.exists_eq_succ_of_ne_zero (Nat.sub_ne_zero_of_lt hbelow)
  rw [hm, List.take_succ_cons]
  exact List.mem_cons_self

/-- One row for each key that occurs, of the least value it has. -/
structure LeastPerKey [LinearOrder δ] (key : ρ → κ) (value : ρ → δ) (rows out : List ρ) : Prop where
  nodup : (out.map key).Nodup
  least : ∀ r ∈ out, r ∈ rows ∧ ∀ r' ∈ rows, key r' = key r → value r ≤ value r'
  covers : ∀ r ∈ rows, ∃ r' ∈ out, key r' = key r

/-- `SELECT DISTINCT ON (key) ... ORDER BY key, value`. -/
theorem distinctOn_orderBy [LinearOrder κ] [LinearOrder δ] (o : RowOrder ρ) (key : ρ → κ)
    (value : ρ → δ) (rows : List ρ) : LeastPerKey key value rows
      (distinctOn key (orderBy o (fun r => toLex (key r, value r)) rows)) where
  nodup := nodup_keys_bestOf _
  least := by
    intro r hr
    obtain ⟨rest, hrest⟩ := mem_distinctOn.mp hr
    refine ⟨mem_orderBy.mp (mem_of_mem_bestOf hr), fun r' hr' hkey => ?_⟩
    have hsorted := (orderBy_pairwise o (fun r => toLex (key r, value r)) rows).filter
      fun x => key x = key r
    have hmem : r' ∈ r :: rest := by
      rw [← hrest, List.mem_filter]
      exact ⟨mem_orderBy.mpr hr', by simpa using hkey⟩
    rw [hrest, List.pairwise_cons] at hsorted
    rcases List.mem_cons.mp hmem with rfl | hmem
    · exact le_refl _
    · have hle := hsorted.1 r' hmem
      rw [Prod.Lex.toLex_le_toLex] at hle
      rcases hle with hlt | ⟨-, hle⟩
      · exact absurd hkey hlt.ne'
      · exact hle
  covers := by
    intro r hr
    have hmem : r ∈ (orderBy o (fun r => toLex (key r, value r)) rows).filter
        fun x => key x = key r := List.mem_filter.mpr ⟨mem_orderBy.mpr hr, by simp⟩
    obtain ⟨x, rest, hrest⟩ := List.exists_cons_of_ne_nil (List.ne_nil_of_mem hmem)
    have hx : key x = key r := by
      have hxmem : x ∈ x :: rest := List.mem_cons_self
      rw [← hrest] at hxmem
      simpa using List.of_mem_filter hxmem
    exact ⟨x, mem_distinctOn.mpr ⟨rest, by rw [hx]; exact hrest⟩, hx⟩

/-- `SELECT key, MIN(value) ... GROUP BY key`. -/
def groupMin [LinearOrder κ] [LinearOrder δ] (key : ρ → κ) (value : ρ → δ) (rows : List ρ) :
    List (κ × δ) :=
  (distinctOn key (orderBy .stored (fun r => toLex (key r, value r)) rows)).map fun r =>
    (key r, value r)

/-- Where the rows show, for each key, values of a set and all its least ones, the result shows
the least value of the set. -/
theorem LeastPerKey.isLeast_iff [LinearOrder δ] {key : ρ → κ} {value : ρ → δ} {rows out : List ρ}
    (h : LeastPerKey key value rows out) {D : κ → δ → Prop}
    (sound : ∀ r ∈ rows, D (key r) (value r))
    (complete : ∀ k v, D k v → ∃ r ∈ rows, key r = k ∧ value r ≤ v) (k : κ) (v : δ) :
    (∃ r ∈ out, key r = k ∧ value r = v) ↔ IsLeast {v | D k v} v := by
  have hleast : ∀ r ∈ out, IsLeast {v | D (key r) v} (value r) := by
    intro r hr
    obtain ⟨hrow, hle⟩ := h.least r hr
    refine ⟨sound r hrow, fun v hv => ?_⟩
    obtain ⟨r', hr', hkey, hval⟩ := complete _ v hv
    exact (hle r' hr' hkey).trans hval
  constructor
  · rintro ⟨r, hr, rfl, rfl⟩
    exact hleast r hr
  · intro hv
    obtain ⟨r', hr', rfl, -⟩ := complete k v hv.1
    obtain ⟨r, hr, hkey⟩ := h.covers r' hr'
    have hr'' := hleast r hr
    rw [hkey] at hr''
    exact ⟨r, hr, hkey, hr''.unique hv⟩

theorem nodup_groupMin [LinearOrder κ] [LinearOrder δ] {key : ρ → κ} {value : ρ → δ}
    {rows : List ρ} : ((groupMin key value rows).map Prod.fst).Nodup := by
  have hnodup := (distinctOn_orderBy .stored key value rows).nodup
  rw [groupMin, List.map_map]
  exact hnodup

theorem mem_groupMin_iff [LinearOrder κ] [LinearOrder δ] {key : ρ → κ} {value : ρ → δ}
    {rows : List ρ} {D : κ → δ → Prop} (sound : ∀ r ∈ rows, D (key r) (value r))
    (complete : ∀ k v, D k v → ∃ r ∈ rows, key r = k ∧ value r ≤ v) {k : κ} {v : δ} :
    (k, v) ∈ groupMin key value rows ↔ IsLeast {v | D k v} v := by
  rw [← (distinctOn_orderBy .stored key value rows).isLeast_iff sound complete, groupMin,
    List.mem_map]
  simp only [Prod.mk.injEq]

end SpineFormal
