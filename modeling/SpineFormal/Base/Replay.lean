import SpineFormal.Base.KeyedTable

/-!
# Replaying the end of a log

The events of a log are applied one after the other. Where the maps of all words of events are
idempotent, applying the end of a log once more changes nothing. Columns that the last writer
wins, that keep a greatest or a least value or the first one that came, and tables to which
only new keys are added have this property, and so has a record whose columns do.
-/

namespace SpineFormal

set_option autoImplicit false

universe u v w
variable {ε : Type u} {κ : Type v} {upd : ε → κ → κ}

def applyAll (upd : ε → κ → κ) (x : κ) (es : List ε) : κ := es.foldl (fun x e => upd e x) x

theorem applyAll_append (x : κ) (es es' : List ε) :
    applyAll upd x (es ++ es') = applyAll upd (applyAll upd x es) es' := by
  rw [applyAll, List.foldl_append]
  rfl

/-- Applying a log twice in a row is applying it once. -/
def Replayable (upd : ε → κ → κ) : Prop :=
  ∀ x es, applyAll upd (applyAll upd x es) es = applyAll upd x es

/-- The end of a log can be applied once more. -/
theorem Replayable.suffix (h : Replayable upd) (x : κ) (es es' : List ε) :
    applyAll upd (applyAll upd x (es ++ es')) es' = applyAll upd x (es ++ es') := by
  rw [applyAll_append, h]

/-- Idempotent maps that are closed under composition. -/
structure Band (S : (κ → κ) → Prop) : Prop where
  unit : S id
  comp : ∀ {f g : κ → κ}, S f → S g → S (g ∘ f)
  idem : ∀ {f : κ → κ}, S f → ∀ x, f (f x) = f x

theorem Band.replayable {S : (κ → κ) → Prop} (h : Band S) (hupd : ∀ e, S (upd e)) :
    Replayable upd := by
  have hword : ∀ es, S fun x => applyAll upd x es := by
    intro es
    induction es with
    | nil => exact h.unit
    | cons e es ih => exact h.comp (hupd e) ih
  intro x es
  exact h.idem (hword es) x

/-! ## Columns -/

section Operation

variable (op : κ → κ → κ) (assoc : ∀ x y z, op (op x y) z = op x (op y z))
  (idem : ∀ x, op x x = x)
include assoc idem

theorem band_of_op : Band fun f : κ → κ => f = id ∨ ∃ c, f = fun x => op x c := by
  constructor
  · exact Or.inl rfl
  · rintro f g (rfl | ⟨c, rfl⟩) (rfl | ⟨d, rfl⟩)
    · exact Or.inl rfl
    · exact Or.inr ⟨d, rfl⟩
    · exact Or.inr ⟨c, rfl⟩
    · exact Or.inr ⟨op c d, funext fun x => assoc x c d⟩
  · rintro f (rfl | ⟨c, rfl⟩) x
    · rfl
    · exact (assoc x c c).trans (congrArg (op x) (idem c))

/-- Events that bring a value into a column by an associative and idempotent operation. -/
theorem replayable_op (write : ε → Option κ)
    (hupd : ∀ e x, upd e x = (write e).elim x (op x)) : Replayable upd := by
  apply (band_of_op op assoc idem).replayable
  intro e
  cases hw : write e with
  | none =>
    refine Or.inl (funext fun x => ?_)
    rw [hupd, hw]
    rfl
  | some c =>
    refine Or.inr ⟨c, funext fun x => ?_⟩
    rw [hupd, hw]
    rfl

end Operation

/-- The last writer wins. -/
theorem replayable_last (write : ε → Option κ) (hupd : ∀ e x, upd e x = (write e).getD x) :
    Replayable upd := by
  apply replayable_op (fun _ c => c) (fun _ _ _ => rfl) (fun _ => rfl) write
  intro e x
  rw [hupd]
  cases write e <;> rfl

/-- The last value that is there wins. -/
theorem replayable_coalesce {α : Type w} {upd : ε → Option α → Option α} {write : ε → Option α}
    (hupd : ∀ e x, upd e x = (write e).or x) : Replayable upd := by
  apply replayable_op (fun x c => c.or x) (fun x y z => (Option.or_assoc).symm)
    (fun x => Option.or_self) fun e => some (write e)
  intro e x
  rw [hupd]
  rfl

/-- The first value that was there stays. -/
theorem replayable_first {α : Type w} {upd : ε → Option α → Option α} {write : ε → Option α}
    (hupd : ∀ e x, upd e x = x.or (write e)) : Replayable upd := by
  apply replayable_op (fun x c => x.or c) (fun x y z => Option.or_assoc)
    (fun x => Option.or_self) fun e => some (write e)
  intro e x
  rw [hupd]
  rfl

/-- Events that set a column, leave it, or pass it through one idempotent guard. -/
theorem replayable_guard {settle : κ → κ} (hsettle : ∀ x, settle (settle x) = settle x)
    (hupd : ∀ e, (∃ c, upd e = fun _ => c) ∨ upd e = id ∨ upd e = settle) : Replayable upd := by
  have hband : Band fun f : κ → κ => (∃ c, f = fun _ => c) ∨ f = id ∨ f = settle := by
    constructor
    · exact Or.inr (Or.inl rfl)
    · rintro f g (⟨c, rfl⟩ | rfl | rfl) (⟨d, rfl⟩ | rfl | rfl)
      · exact Or.inl ⟨d, rfl⟩
      · exact Or.inl ⟨c, rfl⟩
      · exact Or.inl ⟨_, rfl⟩
      · exact Or.inl ⟨d, rfl⟩
      · exact Or.inr (Or.inl rfl)
      · exact Or.inr (Or.inr rfl)
      · exact Or.inl ⟨d, rfl⟩
      · exact Or.inr (Or.inr rfl)
      · exact Or.inr (Or.inr (funext hsettle))
    · rintro f (⟨c, rfl⟩ | rfl | rfl) x
      · rfl
      · rfl
      · exact hsettle x
  exact hband.replayable hupd

/-- A family of columns, each written on its own. -/
theorem replayable_pi {ι : Type w} {α : ι → Type v} {upd : ε → (∀ i, α i) → ∀ i, α i}
    {each : ∀ i, ε → α i → α i} (hupd : ∀ e f i, upd e f i = each i e (f i))
    (h : ∀ i, Replayable (each i)) : Replayable upd := by
  have hcolumn : ∀ es f i, applyAll upd f es i = applyAll (each i) (f i) es := by
    intro es
    induction es with
    | nil => exact fun _ _ => rfl
    | cons e es ih =>
      intro f i
      exact (ih (upd e f) i).trans (by rw [hupd]; rfl)
  intro f es
  funext i
  rw [hcolumn, hcolumn, h i]

/-- Rows of one kind are written, the others stay. -/
theorem replayable_ite {p : κ → Prop} [DecidablePred p] (hkeep : ∀ e x, p x → p (upd e x))
    (h : Replayable upd) : Replayable fun e x => if p x then upd e x else x := by
  have hnot : ∀ es x, ¬ p x → applyAll (fun e x => if p x then upd e x else x) x es = x := by
    intro es x hx
    induction es with
    | nil => rfl
    | cons e es ih => exact (congrArg (applyAll _ · es) (if_neg hx)).trans ih
  have hrun : ∀ es x, p x → applyAll (fun e x => if p x then upd e x else x) x es =
      applyAll upd x es ∧ p (applyAll upd x es) := by
    intro es
    induction es with
    | nil => exact fun x hx => ⟨rfl, hx⟩
    | cons e es ih =>
      intro x hx
      obtain ⟨heq, hp⟩ := ih (upd e x) (hkeep e x hx)
      exact ⟨(congrArg (applyAll _ · es) (if_pos hx)).trans heq, hp⟩
  intro x es
  by_cases hx : p x
  · obtain ⟨heq, hp⟩ := hrun es x hx
    rw [heq, (hrun es _ hp).1, h]
  · rw [hnot es x hx, hnot es x hx]

/-- The rows of a table, each written on its own. -/
theorem replayable_map (h : Replayable upd) :
    Replayable fun e (rows : List κ) => rows.map (upd e) := by
  have hrun : ∀ es rows, applyAll (fun e (rows : List κ) => rows.map (upd e)) rows es =
      rows.map (applyAll upd · es) := by
    intro es
    induction es with
    | nil => exact fun rows => (List.map_id rows).symm
    | cons e es ih => exact fun rows => (ih _).trans (List.map_map ..)
  intro rows es
  rw [hrun, hrun, List.map_map]
  exact List.map_congr_left fun x _ => h x es

/-- What a column that is written on its own sees of a replay. -/
theorem Replayable.column {α : Type w} {each : ε → α → α} (h : Replayable each) (column : κ → α)
    (hcolumn : ∀ e x, column (upd e x) = each e (column x)) (x : κ) (es : List ε) :
    column (applyAll upd (applyAll upd x es) es) = column (applyAll upd x es) := by
  have hrun : ∀ es x, column (applyAll upd x es) = applyAll each (column x) es := by
    intro es
    induction es with
    | nil => exact fun _ => rfl
    | cons e es ih =>
      intro x
      exact (ih (upd e x)).trans (by rw [hcolumn]; rfl)
  rw [hrun, hrun, h]

/-! ## Tables -/

section Table

variable {α : Type v} {κ' : Type w} [DecidableEq κ'] {key : α → κ'}

/-- Rows whose keys are there add nothing. -/
theorem foldl_insertNew_of_keys {rows xs : List α} (h : ∀ x ∈ xs, key x ∈ rows.map key) :
    xs.foldl (insertNew key) rows = rows := by
  induction xs with
  | nil => rfl
  | cons x xs ih =>
    obtain ⟨hx, hxs⟩ := List.forall_mem_cons.mp h
    rw [List.foldl_cons, insertNew, if_pos hx, ih hxs]

theorem key_mem_foldl_insertNew {xs : List α} {k : κ'} (rows : List α)
    (h : k ∈ rows.map key ∨ k ∈ xs.map key) :
    k ∈ (xs.foldl (insertNew key) rows).map key := by
  induction xs generalizing rows with
  | nil =>
    rcases h with h | h
    · exact h
    · cases h
  | cons x xs ih =>
    apply ih
    rw [List.map_cons, List.mem_cons] at h
    rw [insertNew]
    split_ifs with hx
    · rcases h with h | rfl | h
      · exact Or.inl h
      · exact Or.inl hx
      · exact Or.inr h
    · rw [List.map_append, List.mem_append]
      rcases h with h | rfl | h
      · exact Or.inl (Or.inl h)
      · exact Or.inl (Or.inr (by simp))
      · exact Or.inr h

/-- A table to which rows with new keys are added. -/
theorem replayable_insertNew {upd : ε → List α → List α} {write : ε → List α}
    (hupd : ∀ e rows, upd e rows = (write e).foldl (insertNew key) rows) : Replayable upd := by
  have hband : Band fun f : List α → List α =>
      ∃ xs : List α, f = fun rows => xs.foldl (insertNew key) rows := by
    constructor
    · exact ⟨[], rfl⟩
    · rintro f g ⟨xs, rfl⟩ ⟨ys, rfl⟩
      exact ⟨xs ++ ys, funext fun rows => (List.foldl_append).symm⟩
    · rintro f ⟨xs, rfl⟩ rows
      apply foldl_insertNew_of_keys
      intro x hx
      exact key_mem_foldl_insertNew rows (Or.inr (List.mem_map_of_mem hx))
  apply hband.replayable
  intro e
  exact ⟨write e, funext (hupd e)⟩

/-- Assigning to a key again forgets what was assigned to it before. -/
theorem put_put {x y : α} (h : key x = key y) (rows : List α) :
    put key x (put key y rows) = put key x rows := by
  induction rows with
  | nil => exact if_pos h.symm
  | cons z rows ih =>
    rw [put]
    by_cases hz : key z = key y
    · rw [if_pos hz, put, if_pos h.symm, put, if_pos (hz.trans h.symm)]
    · rw [if_neg hz, put, if_neg (fun hzx => hz (hzx.trans h)), ih, put,
        if_neg (fun hzx => hz (hzx.trans h))]

/-- A dictionary in which one key is assigned to. -/
theorem replayable_put {upd : ε → List α → List α} {k : κ'} {write : ε → Option α}
    (hkey : ∀ e, ∀ x ∈ write e, key x = k)
    (hupd : ∀ e rows, upd e rows = (write e).elim rows (put key · rows)) : Replayable upd := by
  have hband : Band fun f : List α → List α => f = id ∨ ∃ x, key x = k ∧ f = put key x := by
    constructor
    · exact Or.inl rfl
    · rintro f g (rfl | ⟨x, hx, rfl⟩) (rfl | ⟨y, hy, rfl⟩)
      · exact Or.inl rfl
      · exact Or.inr ⟨y, hy, rfl⟩
      · exact Or.inr ⟨x, hx, rfl⟩
      · exact Or.inr ⟨y, hy, funext fun rows => put_put (hy.trans hx.symm) rows⟩
    · rintro f (rfl | ⟨x, -, rfl⟩) rows
      · rfl
      · exact put_put rfl rows
  apply hband.replayable
  intro e
  cases hw : write e with
  | none =>
    refine Or.inl (funext fun rows => ?_)
    rw [hupd, hw]
    rfl
  | some x =>
    refine Or.inr ⟨x, hkey e x (by rw [hw]; rfl), funext fun rows => ?_⟩
    rw [hupd, hw]
    rfl

end Table

end SpineFormal
