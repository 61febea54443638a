import SpineFormal.Base.StableSort
import SpineFormal.Json.Column
import SpineFormal.Json.RawText
import SpineFormal.Migration.ImportState
import SpineFormal.Orchestrator.ApprovalToken

/-!
# Schema slices

`_render_schema_jsonl` sorts the rows of a slice by the `str` of an id column and writes one
canonical JSON object a line. Rows that have the same key keep the order in which they came,
and the `str` of a `dict` shows the order of its keys, which canonical JSON does not.
-/

namespace SpineFormal.Migration

open Json
set_option autoImplicit false

/-- What is asked of the objects in the columns: `str(o)`, and the value that `json.dumps`
writes, with `_canon_default` applied. `none` is `TypeError`. -/
structure Cells (ω : Type) where
  str : ω → String
  json : ω → Option Value

abbrev Row (ω : Type) := List (String × ω)

/-- JSON values. `isPrintable` is Python's table for one character beyond ASCII. -/
def jsonCells (isPrintable : Char → Bool) : Cells Value where
  str v := String.ofList (Orchestrator.ApprovalToken.pyStr isPrintable v)
  json := some

def idColumns : List String := ["event_id", "event_uuid", "id", "node_id", "project_id"]

section
variable {ω : Type} (c : Cells ω)

def rowJson (row : Row ω) : Option Members := row.mapM fun m => (c.json m.2).map fun v => (m.1, v)

/-- `_canonical_json`. -/
def canonicalJson (v : Value) : Bytes := encodeUtf8 (compactRaw.render v.sortKeys)

/-- `_row_sort_key`. -/
def rowSortKey (row : Row ω) : Option String :=
  match idColumns.findSome? fun col => row.lookup col with
  | some o => some (c.str o)
  | none => (rowJson c row).map fun ms => String.ofList (spacedAscii.render (Value.obj ms).sortKeys)

/-- `_render_schema_jsonl`. -/
def renderSchemaJsonl (rows : List (Row ω)) : Option Bytes :=
  (rows.mapM fun row => (rowSortKey c row).map fun key => (key, row)).bind fun keyed =>
    ((sortBy Prod.fst keyed).mapM fun kr => (rowJson c kr.2).map fun ms => canonicalJson (.obj ms)).map
      fun lines => lines.flatMap (· ++ [10])

/-- `sf.payload.count(b"\n")`. -/
def rowCount (payload : Bytes) : Nat := payload.count 10

/-! ## Slices that can be written -/

/-- The row can be written. -/
def Writable (row : Row ω) : Prop := (rowJson c row).isSome = true

def keyOf (row : Row ω) : String := (rowSortKey c row).getD ""

/-- The canonical form of the row, as a value. -/
def canonOf (row : Row ω) : Value := ((rowJson c row).map fun ms => (Value.obj ms).sortKeys).getD .null

/-- The line of a canonical value. -/
def lineOf (v : Value) : Bytes := encodeUtf8 (compactRaw.render v) ++ [10]

variable {c}

theorem Writable.key {row : Row ω} (h : Writable c row) : rowSortKey c row = some (keyOf c row) := by
  obtain ⟨ms, hms⟩ := Option.isSome_iff_exists.mp h
  rw [keyOf, rowSortKey]
  split
  · rfl
  · rw [hms]
    rfl

theorem Writable.line {row : Row ω} (h : Writable c row) :
    ((rowJson c row).map fun ms => canonicalJson (.obj ms)) =
      some (encodeUtf8 (compactRaw.render (canonOf c row))) := by
  obtain ⟨ms, hms⟩ := Option.isSome_iff_exists.mp h
  rw [canonOf, hms]
  rfl

/-- The slice of rows that can be written: their lines in the order of their keys. -/
theorem renderSchemaJsonl_of_writable {rows : List (Row ω)} (h : ∀ row ∈ rows, Writable c row) :
    renderSchemaJsonl c rows =
      some ((sortBy (keyOf c) rows).flatMap fun row => lineOf (canonOf c row)) := by
  have hkeys : (rows.mapM fun row => (rowSortKey c row).map fun key => (key, row)) =
      some (rows.map fun row => (keyOf c row, row)) := by
    rw [mapM_eq_some_iff, List.map_map]
    refine List.map_congr_left fun row hrow => ?_
    rw [(h row hrow).key]
    rfl
  have hlines : (((sortBy (keyOf c) rows).map fun row => (keyOf c row, row)).mapM fun kr =>
      (rowJson c kr.2).map fun ms => canonicalJson (.obj ms)) =
      some ((sortBy (keyOf c) rows).map fun row => encodeUtf8 (compactRaw.render (canonOf c row))) := by
    rw [mapM_eq_some_iff, List.map_map, List.map_map]
    refine List.map_congr_left fun row hrow => ?_
    exact (h row ((mem_sortBy _).mp hrow)).line
  rw [renderSchemaJsonl, hkeys, Option.bind_some, sortBy_map, hlines, Option.map_some,
    List.flatMap_map]
  rfl

theorem writable_of_renderSchemaJsonl {rows : List (Row ω)} {blob : Bytes}
    (h : renderSchemaJsonl c rows = some blob) : ∀ row ∈ rows, Writable c row := by
  obtain ⟨keyed, hkeyed, hlines⟩ := Option.bind_eq_some_iff.mp h
  obtain ⟨lines, hread, -⟩ := Option.map_eq_some_iff.mp hlines
  rw [mapM_eq_some_iff] at hkeyed hread
  intro row hrow
  have hmem : (rowSortKey c row).map (fun key => (key, row)) ∈ keyed.map some := by
    rw [← hkeyed]
    exact List.mem_map_of_mem hrow
  obtain ⟨kr, hkr, heq⟩ := List.mem_map.mp hmem
  obtain ⟨key, -, hpair⟩ := Option.map_eq_some_iff.mp heq.symm
  have hline : ((rowJson c kr.2).map fun ms => canonicalJson (.obj ms)) ∈ lines.map some := by
    rw [← hread]
    exact List.mem_map_of_mem (f := fun kr : String × Row ω =>
      (rowJson c kr.2).map fun ms => canonicalJson (.obj ms)) ((mem_sortBy _).mpr hkr)
  obtain ⟨line, -, hsome⟩ := List.mem_map.mp hline
  obtain ⟨ms, hms, -⟩ := Option.map_eq_some_iff.mp hsome.symm
  rw [← hpair] at hms
  exact Option.isSome_iff_exists.mpr ⟨ms, hms⟩

end

/-! ## Lines -/

/-- The text of a canonical value is not broken. -/
theorem control_notMem_render {a : Char} (ha : a.toNat < 0x20) (v : Value) :
    UInt8.ofNat a.toNat ∉ encodeUtf8 (compactRaw.render v) := by
  rw [ascii_mem_encodeUtf8 (by omega)]
  intro hmem
  have hge := render_ge v a hmem
  omega

theorem splitlinesBytes_cons {b : UInt8} (hb : b ≠ 10 ∧ b ≠ 13) {rest line : Bytes}
    {lines : List Bytes} (h : splitlinesBytes rest = line :: lines) :
    splitlinesBytes (b :: rest) = (b :: line) :: lines := by
  cases rest with
  | nil => cases h
  | cons c rest =>
    rw [splitlinesBytes.eq_def]
    split
    · rename_i heq
      cases heq
    · rename_i heq
      exact absurd (List.cons.inj heq).1 hb.2
    · rename_i heq
      obtain ⟨rfl, rfl⟩ := List.cons.inj heq
      rw [if_neg (not_or.mpr hb), h]

theorem splitlinesBytes_line {line : Bytes} (h : ∀ b ∈ line, b ≠ 10 ∧ b ≠ 13) (rest : Bytes) :
    splitlinesBytes (line ++ 10 :: rest) = line :: splitlinesBytes rest := by
  induction line with
  | nil =>
    rw [List.nil_append, splitlinesBytes.eq_def]
    split
    · rename_i heq
      cases heq
    · rename_i heq
      exact absurd (List.cons.inj heq).1 (by decide)
    · rename_i heq
      obtain ⟨rfl, rfl⟩ := List.cons.inj heq
      exact if_pos (.inl rfl)
  | cons b line ih =>
    obtain ⟨hb, hline⟩ := List.forall_mem_cons.mp h
    exact splitlinesBytes_cons hb (ih hline)

theorem splitlinesBytes_lineOf (v : Value) (rest : Bytes) :
    splitlinesBytes (lineOf v ++ rest) = encodeUtf8 (compactRaw.render v) :: splitlinesBytes rest := by
  rw [lineOf, List.append_assoc, List.singleton_append]
  refine splitlinesBytes_line (fun b hb => ⟨?_, ?_⟩) rest
  · rintro rfl
    exact control_notMem_render (a := '\n') (by decide) v hb
  · rintro rfl
    exact control_notMem_render (a := '\r') (by decide) v hb

theorem rowCount_lines {α : Type} (v : α → Value) (l : List α) :
    rowCount (l.flatMap fun a => lineOf (v a)) = l.length := by
  induction l with
  | nil => rfl
  | cons a l ih =>
    have hline : (encodeUtf8 (compactRaw.render (v a))).count 10 = 0 :=
      List.count_eq_zero.mpr (control_notMem_render (a := '\n') (by decide) (v a))
    rw [rowCount] at ih
    rw [rowCount, List.flatMap_cons, List.count_append, ih, lineOf, List.count_append, hline,
      List.length_cons]
    simp [Nat.add_comm]

theorem stripBytes_ne_nil {b : UInt8} {bs : Bytes} (h : asciiSpace b = false) :
    stripBytes (b :: bs) ≠ [] := by
  intro hnil
  rw [stripBytes, List.reverse_eq_nil_iff, List.dropWhile_cons_of_neg (by simp [h]),
    List.dropWhile_eq_nil_iff] at hnil
  have hb := hnil b (List.mem_reverse.mpr List.mem_cons_self)
  rw [h] at hb
  cases hb

/-- Lines of objects are read back as the objects. -/
theorem parseJsonl_lines {α : Type} {v : α → Value} {l : List α}
    (h : ∀ a ∈ l, (v a).Distinct ∧ ∃ ms, v a = .obj ms) :
    parseJsonl (l.flatMap fun a => lineOf (v a)) = some (l.map v) := by
  have hlines : splitlinesBytes (l.flatMap fun a => lineOf (v a)) =
      l.map fun a => encodeUtf8 (compactRaw.render (v a)) := by
    clear h
    induction l with
    | nil => rfl
    | cons a l ih => rw [List.flatMap_cons, splitlinesBytes_lineOf, ih, List.map_cons]
  have hfilter : ((l.map fun a => encodeUtf8 (compactRaw.render (v a))).filter
      fun line => !(stripBytes line).isEmpty) = l.map fun a => encodeUtf8 (compactRaw.render (v a)) := by
    rw [List.filter_eq_self]
    intro line hline
    obtain ⟨a, ha, rfl⟩ := List.mem_map.mp hline
    obtain ⟨ms, hms⟩ := (h a ha).2
    rw [hms, Format.render, encodeUtf8_cons, encodeChar_of_ascii (by decide), List.singleton_append]
    rw [Bool.not_eq_true', List.isEmpty_eq_false_iff]
    exact stripBytes_ne_nil (by decide)
  rw [parseJsonl, hlines, hfilter, mapM_eq_some_iff, List.map_map, List.map_map]
  refine List.map_congr_left fun a ha => ?_
  have hread : loadsText (compactRaw.render (v a)) = some (v a) := by
    rw [loadsText, compactRaw_readable.loads, Option.map_some, dicts_of_distinct (h a ha).1]
  rw [Function.comp_apply, decodeUtf8_encodeUtf8, Option.bind_some, hread]
  rfl

theorem lineOf_append_inj {v w : Value} {x y : Bytes} (h : lineOf v ++ x = lineOf w ++ y) : v = w := by
  have hlines := congrArg splitlinesBytes h
  rw [splitlinesBytes_lineOf, splitlinesBytes_lineOf] at hlines
  exact compactRaw_readable.render_injective (encodeUtf8_injective (List.cons.inj hlines).1)

/-! ## Rows in another order -/

section
variable {ω : Type} {c : Cells ω}

/-- Whatever order the rows come in, the bytes are the same. -/
def OrderFree (c : Cells ω) (rows : List (Row ω)) : Prop :=
  ∀ rows', rows.Perm rows' → renderSchemaJsonl c rows' = renderSchemaJsonl c rows

theorem perm_cons_cons_of_mem {rows : List (Row ω)} {a b : Row ω} (ha : a ∈ rows) (hb : b ∈ rows)
    (hne : a ≠ b) : ∃ rest, rows.Perm (a :: b :: rest) := by
  obtain ⟨s, t, rfl⟩ := List.append_of_mem ha
  have hmiddle : (s ++ a :: t).Perm (a :: (s ++ t)) := List.perm_middle
  have hst : b ∈ s ++ t := by
    rcases List.mem_cons.mp (hmiddle.mem_iff.mp hb) with heq | hmem
    · exact absurd heq.symm hne
    · exact hmem
  obtain ⟨s', t', hsplit⟩ := List.append_of_mem hst
  refine ⟨s' ++ t', hmiddle.trans ?_⟩
  rw [hsplit]
  exact List.perm_middle.cons a

/-- Two rows of one key that came one after the other are written in that order. -/
theorem OrderFree.canonOf_eq {rows : List (Row ω)} (h : OrderFree c rows)
    (hwritable : ∀ row ∈ rows, Writable c row) {a b : Row ω} (ha : a ∈ rows) (hb : b ∈ rows)
    (hkey : keyOf c a = keyOf c b) : canonOf c a = canonOf c b := by
  by_cases hne : a = b
  · rw [hne]
  obtain ⟨rest, hperm⟩ := perm_cons_cons_of_mem ha hb hne
  have hswap : rows.Perm (b :: a :: rest) := hperm.trans (List.Perm.swap b a rest)
  have hsame := (h _ hperm).trans (h _ hswap).symm
  rw [renderSchemaJsonl_of_writable fun row hrow => hwritable row (hperm.mem_iff.mpr hrow),
    renderSchemaJsonl_of_writable fun row hrow => hwritable row (hswap.mem_iff.mpr hrow),
    sortBy_cons_cons hkey, sortBy_cons_cons hkey.symm, ← hkey, List.flatMap_append,
    List.flatMap_append] at hsame
  have hlines := List.append_cancel_left (Option.some.inj hsame)
  rw [List.flatMap_cons, List.flatMap_cons] at hlines
  exact lineOf_append_inj hlines

theorem orderFree_iff (c : Cells ω) (rows : List (Row ω)) :
    OrderFree c rows ↔ ((∀ row ∈ rows, Writable c row) →
      ∀ a ∈ rows, ∀ b ∈ rows, rowSortKey c a = rowSortKey c b → canonOf c a = canonOf c b) := by
  constructor
  · intro h hwritable a ha b hb hkey
    apply h.canonOf_eq hwritable ha hb
    rw [(hwritable a ha).key, (hwritable b hb).key] at hkey
    exact Option.some.inj hkey
  · intro h rows' hperm
    by_cases hwritable : ∀ row ∈ rows, Writable c row
    · have hpairs : sortBy Prod.fst (rows'.map fun row => (keyOf c row, canonOf c row)) =
          sortBy Prod.fst (rows.map fun row => (keyOf c row, canonOf c row)) := by
        refine (sortBy_congr (hperm.map _) ?_).symm
        intro x hx y hy hxy
        obtain ⟨a, ha, rfl⟩ := List.mem_map.mp hx
        obtain ⟨b, hb, rfl⟩ := List.mem_map.mp hy
        refine Prod.ext hxy (h hwritable a ha b hb ?_)
        rw [(hwritable a ha).key, (hwritable b hb).key]
        exact congrArg some hxy
      rw [sortBy_map, sortBy_map] at hpairs
      have hlines := congrArg (List.flatMap fun kv : String × Value => lineOf kv.2) hpairs
      rw [List.flatMap_map, List.flatMap_map] at hlines
      rw [renderSchemaJsonl_of_writable hwritable,
        renderSchemaJsonl_of_writable fun row hrow => hwritable row (hperm.mem_iff.mpr hrow)]
      exact congrArg some hlines
    · have hnone : ∀ rows'', rows.Perm rows'' → renderSchemaJsonl c rows'' = none := by
        intro rows'' hp
        rw [Option.eq_none_iff_forall_ne_some]
        intro blob hblob
        refine hwritable fun row hrow => ?_
        exact writable_of_renderSchemaJsonl hblob row (hp.mem_iff.mp hrow)
      rw [hnone rows' hperm, hnone rows (.refl rows)]

end

/-- Two rows of one `id`, as two tables of a schema have them. -/
def twins : List (Row Value) :=
  [[("id", .int 1), ("name", .str "a")], [("id", .int 1), ("name", .str "b")]]

theorem twins_order_shows : ¬ OrderFree (jsonCells fun _ => true) twins := by
  intro h
  have hwritable : ∀ row ∈ twins, Writable (jsonCells fun _ => true) row :=
    List.forall_mem_cons.mpr ⟨rfl, List.forall_mem_singleton.mpr rfl⟩
  have hcanon := h.canonOf_eq hwritable List.mem_cons_self
    (List.mem_cons_of_mem _ (List.mem_singleton_self _)) rfl
  have htext := congrArg compactRaw.render hcanon
  revert htext
  decide +kernel

/-! ## Rows of JSON values -/

section
variable (isPrintable : Char → Bool)

/-- A row of JSON values. -/
abbrev JsonRow := { ms : Members // (Value.obj ms).Distinct }

def JsonRow.value (r : JsonRow) : Value := .obj r.1

/-- The row with its keys in order, at every depth. -/
def JsonRow.sorted (r : JsonRow) : JsonRow :=
  ⟨(sortMembers r.1).insertionSort keyLe, by
    have h := distinct_sortKeys r.2
    rwa [Value.sortKeys] at h⟩

def JsonRow.key (r : JsonRow) : String := keyOf (jsonCells isPrintable) r.1

/-- The slice is read back as the rows in the order of their keys, equal as dictionaries, its row
count is their number, and they are written as the same bytes again. -/
def RoundTrips (rows : List JsonRow) : Prop :=
  ∃ blob, renderSchemaJsonl (jsonCells isPrintable) (rows.map Subtype.val) = some blob ∧
    rowCount blob = rows.length ∧
    ∃ again : List JsonRow, parseJsonl blob = some (again.map JsonRow.value) ∧
      again.map JsonRow.sorted = (sortBy (JsonRow.key isPrintable) rows).map JsonRow.sorted ∧
      renderSchemaJsonl (jsonCells isPrintable) (again.map Subtype.val) = some blob

/-- Two rows, the first before the second, are not exchanged when their keys are taken again
from the rows with sorted keys. -/
def KeepsOrder (a b : JsonRow) : Prop :=
  if a.key isPrintable ≤ b.key isPrintable then a.sorted.key isPrintable ≤ b.sorted.key isPrintable
  else b.sorted.key isPrintable ≤ a.sorted.key isPrintable

end

section
variable {isPrintable : Char → Bool}

theorem rowJson_jsonRow (r : JsonRow) : rowJson (jsonCells isPrintable) r.1 = some r.1 := by
  rw [rowJson, mapM_eq_some_iff]
  rfl

theorem canonOf_jsonRow (r : JsonRow) : canonOf (jsonCells isPrintable) r.1 = r.sorted.value := by
  rw [canonOf, rowJson_jsonRow, Option.map_some, Option.getD_some, Value.sortKeys]
  rfl

theorem JsonRow.value_injective : Function.Injective JsonRow.value :=
  fun _ _ h => Subtype.ext (Value.obj.inj h)

theorem JsonRow.sorted_sorted (r : JsonRow) : r.sorted.sorted = r.sorted := by
  apply JsonRow.value_injective
  have h := sortKeys_sortKeys r.value
  rw [JsonRow.value, Value.sortKeys, Value.sortKeys] at h
  exact h

theorem renderSchemaJsonl_jsonRows (rows : List JsonRow) :
    renderSchemaJsonl (jsonCells isPrintable) (rows.map Subtype.val) =
      some ((sortBy (JsonRow.key isPrintable) rows).flatMap fun r => lineOf r.sorted.value) := by
  have hwritable : ∀ row ∈ rows.map Subtype.val, Writable (jsonCells isPrintable) row := by
    intro row hrow
    obtain ⟨r, -, rfl⟩ := List.mem_map.mp hrow
    rw [Writable, rowJson_jsonRow]
    rfl
  rw [renderSchemaJsonl_of_writable hwritable, sortBy_map, List.flatMap_map]
  simp only [canonOf_jsonRow]
  rfl

theorem parseJsonl_jsonRows (rows : List JsonRow) :
    parseJsonl (rows.flatMap fun r => lineOf r.sorted.value) =
      some ((rows.map JsonRow.sorted).map JsonRow.value) := by
  rw [List.map_map]
  exact parseJsonl_lines fun r _ => ⟨r.sorted.2, r.sorted.1, rfl⟩

/-- The rows that come back are written alike exactly when their keys do not go down. -/
theorem rendered_again_iff (rows : List JsonRow) :
    (sortBy (JsonRow.key isPrintable) (rows.map JsonRow.sorted)).flatMap
        (fun r => lineOf r.sorted.value) = rows.flatMap (fun r => lineOf r.sorted.value) ↔
      (rows.map JsonRow.sorted).Pairwise fun a b => a.key isPrintable ≤ b.key isPrintable := by
  rw [← sortBy_eq_self_iff]
  have hself : ∀ l : List JsonRow, (∀ r ∈ l, r ∈ rows.map JsonRow.sorted) →
      l.map JsonRow.sorted = l := by
    intro l hl
    refine (List.map_congr_left fun r hr => ?_).trans (List.map_id l)
    obtain ⟨s, -, rfl⟩ := List.mem_map.mp (hl r hr)
    exact s.sorted_sorted
  constructor
  · intro h
    have hparse := congrArg parseJsonl h
    rw [parseJsonl_jsonRows, parseJsonl_jsonRows] at hparse
    have hrows := JsonRow.value_injective.list_map (Option.some.inj hparse)
    rwa [hself _ fun r hr => (mem_sortBy _).mp hr] at hrows
  · intro h
    rw [h, List.flatMap_map]
    simp only [JsonRow.sorted_sorted]

theorem rendered_again_iff_keepsOrder (rows : List JsonRow) :
    (sortBy (JsonRow.key isPrintable)
        ((sortBy (JsonRow.key isPrintable) rows).map JsonRow.sorted)).flatMap
        (fun r => lineOf r.sorted.value) =
      (sortBy (JsonRow.key isPrintable) rows).flatMap (fun r => lineOf r.sorted.value) ↔
      rows.Pairwise (KeepsOrder isPrintable) := by
  rw [rendered_again_iff, List.pairwise_map]
  exact pairwise_sortBy_iff _ rows

theorem RoundTrips.keepsOrder {rows : List JsonRow} (h : RoundTrips isPrintable rows) :
    rows.Pairwise (KeepsOrder isPrintable) := by
  obtain ⟨blob, hblob, -, again, hparse, -, hrender⟩ := h
  rw [renderSchemaJsonl_jsonRows] at hblob hrender
  obtain rfl := Option.some.inj hblob
  rw [parseJsonl_jsonRows] at hparse
  obtain rfl := JsonRow.value_injective.list_map (Option.some.inj hparse)
  exact (rendered_again_iff_keepsOrder rows).mp (Option.some.inj hrender)

theorem slice_roundTrips_iff (isPrintable : Char → Bool) (rows : List JsonRow) :
    RoundTrips isPrintable rows ↔ rows.Pairwise (KeepsOrder isPrintable) := by
  constructor
  · exact RoundTrips.keepsOrder
  · intro h
    refine ⟨_, renderSchemaJsonl_jsonRows rows, ?_, (sortBy (JsonRow.key isPrintable) rows).map
      JsonRow.sorted, parseJsonl_jsonRows _, ?_, ?_⟩
    · rw [rowCount_lines]
      exact (sortBy_perm _ rows).length_eq
    · rw [List.map_map]
      exact List.map_congr_left fun r _ => r.sorted_sorted
    · rw [renderSchemaJsonl_jsonRows]
      exact congrArg some ((rendered_again_iff_keepsOrder rows).mpr h)

end

/-- Two rows whose `id` is a `dict`, one with its keys out of order. -/
def dictIds : List JsonRow :=
  [⟨[("id", .obj [("b", .int 1), ("a", .int 1)])], by simp [Value.Distinct, DistinctMembers]⟩,
    ⟨[("id", .obj [("b", .int 0)])], by simp [Value.Distinct, DistinctMembers]⟩]

/-- Read back, the first row has the key that comes first. -/
theorem dictIds_exchanged : ¬ RoundTrips (fun _ => true) dictIds := by
  intro h
  have hpair := List.pairwise_pair.mp h.keepsOrder
  revert hpair
  unfold KeepsOrder
  decide +kernel

end SpineFormal.Migration
