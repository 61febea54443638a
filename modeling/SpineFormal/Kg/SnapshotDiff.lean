import SpineFormal.Json.Loads
import SpineFormal.Kg.DiffEngine

/-!
# What a difference gives back

`diff_file_index` over any two snapshots: fields may be missing, properties be null, text or an
object. Taking out of the old snapshot what is closed and adding what is inserted makes it show
the new one.
-/

namespace SpineFormal.Kg

open Json
set_option autoImplicit false

/-! ## Reconstruction by key -/

section
variable {κ α : Type} [DecidableEq κ]

/-- The rows without the closed keys, and the inserts. -/
def patchBy (key : α → κ) (old : List α) (diff : List κ × List α) : List α :=
  (old.filter fun o => key o ∉ diff.1) ++ diff.2

/-- For each key the last of the rows that have it, or one that is the same; no row for others. -/
structure Rebuilds (key : α → κ) (same : α → α → Prop) (new result : List α) : Prop where
  once : (result.map key).Nodup
  last : ∀ k, Option.Rel same (result.find? fun r => key r = k)
    (new.filter fun n => key n = k).getLast?

variable {key : α → κ} {changed : α → α → Bool} {old new : List α}

theorem mem_patchBy {r : α} : r ∈ patchBy key old (diffBy key key changed old new) ↔
    (r ∈ old ∧ key r ∉ (diffBy key key changed old new).1) ∨
      r ∈ (diffBy key key changed old new).2 := by
  rw [patchBy, List.mem_append, List.mem_filter, decide_eq_true_iff]

/-- A row is left open when the snapshot has its key and does not change it. -/
theorem left_open_iff (hold : (old.map key).Nodup) {o : α} (ho : o ∈ old) :
    key o ∉ (diffBy key key changed old new).1 ↔
      ∃ n ∈ keyed key new, key n = key o ∧ changed o n = false := by
  rw [mem_diffBy_close_iff, not_or]
  constructor
  · rintro ⟨hchanged, hgone⟩
    have hkey : key o ∈ (keyed key new).map key := by
      rw [keys_keyed]
      by_contra hnew
      exact hgone ⟨List.mem_map_of_mem ho, hnew⟩
    obtain ⟨n, hn, hnkey⟩ := List.mem_map.mp hkey
    refine ⟨n, hn, hnkey, Bool.eq_false_iff.mpr fun h => ?_⟩
    exact hchanged ⟨n, hn, o, (mem_keyed_iff hold).mpr ho, hnkey, rfl, h⟩
  · rintro ⟨n, hn, hnkey, hsame⟩
    constructor
    · rintro ⟨n', hn', o', ho', hnkey', hokey', h⟩
      obtain rfl := List.inj_on_of_nodup_map hold ((mem_keyed_iff hold).mp ho') ho hokey'
      obtain rfl := List.inj_on_of_nodup_map (nodup_keys_keyed new) hn' hn (hnkey'.trans hnkey.symm)
      rw [hsame] at h
      cases h
    · rintro ⟨-, hgone⟩
      exact hgone (hnkey ▸ List.mem_map_of_mem (mem_of_mem_keyed hn))

theorem mem_insert_iff (hold : (old.map key).Nodup) {n : α} :
    n ∈ (diffBy key key changed old new).2 ↔ n ∈ keyed key new ∧
      ∀ o ∈ old, key o = key n → changed o n = true := by
  rw [mem_diffBy_insert_iff]
  refine and_congr_right fun _ => ?_
  constructor
  · rintro (hfresh | ⟨o, ho, hokey, h⟩) o' ho' hkey
    · exact absurd (hkey ▸ List.mem_map_of_mem ho') hfresh
    · obtain rfl := List.inj_on_of_nodup_map hold ((mem_keyed_iff hold).mp ho) ho'
        (hokey.trans hkey.symm)
      exact h
  · intro h
    by_cases hfresh : key n ∈ old.map key
    · obtain ⟨o, ho, hkey⟩ := List.mem_map.mp hfresh
      exact .inr ⟨o, (mem_keyed_iff hold).mpr ho, hkey, h o ho hkey⟩
    · exact .inl hfresh

/-- Every row of the result is a row of the snapshot, or an old one that it does not change. -/
theorem mem_patchBy_iff (hold : (old.map key).Nodup) {r : α} :
    r ∈ patchBy key old (diffBy key key changed old new) ↔ ∃ n ∈ keyed key new, key n = key r ∧
      (r ∈ old ∧ changed r n = false ∨ r = n ∧ ∀ o ∈ old, key o = key n → changed o n = true) := by
  rw [mem_patchBy]
  constructor
  · rintro (⟨hr, hopen⟩ | hr)
    · obtain ⟨n, hn, hkey, hsame⟩ := (left_open_iff hold hr).mp hopen
      exact ⟨n, hn, hkey, .inl ⟨hr, hsame⟩⟩
    · obtain ⟨hn, h⟩ := (mem_insert_iff hold).mp hr
      exact ⟨r, hn, rfl, .inr ⟨rfl, h⟩⟩
  · rintro ⟨n, hn, hkey, ⟨hr, hsame⟩ | ⟨rfl, h⟩⟩
    · exact .inl ⟨hr, (left_open_iff hold hr).mpr ⟨n, hn, hkey, hsame⟩⟩
    · exact .inr ((mem_insert_iff hold).mpr ⟨hn, h⟩)

theorem nodup_patchBy (hold : (old.map key).Nodup) :
    ((patchBy key old (diffBy key key changed old new)).map key).Nodup := by
  have hinserts : ((diffBy key key changed old new).2.map key).Nodup :=
    (nodup_keys_keyed new).sublist (List.filter_sublist.map key)
  rw [patchBy, List.map_append, List.nodup_append]
  refine ⟨hold.sublist (List.filter_sublist.map key), hinserts, ?_⟩
  rintro k hk k' hk' rfl
  obtain ⟨o, ho, rfl⟩ := List.mem_map.mp hk
  obtain ⟨hold', hopen⟩ := List.mem_filter.mp ho
  obtain ⟨n, hn, hkey⟩ := List.mem_map.mp hk'
  obtain ⟨hnew, h⟩ := (mem_insert_iff hold).mp hn
  obtain ⟨n', hn', hkey', hsame⟩ := (left_open_iff hold hold').mp (of_decide_eq_true hopen)
  obtain rfl := List.inj_on_of_nodup_map (nodup_keys_keyed new) hn' hnew (hkey'.trans hkey.symm)
  rw [h o hold' hkey'.symm] at hsame
  cases hsame

theorem exists_mem_patchBy (hold : (old.map key).Nodup) {n : α} (hn : n ∈ keyed key new) :
    ∃ r ∈ patchBy key old (diffBy key key changed old new), key r = key n := by
  by_cases hex : ∃ o ∈ old, key o = key n ∧ changed o n = false
  · obtain ⟨o, ho, hkey, hsame⟩ := hex
    exact ⟨o, (mem_patchBy_iff hold).mpr ⟨n, hn, hkey.symm, .inl ⟨ho, hsame⟩⟩, hkey⟩
  · refine ⟨n, (mem_patchBy_iff hold).mpr ⟨n, hn, rfl, .inr ⟨rfl, fun o ho hkey => ?_⟩⟩, rfl⟩
    by_contra hsame
    exact hex ⟨o, ho, hkey, Bool.eq_false_iff.mpr hsame⟩

/-- What the result holds for a key is the last row of the snapshot, or what that did not change. -/
theorem unchanged_or_eq (hold : (old.map key).Nodup) {r n : α}
    (hr : r ∈ patchBy key old (diffBy key key changed old new)) (hn : n ∈ keyed key new)
    (hkey : key n = key r) : changed r n = false ∨ r = n := by
  obtain ⟨n', hn', hkey', h⟩ := (mem_patchBy_iff hold).mp hr
  obtain rfl := List.inj_on_of_nodup_map (nodup_keys_keyed new) hn' hn (hkey'.trans hkey.symm)
  exact h.imp And.right And.left

theorem patchBy_rebuilds {same : α → α → Prop} (hold : (old.map key).Nodup)
    (hsame : ∀ o n, key o = key n → changed o n = false → same o n) (hrefl : ∀ n, same n n) :
    Rebuilds key same new (patchBy key old (diffBy key key changed old new)) where
  once := nodup_patchBy hold
  last := by
    intro k
    cases hfind : (patchBy key old (diffBy key key changed old new)).find? fun r => key r = k with
    | none =>
      rw [List.find?_eq_none] at hfind
      have hnone : new.filter (fun n => key n = k) = [] := by
        rw [List.filter_eq_nil_iff]
        intro n hn hkey
        obtain ⟨n', hn', hkey'⟩ := List.mem_map.mp
          ((keys_keyed new (key n)).mpr (List.mem_map_of_mem hn))
        obtain ⟨r, hr, hrkey⟩ : ∃ r ∈ patchBy key old (diffBy key key changed old new),
            key r = key n' := exists_mem_patchBy hold hn'
        exact hfind r hr (decide_eq_true ((hrkey.trans hkey').trans (of_decide_eq_true hkey)))
      rw [hnone]
      exact .none
    | some r =>
      obtain ⟨hr, rfl⟩ := (find_key_iff (nodup_patchBy hold)).mp hfind
      obtain ⟨n, hn, hkey, -⟩ := (mem_patchBy_iff hold).mp hr
      have hlast := mem_keyed_iff_last.mp hn
      rw [hkey] at hlast
      rw [hlast]
      refine .some ?_
      rcases unchanged_or_eq hold hr hn hkey with h | rfl
      · exact hsame r n hkey.symm h
      · exact hrefl r

/-- The result needs no further change. -/
theorem diffBy_patchBy (hold : (old.map key).Nodup) (hirr : ∀ n, changed n n = false) :
    diffBy key key changed (patchBy key old (diffBy key key changed old new)) new = ([], []) := by
  have hresult : ((patchBy key old (diffBy key key changed old new)).map key).Nodup :=
    nodup_patchBy hold
  have hunchanged : ∀ r ∈ patchBy key old (diffBy key key changed old new), ∀ n ∈ keyed key new,
      key n = key r → changed r n = false := by
    intro r hr n hn hkey
    rcases unchanged_or_eq hold hr hn hkey with h | rfl
    · exact h
    · exact hirr r
  refine Prod.ext ?_ ?_
  · rw [List.eq_nil_iff_forall_not_mem]
    intro k hk
    rcases mem_diffBy_close_iff.mp hk with ⟨n, hn, o, ho, rfl, hkey, h⟩ | ⟨hold', hgone⟩
    · rw [hunchanged o (mem_of_mem_keyed ho) n hn hkey.symm] at h
      cases h
    · obtain ⟨r, hr, rfl⟩ := List.mem_map.mp hold'
      obtain ⟨n, hn, hkey, -⟩ := (mem_patchBy_iff hold).mp hr
      exact hgone (hkey ▸ List.mem_map_of_mem (mem_of_mem_keyed hn))
  · rw [List.eq_nil_iff_forall_not_mem]
    intro n hn
    obtain ⟨hn, h⟩ := (mem_insert_iff hresult).mp hn
    obtain ⟨r, hr, hkey⟩ : ∃ r ∈ patchBy key old (diffBy key key changed old new),
        key r = key n := exists_mem_patchBy hold hn
    have hchanged := h r hr hkey
    rw [hunchanged r hr n hn hkey.symm] at hchanged
    cases hchanged

end

/-! ## Entries of a snapshot -/

/-- `properties`: `None`, a `str`, or a `dict` that JSON can hold. -/
inductive PropsField where
  | null
  | text (s : String)
  | doc (ms : Members) (distinct : (Value.obj ms).Distinct)

/-- A node as a `dict`: a field that is missing or `None` is `none`. -/
structure NodeEntry where
  nodeId : String
  type : Option String
  subtype : Option String
  repo : Option String
  commitSha : Option String
  path : Option String
  name : Option String
  properties : PropsField

structure EdgeEntry where
  fromNodeId : String
  toNodeId : String
  type : String
  commitSha : Option String
  properties : PropsField

structure FileIndex where
  nodes : List NodeEntry
  edges : List EdgeEntry

/-- `_normalize_props`. -/
def PropsField.normalize : PropsField → List Char
  | .null => ['{', '}']
  | .text s =>
    match loadsText s.toList with
    | some v => dumps v
    | none => s.toList
  | .doc ms _ => dumps (.obj ms)

def entryPropsChanged (a b : PropsField) : Bool := a.normalize ≠ b.normalize

def nodeEntryChanged (old new : NodeEntry) : Bool :=
  decide (old.type ≠ new.type ∨ old.subtype ≠ new.subtype ∨ old.name ≠ new.name ∨
    old.path ≠ new.path ∨ old.repo ≠ new.repo) ||
    entryPropsChanged old.properties new.properties

def EdgeEntry.key (e : EdgeEntry) : String × String × String := (e.fromNodeId, e.toNodeId, e.type)

def edgeEntryChanged (old new : EdgeEntry) : Bool :=
  entryPropsChanged old.properties new.properties

structure IndexDiff where
  insertNodes : List NodeEntry
  insertEdges : List EdgeEntry
  closeNodeIds : List String
  closeEdgeKeys : List (String × String × String)

/-- `diff_file_index`. -/
def diffIndex (old new : FileIndex) : IndexDiff :=
  let nodes := diffBy NodeEntry.nodeId NodeEntry.nodeId nodeEntryChanged old.nodes new.nodes
  let edges := diffBy EdgeEntry.key EdgeEntry.key edgeEntryChanged old.edges new.edges
  { insertNodes := nodes.2
    insertEdges := edges.2
    closeNodeIds := nodes.1
    closeEdgeKeys := edges.1 }

/-- The snapshot without what is closed, and with what is inserted. -/
def FileIndex.apply (old : FileIndex) (diff : IndexDiff) : FileIndex where
  nodes := patchBy NodeEntry.nodeId old.nodes (diff.closeNodeIds, diff.insertNodes)
  edges := patchBy EdgeEntry.key old.edges (diff.closeEdgeKeys, diff.insertEdges)

/-! ## What properties say -/

/-- A document with its keys in order, or text that is none. -/
inductive Content where
  | doc (v : Value)
  | raw (s : String)

/-- `None` says what the empty object says, and text what it is the text of. -/
def PropsField.content : PropsField → Content
  | .null => .doc (.obj [])
  | .text s =>
    match loadsText s.toList with
    | some v => .doc v.sortKeys
    | none => .raw s
  | .doc ms _ => .doc (Value.obj ms).sortKeys

def Content.render : Content → List Char
  | .doc v => encode v
  | .raw s => s.toList

theorem normalize_eq (p : PropsField) : p.normalize = p.content.render := by
  cases p with
  | null => rfl
  | text s =>
    rw [PropsField.normalize, PropsField.content]
    cases loadsText s.toList with
    | none => rfl
    | some v => rfl
  | doc ms distinct => rfl

theorem loadsText_of_raw {p : PropsField} {s : String} (h : p.content = .raw s) :
    loadsText s.toList = none := by
  cases p with
  | null => cases h
  | text s' =>
    rw [PropsField.content] at h
    cases hload : loadsText s'.toList with
    | none =>
      rw [hload] at h
      cases h
      exact hload
    | some v =>
      rw [hload] at h
      cases h
  | doc ms distinct => cases h

/-- Text that is no document is not what a document is written as. -/
theorem normalize_eq_iff {p q : PropsField} :
    p.normalize = q.normalize ↔ p.content = q.content := by
  have hapart : ∀ {p q : PropsField} {s : String} {v : Value}, p.content = .raw s →
      q.content = .doc v → p.normalize ≠ q.normalize := by
    intro p q s v hp hq h
    rw [normalize_eq, normalize_eq, hp, hq] at h
    have hload := loadsText_of_raw hp
    rw [show s.toList = encode v from h, loadsText_encode] at hload
    cases hload
  constructor
  · intro h
    cases hp : p.content with
    | doc v =>
      cases hq : q.content with
      | doc w =>
        rw [normalize_eq, normalize_eq, hp, hq] at h
        exact congrArg Content.doc (encode_injective h)
      | raw s => exact absurd h.symm (hapart hq hp)
    | raw s =>
      cases hq : q.content with
      | doc w => exact absurd h (hapart hp hq)
      | raw t =>
        rw [normalize_eq, normalize_eq, hp, hq] at h
        exact congrArg Content.raw (String.toList_inj.mp h)
  · intro h
    rw [normalize_eq, normalize_eq, h]

structure NodeEntry.Same (a b : NodeEntry) : Prop where
  nodeId : a.nodeId = b.nodeId
  type : a.type = b.type
  subtype : a.subtype = b.subtype
  repo : a.repo = b.repo
  path : a.path = b.path
  name : a.name = b.name
  properties : a.properties.content = b.properties.content

structure EdgeEntry.Same (a b : EdgeEntry) : Prop where
  key : a.key = b.key
  properties : a.properties.content = b.properties.content

theorem entryPropsChanged_iff {p q : PropsField} :
    entryPropsChanged p q = false ↔ p.content = q.content := by
  rw [entryPropsChanged, decide_eq_false_iff_not, not_not, normalize_eq_iff]

theorem same_of_unchanged {o n : NodeEntry} (hkey : o.nodeId = n.nodeId)
    (h : nodeEntryChanged o n = false) : o.Same n := by
  rw [nodeEntryChanged, Bool.or_eq_false_iff, decide_eq_false_iff_not, entryPropsChanged_iff] at h
  obtain ⟨hfields, hprops⟩ := h
  simp only [not_or, not_not] at hfields
  obtain ⟨htype, hsubtype, hname, hpath, hrepo⟩ := hfields
  exact ⟨hkey, htype, hsubtype, hrepo, hpath, hname, hprops⟩

theorem nodeEntryChanged_self (n : NodeEntry) : nodeEntryChanged n n = false := by
  rw [nodeEntryChanged, Bool.or_eq_false_iff, entryPropsChanged_iff]
  exact ⟨by simp, rfl⟩

theorem edgeEntryChanged_self (e : EdgeEntry) : edgeEntryChanged e e = false :=
  entryPropsChanged_iff.mpr rfl

/-! ## The reconstruction -/

/-- The result shows, for every id and key, the last entry of the snapshot. -/
structure FileIndex.Shows (result new : FileIndex) (sameNode : NodeEntry → NodeEntry → Prop)
    (sameEdge : EdgeEntry → EdgeEntry → Prop) : Prop where
  nodes : Rebuilds NodeEntry.nodeId sameNode new.nodes result.nodes
  edges : Rebuilds EdgeEntry.key sameEdge new.edges result.edges

theorem nodes_apply (old new : FileIndex) : (old.apply (diffIndex old new)).nodes =
    patchBy NodeEntry.nodeId old.nodes
      (diffBy NodeEntry.nodeId NodeEntry.nodeId nodeEntryChanged old.nodes new.nodes) := rfl

theorem edges_apply (old new : FileIndex) : (old.apply (diffIndex old new)).edges =
    patchBy EdgeEntry.key old.edges
      (diffBy EdgeEntry.key EdgeEntry.key edgeEntryChanged old.edges new.edges) := rfl

section
variable {κ ω ω' ν ν' : Type} [DecidableEq κ] {oldKey : ω' → κ} {newKey : ν' → κ}
  {changed : ω' → ν' → Bool}

theorem keyed_map {α β : Type} {key : β → κ} (f : α → β) (xs : List α) :
    keyed key (xs.map f) = (keyed (fun x => key (f x)) xs).map f := by
  have hput : ∀ (x : α) (d : List α),
      put key (f x) (d.map f) = (put (fun x => key (f x)) x d).map f := by
    intro x d
    induction d with
    | nil => rfl
    | cons y d ih =>
      rw [List.map_cons, put, put]
      split
      · rfl
      · rw [ih, List.map_cons]
  have hfold : ∀ d : List α, (xs.map f).foldl (fun d x => put key x d) (d.map f) =
      (xs.foldl (fun d x => put (fun x => key (f x)) x d) d).map f := by
    induction xs with
    | nil => exact fun _ => rfl
    | cons x xs ih =>
      intro d
      rw [List.map_cons, List.foldl_cons, List.foldl_cons, hput, ih]
  exact hfold []

/-- Only the rows at hand are compared. -/
theorem diffBy_congr {κ ω ν : Type} [DecidableEq κ] {oldKey : ω → κ} {newKey : ν → κ}
    {changed changed' : ω → ν → Bool} {old : List ω} {new : List ν}
    (h : ∀ o ∈ old, ∀ n, changed o n = changed' o n) :
    diffBy oldKey newKey changed old new = diffBy oldKey newKey changed' old new := by
  refine Prod.ext
    (congrArg (· ++ _) (congrArg (List.map newKey) (List.filter_congr fun n _ => ?_)))
    (List.filter_congr fun n _ => congrArg (_ || ·) ?_)
  all_goals
    beta_reduce
    cases hfind : (keyed oldKey old).find? (oldKey · = newKey n) with
    | none => rfl
    | some o => exact h o (mem_of_mem_keyed (List.mem_of_find?_eq_some hfind)) n

theorem diffBy_map (f : ω → ω') (g : ν → ν') (old : List ω) (new : List ν) :
    diffBy oldKey newKey changed (old.map f) (new.map g) =
      ((diffBy (fun o => oldKey (f o)) (fun n => newKey (g n)) (fun o n => changed (f o) (g n))
          old new).1,
        (diffBy (fun o => oldKey (f o)) (fun n => newKey (g n)) (fun o n => changed (f o) (g n))
          old new).2.map g) := by
  have hfind : ∀ (os : List ω) (n : ν), (os.map f).find? (oldKey · = newKey (g n)) =
      (os.find? fun o => oldKey (f o) = newKey (g n)).map f := fun _ _ => List.find?_map
  simp only [diffBy, keyed_map, List.filter_map, List.map_map, Function.comp_def, hfind]
  refine Prod.ext
    (congrArg (· ++ _) (congrArg (List.map _) (List.filter_congr fun n _ => ?_)))
    (congrArg (List.map g) (List.filter_congr fun n _ => congrArg (_ || ·) ?_))
  all_goals
    cases (keyed (fun o => oldKey (f o)) old).find? fun o => oldKey (f o) = newKey (g n) with
    | none => rfl
    | some o => rfl

/-- Two images of the old rows that compare alike to the new ones have the same difference. -/
theorem diffBy_images {ω₁ : Type} {oldKey₁ : ω₁ → κ} {newKey₁ : ν → κ} {changed₁ : ω₁ → ν → Bool}
    {f : ω → ω'} {g : ν → ν'} {old : List ω} {new : List ν} (f₁ : ω → ω₁)
    (hold : ∀ o, oldKey (f o) = oldKey₁ (f₁ o)) (hnew : ∀ n, newKey (g n) = newKey₁ n)
    (h : ∀ o ∈ old, ∀ n, changed (f o) (g n) = changed₁ (f₁ o) n) :
    diffBy oldKey newKey changed (old.map f) (new.map g) =
      ((diffBy oldKey₁ newKey₁ changed₁ (old.map f₁) new).1,
        (diffBy oldKey₁ newKey₁ changed₁ (old.map f₁) new).2.map g) := by
  have hid : diffBy oldKey₁ newKey₁ changed₁ (old.map f₁) (new.map id) =
      ((diffBy (fun o => oldKey₁ (f₁ o)) newKey₁ (fun o n => changed₁ (f₁ o) n) old new).1,
        (diffBy (fun o => oldKey₁ (f₁ o)) newKey₁ (fun o n => changed₁ (f₁ o) n) old new).2.map
          id) := diffBy_map f₁ id old new
  rw [List.map_id, List.map_id] at hid
  rw [diffBy_map, hid, diffBy_congr h]
  simp only [hold, hnew]

end

theorem Props.distinct_doc (p : Props) :
    (Value.obj (p.entries.map fun e => (e.1, .str e.2))).Distinct := by
  rw [distinct_obj, List.map_map]
  refine ⟨p.nodup, fun m hm => ?_⟩
  obtain ⟨e, -, rfl⟩ := List.mem_map.mp hm
  trivial

def NodeDict.entry (n : NodeDict) : NodeEntry where
  nodeId := n.nodeId
  type := some n.type
  subtype := n.subtype
  repo := some n.repo
  commitSha := some n.commitSha
  path := some n.path
  name := some n.name
  properties := .doc _ n.properties.distinct_doc

def EdgeDict.entry (e : EdgeDict) : EdgeEntry where
  fromNodeId := e.fromNodeId
  toNodeId := e.toNodeId
  type := e.type
  commitSha := some e.commitSha
  properties := .doc _ e.properties.distinct_doc

section
variable (text : Value → String)

/-- A row as it is loaded, with the text of its column. -/
def NodeRow.entry (r : NodeRow) : NodeEntry where
  nodeId := r.nodeId
  type := some r.type
  subtype := r.subtype.bind orNone
  repo := some r.repo
  commitSha := some r.commitSha
  path := r.path.bind orNone
  name := r.name.bind orNone
  properties := .text (text r.properties)

def edgeEntry (e : String × String × EdgeRow) : EdgeEntry where
  fromNodeId := e.1
  toNodeId := e.2.1
  type := e.2.2.type
  commitSha := some e.2.2.commitSha
  properties := .text (text e.2.2.properties)

end

/-- The edge of `liveEdges`. -/
def loadedEdge (e : String × String × EdgeRow) : OldEdge :=
  ⟨e.1, e.2.1, e.2.2.type, .doc e.2.2.properties⟩

/-- The difference that the indexer takes is this one. -/
theorem diffIndex_loaded {text : Value → String} {nodes : List NodeRow}
    {edges : List (String × String × EdgeRow)}
    (hnodes : ∀ r ∈ nodes, loadsText (text r.properties).toList = some r.properties)
    (hedges : ∀ e ∈ edges, loadsText (text e.2.2.properties).toList = some e.2.2.properties)
    (newNodes : List NodeDict) (newEdges : List EdgeDict) :
    diffIndex ⟨nodes.map (NodeRow.entry text), edges.map (edgeEntry text)⟩
        ⟨newNodes.map NodeDict.entry, newEdges.map EdgeDict.entry⟩ =
      let diff := diffFileIndex (nodes.map NodeRow.load)
        (edges.map loadedEdge) newNodes newEdges
      ⟨diff.insertNodes.map NodeDict.entry, diff.insertEdges.map EdgeDict.entry,
        diff.closeNodeIds, diff.closeEdgeKeys⟩ := by
  have hprops : ∀ (v : Value) (p : Props), loadsText (text v).toList = some v →
      entryPropsChanged (.text (text v)) (.doc _ p.distinct_doc) =
        propsChanged (.doc v) (.doc p.doc) := by
    intro v p hv
    have htext : (PropsField.text (text v)).normalize = dumps v := by
      rw [PropsField.normalize, hv]
    rw [entryPropsChanged, htext]
    rfl
  have hnode : ∀ r ∈ nodes, ∀ n : NodeDict,
      nodeEntryChanged (r.entry text) n.entry = nodeChanged r.load n := by
    intro r hr n
    rw [nodeEntryChanged, nodeChanged]
    refine congrArg₂ (· || ·) (decide_eq_decide.mpr ?_)
      (hprops r.properties n.properties (hnodes r hr))
    simp only [NodeRow.entry, NodeDict.entry, NodeRow.load, ne_eq, Option.some.injEq]
  have hedge : ∀ e ∈ edges, ∀ n : EdgeDict, edgeEntryChanged (edgeEntry text e) n.entry =
      propsChanged (.doc e.2.2.properties) (.doc n.properties.doc) :=
    fun e he n => hprops e.2.2.properties n.properties (hedges e he)
  have hn : diffBy NodeEntry.nodeId NodeEntry.nodeId nodeEntryChanged
        (nodes.map (NodeRow.entry text)) (newNodes.map NodeDict.entry) =
      ((diffNodes (nodes.map NodeRow.load) newNodes).1,
        (diffNodes (nodes.map NodeRow.load) newNodes).2.map NodeDict.entry) :=
    diffBy_images NodeRow.load (fun _ => rfl) (fun _ => rfl) hnode
  have he : diffBy EdgeEntry.key EdgeEntry.key edgeEntryChanged (edges.map (edgeEntry text))
        (newEdges.map EdgeDict.entry) =
      ((diffEdges (edges.map loadedEdge) newEdges).1,
        (diffEdges (edges.map loadedEdge) newEdges).2.map EdgeDict.entry) :=
    diffBy_images loadedEdge (fun _ => rfl) (fun _ => rfl) hedge
  rw [diffIndex, hn, he]
  rfl

/-! ## Text and objects -/

/-- Equal as values of the program: the order of keys does not matter. -/
def PropsField.Equal : PropsField → PropsField → Prop
  | .null, .null => True
  | .text s, .text t => s = t
  | .doc ms _, .doc ms' _ => (Value.obj ms).sortKeys = (Value.obj ms').sortKeys
  | _, _ => False

def PropsField.Blank : PropsField → Prop
  | .null => True
  | .text _ => False
  | .doc ms _ => ms = []

/-- The same, with null and empty properties identified and nothing else. -/
structure NodeEntry.SameButNull (a b : NodeEntry) : Prop where
  same : a.Same b
  properties : a.properties.Equal b.properties ∨ a.properties.Blank ∧ b.properties.Blank

structure EdgeEntry.SameButNull (a b : EdgeEntry) : Prop where
  same : a.Same b
  properties : a.properties.Equal b.properties ∨ a.properties.Blank ∧ b.properties.Blank

def functionEntry (properties : PropsField) : NodeEntry where
  nodeId := "python:function:load"
  type := some "Function"
  subtype := none
  repo := some "acme/app"
  commitSha := some "c1"
  path := some "app.py"
  name := some "load"
  properties := properties

def languageDoc : Members := [("language", .str "python")]

theorem distinct_languageDoc : (Value.obj languageDoc).Distinct :=
  (distinct_obj languageDoc).mpr ⟨List.nodup_singleton _, by simp [languageDoc, Value.Distinct]⟩

/-- The row of a function as it is loaded from the table, with its properties as text. -/
def loadedFunction : NodeEntry := functionEntry (.text (String.ofList (encode (.obj languageDoc))))

/-- The same function as the parser emits it. -/
def parsedFunction : NodeEntry :=
  functionEntry (.doc languageDoc distinct_languageDoc)

theorem loadedFunction_content :
    loadedFunction.properties.content = parsedFunction.properties.content := by
  have hload : loadsText (String.ofList (encode (.obj languageDoc))).toList =
      some (.obj languageDoc) := by
    rw [String.toList_ofList, loadsText_encode, dicts_of_distinct distinct_languageDoc]
  have hloaded : loadedFunction.properties = .text (String.ofList (encode (.obj languageDoc))) :=
    rfl
  have hparsed : parsedFunction.properties = .doc languageDoc distinct_languageDoc := rfl
  rw [hloaded, hparsed, PropsField.content, hload, PropsField.content]

end SpineFormal.Kg
