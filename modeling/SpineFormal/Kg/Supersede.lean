import SpineFormal.Kg.DiffEngine

/-!
# What the live rows of a file show after a new snapshot

The live rows of a file show a snapshot when there is one for each of its nodes
and no other. Applying the difference gives that exactly when no id of the
snapshot is held by a row that has to go: the id of a closed row, of a row of
another file, or of a row whose content has changed stays taken, and the insert
that should replace it does nothing.
-/

namespace SpineFormal.Kg

open Json
set_option autoImplicit false

/-! ## A snapshot of a file -/

/-- The nodes and edges a parse of a file gives. Every node carries the file's path. -/
structure Snapshot where
  repo : String
  path : String
  nodes : List NodeDict
  edges : List EdgeDict
  anchored : ∀ n ∈ nodes, n.repo = repo ∧ n.path = path

/-- The nodes by their ids: of two nodes with one id the last one counts. -/
def Snapshot.current (s : Snapshot) : List NodeDict := keyed NodeDict.nodeId s.nodes

/-- The difference of a snapshot to the live rows of its file. -/
def Graph.diffSnapshot (g : Graph) (s : Snapshot) : FileDiff :=
  let old := g.liveNodes s.repo s.path
  diffFileIndex (old.map NodeRow.load) (g.liveEdges (old.map NodeRow.nodeId)) s.nodes s.edges

/-- The row holds what the node says; a JSONB column does not keep the order of keys. -/
structure NodeRow.Shows (r : NodeRow) (n : NodeDict) : Prop where
  nodeId : r.nodeId = n.nodeId
  type : r.type = n.type
  name : r.name = some n.name
  path : r.path = some n.path
  properties : r.properties.sortKeys = n.properties.doc.sortKeys

/-- From `g` to `g'` the live rows of the file become the snapshot, and no row is lost. -/
structure Reflects (now : Int) (g g' : Graph) (s : Snapshot) : Prop where
  shown : ∀ n ∈ s.current, ∃ r ∈ g'.liveNodes s.repo s.path, r.Shows n
  only : ∀ r ∈ g'.liveNodes s.repo s.path, ∃ n ∈ s.current, r.Shows n
  single : ((g'.liveNodes s.repo s.path).map NodeRow.nodeId).Nodup
  kept : ∀ r ∈ g.nodes.rows, r ∈ g'.nodes.rows ∨
    (r.live = true ∧ { r with validTo := some now } ∈ g'.nodes.rows)

/-- The ids of the snapshot are free, or held by live rows of the file that say the same. -/
def Graph.Admits (g : Graph) (s : Snapshot) : Prop :=
  ∀ n ∈ s.current, ∀ r ∈ g.nodes.rows, r.nodeId = n.nodeId →
    r.live = true ∧ r.inFile s.repo s.path = true ∧ nodeChanged r.load n = false

/-! ## Rows and nodes -/

theorem Props.sortKeys_jsonb (p : Props) : p.doc.jsonb.sortKeys = p.doc.sortKeys := by
  have hdistinct : p.doc.Distinct := by
    apply (distinct_obj _).mpr
    constructor
    · simpa [List.map_map, Function.comp_def] using p.nodup
    · intro m hm
      obtain ⟨e, _, rfl⟩ := List.mem_map.mp hm
      trivial
  apply (jsonb_sortKeys_iff hdistinct).mpr
  apply (floatsStable_obj _).mpr
  intro m hm
  obtain ⟨e, _, rfl⟩ := List.mem_map.mp hm
  trivial

theorem NodeDict.row_shows (n : NodeDict) (id : Nat) : (n.row id).Shows n :=
  ⟨rfl, rfl, rfl, rfl, n.properties.sortKeys_jsonb⟩

theorem eq_of_bind_orNone {field : Option String} {x : String} (h : field.bind orNone = some x) :
    field = some x := by
  obtain ⟨y, hy, hx⟩ := Option.bind_eq_some_iff.mp h
  unfold orNone at hx
  split at hx
  · cases hx
  · rw [hy, hx]

theorem NodeRow.shows_of_unchanged {r : NodeRow} {n : NodeDict} (hid : r.nodeId = n.nodeId)
    (h : nodeChanged r.load n = false) : r.Shows n := by
  obtain ⟨hfields, hprops⟩ := Bool.or_eq_false_iff.mp h
  have hfields := of_decide_eq_false hfields
  simp only [not_or, not_not] at hfields
  obtain ⟨htype, _, hname, hpath, _⟩ := hfields
  refine ⟨hid, htype, eq_of_bind_orNone hname, eq_of_bind_orNone hpath, ?_⟩
  have hdumps : dumps r.properties = dumps n.properties.doc :=
    Decidable.not_not.mp (of_decide_eq_false hprops)
  exact encode_injective hdumps

theorem nodup_liveNodes (g : Graph) (repo path : String) :
    ((g.liveNodes repo path).map NodeRow.nodeId).Nodup :=
  g.nodes.unique.sublist (List.filter_sublist.map _)

theorem Snapshot.current_unique (s : Snapshot) {n n' : NodeDict} (hn : n ∈ s.current)
    (hn' : n' ∈ s.current) (hid : n.nodeId = n'.nodeId) : n = n' :=
  List.inj_on_of_nodup_map (nodup_keys_keyed s.nodes) hn hn' hid

/-! ## The difference to a snapshot -/

section
variable {now : Int} {g : Graph} {s : Snapshot} {r : NodeRow} {n : NodeDict}

theorem mem_loaded_iff {o : OldNode} :
    o ∈ keyed OldNode.nodeId ((g.liveNodes s.repo s.path).map NodeRow.load) ↔
      ∃ r ∈ g.liveNodes s.repo s.path, r.load = o := by
  have hkeys : ((g.liveNodes s.repo s.path).map NodeRow.load).map OldNode.nodeId =
      (g.liveNodes s.repo s.path).map NodeRow.nodeId := by
    rw [List.map_map]
    rfl
  rw [mem_keyed_iff (hkeys ▸ nodup_liveNodes g s.repo s.path), List.mem_map]

theorem mem_loaded_ids {k : String} :
    k ∈ ((g.liveNodes s.repo s.path).map NodeRow.load).map OldNode.nodeId ↔
      ∃ r ∈ g.liveNodes s.repo s.path, r.nodeId = k := by
  rw [List.map_map, List.mem_map]
  rfl

/-- A live row of the file is left open exactly when it shows a node of the snapshot unchanged. -/
theorem notMem_close_iff (hr : r ∈ g.liveNodes s.repo s.path) :
    r.nodeId ∉ (g.diffSnapshot s).closeNodeIds ↔
      ∃ n ∈ s.current, n.nodeId = r.nodeId ∧ nodeChanged r.load n = false := by
  rw [Graph.diffSnapshot, diffFileIndex, diffNodes, mem_diffBy_close_iff, mem_loaded_ids,
    ← keys_keyed s.nodes]
  constructor
  · intro h
    rw [not_or, not_and, not_not] at h
    obtain ⟨n, hn, hid⟩ := List.mem_map.mp (h.2 ⟨r, hr, rfl⟩)
    refine ⟨n, hn, hid, ?_⟩
    rw [← Bool.not_eq_true]
    intro hchanged
    exact h.1 ⟨n, hn, r.load, mem_loaded_iff.mpr ⟨r, hr, rfl⟩, hid, rfl, hchanged⟩
  · rintro ⟨n, hn, hid, hsame⟩ (⟨n', hn', o, ho, hid', hold, hchanged⟩ | ⟨_, hgone⟩)
    · obtain ⟨r', hr', rfl⟩ := mem_loaded_iff.mp ho
      rw [s.current_unique hn' hn (hid'.trans hid.symm),
        g.row_unique (mem_liveNodes.mp hr').1 (mem_liveNodes.mp hr).1 hold, hsame] at hchanged
      cases hchanged
    · exact hgone (hid ▸ List.mem_map_of_mem hn)

theorem insert_current (h : n ∈ (g.diffSnapshot s).insertNodes) : n ∈ s.current :=
  (mem_diffBy_insert_iff.mp h).1

theorem insert_of_fresh (hn : n ∈ s.current) (h : n.nodeId ∉ g.nodes.rows.map NodeRow.nodeId) :
    n ∈ (g.diffSnapshot s).insertNodes := by
  apply mem_diffBy_insert_iff.mpr
  refine ⟨hn, .inl fun hold => h ?_⟩
  obtain ⟨r, hr, hid⟩ := mem_loaded_ids.mp hold
  exact hid ▸ List.mem_map_of_mem (mem_liveNodes.mp hr).1

theorem current_anchored (hn : n ∈ s.current) (id : Nat) :
    (n.row id).inFile s.repo s.path = true := by
  obtain ⟨hrepo, hpath⟩ := s.anchored n (mem_of_mem_keyed hn)
  exact decide_eq_true ⟨hrepo, congrArg some hpath⟩

/-! ## After the transaction -/

theorem live_after (hadmits : g.Admits s) (hn : n ∈ s.current) :
    ∃ r ∈ (applyDiff now g (g.diffSnapshot s)).liveNodes s.repo s.path, r.Shows n := by
  by_cases hheld : n.nodeId ∈ g.nodes.rows.map NodeRow.nodeId
  · obtain ⟨r, hr, hid⟩ := List.mem_map.mp hheld
    obtain ⟨hlive, hfile, hsame⟩ := hadmits n hn r hr hid
    have hopen : r.nodeId ∉ (g.diffSnapshot s).closeNodeIds :=
      (notMem_close_iff (mem_liveNodes.mpr ⟨hr, hlive, hfile⟩)).mpr ⟨n, hn, hid.symm, hsame⟩
    have hstays : r.close now _ ∈ (applyDiff now g (g.diffSnapshot s)).nodes.rows :=
      applyDiff_closed hr
    rw [NodeRow.close_of_notMem hopen] at hstays
    exact ⟨r, mem_liveNodes.mpr ⟨hstays, hlive, hfile⟩, NodeRow.shows_of_unchanged hid hsame⟩
  · obtain ⟨r, hr, hid⟩ : ∃ r ∈ (applyDiff now g (g.diffSnapshot s)).nodes.rows, _ :=
      applyDiff_present (insert_of_fresh hn hheld)
    refine ⟨r, ?_⟩
    rcases applyDiff_cases hr with ⟨r₀, hr₀, rfl⟩ | ⟨n', hn', id, rfl, _⟩
    · rw [NodeRow.close_nodeId] at hid
      exact absurd (hid ▸ List.mem_map_of_mem hr₀) hheld
    · obtain rfl := s.current_unique (insert_current hn') hn hid
      exact ⟨mem_liveNodes.mpr ⟨hr, rfl, current_anchored hn id⟩, n'.row_shows id⟩

/-- No live row of the file is left that shows no node of the snapshot. -/
theorem shows_after (hr : r ∈ (applyDiff now g (g.diffSnapshot s)).liveNodes s.repo s.path) :
    ∃ n ∈ s.current, r.Shows n := by
  obtain ⟨hmem, hlive, hfile⟩ := mem_liveNodes.mp hr
  rcases applyDiff_cases hmem with ⟨r₀, hr₀, rfl⟩ | ⟨n, hn, id, rfl, _⟩
  · obtain ⟨hsame, hopen⟩ := NodeRow.close_of_live hlive
    rw [NodeRow.close_inFile] at hfile
    rw [hsame] at hlive ⊢
    obtain ⟨n, hn, hid, hunchanged⟩ :=
      (notMem_close_iff (mem_liveNodes.mpr ⟨hr₀, hlive, hfile⟩)).mp hopen
    exact ⟨n, hn, NodeRow.shows_of_unchanged hid.symm hunchanged⟩
  · exact ⟨n, insert_current hn, n.row_shows id⟩

theorem kept_after (diff : FileDiff) (hr : r ∈ g.nodes.rows) :
    r ∈ (applyDiff now g diff).nodes.rows ∨
      (r.live = true ∧ { r with validTo := some now } ∈ (applyDiff now g diff).nodes.rows) := by
  have hstays : r.close now _ ∈ (applyDiff now g diff).nodes.rows := applyDiff_closed hr
  unfold NodeRow.close at hstays
  split at hstays
  · rename_i hclosed
    exact .inr ⟨Option.isNone_iff_eq_none.mpr hclosed.2, hstays⟩
  · exact .inl hstays

/-- A row that holds an id of the snapshot has to be the live row that shows it. -/
theorem admits_of_reflects (h : Reflects now g (applyDiff now g (g.diffSnapshot s)) s) :
    g.Admits s := by
  intro n hn r hr hid
  obtain ⟨r', hr', hshows⟩ := h.shown n hn
  obtain ⟨hmem, hlive, hfile⟩ := mem_liveNodes.mp hr'
  have heq : r' = r.close now (g.diffSnapshot s).closeNodeIds :=
    Graph.row_unique _ hmem (applyDiff_closed hr) (by rw [hshows.nodeId, NodeRow.close_nodeId, hid])
  subst heq
  obtain ⟨hsame, hopen⟩ := NodeRow.close_of_live hlive
  rw [NodeRow.close_inFile] at hfile
  rw [hsame] at hlive
  refine ⟨hlive, hfile, ?_⟩
  obtain ⟨n', hn', hid', hunchanged⟩ :=
    (notMem_close_iff (mem_liveNodes.mpr ⟨hr, hlive, hfile⟩)).mp hopen
  rw [← s.current_unique hn' hn (hid'.trans hid)]
  exact hunchanged

end

/-- A function of `auth/session.py`, with the lines it stands on. -/
def loginAt (lines : String) : NodeDict :=
  ⟨"python:function:auth.session.auth.session.login", "Function", none, "spinedev", "4f1c2ab",
    "auth/session.py", "login", ⟨[("lines", lines), ("language", "python")], by simp⟩⟩

def loginGraph : Graph := ⟨⟨[(loginAt "1-2").row 1], 2, List.nodup_singleton _⟩, []⟩

def loginSnapshot (lines : String) : Snapshot :=
  ⟨"spinedev", "auth/session.py", [loginAt lines], [], by simp [loginAt]⟩

end SpineFormal.Kg
