import SpineFormal.Kg.Indexer

/-!
# The indexed paths of a run

The paths that have live rows are followed change by change through an
incremental run, and compared with those of a cold start at the later commit.
A path is indexed as long as the root node of its file is live: symbols share
ids across files, roots do not.
-/

namespace SpineFormal.Kg

set_option autoImplicit false

/-! ## The nodes of a file -/

/-- The node can come from a parse of the file. -/
inductive FileNode (repo path : String) : NodeDict → Prop where
  | root {cfg : ExtractorConfig} {field : NameField} (sha : String) :
    pickExtractor path = some cfg → cfg.fileRoot = some field →
      FileNode repo path (rootNode cfg repo sha path field)
  | symbol {cfg : ExtractorConfig} (sha : String) (sym : SourceSymbol) :
    pickExtractor path = some cfg → FileNode repo path (symbolNode cfg repo sha path sym)

theorem FileNode.anchored {repo path : String} {n : NodeDict} (h : FileNode repo path n) :
    n.repo = repo ∧ n.path = path := by
  cases h <;> exact ⟨rfl, rfl⟩

section
variable {P : Parser} {repo sha path path' : String} {cfg cfg' : ExtractorConfig}
  {field : NameField} {n : NodeDict}

theorem FileNode.eq_root (h : FileNode repo path n) (hpick : pickExtractor path' = some cfg')
    (hroot : cfg'.fileRoot = some field) (hid : n.nodeId = rootId cfg' path' field) :
    path = path' ∧ ∃ sha, n = rootNode cfg' repo sha path' field := by
  cases h with
  | root sha hp hr =>
    obtain rfl := rootId_inj hp hpick hr hroot hid
    obtain rfl := Option.some_inj.mp (hp.symm.trans hpick)
    obtain rfl := Option.some_inj.mp (hr.symm.trans hroot)
    exact ⟨rfl, sha, rfl⟩
  | symbol sha sym _ => exact absurd hid (symbolId_ne_rootId _ _ _ _ _ _ _ _)

theorem fileNode_of_parse (hpick : pickExtractor path = some cfg) {source : Option Bytes}
    (h : n ∈ (P.parseFile repo sha cfg path source).1) : FileNode repo path n := by
  cases source with
  | none => cases h
  | some source =>
    rcases List.mem_append.mp h with h | h
    · obtain ⟨field, hroot, rfl⟩ := Option.map_eq_some_iff.mp (Option.mem_toList.mp h)
      exact .root sha hpick hroot
    · obtain ⟨sym, _, rfl⟩ := List.mem_map.mp h
      exact .symbol sha sym hpick

theorem root_mem_parse (hroot : cfg.fileRoot = some field) (source : Bytes) :
    rootNode cfg repo sha path field ∈ (P.parseFile repo sha cfg path (some source)).1 := by
  apply List.mem_append_left
  rw [hroot]
  exact List.mem_singleton_self _

end

/-! ## The invariant -/

/-- The paths in `S` are indexed. A path that is neither in `S` nor `retired` has left no trace:
the id of its root is still free. The rows of a `pending` path are yet to be loaded. -/
structure Indexed (repo : String) (retired pending S : String → Prop) (t : NodeTable) : Prop where
  origin : ∀ r ∈ t.rows, ∃ path n, FileNode repo path n ∧
    ∃ id validTo, r = { n.row id with validTo := validTo }
  clean : ∀ r ∈ t.rows, ∀ path, pending path → r.inFile repo path = true → r.Clean
  live : ∀ r ∈ t.rows, r.live = true → ∃ path, S path ∧ r.inFile repo path = true
  rooted : ∀ path, S path → ∃ cfg field, pickExtractor path = some cfg ∧
    cfg.fileRoot = some field ∧ ∃ r ∈ t.rows, r.live = true ∧ r.nodeId = rootId cfg path field
  fresh : ∀ path cfg field, ¬ S path → ¬ retired path → pickExtractor path = some cfg →
    cfg.fileRoot = some field → ∀ r ∈ t.rows, r.nodeId ≠ rootId cfg path field

theorem inFile_iff {repo path : String} {r : NodeRow} :
    r.inFile repo path = true ↔ r.repo = repo ∧ r.path = some path := decide_eq_true_iff

namespace Indexed
variable {repo path : String} {retired pending pending' S : String → Prop} {t : NodeTable}
  {cfg : ExtractorConfig} {field : NameField} {r : NodeRow} {now : Int}

theorem row_eq_root (h : Indexed repo retired pending S t) (hpick : pickExtractor path = some cfg)
    (hroot : cfg.fileRoot = some field) (hr : r ∈ t.rows) (hid : r.nodeId = rootId cfg path field) :
    ∃ sha id validTo, r = { (rootNode cfg repo sha path field).row id with validTo := validTo } := by
  obtain ⟨path', n, hn, id, validTo, rfl⟩ := h.origin r hr
  obtain ⟨rfl, sha, rfl⟩ := hn.eq_root hpick hroot hid
  exact ⟨sha, id, validTo, rfl⟩

theorem inFile_of_root (h : Indexed repo retired pending S t) (hpick : pickExtractor path = some cfg)
    (hroot : cfg.fileRoot = some field) (hr : r ∈ t.rows) (hid : r.nodeId = rootId cfg path field) :
    r.inFile repo path = true := by
  obtain ⟨sha, id, validTo, rfl⟩ := h.row_eq_root hpick hroot hr hid
  exact inFile_iff.mpr ⟨rfl, rfl⟩

theorem live_iff (h : Indexed repo retired pending S t) (path : String) :
    (∃ r ∈ t.rows, r.live = true ∧ r.inFile repo path = true) ↔ S path := by
  constructor
  · rintro ⟨r, hr, hlive, hfile⟩
    obtain ⟨path', hS, hfile'⟩ := h.live r hr hlive
    have hpath := (inFile_iff.mp hfile).2.symm.trans (inFile_iff.mp hfile').2
    exact Option.some_inj.mp hpath ▸ hS
  · intro hS
    obtain ⟨cfg, field, hpick, hroot, r, hr, hlive, hid⟩ := h.rooted path hS
    exact ⟨r, hr, hlive, h.inFile_of_root hpick hroot hr hid⟩

theorem origin_close (h : Indexed repo retired pending S t) (hr : r ∈ t.rows) (ids : List String) :
    ∃ path n, FileNode repo path n ∧
      ∃ id validTo, r.close now ids = { n.row id with validTo := validTo } := by
  obtain ⟨path, n, hn, id, validTo, rfl⟩ := h.origin r hr
  refine ⟨path, n, hn, id, ?_⟩
  unfold NodeRow.close
  split
  · exact ⟨some now, rfl⟩
  · exact ⟨validTo, rfl⟩

theorem clean_close (h : Indexed repo retired pending S t) (hr : r ∈ t.rows) (ids : List String)
    (hpending : pending path) (hfile : (r.close now ids).inFile repo path = true) :
    (r.close now ids).Clean := by
  rw [NodeRow.close_inFile] at hfile
  have hclean := h.clean r hr path hpending hfile
  unfold NodeRow.close
  split
  · exact hclean
  · exact hclean

theorem root_stays (h : Indexed repo retired pending S t) {ids : List String} (hS : S path)
    (hids : ∀ cfg field, pickExtractor path = some cfg → cfg.fileRoot = some field →
      rootId cfg path field ∉ ids) :
    ∃ cfg field, pickExtractor path = some cfg ∧ cfg.fileRoot = some field ∧
      ∃ r ∈ (t.closeNodes now ids).rows, r.live = true ∧ r.nodeId = rootId cfg path field := by
  obtain ⟨cfg, field, hpick, hroot, r, hr, hlive, hid⟩ := h.rooted path hS
  refine ⟨cfg, field, hpick, hroot, r, ?_, hlive, hid⟩
  have hsame : r.close now ids = r := NodeRow.close_of_notMem (hid ▸ hids cfg field hpick hroot)
  exact hsame ▸ List.mem_map_of_mem hr

/-- Closing rows of one file keeps the roots of all others. -/
theorem other_root_notMem (h : Indexed repo retired pending S t) {ids : List String} {other : String}
    (hids : ∀ id ∈ ids, ∃ r ∈ t.rows, r.nodeId = id ∧ r.inFile repo path = true)
    (hne : other ≠ path) (hpick : pickExtractor other = some cfg)
    (hroot : cfg.fileRoot = some field) : rootId cfg other field ∉ ids := by
  intro hmem
  obtain ⟨r, hr, hid, hfile⟩ := hids _ hmem
  have hother := (inFile_iff.mp (h.inFile_of_root hpick hroot hr hid)).2
  exact hne (Option.some_inj.mp (hother.symm.trans (inFile_iff.mp hfile).2))

/-- After an update a row is an old one, closed or not, or comes from a node of the file. -/
theorem updated_cases {ids : List String} {ns : List NodeDict}
    (hr : r ∈ ((t.closeNodes now ids).insertNodes ns).rows) :
    (∃ r₀ ∈ t.rows, r = r₀.close now ids) ∨ ∃ n ∈ ns, ∃ id, r = n.row id := by
  rcases insertNodes_cases hr with hold | ⟨n, hn, id, rfl, _⟩
  · obtain ⟨r₀, hr₀, rfl⟩ := List.mem_map.mp hold
    exact .inl ⟨r₀, hr₀, rfl⟩
  · exact .inr ⟨n, hn, id, rfl⟩

theorem root_kept (h : Indexed repo retired pending S t) (hpick : pickExtractor path = some cfg)
    (hroot : cfg.fileRoot = some field) {ids : List String}
    (hids : ∀ id ∈ ids, ∃ r ∈ t.rows, r.nodeId = id ∧ r.inFile repo path = true)
    (hkeep : rootId cfg path field ∉ ids) {p : String} (hS : S p) :
    ∃ cfg' field', pickExtractor p = some cfg' ∧ cfg'.fileRoot = some field' ∧
      ∃ r ∈ (t.closeNodes now ids).rows, r.live = true ∧ r.nodeId = rootId cfg' p field' := by
  apply h.root_stays hS
  intro cfg' field' hpick' hroot'
  by_cases heq : p = path
  · subst heq
    obtain rfl := Option.some_inj.mp (hpick.symm.trans hpick')
    obtain rfl := Option.some_inj.mp (hroot.symm.trans hroot')
    exact hkeep
  · exact h.other_root_notMem hids heq hpick' hroot'

theorem root_inserted (h : Indexed repo retired pending S t)
    (hpick : pickExtractor path = some cfg) (hroot : cfg.fileRoot = some field) (hS : ¬ S path)
    (hcurrent : ¬ retired path) (ids : List String) {ns : List NodeDict} {n : NodeDict}
    (hn : n ∈ ns) (hnid : n.nodeId = rootId cfg path field) :
    ∃ r ∈ ((t.closeNodes now ids).insertNodes ns).rows,
      r.live = true ∧ r.nodeId = rootId cfg path field := by
  obtain ⟨r, hr, hid⟩ : ∃ r ∈ ((t.closeNodes now ids).insertNodes ns).rows, _ :=
    insertNodes_present hn
  refine ⟨r, hr, ?_, hid.trans hnid⟩
  rcases updated_cases hr with ⟨r₀, hr₀, rfl⟩ | ⟨n', _, id, rfl⟩
  · rw [NodeRow.close_nodeId] at hid
    exact absurd (hid.trans hnid) (h.fresh path cfg field hS hcurrent hpick hroot r₀ hr₀)
  · rfl

/-- The nodes of a file are put in place of rows of the same file. -/
theorem update (h : Indexed repo retired pending S t) (hpick : pickExtractor path = some cfg)
    (hroot : cfg.fileRoot = some field) (hcurrent : ¬ retired path) {ids : List String}
    (hids : ∀ id ∈ ids, ∃ r ∈ t.rows, r.nodeId = id ∧ r.inFile repo path = true)
    (hkeep : rootId cfg path field ∉ ids) {ns : List NodeDict}
    (hns : ∀ n ∈ ns, FileNode repo path n)
    (hpresent : S path ∨ ∃ n ∈ ns, n.nodeId = rootId cfg path field)
    (hpending : ∀ p, pending' p → pending p) (hclean : pending' path → ∀ n ∈ ns, (n.row 0).Clean) :
    Indexed repo retired pending' (fun p => p = path ∨ S p)
      ((t.closeNodes now ids).insertNodes ns) := by
  refine ⟨?_, ?_, ?_, ?_, ?_⟩
  · intro r hr
    rcases updated_cases hr with ⟨r₀, hr₀, rfl⟩ | ⟨n, hn, id, rfl⟩
    · exact h.origin_close hr₀ ids
    · exact ⟨path, n, hns n hn, id, none, rfl⟩
  · intro r hr p hp hfile
    rcases updated_cases hr with ⟨r₀, hr₀, rfl⟩ | ⟨n, hn, id, rfl⟩
    · exact h.clean_close hr₀ ids (hpending p hp) hfile
    · have hpath := (inFile_iff.mp hfile).2.symm.trans (congrArg some (hns n hn).anchored.2)
      exact hclean (Option.some_inj.mp hpath ▸ hp) n hn
  · intro r hr hlive
    rcases updated_cases hr with ⟨r₀, hr₀, rfl⟩ | ⟨n, hn, id, rfl⟩
    · obtain ⟨hsame, _⟩ := NodeRow.close_of_live hlive
      rw [hsame] at hlive ⊢
      obtain ⟨p, hS, hfile⟩ := h.live r₀ hr₀ hlive
      exact ⟨p, .inr hS, hfile⟩
    · obtain ⟨hrepo, hpath⟩ := (hns n hn).anchored
      exact ⟨path, .inl rfl, inFile_iff.mpr ⟨hrepo, congrArg some hpath⟩⟩
  · intro p hp
    by_cases hS : S p
    · obtain ⟨cfg', field', hpick', hroot', r, hr, hlive, hid⟩ :=
        h.root_kept hpick hroot hids hkeep hS
      exact ⟨cfg', field', hpick', hroot', r, insertNodes_keeps ns hr, hlive, hid⟩
    · obtain rfl : p = path := hp.resolve_right hS
      obtain ⟨n, hn, hnid⟩ := hpresent.resolve_left hS
      exact ⟨cfg, field, hpick, hroot, h.root_inserted hpick hroot hS hcurrent ids hn hnid⟩
  · intro p cfg' field' hp hcurrent' hpick' hroot' r hr hid
    rw [not_or] at hp
    rcases updated_cases hr with ⟨r₀, hr₀, rfl⟩ | ⟨n, hn, id, rfl⟩
    · rw [NodeRow.close_nodeId] at hid
      exact h.fresh p cfg' field' hp.2 hcurrent' hpick' hroot' r₀ hr₀ hid
    · exact hp.1 ((hns n hn).eq_root hpick' hroot' hid).1.symm

theorem remove (h : Indexed repo retired pending S t) (hretired : retired path) {ids : List String}
    (hids : ∀ id ∈ ids, ∃ r ∈ t.rows, r.nodeId = id ∧ r.inFile repo path = true)
    (hall : ∀ r ∈ t.rows, r.live = true → r.inFile repo path = true → r.nodeId ∈ ids)
    (hpending : ∀ p, pending' p → pending p) :
    Indexed repo retired pending' (fun p => S p ∧ p ≠ path) (t.closeNodes now ids) := by
  refine ⟨?_, ?_, ?_, ?_, ?_⟩
  · intro r hr
    obtain ⟨r₀, hr₀, rfl⟩ := List.mem_map.mp hr
    exact h.origin_close hr₀ ids
  · intro r hr p hp hfile
    obtain ⟨r₀, hr₀, rfl⟩ := List.mem_map.mp hr
    exact h.clean_close hr₀ ids (hpending p hp) hfile
  · intro r hr hlive
    obtain ⟨r₀, hr₀, rfl⟩ := List.mem_map.mp hr
    obtain ⟨hsame, hopen⟩ := NodeRow.close_of_live hlive
    rw [hsame] at hlive ⊢
    obtain ⟨p, hS, hfile⟩ := h.live r₀ hr₀ hlive
    refine ⟨p, ⟨hS, ?_⟩, hfile⟩
    rintro rfl
    exact hopen (hall r₀ hr₀ hlive hfile)
  · rintro p ⟨hS, hne⟩
    exact h.root_stays hS fun cfg' field' hpick' hroot' =>
      h.other_root_notMem hids hne hpick' hroot'
  · intro p cfg' field' hp hcurrent hpick' hroot' r hr hid
    obtain ⟨r₀, hr₀, rfl⟩ := List.mem_map.mp hr
    rw [NodeRow.close_nodeId] at hid
    have hne : p ≠ path := fun heq => hcurrent (heq ▸ hretired)
    exact h.fresh p cfg' field' (fun hS => hp ⟨hS, hne⟩) hcurrent hpick' hroot' r₀ hr₀ hid

end Indexed

/-! ## One change -/

/-- The properties of a root come back from the table as they were parsed. -/
theorem rootProps_reload (l : Language) :
    normalizeProps (loadProps
        (((jsonbText (Props.empty.setdefault "language" l.slug).doc.jsonb).splitOn '|').headD [])) =
      normalizeProps (.doc (Props.empty.setdefault "language" l.slug).doc) := by
  cases l <;> decide +kernel

theorem orNone_of_ne {s : String} (h : s ≠ "") : orNone s = some s := if_neg h

section
variable {P : Parser} {repo path head : String} {cfg : ExtractorConfig} {field : NameField}
  {retired pending pending' S : String → Prop} {g : Graph} {now : Int}

theorem root_unchanged (hpick : pickExtractor path = some cfg) (hroot : cfg.fileRoot = some field)
    (sha sha' : String) (id : Nat) (validTo : Option Int) :
    nodeChanged { (rootNode cfg repo sha path field).row id with validTo := validTo }.reload
      (rootNode cfg repo sha' path field) = false := by
  apply Bool.or_eq_false_iff.mpr
  constructor
  · apply decide_eq_false
    simp [NodeRow.reload, NodeRow.load, NodeDict.row, rootNode,
      orNone_of_ne (synthName_ne_empty hpick hroot), orNone_of_ne (picked_ne_empty hpick)]
  · simp only [propsChanged, NodeRow.reload, NodeDict.row, rootNode,
      rootProps_reload cfg.language, ne_eq, not_true_eq_false, decide_false]

theorem Indexed.loaded_eq (h : Indexed repo retired pending S g.nodes) (hpath : pending path) :
    (g.loadExisting repo path).1 = (g.liveNodes repo path).map NodeRow.reload := by
  apply loadExisting_clean
  intro r hr
  obtain ⟨hmem, _, hfile⟩ := mem_liveNodes.mp hr
  exact h.clean r hmem path hpath hfile

theorem Indexed.mem_loadedIds (h : Indexed repo retired pending S g.nodes) (hpath : pending path)
    {id : String} : id ∈ (g.loadExisting repo path).1.map OldNode.nodeId ↔
      ∃ r ∈ g.nodes.rows, (r.live = true ∧ r.inFile repo path = true) ∧ r.nodeId = id := by
  rw [h.loaded_eq hpath, List.map_map, List.mem_map]
  constructor
  · rintro ⟨r, hr, hid⟩
    obtain ⟨hmem, hlive⟩ := mem_liveNodes.mp hr
    exact ⟨r, hmem, hlive, hid⟩
  · rintro ⟨r, hmem, hlive, hid⟩
    exact ⟨r, mem_liveNodes.mpr ⟨hmem, hlive⟩, hid⟩

theorem Indexed.close_file (h : Indexed repo retired pending S g.nodes) (hpath : pending path)
    (hretired : retired path) (hpending : ∀ p, pending' p → pending p) :
    Indexed repo retired pending' (fun p => S p ∧ p ≠ path) (applyDiff now g (closeFileIndex
      (g.loadExisting repo path).1 (g.loadExisting repo path).2)).nodes := by
  refine h.remove hretired ?_ ?_ hpending
  · intro id hid
    obtain ⟨r, hr, ⟨_, hfile⟩, hid⟩ := (h.mem_loadedIds hpath).mp hid
    exact ⟨r, hr, hid, hfile⟩
  · intro r hr hlive hfile
    exact (h.mem_loadedIds hpath).mpr ⟨r, hr, ⟨hlive, hfile⟩, rfl⟩

theorem Indexed.add_file (h : Indexed repo retired pending S g.nodes) {ns : List NodeDict}
    (es : List EdgeDict) (hpick : pickExtractor path = some cfg)
    (hroot : cfg.fileRoot = some field) (hcurrent : ¬ retired path)
    (hns : ∀ n ∈ ns, FileNode repo path n)
    (hpresent : ∃ n ∈ ns, n.nodeId = rootId cfg path field)
    (hpending : ∀ p, pending' p → pending p) (hdone : ¬ pending' path) :
    Indexed repo retired pending' (fun p => p = path ∨ S p)
      (applyDiff now g (replaceFileIndex ns es)).nodes :=
  h.update hpick hroot hcurrent (fun _ hid => absurd hid List.not_mem_nil) List.not_mem_nil hns
    (.inr hpresent) hpending fun hp => absurd hp hdone

theorem Indexed.supersede_file (h : Indexed repo retired pending S g.nodes) (hpath : pending path)
    {ns : List NodeDict} (es : List EdgeDict) (hpick : pickExtractor path = some cfg)
    (hroot : cfg.fileRoot = some field) (hcurrent : ¬ retired path)
    (hns : ∀ n ∈ ns, FileNode repo path n)
    (hpresent : ∃ n ∈ ns, n.nodeId = rootId cfg path field)
    (hpending : ∀ p, pending' p → pending p) (hdone : ¬ pending' path) :
    Indexed repo retired pending' (fun p => p = path ∨ S p) (applyDiff now g (diffFileIndex
      (g.loadExisting repo path).1 (g.loadExisting repo path).2 ns es)).nodes := by
  have hkeyed : rootId cfg path field ∈ (keyed NodeDict.nodeId ns).map NodeDict.nodeId := by
    rw [keys_keyed]
    obtain ⟨n, hn, hid⟩ := hpresent
    exact hid ▸ List.mem_map_of_mem hn
  refine h.update hpick hroot hcurrent ?_ ?_ ?_ ?_ hpending fun hp => absurd hp hdone
  · intro id hid
    have hloaded : id ∈ (g.loadExisting repo path).1.map OldNode.nodeId := by
      rcases mem_diffBy_close_iff.mp hid with ⟨_, _, o, ho, _, rfl, _⟩ | ⟨hold, _⟩
      · exact List.mem_map_of_mem (mem_of_mem_keyed ho)
      · exact hold
    obtain ⟨r, hr, ⟨_, hfile⟩, hid⟩ := (h.mem_loadedIds hpath).mp hloaded
    exact ⟨r, hr, hid, hfile⟩
  · intro hid
    rcases mem_diffBy_close_iff.mp hid with ⟨n, hn, o, ho, hnid, hoid, hchanged⟩ | ⟨_, hgone⟩
    · obtain ⟨_, sha', rfl⟩ := (hns n (mem_of_mem_keyed hn)).eq_root hpick hroot hnid
      have ho := mem_of_mem_keyed ho
      rw [h.loaded_eq hpath] at ho
      obtain ⟨r, hr, rfl⟩ := List.mem_map.mp ho
      obtain ⟨sha, id, validTo, rfl⟩ := h.row_eq_root hpick hroot (mem_liveNodes.mp hr).1 hoid
      rw [root_unchanged hpick hroot] at hchanged
      cases hchanged
    · rw [keys_keyed] at hkeyed
      exact hgone hkeyed
  · intro n hn
    exact hns n (mem_of_mem_keyed (mem_diffBy_insert_iff.mp hn).1)
  · by_cases hS : S path
    · exact .inl hS
    · right
      obtain ⟨n, hn, hid⟩ := List.mem_map.mp hkeyed
      refine ⟨n, mem_diffBy_insert_iff.mpr ⟨hn, .inl fun hold => ?_⟩, hid⟩
      obtain ⟨r, hr, _, hrid⟩ := (h.mem_loadedIds hpath).mp hold
      exact h.fresh path cfg field hS hcurrent hpick hroot r hr (hrid.trans hid)

/-- A line of the change is taken up: its path is printed as it is and has an extractor. -/
def Change.seen (c : Change) : Prop :=
  unquoted c.target = true ∧ (pickExtractor c.target).isSome = true

/-- The indexed paths after a change. -/
def Change.next (c : Change) (S : String → Prop) (p : String) : Prop :=
  (c.seen ∧ c.letter ≠ 'D' ∧ p = c.target) ∨
    (S p ∧ ¬ (c.seen ∧ c.letter = 'D' ∧ p = c.target))

/-- The paths whose rows are loaded for the changes. -/
def awaited (changes : List Change) (p : String) : Prop :=
  ∃ c ∈ changes, c.seen ∧ c.target = p

theorem Indexed.congr {S' : String → Prop} {table : NodeTable}
    (h : Indexed repo retired pending S table) (hS : ∀ p, S p ↔ S' p)
    (hpending : ∀ p, pending' p → pending p) : Indexed repo retired pending' S' table := by
  obtain rfl : S = S' := funext fun p => propext (hS p)
  exact ⟨h.origin, fun r hr p hp => h.clean r hr p (hpending p hp), h.live, h.rooted, h.fresh⟩

theorem parse_nodes {t : Tree} (hmem : path ∈ t.paths) (hpick : pickExtractor path = some cfg)
    (hroot : cfg.fileRoot = some field) :
    (∀ n ∈ (P.parseFile repo head cfg path (t.read path)).1, FileNode repo path n) ∧
      ∃ n ∈ (P.parseFile repo head cfg path (t.read path)).1,
        n.nodeId = rootId cfg path field := by
  obtain ⟨source, hread, _⟩ := Tree.read_of_mem hmem
  rw [hread]
  exact ⟨fun n hn => fileNode_of_parse hpick hn, _, root_mem_parse hroot source, rfl⟩

theorem Indexed.step {before t : Tree} {changes cs : List Change}
    (hreports : Reports before t changes) {c : Change} (hc : c ∈ changes)
    (hsingle : ((c :: cs).map Change.target).Nodup)
    (h : Indexed repo (· ∉ t.paths) (awaited (c :: cs)) S g.nodes) :
    Indexed repo (· ∉ t.paths) (awaited cs) (c.next S)
      (P.indexLine repo head t now g ([c.letter], .ofList (gitPath c.target))).nodes := by
  have hpending : ∀ p, awaited cs p → awaited (c :: cs) p := by
    rintro p ⟨d, hd, hseen⟩
    exact ⟨d, List.mem_cons_of_mem c hd, hseen⟩
  have hskip (hunseen : ¬ c.seen) : Indexed repo (· ∉ t.paths) (awaited cs) (c.next S) g.nodes :=
    h.congr (fun p => by simp [Change.next, hunseen]) hpending
  rw [Parser.indexLine, pickExtractor_gitPath]
  by_cases hplain : unquoted c.target = true
  · rw [if_pos hplain, gitPath, if_pos hplain, String.ofList_toList]
    cases hpick : pickExtractor c.target with
    | none =>
      refine hskip fun hseen => ?_
      rw [Change.seen, hpick] at hseen
      cases hseen.2
    | some cfg =>
      have hseen : c.seen := ⟨hplain, by rw [hpick]; rfl⟩
      have hpath : awaited (c :: cs) c.target := ⟨c, List.mem_cons_self, hseen, rfl⟩
      have hdone : ¬ awaited cs c.target := by
        rintro ⟨d, hd, _, htarget⟩
        exact (List.nodup_cons.mp hsingle).1 (htarget ▸ List.mem_map_of_mem hd)
      obtain ⟨field, hroot⟩ := picked_root hpick
      simp only [Parser.diffOneFile, List.cons.injEq, and_true]
      by_cases hletter : c.letter = 'D'
      · have hgone : c.target ∉ t.paths :=
          (hreports.deleted c.target (c.eq_deleted hletter ▸ hc)).2
        rw [if_pos hletter]
        apply (h.close_file hpath hgone hpending).congr _ fun _ hp => hp
        intro p
        simp [Change.next, hseen, hletter]
      · have htarget := hreports.target_after hc hletter
        obtain ⟨hns, hpresent⟩ := parse_nodes htarget hpick hroot
        rw [if_neg hletter]
        have hnext : ∀ p, p = c.target ∨ S p ↔ c.next S p := by
          intro p
          simp [Change.next, hseen, hletter]
        split
        · exact (h.add_file _ hpick hroot (not_not.mpr htarget) hns hpresent hpending hdone).congr
            hnext fun _ hp => hp
        · exact (h.supersede_file hpath _ hpick hroot (not_not.mpr htarget) hns hpresent hpending
            hdone).congr hnext fun _ hp => hp
  · rw [if_neg hplain]
    exact hskip fun hseen => hplain hseen.1

/-! ## Whole runs -/

def tracked (changes : List Change) (S : String → Prop) : String → Prop :=
  changes.foldl (fun S c => c.next S) S

theorem Indexed.run {before t : Tree} {changes : List Change}
    (hreports : Reports before t changes) {cs : List Change} (hcs : cs ⊆ changes)
    (hsingle : (cs.map Change.target).Nodup) {now : Nat → Int}
    (h : Indexed repo (· ∉ t.paths) (awaited cs) S g.nodes) :
    Indexed repo (· ∉ t.paths) (fun _ => False) (tracked cs S) (P.indexLines repo head t now
      (cs.map fun c => ([c.letter], .ofList (gitPath c.target))) g).nodes := by
  induction cs generalizing S g now with
  | nil => exact h.congr (fun _ => Iff.rfl) fun _ hp => hp.elim
  | cons c cs ih =>
    obtain ⟨hc, hcs⟩ := List.cons_subset.mp hcs
    exact ih hcs (List.nodup_cons.mp hsingle).2 (h.step hreports hc hsingle)

/-- No path is both deleted and there, so the order of the changes does not matter. -/
theorem tracked_iff {cs : List Change}
    (hdisjoint : ∀ c ∈ cs, ∀ c' ∈ cs, c.letter = 'D' → c'.letter ≠ 'D' → c.target ≠ c'.target)
    (S : String → Prop) (p : String) :
    tracked cs S p ↔ (∃ c ∈ cs, c.seen ∧ c.letter ≠ 'D' ∧ p = c.target) ∨
      (S p ∧ ∀ c ∈ cs, ¬ (c.seen ∧ c.letter = 'D' ∧ p = c.target)) := by
  induction cs generalizing S with
  | nil => simp [tracked]
  | cons c cs ih =>
    have hrest : ∀ c ∈ cs, ∀ c' ∈ cs, c.letter = 'D' → c'.letter ≠ 'D' → c.target ≠ c'.target :=
      fun d hd d' hd' => hdisjoint d (List.mem_cons_of_mem c hd) d' (List.mem_cons_of_mem c hd')
    have hunfold : tracked (c :: cs) S p ↔ tracked cs (c.next S) p := Iff.rfl
    rw [hunfold, ih hrest, Change.next]
    constructor
    · rintro (⟨d, hd, hseen⟩ | ⟨hseen | ⟨hS, hkept⟩, hall⟩)
      · exact .inl ⟨d, List.mem_cons_of_mem c hd, hseen⟩
      · exact .inl ⟨c, List.mem_cons_self, hseen⟩
      · refine .inr ⟨hS, fun d hd => ?_⟩
        rcases List.mem_cons.mp hd with rfl | hd
        · exact hkept
        · exact hall d hd
    · rintro (⟨d, hd, hseen⟩ | ⟨hS, hall⟩)
      · rcases List.mem_cons.mp hd with rfl | hd
        · refine .inr ⟨.inl hseen, ?_⟩
          rintro e he ⟨_, hletter, htarget⟩
          exact hdisjoint e (List.mem_cons_of_mem d he) d List.mem_cons_self hletter hseen.2.1
            (htarget.symm.trans hseen.2.2)
        · exact .inl ⟨d, hd, hseen⟩
      · exact .inr ⟨.inr ⟨hS, hall c List.mem_cons_self⟩,
          fun d hd => hall d (List.mem_cons_of_mem c hd)⟩

/-! ## Cold starts -/

theorem Pending.finish_nodes (st : Pending) :
    st.finish.nodes = st.graph.nodes.insertNodes st.nodes := by
  unfold finish
  split
  · rename_i hempty
    rw [List.isEmpty_iff.mp (Bool.and_eq_true_iff.mp hempty).1]
    rfl
  · rfl

theorem insertNodes_append (t : NodeTable) (ms ns : List NodeDict) :
    t.insertNodes (ms ++ ns) = (t.insertNodes ms).insertNodes ns := List.foldl_append

theorem Pending.add_finish_nodes (st : Pending) (parsed : List NodeDict × List EdgeDict)
    (ns : List NodeDict) :
    (st.add parsed).graph.nodes.insertNodes ((st.add parsed).nodes ++ ns) =
      st.graph.nodes.insertNodes (st.nodes ++ (parsed.1 ++ ns)) := by
  rw [← List.append_assoc]
  by_cases hfull : batchSize ≤ (st.nodes ++ parsed.1).length ∨
      batchSize ≤ (st.edges ++ parsed.2).length
  · have hadd : st.add parsed =
        ⟨[], [], st.graph.flushInserts (st.nodes ++ parsed.1) (st.edges ++ parsed.2)⟩ := if_pos hfull
    rw [hadd, insertNodes_append _ (st.nodes ++ parsed.1)]
    rfl
  · have hadd : st.add parsed = ⟨st.nodes ++ parsed.1, st.edges ++ parsed.2, st.graph⟩ :=
      if_neg hfull
    rw [hadd]

theorem batches_nodes {α : Type} (parse : α → List NodeDict × List EdgeDict) (files : List α)
    (st : Pending) :
    (files.foldl (fun (st : Pending) f => st.add (parse f)) st).finish.nodes =
      st.graph.nodes.insertNodes (st.nodes ++ files.flatMap fun f => (parse f).1) := by
  induction files generalizing st with
  | nil => rw [List.foldl_nil, Pending.finish_nodes, List.flatMap_nil, List.append_nil]
  | cons f files ih =>
    rw [List.foldl_cons, ih, Pending.add_finish_nodes, List.flatMap_cons]

/-- The walk comes to the path and has an extractor for it. -/
def Tree.Walked (t : Tree) (path : String) : Prop :=
  path ∈ t.paths ∧ walks path = true ∧ (pickExtractor path).isSome = true

theorem mem_walkRepo {t : Tree} {f : String × Bytes × ExtractorConfig} :
    f ∈ t.walkRepo ↔
      (f.1, f.2.1) ∈ t.files ∧ walks f.1 = true ∧ pickExtractor f.1 = some f.2.2 := by
  rw [Tree.walkRepo, List.mem_filterMap]
  constructor
  · rintro ⟨file, hfile, h⟩
    split at h
    · rename_i hwalks
      obtain ⟨cfg, hpick, rfl⟩ := Option.map_eq_some_iff.mp h
      exact ⟨hfile, hwalks, hpick⟩
    · cases h
  · rintro ⟨hfile, hwalks, hpick⟩
    exact ⟨_, hfile, by rw [if_pos hwalks, hpick]; rfl⟩

theorem walked_iff {t : Tree} : t.Walked path ↔ ∃ f ∈ t.walkRepo, f.1 = path := by
  constructor
  · rintro ⟨hmem, hwalks, hsome⟩
    obtain ⟨source, _, hfile⟩ := Tree.read_of_mem hmem
    obtain ⟨cfg, hpick⟩ := Option.isSome_iff_exists.mp hsome
    exact ⟨(path, source, cfg), mem_walkRepo.mpr ⟨hfile, hwalks, hpick⟩, rfl⟩
  · rintro ⟨f, hf, rfl⟩
    obtain ⟨hfile, hwalks, hpick⟩ := mem_walkRepo.mp hf
    exact ⟨List.mem_map_of_mem hfile, hwalks, by rw [hpick]; rfl⟩

theorem NodeTable.closeNodes_nil (t : NodeTable) : t.closeNodes now [] = t := by
  have hrows : t.rows.map (NodeRow.close now []) = t.rows := by
    conv_rhs => rw [← List.map_id t.rows]
    apply List.map_congr_left
    intro r _
    exact NodeRow.close_of_notMem List.not_mem_nil
  cases t
  simp only [closeNodes, hrows]

variable (P repo head pending) in
/-- The nodes of the pending files can be read back from the table. -/
def Parser.CleanFor (t : Tree) : Prop :=
  ∀ f ∈ t.walkRepo, pending f.1 →
    ∀ n ∈ (P.parseFile repo head f.2.2 f.1 (some f.2.1)).1, (n.row 0).Clean

theorem Indexed.insert_files {t : Tree} {table : NodeTable}
    (hclean : P.CleanFor repo head pending t)
    {files : List (String × Bytes × ExtractorConfig)} (hfiles : files ⊆ t.walkRepo)
    (h : Indexed repo (fun _ => False) pending S table) :
    Indexed repo (fun _ => False) pending (fun p => S p ∨ ∃ f ∈ files, f.1 = p)
      (table.insertNodes (files.flatMap fun f =>
        (P.parseFile repo head f.2.2 f.1 (some f.2.1)).1)) := by
  induction files generalizing S table with
  | nil => exact h.congr (fun p => by simp) fun _ hp => hp
  | cons f files ih =>
    obtain ⟨hf, hfiles⟩ := List.cons_subset.mp hfiles
    obtain ⟨_, _, hpick⟩ := mem_walkRepo.mp hf
    obtain ⟨field, hroot⟩ := picked_root hpick
    have hone : Indexed repo (fun _ => False) pending (fun p => p = f.1 ∨ S p)
        ((table.closeNodes 0 []).insertNodes
          (P.parseFile repo head f.2.2 f.1 (some f.2.1)).1) := by
      refine h.update hpick hroot not_false (fun _ hid => absurd hid List.not_mem_nil)
        List.not_mem_nil ?_ ?_ (fun _ hp => hp) (hclean f hf)
      · intro n hn
        exact fileNode_of_parse hpick hn
      · exact .inr ⟨_, root_mem_parse hroot f.2.1, rfl⟩
    rw [NodeTable.closeNodes_nil] at hone
    rw [List.flatMap_cons, insertNodes_append]
    apply (ih hfiles hone).congr _ fun _ hp => hp
    intro p
    rw [List.exists_mem_cons_iff, ← or_assoc, or_comm (a := S p), eq_comm (a := p)]

theorem coldStart_indexed {h : History} (hclean : P.CleanFor repo head pending (h.tree head)) :
    Indexed repo (fun _ => False) pending (h.tree head).Walked
      (P.coldStart repo h head .empty).graph.nodes := by
  have hempty : Indexed repo (fun _ => False) pending (fun _ => False)
      Index.empty.graph.nodes := by
    refine ⟨?_, ?_, ?_, ?_, ?_⟩
    · intro r hr
      cases hr
    · intro r hr
      cases hr
    · intro r hr
      cases hr
    · intro path hS
      cases hS
    · intro path cfg field _ _ _ _ r hr
      cases hr
  have hfiles := hempty.insert_files hclean (List.Subset.refl (h.tree head).walkRepo)
  rw [Parser.coldStart, batches_nodes]
  apply hfiles.congr _ fun _ hp => hp
  intro path
  rw [false_or, walked_iff]

end

/-! ## The incremental run and the cold start -/

/-- The same paths have live rows. -/
def SameFiles (repo : String) (g g' : Graph) : Prop :=
  ∀ path, g.liveNodes repo path ≠ [] ↔ g'.liveNodes repo path ≠ []

/-- The lines of the changes account for every path that is walked before or after. -/
structure Traceable (h : History) (base head : String) : Prop where
  walked : ∀ c ∈ h.changes base head, c.letter ≠ 'D' → c.seen → walks c.target = true
  renamed : ∀ score source target, .renamed score source target ∈ h.changes base head →
    ¬ (h.tree base).Walked source
  printed : ∀ path, ((h.tree base).Walked path ∧ path ∉ (h.tree head).paths) ∨
    ((h.tree head).Walked path ∧ path ∉ (h.tree base).paths) → unquoted path = true

section
variable {P : Parser} {repo base head : String} {h : History}
  {S S' retired retired' pending pending' : String → Prop} {g g' : Graph}

theorem liveNodes_ne_nil_iff {path : String} :
    g.liveNodes repo path ≠ [] ↔
      ∃ r ∈ g.nodes.rows, r.live = true ∧ r.inFile repo path = true := by
  constructor
  · intro hne
    obtain ⟨r, hr⟩ := List.exists_mem_of_ne_nil _ hne
    exact ⟨r, mem_liveNodes.mp hr⟩
  · rintro ⟨r, hr⟩
    exact List.ne_nil_of_mem (mem_liveNodes.mpr hr)

theorem Indexed.sameFiles_iff (hg : Indexed repo retired pending S g.nodes)
    (hg' : Indexed repo retired' pending' S' g'.nodes) :
    SameFiles repo g g' ↔ ∀ path, S path ↔ S' path := by
  apply forall_congr'
  intro path
  rw [liveNodes_ne_nil_iff, liveNodes_ne_nil_iff, hg.live_iff, hg'.live_iff]

theorem Indexed.retire (hg : Indexed repo (fun _ => False) pending S g.nodes) :
    Indexed repo retired pending S g.nodes :=
  ⟨hg.origin, hg.clean, hg.live, hg.rooted,
    fun path cfg field hS _ => hg.fresh path cfg field hS not_false⟩

theorem incremental_indexed
    (hclean : P.CleanFor repo base (awaited (h.changes base head)) (h.tree base))
    (hne : base ≠ head) (now : Nat → Int) :
    Indexed repo (· ∉ (h.tree head).paths) (fun _ => False)
      (tracked (h.changes base head) (h.tree base).Walked)
      (P.incrementalIndex repo h head now (P.coldStart repo h base .empty)).graph.nodes := by
  have hlast : (P.coldStart repo h base .empty).lastCommit = some base := rfl
  simp only [Parser.incrementalIndex, hlast, if_neg hne, gitDiffNameStatus_nameStatus]
  exact (coldStart_indexed hclean).retire.run (h.reports base head) (List.Subset.refl _)
    (h.reports base head).single

theorem tracked_changes_iff (path : String) :
    tracked (h.changes base head) (h.tree base).Walked path ↔
      (∃ c ∈ h.changes base head, c.seen ∧ c.letter ≠ 'D' ∧ path = c.target) ∨
      ((h.tree base).Walked path ∧
        ∀ c ∈ h.changes base head, ¬ (c.seen ∧ c.letter = 'D' ∧ path = c.target)) := by
  apply tracked_iff
  intro c hc c' hc' hletter hletter' heq
  have hgone := ((h.reports base head).deleted c.target (c.eq_deleted hletter ▸ hc)).2
  exact hgone (heq ▸ (h.reports base head).target_after hc' hletter')

/-- A walked path that disappears is followed exactly when a line of its own says so. -/
theorem Traceable.tracked_iff_walked (ht : Traceable h base head) (path : String) :
    tracked (h.changes base head) (h.tree base).Walked path ↔ (h.tree head).Walked path := by
  have hreports := h.reports base head
  rw [tracked_changes_iff]
  constructor
  · rintro (⟨c, hc, hseen, hletter, rfl⟩ | ⟨hwalked, hkept⟩)
    · exact ⟨hreports.target_after hc hletter, ht.walked c hc hletter hseen, hseen.2⟩
    · refine ⟨?_, hwalked.2⟩
      by_contra hgone
      rcases hreports.vanishes path hwalked.1 hgone with hdeleted | ⟨score, target, hrenamed⟩
      · have hplain := ht.printed path (.inl ⟨hwalked, hgone⟩)
        exact hkept _ hdeleted ⟨⟨hplain, hwalked.2.2⟩, rfl, rfl⟩
      · exact ht.renamed score path target hrenamed hwalked
  · intro hwalked
    by_cases hold : path ∈ (h.tree base).paths
    · refine .inr ⟨⟨hold, hwalked.2⟩, ?_⟩
      rintro c hc ⟨_, hletter, rfl⟩
      exact (hreports.deleted c.target (c.eq_deleted hletter ▸ hc)).2 hwalked.1
    · obtain ⟨c, hc, hletter, rfl⟩ := hreports.appears path hwalked.1 hold
      exact .inl ⟨c, hc, ⟨ht.printed _ (.inr ⟨hwalked, hold⟩), hwalked.2.2⟩, hletter, rfl⟩

theorem traceable_of_tracked
    (hsame : ∀ path, tracked (h.changes base head) (h.tree base).Walked path ↔
      (h.tree head).Walked path) : Traceable h base head := by
  have hreports := h.reports base head
  simp only [tracked_changes_iff] at hsame
  refine ⟨?_, ?_, ?_⟩
  · intro c hc hletter hseen
    exact ((hsame c.target).mp (.inl ⟨c, hc, hseen, hletter, rfl⟩)).2.1
  · intro score source target hrenamed hwalked
    have hgone := (hreports.renamed score source target hrenamed).1.2
    have hkept : ∀ c ∈ h.changes base head,
        ¬ (c.seen ∧ c.letter = 'D' ∧ source = c.target) := by
      rintro c hc ⟨_, hletter, rfl⟩
      exact hreports.once score c.target target hrenamed (c.eq_deleted hletter ▸ hc)
    exact hgone ((hsame source).mp (.inr ⟨hwalked, hkept⟩)).1
  · rintro path (⟨hwalked, hgone⟩ | ⟨hwalked, hnew⟩)
    · by_contra hquoted
      have hkept : ∀ c ∈ h.changes base head,
          ¬ (c.seen ∧ c.letter = 'D' ∧ path = c.target) := by
        rintro c _ ⟨hseen, _, rfl⟩
        exact hquoted hseen.1
      exact hgone ((hsame path).mp (.inr ⟨hwalked, hkept⟩)).1
    · rcases (hsame path).mpr hwalked with ⟨c, _, hseen, _, rfl⟩ | ⟨hold, _⟩
      · exact hseen.1
      · exact absurd hold.1 hnew

theorem traceable_self (h : History) (head : String) : Traceable h head head := by
  refine ⟨?_, ?_, ?_⟩
  · intro c hc
    rw [h.unchanged] at hc
    cases hc
  · intro score source target hc
    rw [h.unchanged] at hc
    cases hc
  · rintro path (⟨hwalked, hgone⟩ | ⟨hwalked, hgone⟩)
    · exact absurd hwalked.1 hgone
    · exact absurd hwalked.1 hgone

theorem incremental_self (now : Nat → Int) :
    P.incrementalIndex repo h base now (P.coldStart repo h base .empty) =
      P.coldStart repo h base .empty := if_pos rfl

/-- After both runs the same files are live exactly when the tracked paths are the walked ones. -/
theorem sameFiles_iff_tracked
    (hclean : P.CleanFor repo base (awaited (h.changes base head)) (h.tree base))
    (hne : base ≠ head) (now : Nat → Int) :
    SameFiles repo (P.incrementalIndex repo h head now (P.coldStart repo h base .empty)).graph
        (P.coldStart repo h head .empty).graph ↔
      ∀ path, tracked (h.changes base head) (h.tree base).Walked path ↔
        (h.tree head).Walked path := by
  have hhead : P.CleanFor repo head (fun _ => False) (h.tree head) := fun _ _ hp => hp.elim
  exact (incremental_indexed hclean hne now).sameFiles_iff (coldStart_indexed hhead)

theorem traceable_of_sameFiles
    (hclean : P.CleanFor repo base (awaited (h.changes base head)) (h.tree base))
    (now : Nat → Int)
    (hsame : SameFiles repo
      (P.incrementalIndex repo h head now (P.coldStart repo h base .empty)).graph
      (P.coldStart repo h head .empty).graph) : Traceable h base head := by
  by_cases heq : base = head
  · exact heq ▸ traceable_self h base
  · exact traceable_of_tracked ((sameFiles_iff_tracked hclean heq now).mp hsame)

end

theorem incremental_sameFiles_iff (P : Parser) (repo : String) (h : History) (base head : String)
    (now : Nat → Int)
    (hclean : P.CleanFor repo base (awaited (h.changes base head)) (h.tree base)) :
    SameFiles repo (P.incrementalIndex repo h head now (P.coldStart repo h base .empty)).graph
        (P.coldStart repo h head .empty).graph ↔
      Traceable h base head := by
  constructor
  · exact traceable_of_sameFiles hclean now
  · intro ht
    by_cases heq : base = head
    · subst heq
      rw [incremental_self]
      exact fun _ => Iff.rfl
    · exact (sameFiles_iff_tracked hclean heq now).mpr ht.tracked_iff_walked

/-! ## Two commits -/

theorem reports_self (t : Tree) : Reports t t [] := by
  constructor
  case appears => exact fun path hmem hnew => absurd hmem hnew
  case vanishes => exact fun path hmem hgone => absurd hmem hgone
  case single => exact List.nodup_nil
  all_goals simp

def twoCommits (t t' : Tree) (forth back : List Change) (hforth : Reports t t' forth)
    (hback : Reports t' t back) : History where
  tree sha := if sha = "4f1c2ab" then t else t'
  changes base head :=
    if base = "4f1c2ab" then if head = "4f1c2ab" then [] else forth
    else if head = "4f1c2ab" then back else []
  reports base head := by
    by_cases hbase : base = "4f1c2ab" <;> by_cases hhead : head = "4f1c2ab"
    · simpa [hbase, hhead] using reports_self t
    · simpa [hbase, hhead] using hforth
    · simpa [hbase, hhead] using hback
    · simpa [hbase, hhead] using reports_self t'
  unchanged head := by
    by_cases hhead : head = "4f1c2ab" <;> simp [hhead]

/-- Files that hold comments only have no symbols. -/
def commentsOnly : Parser := ⟨fun _ _ _ => [], fun _ _ _ _ => []⟩

def oneFile (path : String) : Tree := ⟨[(path, "#\n".toUTF8.toList)], List.nodup_singleton _⟩

theorem reports_rename {source target : String} (hne : source ≠ target) :
    Reports (oneFile source) (oneFile target) [.renamed 100 source target] := by
  constructor
  case renamed =>
    intro score source' target' h
    obtain ⟨rfl, rfl, rfl⟩ : score = 100 ∧ source' = source ∧ target' = target := by simpa using h
    simp [oneFile, Tree.paths, hne, hne.symm]
  all_goals simp [oneFile, Tree.paths, Change.target, Change.letter, hne, hne.symm]

def renamedScript : History :=
  twoCommits (oneFile "lib/env.sh") (oneFile "lib/environment.sh")
    [.renamed 100 "lib/env.sh" "lib/environment.sh"] [.renamed 100 "lib/environment.sh" "lib/env.sh"]
    (reports_rename (by decide)) (reports_rename (by decide))

/-- The rows of a renamed file stay live under its old path. -/
theorem renamed_file_not_sameFiles :
    ¬ ∀ (P : Parser) (repo : String) (h : History) (base head : String) (now : Nat → Int),
      SameFiles repo (P.incrementalIndex repo h head now (P.coldStart repo h base .empty)).graph
        (P.coldStart repo h head .empty).graph := by
  intro hall
  have hsame := hall commentsOnly "spinedev" renamedScript "4f1c2ab" "9be07d3" fun _ => 0
  have hclean : commentsOnly.CleanFor "spinedev" "4f1c2ab"
      (awaited (renamedScript.changes "4f1c2ab" "9be07d3")) (renamedScript.tree "4f1c2ab") := by
    rintro f hf ⟨c, hc, _, htarget⟩
    obtain ⟨hfile, _⟩ := mem_walkRepo.mp hf
    have hpath : f.1 = "lib/env.sh" := congrArg Prod.fst (List.mem_singleton.mp hfile)
    obtain rfl := List.mem_singleton.mp hc
    exact absurd (htarget.trans hpath) (by decide)
  have htraceable := traceable_of_sameFiles hclean _ hsame
  refine htraceable.renamed 100 "lib/env.sh" "lib/environment.sh" List.mem_cons_self ⟨?_, ?_, ?_⟩
  · exact List.mem_cons_self
  · decide
  · decide

def editedScripts : History :=
  twoCommits ⟨[("lib/env.sh", [35]), ("lib/log.sh", [35])], by decide⟩
    ⟨[("lib/env.sh", [35, 35])], by decide⟩
    [.modified "lib/env.sh", .deleted "lib/log.sh"] [.modified "lib/env.sh", .added "lib/log.sh"]
    (by constructor <;> simp [Tree.paths, Change.target, Change.letter])
    (by constructor <;> simp [Tree.paths, Change.target, Change.letter])

theorem clean_editedScripts (pending : String → Prop) :
    commentsOnly.CleanFor "spinedev" "4f1c2ab" pending (editedScripts.tree "4f1c2ab") := by
  have hall : ((editedScripts.tree "4f1c2ab").walkRepo.all fun f =>
      (commentsOnly.parseFile "spinedev" "4f1c2ab" f.2.2 f.1 (some f.2.1)).1.all fun n =>
        decide (n.row 0).Clean) = true := by
    decide +kernel
  intro f hf _ n hn
  exact of_decide_eq_true (List.all_eq_true.mp (List.all_eq_true.mp hall f hf) n hn)

theorem edited_scripts_sameFiles :
    SameFiles "spinedev"
      (commentsOnly.incrementalIndex "spinedev" editedScripts "9be07d3" (fun _ => 0)
        (commentsOnly.coldStart "spinedev" editedScripts "4f1c2ab" .empty)).graph
      (commentsOnly.coldStart "spinedev" editedScripts "9be07d3" .empty).graph := by
  apply (incremental_sameFiles_iff commentsOnly "spinedev" editedScripts "4f1c2ab" "9be07d3"
    (fun _ => 0) (clean_editedScripts _)).mpr
  refine ⟨?_, ?_, ?_⟩
  · intro c hc hletter _
    rcases List.mem_cons.mp hc with rfl | hc
    · decide
    · obtain rfl := List.mem_singleton.mp hc
      exact absurd rfl hletter
  · intro score source target hc
    rcases List.mem_cons.mp hc with h | hc
    · cases h
    · cases List.mem_singleton.mp hc
  · rintro path (⟨hwalked, hgone⟩ | ⟨hwalked, hnew⟩)
    · rcases List.mem_cons.mp hwalked.1 with rfl | hpath
      · exact absurd List.mem_cons_self hgone
      · obtain rfl := List.mem_singleton.mp hpath
        decide
    · obtain rfl := List.mem_singleton.mp hwalked.1
      exact absurd List.mem_cons_self hnew

end SpineFormal.Kg
