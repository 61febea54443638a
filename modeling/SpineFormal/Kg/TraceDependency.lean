import SpineFormal.Base.Numerals
import SpineFormal.Base.Trails
import SpineFormal.Kg.FindCallers

/-!
# Tracing a dependency

`trace_dependency` of `mcp/tools/kg.py`, from the resolved symbols on. The recursive query adds
an edge at a time, stops at the target and blocks a node that is already on the path; the rows of
its first round are not checked for that.
-/

namespace SpineFormal.Kg

set_option autoImplicit false

/-! ## Edge types -/

/-- `str.isalnum` and `str.upper` where they go beyond ASCII. -/
structure TypeTables where
  isalnum : Char → Bool
  upper : List Char → List Char
  isalnum_ascii : ∀ c : Char, c.toNat < 128 → isalnum c = c.isAlphanum
  upper_ascii : ∀ s : List Char, (∀ c ∈ s, c.toNat < 128) → upper s = s.map Char.toUpper

def asciiTypeTables : TypeTables where
  isalnum := Char.isAlphanum
  upper := fun s => s.map Char.toUpper
  isalnum_ascii := fun _ _ => rfl
  upper_ascii := fun _ _ => rfl

def sanitizeEdgeTypes (u : TypeTables) : Option (List String) → Option (List String)
  | none => none
  | some edgeTypes => some ((edgeTypes.filter fun et =>
      et != "" && et.toList.all fun c => u.isalnum c || c == '_').map fun et =>
        String.ofList (u.upper et.toList))

/-- `_sanitize_edge_types(...) or ["CALLS", "IMPORTS"]`. -/
def traceTypes (u : TypeTables) (edgeTypes : List String) : List String :=
  match sanitizeEdgeTypes u (some edgeTypes) with
  | some (t :: ts) => t :: ts
  | _ => ["CALLS", "IMPORTS"]

def typeChar (c : Char) : Bool := c.isUpper || c == '_'

/-- A type name as the schema has it: uppercase A-Z plus underscore. -/
def WellFormedType (et : String) : Prop := et ≠ "" ∧ ∀ c ∈ et.toList, typeChar c = true

/-! ## The walk -/

structure WalkRow where
  src : Nat
  dst : Nat
  d : Nat
  nodePath : List Nat
  edgePath : List String
  deriving DecidableEq

section
variable (es : List EdgeRow) (fromId toId maxDepth : Nat)

def walkBase : List WalkRow :=
  (es.filter fun e => e.fromId = fromId).map fun e =>
    ⟨e.fromId, e.toId, 1, [e.fromId, e.toId], [e.type]⟩

def walkStep (w : WalkRow) : List WalkRow :=
  (es.filter fun e =>
      e.fromId = w.dst ∧ w.d < maxDepth ∧ w.dst ≠ toId ∧ e.toId ∉ w.nodePath).map fun e =>
    ⟨w.src, e.toId, w.d + 1, w.nodePath ++ [e.toId], w.edgePath ++ [e.type]⟩

/-- The recursive query `walk`: there is no row left after `maxDepth` rounds. -/
def walk : List WalkRow :=
  recursiveUnion (walkStep es toId maxDepth) maxDepth (walkBase es fromId)

def traceRows (o : RowOrder WalkRow) : List WalkRow :=
  (orderBy o WalkRow.d ((walk es fromId toId maxDepth).filter fun w => w.dst = toId)).take 5

end

structure DependencyPath where
  path : List String
  edges : List String
  depth : Nat

structure TraceDependencyOutput where
  pathsFound : List DependencyPath
  noPath : Bool

def dependencyPath (names : List (Nat × String)) (w : WalkRow) : DependencyPath where
  path := w.nodePath.map fun id => (names.lookup id).getD (toString id)
  edges := w.edgePath
  depth := w.d

def traceDependency (u : TypeTables) (o : RowOrder WalkRow) (st : Store) (s : Scope)
    (edgeTypes : List String) (fromId toId maxDepth : Nat) : TraceDependencyOutput :=
  let rows := traceRows (st.edges s (traceTypes u edgeTypes)) fromId toId maxDepth o
  let names := fetchNodeNames st (rows.flatMap WalkRow.nodePath)
  { pathsFound := rows.map (dependencyPath names)
    noPath := rows.length = 0 }

/-! ## The specification -/

def linkGraph (es : List EdgeRow) : Multigraph Nat EdgeRow := ⟨es, EdgeRow.fromId, EdgeRow.toId⟩

/-- The row of a path of edges. -/
def pathRow (es : List EdgeRow) (fromId : Nat) (tr : List EdgeRow) : WalkRow where
  src := fromId
  dst := (linkGraph es).endOf fromId tr
  d := tr.length
  nodePath := (linkGraph es).trailNodes fromId tr
  edgePath := tr.map EdgeRow.type

/-- A path of the edges from one node to the other. -/
def IsPath (es : List EdgeRow) (fromId toId : Nat) (w : WalkRow) : Prop :=
  ∃ tr, (linkGraph es).Leads fromId tr ∧ (linkGraph es).endOf fromId tr = toId ∧
    w = pathRow es fromId tr

structure ExactTrace (es : List EdgeRow) (fromId toId maxDepth : Nat) (rows : List WalkRow)
    (out : TraceDependencyOutput) : Prop where
  noPath : out.noPath = true ↔ ∀ k ≤ maxDepth, ¬ Steps (Link es) k fromId toId
  shown : ∃ names, out.pathsFound = rows.map (dependencyPath names)
  paths : ∀ w ∈ rows, IsPath es fromId toId w ∧ w.d ≤ maxDepth ∧ w.nodePath.Nodup
  sorted : (out.pathsFound.map DependencyPath.depth).Pairwise (· ≤ ·)
  shortest : ∀ p, out.pathsFound.head? = some p →
    IsLeast {k | Steps (Link es) k fromId toId} p.depth

/-- No path of one edge more than a shortest one is returned: it is too long, or there are five
shortest ones. -/
def LongerLeftOut (es : List EdgeRow) (fromId toId maxDepth : Nat) : Prop :=
  ∀ k, IsLeast {k | Steps (Link es) k fromId toId} k → k + 1 ≤ maxDepth →
    5 ≤ (((linkGraph es).trails fromId k).filter
      fun tr => (linkGraph es).endOf fromId tr = toId).length

/-! ## Well-formed types -/

theorem typeChar_ascii {c : Char} (h : typeChar c = true) :
    c.toNat < 128 ∧ (c.isAlphanum || c == '_') = true ∧ c.toUpper = c := by
  rw [typeChar, Bool.or_eq_true] at h
  rcases h with h | h
  · have halnum : ((c.isUpper || c.isLower) || c.isDigit) = true := by
      rw [h, Bool.true_or, Bool.true_or]
    have hval : c.val.toNat ≤ 90 := (of_decide_eq_true h).2
    refine ⟨Nat.lt_of_le_of_lt hval (by decide), Bool.or_eq_true_iff.mpr (.inl halnum), ?_⟩
    have hlower : ¬ ('a'.val ≤ c.val ∧ c.val ≤ 'z'.val) := by
      intro hle
      have hge : 97 ≤ c.val.toNat := hle.1
      omega
    exact dif_neg hlower
  · rw [eq_of_beq h]
    decide

theorem sanitizeEdgeTypes_eq {u : TypeTables} {edgeTypes : List String}
    (hwf : ∀ et ∈ edgeTypes, WellFormedType et) :
    sanitizeEdgeTypes u (some edgeTypes) = some edgeTypes := by
  have hkeep : edgeTypes.filter (fun et =>
      et != "" && et.toList.all fun c => u.isalnum c || c == '_') = edgeTypes := by
    rw [List.filter_eq_self]
    intro et het
    obtain ⟨hempty, hchars⟩ := hwf et het
    rw [Bool.and_eq_true, List.all_eq_true]
    refine ⟨bne_iff_ne.mpr hempty, fun c hc => ?_⟩
    obtain ⟨hascii, halnum, -⟩ := typeChar_ascii (hchars c hc)
    rw [u.isalnum_ascii c hascii]
    exact halnum
  have hupper : ∀ et ∈ edgeTypes, String.ofList (u.upper et.toList) = et := by
    intro et het
    have hchars := (hwf et het).2
    rw [u.upper_ascii _ fun c hc => (typeChar_ascii (hchars c hc)).1]
    have hmap : et.toList.map Char.toUpper = et.toList :=
      (List.map_congr_left fun c hc => (typeChar_ascii (hchars c hc)).2.2).trans (List.map_id _)
    rw [hmap, String.ofList_toList]
  rw [sanitizeEdgeTypes, hkeep]
  exact congrArg some ((List.map_congr_left hupper).trans (List.map_id _))

theorem traceTypes_eq {u : TypeTables} {edgeTypes : List String} (hne : edgeTypes ≠ [])
    (hwf : ∀ et ∈ edgeTypes, WellFormedType et) : traceTypes u edgeTypes = edgeTypes := by
  rw [traceTypes, sanitizeEdgeTypes_eq hwf]
  cases edgeTypes with
  | nil => exact absurd rfl hne
  | cons t ts => rfl

/-! ## The trails the walk finds -/

section
variable {es : List EdgeRow} {fromId toId maxDepth : Nat}

/-- What the walk asks of an edge before it adds it. -/
def mayAdd (es : List EdgeRow) (fromId toId maxDepth : Nat) (tr : List EdgeRow) (e : EdgeRow) :
    Bool :=
  tr = [] ∨ tr.length < maxDepth ∧ (linkGraph es).endOf fromId tr ≠ toId ∧
    e.toId ∉ (linkGraph es).trailNodes fromId tr

def foundTrails (es : List EdgeRow) (fromId toId maxDepth : Nat) : List (List EdgeRow) :=
  recursiveUnion ((linkGraph es).extend (mayAdd es fromId toId maxDepth) fromId) maxDepth
    ((linkGraph es).extend (mayAdd es fromId toId maxDepth) fromId [])

theorem pathRow_snoc (tr : List EdgeRow) (e : EdgeRow) : pathRow es fromId (tr ++ [e]) =
    ⟨fromId, e.toId, tr.length + 1, (linkGraph es).trailNodes fromId tr ++ [e.toId],
      tr.map EdgeRow.type ++ [e.type]⟩ := by
  rw [pathRow, Multigraph.endOf_append, Multigraph.trailNodes, List.map_append, List.map_append,
    List.length_append]
  rfl

theorem walk_eq : walk es fromId toId maxDepth =
    (foundTrails es fromId toId maxDepth).map (pathRow es fromId) := by
  have hbase : walkBase es fromId =
      ((linkGraph es).extend (mayAdd es fromId toId maxDepth) fromId []).map
        (pathRow es fromId) := by
    rw [walkBase, Multigraph.extend, List.map_map]
    have hfilter : (es.filter fun e => e.fromId = fromId) =
        (linkGraph es).edges.filter fun e => (linkGraph es).src e = (linkGraph es).endOf fromId [] ∧
          mayAdd es fromId toId maxDepth [] e = true := by
      refine List.filter_congr fun e _ => decide_eq_decide.mpr ?_
      exact (and_iff_left (by simp [mayAdd])).symm
    rw [hfilter]
    refine List.map_congr_left fun e he => ?_
    have hsrc : e.fromId = fromId := (of_decide_eq_true (List.mem_filter.mp he).2).1
    rw [Function.comp_apply, pathRow_snoc, hsrc]
    rfl
  have hstep : ∀ tr : List EdgeRow, tr ≠ [] →
      walkStep es toId maxDepth (pathRow es fromId tr) =
        ((linkGraph es).extend (mayAdd es fromId toId maxDepth) fromId tr).map
          (pathRow es fromId) := by
    intro tr htr
    rw [walkStep, Multigraph.extend, List.map_map]
    have hfilter : (es.filter fun e => e.fromId = (pathRow es fromId tr).dst ∧
          (pathRow es fromId tr).d < maxDepth ∧ (pathRow es fromId tr).dst ≠ toId ∧
          e.toId ∉ (pathRow es fromId tr).nodePath) =
        (linkGraph es).edges.filter fun e => (linkGraph es).src e = (linkGraph es).endOf fromId tr ∧
          mayAdd es fromId toId maxDepth tr e = true := by
      refine List.filter_congr fun e _ => decide_eq_decide.mpr ?_
      rw [mayAdd, decide_eq_true_iff, or_iff_right htr]
      rfl
    rw [hfilter]
    exact List.map_congr_left fun e _ => (pathRow_snoc tr e).symm
  rw [walk, hbase, foundTrails]
  refine recursiveUnion_map hstep (fun tr _ tr' htr' => ?_) fun tr htr => ?_
  · exact List.ne_nil_of_length_eq_add_one (Multigraph.length_extend tr' htr')
  · exact List.ne_nil_of_length_eq_add_one (Multigraph.length_extend tr htr)

/-- The trails of one length that the walk finds. -/
theorem filter_foundTrails {j : Nat} (hj : j ≤ maxDepth) :
    (foundTrails es fromId toId maxDepth).filter (fun tr => tr.length = 1 + j) =
      ((linkGraph es).trails fromId (j + 1)).filter
        (Multigraph.passes (mayAdd es fromId toId maxDepth) []) := by
  have hrounds : round ((linkGraph es).extend (mayAdd es fromId toId maxDepth) fromId)
      ((linkGraph es).extend (mayAdd es fromId toId maxDepth) fromId []) j =
      round ((linkGraph es).extend (mayAdd es fromId toId maxDepth) fromId) [[]] (j + 1) := by
    rw [← round_flatMap, List.flatMap_singleton]
  rw [← Multigraph.round_extend, ← hrounds]
  have hsize : ∀ tr, ∀ tr' ∈ (linkGraph es).extend (mayAdd es fromId toId maxDepth) fromId tr,
      tr'.length = tr.length + 1 := fun _ => Multigraph.length_extend
  exact filter_recursiveUnion (hsize []) hsize hj

theorem mem_foundTrails (hdepth : 1 ≤ maxDepth) {tr : List EdgeRow} :
    tr ∈ foundTrails es fromId toId maxDepth ↔
      (1 ≤ tr.length ∧ tr.length ≤ maxDepth) ∧ (linkGraph es).Leads fromId tr ∧
        Multigraph.passes (mayAdd es fromId toId maxDepth) [] tr = true := by
  have hlength : ∀ tr ∈ foundTrails es fromId toId maxDepth,
      1 ≤ tr.length ∧ tr.length ≤ maxDepth := by
    refine recursiveUnion_invariant (fun tr htr => ?_) fun tr htr tr' htr' => ?_
    · rw [Multigraph.length_extend tr htr]
      exact ⟨Nat.le_refl 1, hdepth⟩
    · obtain ⟨e, -, -, hmay, rfl⟩ := Multigraph.mem_extend.mp htr'
      rw [mayAdd, decide_eq_true_iff] at hmay
      rw [List.length_append]
      rcases hmay with rfl | ⟨hlt, -⟩
      · exact absurd htr.1 (by decide)
      · exact ⟨Nat.le_add_left 1 _, hlt⟩
  constructor
  · intro htr
    obtain ⟨hpos, hle⟩ := hlength tr htr
    have hfound : tr ∈ (foundTrails es fromId toId maxDepth).filter
        fun x => x.length = 1 + (tr.length - 1) :=
      List.mem_filter.mpr ⟨htr, decide_eq_true (by omega)⟩
    rw [filter_foundTrails (by omega)] at hfound
    obtain ⟨htrail, hpasses⟩ := List.mem_filter.mp hfound
    exact ⟨⟨hpos, hle⟩, (Multigraph.mem_trails.mp htrail).1, hpasses⟩
  · rintro ⟨⟨hpos, hle⟩, hleads, hpasses⟩
    have hfound : tr ∈ (foundTrails es fromId toId maxDepth).filter
        fun x => x.length = 1 + (tr.length - 1) := by
      rw [filter_foundTrails (by omega)]
      exact List.mem_filter.mpr ⟨Multigraph.mem_trails.mpr ⟨hleads, by omega⟩, hpasses⟩
    exact (List.mem_filter.mp hfound).1

/-- The rows of the walk that have arrived. -/
theorem mem_arrived {w : WalkRow} :
    w ∈ (walk es fromId toId maxDepth).filter (fun w => w.dst = toId) ↔
      ∃ tr ∈ foundTrails es fromId toId maxDepth, (linkGraph es).endOf fromId tr = toId ∧
        w = pathRow es fromId tr := by
  rw [List.mem_filter, walk_eq, List.mem_map]
  constructor
  · rintro ⟨⟨tr, htr, rfl⟩, hdst⟩
    exact ⟨tr, htr, of_decide_eq_true hdst, rfl⟩
  · rintro ⟨tr, htr, hend, rfl⟩
    exact ⟨⟨tr, htr, rfl⟩, decide_eq_true hend⟩

theorem isLeast_steps_iff {k : Nat} : IsLeast {k | Steps (Link es) k fromId toId} k ↔
    ∃ tr, (linkGraph es).Shortest fromId toId tr ∧ tr.length = k := by
  have htrail : ∀ k, Steps (Link es) k fromId toId ↔ ∃ tr, (linkGraph es).Leads fromId tr ∧
      tr.length = k ∧ (linkGraph es).endOf fromId tr = toId := fun k =>
    Multigraph.steps_iff_trail (G := linkGraph es)
  constructor
  · rintro ⟨hsteps, hleast⟩
    obtain ⟨tr, hleads, rfl, hend⟩ := (htrail k).mp hsteps
    exact ⟨tr, ⟨hleads, hend, fun x hx hxend => hleast ((htrail _).mpr ⟨x, hx, rfl, hxend⟩)⟩, rfl⟩
  · rintro ⟨tr, htr, rfl⟩
    refine ⟨(htrail _).mpr ⟨tr, htr.leads, rfl, htr.ends⟩, fun j hj => ?_⟩
    obtain ⟨x, hx, rfl, hxend⟩ := (htrail j).mp hj
    exact htr.least x hx hxend

theorem exists_shortest_of_steps {k : Nat} (h : Steps (Link es) k fromId toId) :
    ∃ tr, (linkGraph es).Shortest fromId toId tr ∧ tr.length ≤ k := by
  obtain ⟨x, hleads, rfl, hend⟩ := (Multigraph.steps_iff_trail (G := linkGraph es)).mp h
  obtain ⟨tr, htr⟩ := Multigraph.exists_shortest hleads hend
  exact ⟨tr, htr, htr.least x hleads hend⟩

theorem shortest_pos (hne : fromId ≠ toId) {tr : List EdgeRow}
    (h : (linkGraph es).Shortest fromId toId tr) : 1 ≤ tr.length := by
  rw [Nat.one_le_iff_ne_zero]
  intro hlen
  obtain rfl := List.eq_nil_of_length_eq_zero hlen
  exact hne h.ends

theorem shortest_passes {tr : List EdgeRow} (h : (linkGraph es).Shortest fromId toId tr)
    (hle : tr.length ≤ maxDepth) :
    Multigraph.passes (mayAdd es fromId toId maxDepth) [] tr = true := by
  rw [Multigraph.passes_iff]
  rintro x e y rfl
  rw [List.length_append, List.length_cons] at hle
  rw [List.nil_append, mayAdd, decide_eq_true_iff]
  exact .inr ⟨by omega, h.not_before, h.not_back⟩

theorem shortest_found (hdepth : 1 ≤ maxDepth) (hne : fromId ≠ toId) {tr : List EdgeRow}
    (h : (linkGraph es).Shortest fromId toId tr) (hle : tr.length ≤ maxDepth) :
    tr ∈ foundTrails es fromId toId maxDepth :=
  (mem_foundTrails hdepth).mpr ⟨⟨shortest_pos hne h, hle⟩, h.leads, shortest_passes h hle⟩

/-- The arrived rows that are not longer than a shortest path: one for each shortest path. -/
theorem length_shortest (hdepth : 1 ≤ maxDepth) (hne : fromId ≠ toId) {tr : List EdgeRow}
    (h : (linkGraph es).Shortest fromId toId tr) (hle : tr.length ≤ maxDepth) :
    (((walk es fromId toId maxDepth).filter fun w => w.dst = toId).filter
        fun w => w.d < tr.length + 1).length =
      (((linkGraph es).trails fromId tr.length).filter
        fun x => (linkGraph es).endOf fromId x = toId).length := by
  have hpos := shortest_pos hne h
  have hrows : ((walk es fromId toId maxDepth).filter fun w => w.dst = toId).filter
        (fun w => w.d < tr.length + 1) =
      (((foundTrails es fromId toId maxDepth).filter fun x => x.length = 1 + (tr.length - 1)).filter
        fun x => (linkGraph es).endOf fromId x = toId).map (pathRow es fromId) := by
    rw [walk_eq, List.filter_map, List.filter_map, List.filter_filter, List.filter_filter]
    refine congrArg _ (List.filter_congr fun x hx => ?_)
    have hleads := ((mem_foundTrails hdepth).mp hx).2.1
    show (decide ((pathRow es fromId x).d < tr.length + 1) &&
      decide ((linkGraph es).endOf fromId x = toId)) = _
    by_cases hend : (linkGraph es).endOf fromId x = toId
    · have hleast := h.least x hleads hend
      have hiff : x.length < tr.length + 1 ↔ x.length = 1 + (tr.length - 1) := by omega
      have hd : decide ((pathRow es fromId x).d < tr.length + 1) =
          decide (x.length = 1 + (tr.length - 1)) := decide_eq_decide.mpr hiff
      rw [hd, Bool.and_comm]
    · rw [decide_eq_false hend, Bool.and_false, Bool.false_and]
  have hall : (((linkGraph es).trails fromId tr.length).filter
        (Multigraph.passes (mayAdd es fromId toId maxDepth) [])).filter
          (fun x => (linkGraph es).endOf fromId x = toId) =
      ((linkGraph es).trails fromId tr.length).filter
        fun x => (linkGraph es).endOf fromId x = toId := by
    rw [List.filter_filter]
    refine List.filter_congr fun x hx => ?_
    obtain ⟨hleads, hlen⟩ := Multigraph.mem_trails.mp hx
    by_cases hend : (linkGraph es).endOf fromId x = toId
    · have hx : (linkGraph es).Shortest fromId toId x :=
        ⟨hleads, hend, fun y hy hyend => hlen ▸ h.least y hy hyend⟩
      rw [shortest_passes hx (hlen ▸ hle), Bool.and_true]
    · simp [hend]
  rw [hrows, filter_foundTrails (by omega), Nat.sub_add_cancel hpos, List.length_map, hall]

/-- A path that the walk finds repeats a node only when it begins with a self-loop. -/
theorem loop_of_repeats {tr : List EdgeRow}
    (hpasses : Multigraph.passes (mayAdd es fromId toId maxDepth) [] tr = true)
    (hrepeats : ¬ ((linkGraph es).trailNodes fromId tr).Nodup) :
    ∃ e tr', tr = e :: tr' ∧ e.toId = fromId := by
  cases tr with
  | nil => exact absurd (List.nodup_singleton fromId) hrepeats
  | cons e tr' =>
    refine ⟨e, tr', rfl, ?_⟩
    by_contra hloop
    refine hrepeats (Multigraph.nodup_trailNodes (x := [e]) ?_ fun u e' v huv => ?_)
    · have hpair : (linkGraph es).trailNodes fromId [e] = [fromId, e.toId] := rfl
      rw [hpair, List.nodup_cons, List.mem_singleton]
      exact ⟨fun heq => hloop heq.symm, List.nodup_singleton _⟩
    · have hmay := Multigraph.passes_iff.mp hpasses (e :: u) e' v (by rw [huv, List.cons_append])
      rw [List.nil_append, mayAdd, decide_eq_true_iff] at hmay
      rcases hmay with hnil | ⟨-, -, hnode⟩
      · cases hnil
      · exact hnode

/-- A self-loop goes before a shortest path. -/
theorem loop_found (hdepth : 1 ≤ maxDepth) {e : EdgeRow} (he : e ∈ es) (hfrom : e.fromId = fromId)
    (hto : e.toId = fromId) {tr : List EdgeRow} (h : (linkGraph es).Shortest fromId toId tr)
    (hle : tr.length + 1 ≤ maxDepth) : e :: tr ∈ foundTrails es fromId toId maxDepth := by
  have hleads : (linkGraph es).Leads e.toId tr := by
    rw [hto]
    exact h.leads
  refine (mem_foundTrails hdepth).mpr ⟨⟨Nat.le_add_left 1 _, hle⟩, ⟨⟨he, hfrom⟩, hleads⟩,
    Multigraph.passes_iff.mpr fun x e' y hxy => ?_⟩
  rw [List.nil_append, mayAdd, decide_eq_true_iff]
  cases x with
  | nil => exact .inl rfl
  | cons e'' x =>
    obtain ⟨rfl, htr⟩ : e = e'' ∧ tr = x ++ e' :: y := List.cons.inj hxy
    rw [htr] at h hle
    rw [List.length_append, List.length_cons] at hle
    have hnodes : (linkGraph es).trailNodes fromId (e :: x) =
        fromId :: (linkGraph es).trailNodes fromId x := by
      rw [Multigraph.trailNodes, List.map_cons, Multigraph.trailNodes]
      exact congrArg (fun a => fromId :: a :: _) hto
    have hend : (linkGraph es).endOf fromId (e :: x) = (linkGraph es).endOf fromId x :=
      congrArg (fun a => (linkGraph es).endOf a x) hto
    have hback : e'.toId ∉ (linkGraph es).trailNodes fromId x := h.not_back
    refine .inr ⟨by rw [List.length_cons]; omega, hend ▸ h.not_before, ?_⟩
    rw [hnodes, List.mem_cons, not_or]
    exact ⟨fun heq => hback (heq ▸ List.mem_cons_self), hback⟩

/-! ## The rows of the result -/

variable {o : RowOrder WalkRow}

theorem mem_traceRows {w : WalkRow} (hw : w ∈ traceRows es fromId toId maxDepth o) :
    ∃ tr ∈ foundTrails es fromId toId maxDepth, (linkGraph es).endOf fromId tr = toId ∧
      w = pathRow es fromId tr :=
  mem_arrived.mp (mem_orderBy.mp (List.mem_of_mem_take hw))

theorem traceRows_sorted :
    (traceRows es fromId toId maxDepth o).Pairwise fun w w' => w.d ≤ w'.d :=
  (orderBy_pairwise o WalkRow.d _).sublist (List.take_sublist 5 _)

/-- The first row is no longer than any path that the walk finds. -/
theorem head_traceRows_le {w : WalkRow}
    (hw : (traceRows es fromId toId maxDepth o).head? = some w) {tr : List EdgeRow}
    (htr : tr ∈ foundTrails es fromId toId maxDepth)
    (hend : (linkGraph es).endOf fromId tr = toId) : w.d ≤ tr.length := by
  have hmem : pathRow es fromId tr ∈ orderBy o WalkRow.d
      ((walk es fromId toId maxDepth).filter fun w => w.dst = toId) :=
    mem_orderBy.mpr (mem_arrived.mpr ⟨tr, htr, hend, rfl⟩)
  have hsorted := orderBy_pairwise o WalkRow.d
    ((walk es fromId toId maxDepth).filter fun w => w.dst = toId)
  rw [traceRows, List.head?_take, if_neg (by decide)] at hw
  obtain ⟨rest, hrest⟩ := List.head?_eq_some_iff.mp hw
  rw [hrest] at hmem hsorted
  rcases List.mem_cons.mp hmem with rfl | hmem
  · exact Nat.le_refl _
  · exact (List.pairwise_cons.mp hsorted).1 _ hmem

theorem traceRows_nil_iff (hdepth : 1 ≤ maxDepth) (hne : fromId ≠ toId) :
    traceRows es fromId toId maxDepth o = [] ↔
      ∀ k ≤ maxDepth, ¬ Steps (Link es) k fromId toId := by
  constructor
  · intro hnil k hk hsteps
    obtain ⟨tr, htr, hle⟩ := exists_shortest_of_steps hsteps
    have hfound := shortest_found hdepth hne htr (hle.trans hk)
    have hmem : pathRow es fromId tr ∈ orderBy o WalkRow.d
        ((walk es fromId toId maxDepth).filter fun w => w.dst = toId) :=
      mem_orderBy.mpr (mem_arrived.mpr ⟨tr, hfound, htr.ends, rfl⟩)
    rw [traceRows, List.take_eq_nil_iff] at hnil
    rcases hnil with h | h
    · cases h
    · rw [h] at hmem
      cases hmem
  · intro hnone
    rw [List.eq_nil_iff_forall_not_mem]
    intro w hw
    obtain ⟨tr, htr, hend, rfl⟩ := mem_traceRows hw
    obtain ⟨⟨-, hle⟩, hleads, -⟩ := (mem_foundTrails hdepth).mp htr
    exact hnone tr.length hle
      ((Multigraph.steps_iff_trail (G := linkGraph es)).mpr ⟨tr, hleads, rfl, hend⟩)

/-- Where the self-loop's paths are left out, no returned row repeats a node. -/
theorem traceRows_nodup (hdepth : 1 ≤ maxDepth) (hne : fromId ≠ toId)
    (h : Link es fromId fromId → LongerLeftOut es fromId toId maxDepth) {w : WalkRow}
    (hw : w ∈ traceRows es fromId toId maxDepth o) : w.nodePath.Nodup := by
  obtain ⟨tr, htr, hend, rfl⟩ := mem_traceRows hw
  obtain ⟨⟨-, hle⟩, hleads, hpasses⟩ := (mem_foundTrails hdepth).mp htr
  by_contra hrepeats
  obtain ⟨e, tr', rfl, hto⟩ := loop_of_repeats hpasses hrepeats
  obtain ⟨⟨he, hfrom⟩, hleads'⟩ := hleads
  have hback : (linkGraph es).dst e = fromId := hto
  rw [hback] at hleads'
  have hend' : (linkGraph es).endOf fromId tr' = toId := by
    rw [← hend, Multigraph.endOf, hback]
  obtain ⟨x, hx⟩ := Multigraph.exists_shortest hleads' hend'
  have hxle := hx.least tr' hleads' hend'
  rw [List.length_cons] at hle
  have hfive := h ⟨e, he, hfrom, hto⟩ x.length (isLeast_steps_iff.mpr ⟨x, hx, rfl⟩) (by omega)
  rw [← length_shortest hdepth hne hx (by omega)] at hfive
  -- All the shortest paths come before this row, so it is not one of the first five.
  have hfew := length_below_lt (orderBy_pairwise o WalkRow.d _) hw
  rw [((orderBy_perm o WalkRow.d _).filter _).length_eq] at hfew
  have hmore : (((walk es fromId toId maxDepth).filter fun w => w.dst = toId).filter
        fun w => w.d < x.length + 1).length ≤
      (((walk es fromId toId maxDepth).filter fun w => w.dst = toId).filter
        fun w => w.d < (pathRow es fromId (e :: tr')).d).length := by
    refine (List.monotone_filter_right _ fun w hw => ?_).length_le
    have hd : (pathRow es fromId (e :: tr')).d = tr'.length + 1 := rfl
    rw [decide_eq_true_iff] at hw ⊢
    omega
  omega

/-- Where they are not left out, some order of the rows returns one. -/
theorem exists_repeats (hdepth : 1 ≤ maxDepth) (hne : fromId ≠ toId)
    (hloop : Link es fromId fromId) (h : ¬ LongerLeftOut es fromId toId maxDepth) :
    ∃ o, ∃ w ∈ traceRows es fromId toId maxDepth o, ¬ w.nodePath.Nodup := by
  rw [LongerLeftOut] at h
  push Not at h
  obtain ⟨k, hleast, hle, hfew⟩ := h
  obtain ⟨tr, htr, rfl⟩ := isLeast_steps_iff.mp hleast
  obtain ⟨e, he, hfrom, hto⟩ := hloop
  have hback : (linkGraph es).dst e = fromId := hto
  refine ⟨.first (pathRow es fromId (e :: tr)), pathRow es fromId (e :: tr), ?_, ?_⟩
  · refine mem_take_orderBy_first (mem_arrived.mpr ⟨e :: tr, loop_found hdepth he hfrom hto htr hle,
      ?_, rfl⟩) ?_
    · rw [Multigraph.endOf, hback, htr.ends]
    · have hd : (pathRow es fromId (e :: tr)).d = tr.length + 1 := rfl
      rw [hd, length_shortest hdepth hne htr (by omega)]
      exact hfew
  · have hnodes : (pathRow es fromId (e :: tr)).nodePath =
        fromId :: (linkGraph es).dst e :: tr.map (linkGraph es).dst := rfl
    rw [hnodes, hback, List.nodup_cons]
    exact fun hnodup => hnodup.1 List.mem_cons_self

end

/-! ## The tool -/

theorem traceDependency_exact_iff {u : TypeTables} {st : Store} {s : Scope}
    {edgeTypes : List String} {fromId toId maxDepth : Nat} (hne : edgeTypes ≠ [])
    (hwf : ∀ et ∈ edgeTypes, WellFormedType et) (hdistinct : fromId ≠ toId)
    (hdepth : 1 ≤ maxDepth) :
    (∀ o, ExactTrace (st.edges s edgeTypes) fromId toId maxDepth
        (traceRows (st.edges s (traceTypes u edgeTypes)) fromId toId maxDepth o)
        (traceDependency u o st s edgeTypes fromId toId maxDepth)) ↔
      (Link (st.edges s edgeTypes) fromId fromId →
        LongerLeftOut (st.edges s edgeTypes) fromId toId maxDepth) := by
  rw [traceTypes_eq hne hwf]
  constructor
  · intro h hloop
    by_contra hleft
    obtain ⟨o, w, hw, hrepeats⟩ := exists_repeats hdepth hdistinct hloop hleft
    exact hrepeats ((h o).paths w hw).2.2
  · intro h o
    obtain ⟨names, hout⟩ : ∃ names, traceDependency u o st s edgeTypes fromId toId maxDepth =
        ⟨(traceRows (st.edges s edgeTypes) fromId toId maxDepth o).map (dependencyPath names),
          (traceRows (st.edges s edgeTypes) fromId toId maxDepth o).length = 0⟩ := by
      rw [traceDependency, traceTypes_eq hne hwf]
      exact ⟨_, rfl⟩
    rw [hout]
    refine ⟨?_, ⟨names, rfl⟩, fun w hw => ?_, ?_, fun p hp => ?_⟩
    · rw [decide_eq_true_iff, List.length_eq_zero_iff]
      exact traceRows_nil_iff hdepth hdistinct
    · obtain ⟨tr, htr, hend, rfl⟩ := mem_traceRows hw
      obtain ⟨⟨-, hle⟩, hleads, -⟩ := (mem_foundTrails hdepth).mp htr
      exact ⟨⟨tr, hleads, hend, rfl⟩, hle, traceRows_nodup hdepth hdistinct h hw⟩
    · rw [List.map_map, List.pairwise_map]
      exact traceRows_sorted
    · rw [List.head?_map, Option.map_eq_some_iff] at hp
      obtain ⟨w, hw, rfl⟩ := hp
      obtain ⟨tr, htr, hend, rfl⟩ := mem_traceRows (List.mem_of_head? hw)
      have hmem := (mem_foundTrails hdepth).mp htr
      obtain ⟨x, hx⟩ := Multigraph.exists_shortest hmem.2.1 hend
      have hxle := hx.least tr hmem.2.1 hend
      have hle := head_traceRows_le hw (shortest_found hdepth hdistinct hx (by omega)) hx.ends
      have hlen : tr.length = x.length := Nat.le_antisymm hle hxle
      exact isLeast_steps_iff.mpr ⟨x, hx, hlen.symm⟩

/-! ## A recursive function -/

/-- `walk` calls itself and `leaf`. -/
def recursiveCaller : Store where
  graph := {
    nodes := {
      rows := [symbolRow 1 "py:function:walk", symbolRow 2 "py:function:leaf"]
      nextId := 3
      unique := by decide }
    edges := [edgeRow "CALLS" 1 1, edgeRow "CALLS" 1 2] }
  primary := by decide

theorem wellFormed_calls : ∀ et ∈ calls, WellFormedType et := by
  intro et het
  rw [List.mem_singleton.mp het]
  exact ⟨by decide, Numerals.forall_mem_of_all (by decide)⟩

theorem traceDependency_recursiveCaller :
    (∀ o, ExactTrace (recursiveCaller.edges headScope calls) 1 2 5
        (traceRows (recursiveCaller.edges headScope (traceTypes asciiTypeTables calls)) 1 2 5 o)
        (traceDependency asciiTypeTables o recursiveCaller headScope calls 1 2 5)) ↔
      (Link (recursiveCaller.edges headScope calls) 1 1 →
        LongerLeftOut (recursiveCaller.edges headScope calls) 1 2 5) :=
  traceDependency_exact_iff (by decide) wellFormed_calls (by decide) (by decide)

/-- The second path goes from `walk` to `walk` before it goes on. -/
theorem recursiveCaller_repeats : ¬ ExactTrace (recursiveCaller.edges headScope calls) 1 2 5
    (traceRows (recursiveCaller.edges headScope (traceTypes asciiTypeTables calls)) 1 2 5 .stored)
    (traceDependency asciiTypeTables .stored recursiveCaller headScope calls 1 2 5) := by
  intro h
  have hrow : (⟨1, 2, 2, [1, 1, 2], ["CALLS", "CALLS"]⟩ : WalkRow) ∈
      traceRows (recursiveCaller.edges headScope (traceTypes asciiTypeTables calls)) 1 2 5
        .stored := by
    rw [traceTypes_eq (by decide) wellFormed_calls]
    decide
  exact absurd (h.paths _ hrow).2.2 (by decide)

end SpineFormal.Kg
