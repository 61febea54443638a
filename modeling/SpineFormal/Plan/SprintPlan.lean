import Mathlib.Data.String.Basic
import SpineFormal.Base.TopoSort

/-!
# The sprint plan

`_sequence_sprints`: the stories in a topological order, those that the order does not reach
behind them, cut into sprints. Edges that mark a cycle are passed over.
-/

namespace SpineFormal.Plan

open TopoSort
set_option autoImplicit false

/-- The fields that sequencing reads and writes. -/
structure Story where
  id : String
  title : String
  dependencies : List String

inductive Confidence where
  | high
  | medium
  | low

structure StoryDependency where
  fromStoryId : String
  toStoryId : String
  reason : String
  confidence : Confidence

def StoryDependency.isCycleMarker (e : StoryDependency) : Bool :=
  "cycle:".toList.isPrefixOf e.reason.toList

structure Sprint where
  number : ℕ
  name : String
  goal : String
  stories : List String

def maxStoriesPerSprint : ℕ := 8
def defaultSprintCount : ℕ := 3

def sorted (ids : List String) : List String := ids.mergeSort fun a b => decide (a ≤ b)

/-- The keys of `in_deg`. -/
def keysOf (stories : List Story) : List String := (stories.map Story.id).dedup

/-- The edges that count, between stories of the list. -/
def linksOf (stories : List Story) (edges : List StoryDependency) : List (String × String) :=
  (edges.filter fun e => !e.isCycleMarker &&
    (decide (e.fromStoryId ∈ keysOf stories) && decide (e.toStoryId ∈ keysOf stories))).map
      fun e => (e.fromStoryId, e.toStoryId)

/-- Those that are missing land at the end. -/
def appendMissing (ordered : List String) (ids : List String) : List String :=
  ids.foldl (fun ordered id => if id ∈ ordered then ordered else ordered ++ [id]) ordered

def orderStories (stories : List Story) (edges : List StoryDependency) : List String :=
  appendMissing (order sorted (keysOf stories) (linksOf stories edges)) (stories.map Story.id)

def slice (ordered : List String) (i : ℕ) : List String :=
  (ordered.drop (i * maxStoriesPerSprint)).take maxStoriesPerSprint

def sprintOf (i : ℕ) (chunk : List String) : Sprint where
  number := i + 1
  name := "Sprint " ++ toString (i + 1)
  goal := "Deliver " ++ toString chunk.length ++ " stories (slice " ++ toString (i + 1) ++ "/" ++
    toString defaultSprintCount ++ ")."
  stories := chunk

def overflowOf (i : ℕ) (tail : List String) : Sprint where
  number := i + 1
  name := "Backlog overflow"
  goal := "Stories beyond default " ++ toString defaultSprintCount ++ "-sprint horizon."
  stories := tail

/-- At most `count` sprints from number `i` on, until a slice is empty. -/
def sprintsFrom (ordered : List String) : ℕ → ℕ → List Sprint
  | _, 0 => []
  | i, count + 1 =>
    let chunk := slice ordered i
    if chunk.isEmpty then [] else sprintOf i chunk :: sprintsFrom ordered (i + 1) count

def bucket (ordered : List String) : List Sprint :=
  let sprints := sprintsFrom ordered 0 defaultSprintCount
  let tail := ordered.drop (defaultSprintCount * maxStoriesPerSprint)
  if tail.isEmpty then sprints else sprints ++ [overflowOf sprints.length tail]

def sequenceSprints (stories : List Story) (edges : List StoryDependency) : List Sprint :=
  bucket (orderStories stories edges)

/-- The plan read from front to back. -/
def planned (sprints : List Sprint) : List String := sprints.flatMap Sprint.stories

/-! ## Buckets -/

theorem slice_append (ordered : List String) (i : ℕ) :
    slice ordered i ++ ordered.drop ((i + 1) * maxStoriesPerSprint) =
      ordered.drop (i * maxStoriesPerSprint) := by
  rw [slice, Nat.succ_mul, ← List.drop_drop, List.take_append_drop]

theorem slice_length_le (ordered : List String) (i : ℕ) :
    (slice ordered i).length ≤ maxStoriesPerSprint := List.length_take_le _ _

theorem drop_of_slice_nil {ordered : List String} {i : ℕ} (h : slice ordered i = []) :
    ordered.drop (i * maxStoriesPerSprint) = [] := by
  rw [slice, List.take_eq_nil_iff] at h
  exact h.resolve_left (by decide)

theorem planned_sprintsFrom (ordered : List String) (i count : ℕ) :
    planned (sprintsFrom ordered i count) ++ ordered.drop ((i + count) * maxStoriesPerSprint) =
      ordered.drop (i * maxStoriesPerSprint) := by
  induction count generalizing i with
  | zero => rfl
  | succ count ih =>
    rw [sprintsFrom]
    by_cases hempty : slice ordered i = []
    · have hdone := drop_of_slice_nil hempty
      have hlength : ordered.length ≤ i * maxStoriesPerSprint := List.drop_eq_nil_iff.mp hdone
      have hlater : ordered.drop ((i + (count + 1)) * maxStoriesPerSprint) = [] := by
        refine List.drop_eq_nil_iff.mpr (hlength.trans ?_)
        exact Nat.mul_le_mul_right _ (Nat.le_add_right _ _)
      rw [hempty, hdone, hlater]
      rfl
    · have hnext := ih (i + 1)
      rw [Nat.add_right_comm, Nat.add_assoc] at hnext
      simp only [List.isEmpty_iff, hempty, if_false]
      rw [← slice_append ordered i, ← hnext, ← List.append_assoc]
      rfl

theorem planned_bucket (ordered : List String) : planned (bucket ordered) = ordered := by
  have hall := planned_sprintsFrom ordered 0 defaultSprintCount
  rw [Nat.zero_add, Nat.zero_mul, List.drop_zero] at hall
  rw [bucket]
  split
  · rename_i hempty
    rw [List.isEmpty_iff.mp hempty, List.append_nil] at hall
    exact hall
  · rw [planned, List.flatMap_append]
    exact (congrArg (planned (sprintsFrom ordered 0 defaultSprintCount) ++ ·)
      (List.append_nil _)).trans hall

/-- Only full sprints leave something over. -/
theorem sprintsFrom_length {ordered : List String} {i count : ℕ}
    (h : ordered.drop ((i + count) * maxStoriesPerSprint) ≠ []) :
    (sprintsFrom ordered i count).length = count := by
  induction count generalizing i with
  | zero => rfl
  | succ count ih =>
    rw [sprintsFrom]
    have hhere : slice ordered i ≠ [] := by
      intro hempty
      have hlength := List.drop_eq_nil_iff.mp (drop_of_slice_nil hempty)
      refine h (List.drop_eq_nil_iff.mpr (hlength.trans ?_))
      exact Nat.mul_le_mul_right _ (Nat.le_add_right _ _)
    simp only [List.isEmpty_iff, hhere, if_false, List.length_cons]
    rw [ih (by rwa [Nat.add_right_comm, Nat.add_assoc])]

theorem sprintsFrom_small (ordered : List String) (i count : ℕ) :
    ∀ sprint ∈ sprintsFrom ordered i count, sprint.stories.length ≤ maxStoriesPerSprint := by
  induction count generalizing i with
  | zero => exact fun sprint h => absurd h List.not_mem_nil
  | succ count ih =>
    rw [sprintsFrom]
    split
    · exact fun sprint h => absurd h List.not_mem_nil
    · intro sprint h
      rcases List.mem_cons.mp h with rfl | h
      · exact slice_length_le ordered i
      · exact ih (i + 1) sprint h

theorem bucket_small (ordered : List String) :
    ∀ sprint ∈ (bucket ordered).take defaultSprintCount,
      sprint.stories.length ≤ maxStoriesPerSprint := by
  have hsmall := sprintsFrom_small ordered 0 defaultSprintCount
  rw [bucket]
  split
  · exact fun sprint h => hsmall sprint (List.mem_of_mem_take h)
  · rename_i hleft
    have hfull : (sprintsFrom ordered 0 defaultSprintCount).length = defaultSprintCount :=
      sprintsFrom_length (by
        rw [Nat.zero_add]
        exact fun h => hleft (List.isEmpty_iff.mpr h))
    rw [List.take_left' hfull]
    exact hsmall

/-! ## The order -/

theorem sorted_perm (ids : List String) : (sorted ids).Perm ids := List.mergeSort_perm ids _

theorem keysOf_nodup (stories : List Story) : (keysOf stories).Nodup := List.nodup_dedup _

theorem mem_keysOf {stories : List Story} {id : String} :
    id ∈ keysOf stories ↔ id ∈ stories.map Story.id := List.mem_dedup

/-- An edge that counts leads from one to the other. -/
def Follows (stories : List Story) (edges : List StoryDependency) (u v : String) : Prop :=
  ∃ e ∈ edges, e.isCycleMarker = false ∧ e.fromStoryId = u ∧ e.toStoryId = v ∧
    u ∈ stories.map Story.id ∧ v ∈ stories.map Story.id

theorem mem_linksOf {stories : List Story} {edges : List StoryDependency} {u v : String} :
    (u, v) ∈ linksOf stories edges ↔ Follows stories edges u v := by
  rw [linksOf, List.mem_map, Follows]
  constructor
  · rintro ⟨e, he, heq⟩
    obtain ⟨hmem, hcounts⟩ := List.mem_filter.mp he
    obtain ⟨rfl, rfl⟩ := Prod.mk.inj heq
    simp only [Bool.and_eq_true, Bool.not_eq_true', decide_eq_true_eq, mem_keysOf] at hcounts
    exact ⟨e, hmem, hcounts.1, rfl, rfl, hcounts.2.1, hcounts.2.2⟩
  · rintro ⟨e, he, hmarker, rfl, rfl, hu, hv⟩
    refine ⟨e, List.mem_filter.mpr ⟨he, ?_⟩, rfl⟩
    simp only [hmarker, Bool.not_false, mem_keysOf, hu, hv, decide_true, Bool.and_self]

theorem linksOf_keys (stories : List Story) (edges : List StoryDependency) :
    ∀ link ∈ linksOf stories edges, link.1 ∈ keysOf stories ∧ link.2 ∈ keysOf stories := by
  rintro ⟨u, v⟩ h
  obtain ⟨e, _, _, _, _, hu, hv⟩ := mem_linksOf.mp h
  exact ⟨mem_keysOf.mpr hu, mem_keysOf.mpr hv⟩

theorem prefix_appendMissing (ordered ids : List String) :
    ordered <+: appendMissing ordered ids := by
  induction ids generalizing ordered with
  | nil => exact List.prefix_refl _
  | cons id ids ih =>
    rw [appendMissing, List.foldl_cons, ← appendMissing]
    split
    · exact ih ordered
    · exact (List.prefix_append ordered [id]).trans (ih _)

theorem appendMissing_nodup {ordered : List String} (h : ordered.Nodup) (ids : List String) :
    (appendMissing ordered ids).Nodup := by
  induction ids generalizing ordered with
  | nil => exact h
  | cons id ids ih =>
    rw [appendMissing, List.foldl_cons, ← appendMissing]
    split
    · exact ih h
    · rename_i hout
      refine ih (List.nodup_append.mpr ⟨h, List.nodup_singleton id, fun a ha b hb => ?_⟩)
      rw [List.mem_singleton.mp hb]
      rintro rfl
      exact hout ha

theorem mem_appendMissing {ordered ids : List String} {id : String} :
    id ∈ appendMissing ordered ids ↔ id ∈ ordered ∨ id ∈ ids := by
  induction ids generalizing ordered with
  | nil => simp [appendMissing]
  | cons next ids ih =>
    rw [appendMissing, List.foldl_cons, ← appendMissing, ih]
    split
    · rename_i hin
      constructor
      · tauto
      · rintro (h | h)
        · exact Or.inl h
        · rcases List.mem_cons.mp h with rfl | h
          · exact Or.inl hin
          · exact Or.inr h
    · rw [List.mem_append, List.mem_singleton, List.mem_cons, or_assoc]

theorem planned_sequenceSprints (stories : List Story) (edges : List StoryDependency) :
    planned (sequenceSprints stories edges) = orderStories stories edges := planned_bucket _

theorem orderStories_nodup (stories : List Story) (edges : List StoryDependency) :
    (orderStories stories edges).Nodup := by
  have horder := order_nodup sorted_perm (keysOf_nodup stories) (linksOf_keys stories edges)
  exact appendMissing_nodup horder _

theorem mem_orderStories {stories : List Story} {edges : List StoryDependency} {id : String} :
    id ∈ orderStories stories edges ↔ id ∈ stories.map Story.id := by
  rw [orderStories, mem_appendMissing]
  refine or_iff_right_of_imp fun h => mem_keysOf.mp ?_
  exact order_subset sorted_perm (keysOf_nodup stories) (linksOf_keys stories edges) h

/-- An edge that counts is kept to, unless it leads behind a cycle. -/
theorem orderStories_sublist {stories : List Story} {edges : List StoryDependency} {u v : String}
    (h : Follows stories edges u v) (hcycle : ¬BehindCycle (Follows stories edges) v) :
    [u, v].Sublist (orderStories stories edges) := by
  have hlinks : (fun u v => (u, v) ∈ linksOf stories edges) = Follows stories edges := by
    funext u v
    exact propext mem_linksOf
  have hv : v ∈ keysOf stories := (linksOf_keys stories edges (u, v) (mem_linksOf.mpr h)).2
  have hplaced : v ∈ order sorted (keysOf stories) (linksOf stories edges) :=
    mem_order sorted_perm (keysOf_nodup stories) (linksOf_keys stories edges) hv
      (by rwa [hlinks])
  exact (order_sublist sorted_perm (keysOf_nodup stories) (linksOf_keys stories edges)
    (mem_linksOf.mpr h) hplaced).trans (prefix_appendMissing _ _).sublist

/-- The queue of the sort runs empty, within a turn for each story. Then each story is planned
once, the first three sprints are small, and every edge that counts is kept to unless it leads
behind a cycle. -/
theorem sequenceSprints_sound {stories : List Story} (hids : (stories.map Story.id).Nodup)
    (edges : List StoryDependency) :
    (drain sorted (linksOf stories edges) (keysOf stories).length
        (start sorted (keysOf stories) (linksOf stories edges))).ready = [] ∧
      (planned (sequenceSprints stories edges)).Perm (stories.map Story.id) ∧
      (∀ sprint ∈ (sequenceSprints stories edges).take 3, sprint.stories.length ≤ 8) ∧
      ∀ e ∈ edges, e.isCycleMarker = false → e.fromStoryId ∈ stories.map Story.id →
        e.toStoryId ∈ stories.map Story.id →
        ¬BehindCycle (Follows stories edges) e.toStoryId →
        [e.fromStoryId, e.toStoryId].Sublist (planned (sequenceSprints stories edges)) := by
  rw [planned_sequenceSprints]
  refine ⟨drain_ready sorted_perm (keysOf_nodup stories) (linksOf_keys stories edges), ?_,
    bucket_small _, fun e he hmarker hfrom hto hcycle => ?_⟩
  · exact (List.perm_ext_iff_of_nodup (orderStories_nodup stories edges) hids).mpr
      fun id => mem_orderStories
  · exact orderStories_sublist ⟨e, he, hmarker, rfl, rfl, hfrom, hto⟩ hcycle

/-- Two stories that wait for each other. -/
theorem sequenceSprints_sound_pair :
    (planned (sequenceSprints [⟨"STORY-1.1.1", "a", []⟩, ⟨"STORY-1.1.2", "b", []⟩]
      [⟨"STORY-1.1.1", "STORY-1.1.2", "text_overlap: ['core']", .low⟩,
        ⟨"STORY-1.1.2", "STORY-1.1.1", "text_overlap: ['core']", .low⟩])).Perm
      ["STORY-1.1.1", "STORY-1.1.2"] :=
  (sequenceSprints_sound (by decide) _).2.1

end SpineFormal.Plan
