import Mathlib.Data.List.Basic

/-!
# Queues that drop their oldest entry

A queue of bounded size that makes room for a new entry by dropping the oldest. A mailbox keeps,
beside the queue, what has left it, and whether it was read or dropped: nothing is reordered,
and whatever was dropped had as many entries delivered after it as the queue holds.
-/

namespace SpineFormal

set_option autoImplicit false

universe u
variable {α : Type u} {cap : Nat}

structure BoundedQueue (α : Type u) (cap : Nat) where
  items : List α
  bound : items.length ≤ cap

namespace BoundedQueue
variable (q : BoundedQueue α cap)

def empty : BoundedQueue α cap := ⟨[], Nat.zero_le cap⟩

/-- `none` when the queue is full. -/
def put (a : α) : Option (BoundedQueue α cap) :=
  if h : q.items.length < cap then
    some ⟨q.items ++ [a], by rw [List.length_append]; exact h⟩
  else none

/-- `none` when the queue is empty. -/
def get : Option (α × BoundedQueue α cap) :=
  q.items.head?.map fun a =>
    (a, ⟨q.items.tail, by rw [List.length_tail]; exact Nat.le_trans (Nat.sub_le _ 1) q.bound⟩)

/-- Puts an entry, if need be after the oldest is taken away, and what is lost by it. -/
def putDropping (a : α) : BoundedQueue α cap × List α :=
  match q.put a with
  | some q' => (q', [])
  | none =>
    match q.get with
    | none => (q, [a])
    | some (oldest, rest) =>
      match rest.put a with
      | some q' => (q', [oldest])
      | none => (rest, [oldest, a])

theorem putDropping_cases (hcap : 0 < cap) (a : α) :
    ((q.putDropping a).1.items = q.items ++ [a] ∧ (q.putDropping a).2 = []) ∨
    ∃ oldest rest, q.items = oldest :: rest ∧ q.items.length = cap ∧
      (q.putDropping a).1.items = rest ++ [a] ∧ (q.putDropping a).2 = [oldest] := by
  obtain ⟨items, bound⟩ := q
  by_cases hroom : items.length < cap
  · left
    rw [putDropping, put, dif_pos hroom]
    exact ⟨rfl, rfl⟩
  · right
    have hfull : items.length = cap := Nat.le_antisymm bound (Nat.not_lt.mp hroom)
    cases items with
    | nil => exact absurd hfull (Nat.ne_of_lt hcap)
    | cons oldest rest =>
      have hrest : rest.length < cap := by
        rw [← hfull]
        exact Nat.lt_succ_self _
      refine ⟨oldest, rest, rfl, hfull, ?_⟩
      rw [putDropping, put, dif_neg hroom]
      simp only [get, put, List.head?_cons, Option.map_some, List.tail_cons, dif_pos hrest]
      exact ⟨trivial, trivial⟩

theorem get_eq_some {q q' : BoundedQueue α cap} {a : α} (h : q.get = some (a, q')) :
    q.items = a :: q'.items := by
  obtain ⟨items, bound⟩ := q
  cases items with
  | nil => cases h
  | cons b rest =>
    cases h
    rfl

end BoundedQueue

/-- A queue and what has left it, in order; `true` marks what was read. -/
structure Mailbox (α : Type u) (cap : Nat) where
  queue : BoundedQueue α cap
  gone : List (α × Bool)

namespace Mailbox
variable (m : Mailbox α cap)

def empty : Mailbox α cap := ⟨.empty, []⟩

def put (a : α) : Mailbox α cap :=
  ⟨(m.queue.putDropping a).1, m.gone ++ (m.queue.putDropping a).2.map fun x => (x, false)⟩

def get : Option (Mailbox α cap) := m.queue.get.map fun r => ⟨r.2, m.gone ++ [(r.1, true)]⟩

def delivered : List α := m.gone.map Prod.fst ++ m.queue.items

def received : List α := (m.gone.filter Prod.snd).map Prod.fst

/-- Of what was delivered, `cap` entries came after each that was dropped. -/
def LossLate : Prop := ∀ k a, m.gone[k]? = some (a, false) → k + cap < m.delivered.length

theorem delivered_put (hcap : 0 < cap) (a : α) : (m.put a).delivered = m.delivered ++ [a] := by
  rw [delivered, put, delivered, List.map_append, List.map_map]
  rcases m.queue.putDropping_cases hcap a with ⟨hitems, hlost⟩ | ⟨oldest, rest, hq, -, hitems, hlost⟩
  · rw [hitems, hlost, List.map_nil, List.append_nil, List.append_assoc]
  · rw [hitems, hlost, hq]
    simp

theorem LossLate.put {m : Mailbox α cap} (h : m.LossLate) (hcap : 0 < cap) (a : α) :
    (m.put a).LossLate := by
  intro k x hk
  rw [delivered_put m hcap, List.length_append, List.length_singleton]
  rw [Mailbox.put] at hk
  rcases m.queue.putDropping_cases hcap a with ⟨-, hlost⟩ | ⟨oldest, rest, hq, hfull, -, hlost⟩
  · rw [hlost, List.map_nil, List.append_nil] at hk
    exact Nat.lt_succ_of_lt (h k x hk)
  · rw [hlost, List.map_singleton] at hk
    have hlength : m.delivered.length = m.gone.length + cap := by
      rw [delivered, List.length_append, List.length_map, hfull]
    by_cases hold : k < m.gone.length
    · rw [List.getElem?_append_left hold] at hk
      exact Nat.lt_succ_of_lt (h k x hk)
    · -- The entry just dropped has the whole queue behind it, and the new entry.
      have hlast : k < (m.gone ++ [(oldest, false)]).length :=
        (List.getElem?_eq_some_iff.mp hk).1
      rw [List.length_append, List.length_singleton] at hlast
      omega

theorem delivered_get {m m' : Mailbox α cap} (h : m.get = some m') :
    m'.delivered = m.delivered := by
  obtain ⟨⟨a, q⟩, hget, rfl⟩ := Option.map_eq_some_iff.mp h
  rw [delivered, delivered, BoundedQueue.get_eq_some hget, List.map_append]
  simp

theorem LossLate.get {m m' : Mailbox α cap} (hm : m.LossLate) (h : m.get = some m') :
    m'.LossLate := by
  intro k x hk
  rw [delivered_get h]
  obtain ⟨⟨a, q⟩, hget, rfl⟩ := Option.map_eq_some_iff.mp h
  by_cases hold : k < m.gone.length
  · rw [List.getElem?_append_left hold] at hk
    exact hm k x hk
  · rw [List.getElem?_append_right (Nat.not_lt.mp hold)] at hk
    obtain ⟨-, hread⟩ := List.mem_singleton.mp (List.mem_of_getElem? hk) |> Prod.mk.inj
    cases hread

/-- What was read is what was delivered, without what was dropped or is not read yet. -/
theorem received_sublist : m.received.Sublist m.delivered :=
  (List.filter_sublist.map Prod.fst).trans (List.sublist_append_left _ _)

end Mailbox

end SpineFormal
