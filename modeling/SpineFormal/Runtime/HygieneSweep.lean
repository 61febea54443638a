import Mathlib.Data.List.Dedup
import SpineFormal.Runtime.Hygiene

/-!
# The sweep of stale workspaces

`HygieneSweep._sweep_stale_workspaces` goes by the modification time of a workspace's own
directory. The file system gives a directory a new one when an entry directly in it is
made or removed, and a file when it is written.
-/

namespace SpineFormal.Runtime.Hygiene

open FileTree
set_option autoImplicit false

/-! ## Times -/

structure Disk where
  tree : Tree
  mtime : Path → Int

inductive Call where
  | mkdir (p : Path)
  | write (p : Path) (c : Content)
  | remove (p : Path)

/-- The call does something; otherwise it fails and leaves everything as it was. -/
def Call.works (t : Tree) : Call → Bool
  | mkdir p => (t.get? p).isNone && t.isDir p.dropLast
  | write p _ => !t.isDir p && ((t.get? p).isSome || t.isDir p.dropLast)
  | remove p => (t.get? p).isSome && decide (p ≠ [])

def Call.onTree (t : Tree) (c : Call) : Tree :=
  if c.works t then
    match c with
    | mkdir p => t.put p .dir
    | write p content => t.put p (.file content)
    | remove p => t.remove p
  else t

/-- The paths that get a new time: what is made or written, and the directory in which an entry is
made or removed. -/
def Call.stamps (t : Tree) (c : Call) (q : Path) : Bool :=
  c.works t &&
    match c with
    | mkdir p => q = p || q = p.dropLast
    | write p _ => q = p || (t.get? p).isNone && q = p.dropLast
    | remove p => q = p.dropLast

def Disk.call (d : Disk) (now : Int) (c : Call) : Disk :=
  ⟨c.onTree d.tree, fun q => if c.stamps d.tree q then now else d.mtime q⟩

abbrev CallHistory := List (Int × Call)

def Disk.after (d : Disk) : CallHistory → Disk
  | [] => d
  | (now, c) :: h => (d.call now c).after h

/-- When a history last gave a path a new time. -/
def lastStamp (t : Tree) : CallHistory → Path → Option Int
  | [], _ => none
  | (now, c) :: h, p => (lastStamp (c.onTree t) h p).or (if c.stamps t p then some now else none)

/-- The modification time of a path is that of the last call that stamped it. -/
theorem mtime_after (d : Disk) (h : CallHistory) (p : Path) :
    (d.after h).mtime p = (lastStamp d.tree h p).getD (d.mtime p) := by
  induction h generalizing d with
  | nil => rfl
  | cons e h ih =>
    obtain ⟨now, c⟩ := e
    rw [Disk.after, ih, lastStamp]
    have htree : (d.call now c).tree = c.onTree d.tree := rfl
    rw [htree]
    cases lastStamp (c.onTree d.tree) h p with
    | some time => rfl
    | none =>
      rw [Option.none_or, Option.getD_none]
      change (if c.stamps d.tree p then now else d.mtime p) = _
      split <;> rfl

/-! ## The sweep -/

/-- `root.iterdir()`. -/
def children (t : Tree) (root : Path) : List Path :=
  ((t.map Prod.fst).filter fun p => p ≠ [] ∧ p.dropLast = root).dedup

/-- The loop of `_sweep_stale_workspaces`. -/
def sweepChildren (mtime : Path → Int) (cutoff : Int) (dryRun : Bool) :
    List Path → List Path × Tree → List Path × Tree
  | [], acc => acc
  | child :: rest, (out, t) =>
    if ¬ t.isDir child then sweepChildren mtime cutoff dryRun rest (out, t)
    else if mtime child < cutoff then
      sweepChildren mtime cutoff dryRun rest
        (out ++ [child], if dryRun then t else rmtree t child)
    else sweepChildren mtime cutoff dryRun rest (out, t)

/-- `_sweep_stale_workspaces`. -/
def sweepStaleWorkspaces (root : Path) (now maxAge : Int) (dryRun : Bool) (d : Disk) :
    List Path × Tree :=
  if ¬ d.tree.isDir root then ([], d.tree)
  else sweepChildren d.mtime (now - maxAge) dryRun (children d.tree root) ([], d.tree)

theorem get?_rmtree_of_ne {t : Tree} {p w : Path} (hlen : p.length = w.length) (hne : p ≠ w) :
    (rmtree t p).get? w = t.get? w := by
  rw [rmtree]
  by_cases hdir : t.isDir p = true
  · rw [if_pos hdir, get?_remove, if_neg fun h => hne (h.eq_of_length hlen)]
  · rw [if_neg hdir]

theorem get?_rmtree_self {t : Tree} {p : Path} (hdir : t.isDir p = true) :
    (rmtree t p).get? p = none := by
  rw [rmtree, if_pos hdir, get?_remove, if_pos (List.prefix_refl p)]

theorem isDir_iff {t : Tree} {p : Path} : t.isDir p = true ↔ t.get? p = some .dir := by
  rw [isDir]
  split
  · rename_i h
    exact iff_of_true rfl h
  · rename_i h
    exact iff_of_false Bool.false_ne_true h

/-- Of paths of one length the loop removes those that are directories and old. -/
theorem get?_sweepChildren {mtime : Path → Int} {cutoff : Int} {w : Path} {cs : List Path}
    (hcs : ∀ p ∈ cs, p.length = w.length) {out : List Path} {t : Tree} :
    (sweepChildren mtime cutoff false cs (out, t)).2.get? w =
      if w ∈ cs ∧ t.isDir w = true ∧ mtime w < cutoff then none else t.get? w := by
  induction cs generalizing out t with
  | nil => rw [sweepChildren, if_neg fun h => absurd h.1 List.not_mem_nil]
  | cons c cs ih =>
    have hlen := hcs c List.mem_cons_self
    have hrest := fun p hp => hcs p (List.mem_cons_of_mem c hp)
    rw [sweepChildren]
    by_cases hdir : t.isDir c = true
    · rw [if_neg (not_not_intro hdir)]
      by_cases hold : mtime c < cutoff
      · rw [if_pos hold, if_neg Bool.false_ne_true, ih hrest]
        by_cases hw : c = w
        · subst hw
          rw [get?_rmtree_self hdir, ite_self, if_pos]
          exact ⟨List.mem_cons_self, hdir, hold⟩
        · have hget := get?_rmtree_of_ne (t := t) hlen hw
          have hsame : (rmtree t c).isDir w = t.isDir w := by rw [isDir, isDir, hget]
          rw [hget, hsame]
          simp only [List.mem_cons, Ne.symm hw, false_or]
      · rw [if_neg hold, ih hrest]
        by_cases hw : c = w
        · subst hw
          rw [if_neg fun h => hold h.2.2, if_neg fun h => hold h.2.2]
        · simp only [List.mem_cons, Ne.symm hw, false_or]
    · rw [if_pos hdir, ih hrest]
      by_cases hw : c = w
      · subst hw
        rw [if_neg fun h => hdir h.2.1, if_neg fun h => hdir h.2.1]
      · simp only [List.mem_cons, Ne.symm hw, false_or]

theorem sweepChildren_dryRun {mtime : Path → Int} {cutoff : Int} {cs : List Path}
    {out : List Path} {t : Tree} : (sweepChildren mtime cutoff true cs (out, t)).2 = t := by
  induction cs generalizing out with
  | nil => rfl
  | cons c cs ih =>
    rw [sweepChildren]
    by_cases hdir : t.isDir c = true
    · rw [if_neg (not_not_intro hdir)]
      by_cases hold : mtime c < cutoff
      · rw [if_pos hold, if_pos rfl, ih]
      · rw [if_neg hold, ih]
    · rw [if_pos hdir, ih]

theorem mem_children {t : Tree} {root w : Path} :
    w ∈ children t root ↔ (∃ e, (w, e) ∈ t) ∧ w ≠ [] ∧ w.dropLast = root := by
  rw [children, List.mem_dedup, List.mem_filter, decide_eq_true_iff, List.mem_map]
  refine and_congr_left fun _ => ?_
  constructor
  · rintro ⟨⟨p, e⟩, hmem, rfl⟩
    exact ⟨e, hmem⟩
  · rintro ⟨e, hmem⟩
    exact ⟨(w, e), hmem, rfl⟩

section
variable {root : Path} {now maxAge : Int} {dryRun : Bool} {d : Disk}

/-- A workspace that is there before the sweep and not after it. -/
def Swept (root : Path) (now maxAge : Int) (dryRun : Bool) (d : Disk) (name : String) : Prop :=
  d.tree.isDir (root ++ [name]) = true ∧
    (sweepStaleWorkspaces root now maxAge dryRun d).2.get? (root ++ [name]) = none

theorem swept_iff {name : String} : Swept root now maxAge dryRun d name ↔
    d.tree.isDir (root ++ [name]) = true ∧ dryRun = false ∧ d.tree.isDir root = true ∧
      d.mtime (root ++ [name]) < now - maxAge := by
  refine and_congr_right fun hdir => ?_
  have hget := isDir_iff.mp hdir
  have hne : d.tree.get? (root ++ [name]) ≠ none := by
    rw [hget]
    exact Option.some_ne_none _
  rw [sweepStaleWorkspaces]
  by_cases hroot : d.tree.isDir root = true
  · rw [if_neg (not_not_intro hroot), and_iff_right hroot]
    cases dryRun with
    | true =>
      rw [sweepChildren_dryRun]
      exact iff_of_false hne fun h => Bool.false_ne_true h.1.symm
    | false =>
      have hlen : ∀ p ∈ children d.tree root, p.length = (root ++ [name]).length := by
        intro p hp
        obtain ⟨-, hnil, hparent⟩ := mem_children.mp hp
        rw [← hparent, List.length_append, List.length_dropLast, List.length_singleton]
        have hpos := List.length_pos_iff.mpr hnil
        omega
      rw [and_iff_right rfl, get?_sweepChildren hlen]
      · have hmem : root ++ [name] ∈ children d.tree root :=
          mem_children.mpr ⟨⟨_, mem_of_get? hget⟩, by simp, by simp⟩
        by_cases hold : d.mtime (root ++ [name]) < now - maxAge
        · rw [if_pos ⟨hmem, hdir, hold⟩]
          exact iff_of_true rfl hold
        · rw [if_neg fun h => hold h.2.2]
          exact iff_of_false hne hold
  · rw [if_pos hroot]
    exact iff_of_false hne fun h => hroot h.2.1

/-- A workspace goes only when no file in it was modified within `maxAge`. -/
def SparesLive (root : Path) (now maxAge : Int) (dryRun : Bool) (d : Disk) : Prop :=
  ∀ name, Swept root now maxAge dryRun d name → ∀ rel,
    (d.tree.file? (root ++ [name] ++ rel)).isSome = true →
    ¬ now - d.mtime (root ++ [name] ++ rel) ≤ maxAge

/-- The last call of a history that stamped the path, or the time it had before, is recent. -/
def RecentlyStamped (now maxAge : Int) (d : Disk) (h : CallHistory) (p : Path) : Prop :=
  now - maxAge ≤ (lastStamp d.tree h p).getD (d.mtime p)

theorem sparesLive_iff (root : Path) (now maxAge : Int) (dryRun : Bool) (d : Disk)
    (h : CallHistory) : SparesLive root now maxAge dryRun (d.after h) ↔
      dryRun = true ∨ (d.after h).tree.isDir root = false ∨ ∀ name rel,
        (d.after h).tree.isDir (root ++ [name]) = true →
        ((d.after h).tree.file? (root ++ [name] ++ rel)).isSome = true →
        RecentlyStamped now maxAge d h (root ++ [name] ++ rel) →
        RecentlyStamped now maxAge d h (root ++ [name]) := by
  have hrecent : ∀ p, RecentlyStamped now maxAge d h p ↔ now - maxAge ≤ (d.after h).mtime p := by
    intro p
    rw [RecentlyStamped, ← mtime_after]
  constructor
  · intro hspares
    cases dryRun with
    | true => exact .inl rfl
    | false =>
      refine .inr ?_
      cases hroot : (d.after h).tree.isDir root with
      | false => exact .inl rfl
      | true =>
        refine .inr ?_
        intro name rel hdir hfile hwritten
        by_contra hstale
        rw [hrecent] at hwritten hstale
        have hswept := swept_iff.mpr ⟨hdir, rfl, hroot, Int.not_le.mp hstale⟩
        apply hspares name hswept rel hfile
        omega
  · intro hcond name hswept rel hfile hwithin
    obtain ⟨hdir, hrun, hroot, hold⟩ := swept_iff.mp hswept
    obtain hdry | hnone | hall := hcond
    · rw [hrun] at hdry
      cases hdry
    · rw [hroot] at hnone
      cases hnone
    · have hstamped := hall name rel hdir hfile ((hrecent _).mpr (by omega))
      rw [hrecent] at hstamped
      omega

end

/-- A log below the workspace is written once more a hundred hours later. -/
def nestedWrites : CallHistory :=
  [(0, .mkdir ["work", "run"]), (0, .mkdir ["work", "run", "out"]),
    (0, .write ["work", "run", "out", "log"] (.data [65])),
    (360000, .write ["work", "run", "out", "log"] (.data [65, 66]))]

def emptyDisk : Disk := ⟨[([], .dir), (["work"], .dir)], fun _ => 0⟩

/-- One second after the write a sweep with a limit of a day removes the workspace. -/
theorem nestedWrites_swept :
    ¬ SparesLive ["work"] 360001 86400 false (emptyDisk.after nestedWrites) := by
  intro hspares
  have hgone : ((sweepStaleWorkspaces ["work"] 360001 86400 false
      (emptyDisk.after nestedWrites)).2.get? (["work"] ++ ["run"])).isNone = true := by
    decide +kernel
  have hswept : Swept ["work"] 360001 86400 false (emptyDisk.after nestedWrites) "run" :=
    ⟨by decide +kernel, Option.isNone_iff_eq_none.mp hgone⟩
  exact hspares "run" hswept ["out", "log"] (by decide +kernel) (by decide +kernel)

end SpineFormal.Runtime.Hygiene
