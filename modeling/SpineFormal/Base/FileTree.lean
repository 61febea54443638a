import Mathlib.Data.List.Infix

/-!
# Directory trees

A tree lists the directories and files at absolute paths; of entries with one path the
first counts. Only the operations that a program uses are here: directories made with
their parents, a file put at a path, a subtree removed or moved.
-/

namespace SpineFormal

set_option autoImplicit false

/-- The components of an absolute path. -/
abbrev Path := List String

inductive Entry (α : Type) where
  | dir
  | file (content : α)

def Entry.content? {α : Type} : Entry α → Option α
  | .dir => none
  | .file c => some c

abbrev FileTree (α : Type) := List (Path × Entry α)

namespace FileTree

variable {α : Type} {t t' : FileTree α} {p q src dest : Path} {c : α}

def get? (t : FileTree α) (p : Path) : Option (Entry α) := (t.find? (·.1 = p)).map Prod.snd

/-- The content of the file at a path. -/
def file? (t : FileTree α) (p : Path) : Option α := (t.get? p).bind Entry.content?

def isDir (t : FileTree α) (p : Path) : Bool :=
  match t.get? p with
  | some .dir => true
  | _ => false

def put (t : FileTree α) (p : Path) (e : Entry α) : FileTree α :=
  (p, e) :: t.filter fun x => x.1 ≠ p

/-- A path and what is below it, removed. -/
def remove (t : FileTree α) (p : Path) : FileTree α := t.filter fun x => ¬ p <+: x.1

def ensureDir (t : FileTree α) (p : Path) : FileTree α :=
  if (t.get? p).isSome then t else t.put p .dir

/-- `mkdir -p`; it fails where a file is in the way. -/
def mkdirs (t : FileTree α) (p : Path) : Option (FileTree α) :=
  if ∃ q ∈ p.inits, (t.file? q).isSome then none else some (p.inits.foldl ensureDir t)

/-- A file written at a path that is no directory. -/
def writeFile (t : FileTree α) (p : Path) (c : α) : Option (FileTree α) :=
  if t.isDir p then none else some (t.put p (.file c))

/-- A path and what is below it, under another path. -/
def moveTree (t : FileTree α) (src dest : Path) : FileTree α :=
  t.remove src ++
    (t.filter fun x => src <+: x.1).map fun x => (dest ++ x.1.drop src.length, x.2)

/-- The files at a path and below it, with what follows the path. -/
def filesUnder (t : FileTree α) (p : Path) : List (Path × α) :=
  t.filterMap fun x => if p <+: x.1 then (Entry.content? x.2).map (x.1.drop p.length, ·) else none

/-- Dropping entries of other paths does not change what is at a path. -/
theorem get?_filter (t : FileTree α) (keep : Path → Bool) (h : keep q = true) :
    get? (t.filter fun x => keep x.1) q = t.get? q := by
  rw [get?, get?, List.find?_filter]
  congr 2
  funext x
  by_cases hx : x.1 = q
  · simp [hx, h]
  · simp [hx]

theorem get?_put (e : Entry α) : (t.put p e).get? q = if p = q then some e else t.get? q := by
  by_cases h : p = q
  · simp [get?, put, h]
  · rw [if_neg h, ← get?_filter t (fun x => x ≠ p) (by simpa using Ne.symm h), get?, put,
      List.find?_cons_of_neg (by simpa using h)]
    rfl

@[simp] theorem file?_put_file :
    (t.put p (.file c)).file? q = if p = q then some c else t.file? q := by
  rw [file?, get?_put]
  split_ifs <;> rfl

theorem get?_remove : (t.remove p).get? q = if p <+: q then none else t.get? q := by
  by_cases h : p <+: q
  · rw [if_pos h, get?, remove, Option.map_eq_none_iff, List.find?_eq_none]
    intro x hx hq
    rw [decide_eq_true_eq] at hq
    exact of_decide_eq_true (List.mem_filter.mp hx).2 (hq ▸ h)
  · rw [if_neg h]
    exact get?_filter t (fun x => ¬ p <+: x) (by simpa using h)

@[simp] theorem file?_remove : (t.remove p).file? q = if p <+: q then none else t.file? q := by
  rw [file?, get?_remove]
  split_ifs <;> rfl

theorem file?_ensureDir : (t.ensureDir p).file? q = t.file? q := by
  rw [ensureDir]
  split_ifs with h
  · rfl
  · rw [file?, get?_put]
    split_ifs with hp
    · subst hp
      rw [file?, Option.not_isSome_iff_eq_none.mp h]
      rfl
    · rfl

theorem file?_mkdirs (h : t.mkdirs p = some t') : t'.file? q = t.file? q := by
  have hfold (ps : List Path) (t : FileTree α) : (ps.foldl ensureDir t).file? q = t.file? q := by
    induction ps generalizing t with
    | nil => rfl
    | cons r ps ih => rw [List.foldl_cons, ih, file?_ensureDir]
  rw [mkdirs] at h
  split_ifs at h
  rw [← Option.some.inj h, hfold]

theorem file?_writeFile (h : t.writeFile p c = some t') :
    t'.file? q = if p = q then some c else t.file? q := by
  rw [writeFile] at h
  split_ifs at h
  rw [← Option.some.inj h, file?_put_file]

/-- What is not below the source stays where it is. -/
theorem file?_moveTree (hsrc : ¬ src <+: q) (h : t.file? q = some c) :
    (t.moveTree src dest).file? q = some c := by
  have hkept : (t.remove src).get? q = t.get? q := by rw [get?_remove, if_neg hsrc]
  obtain ⟨e, he, hc⟩ := Option.bind_eq_some_iff.mp h
  rw [file?, get?, moveTree, List.find?_append]
  rw [he, get?] at hkept
  obtain ⟨x, hx, rfl⟩ := Option.map_eq_some_iff.mp hkept
  rw [hx]
  exact hc

theorem mem_of_get? {e : Entry α} (h : t.get? p = some e) : (p, e) ∈ t := by
  obtain ⟨x, hx, rfl⟩ := Option.map_eq_some_iff.mp h
  have hp := List.find?_some hx
  rw [decide_eq_true_eq] at hp
  exact hp ▸ List.mem_of_find?_eq_some hx

theorem mem_of_file? (h : t.file? p = some c) : (p, Entry.file c) ∈ t := by
  obtain ⟨e, he, hc⟩ := Option.bind_eq_some_iff.mp h
  cases e with
  | dir => cases hc
  | file d => exact Option.some.inj hc ▸ mem_of_get? he

theorem mem_filesUnder (h : t.file? (p ++ q) = some c) : (q, c) ∈ t.filesUnder p := by
  refine List.mem_filterMap.mpr ⟨_, mem_of_file? h, ?_⟩
  simp [Entry.content?]

end FileTree

end SpineFormal
