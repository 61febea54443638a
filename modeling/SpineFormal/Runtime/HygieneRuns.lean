import SpineFormal.Runtime.Hygiene

/-!
# What workspaces keep

A file that was written stays in its workspace until it is promoted, and in an archive
from then on that its workspace was closed, as long as nothing is put over it: neither
another archive of the same run and day, nor a promoted file, nor the `.created` of a
workspace opened again.
-/

namespace SpineFormal.Runtime.Hygiene

open FileTree
set_option autoImplicit false

/-! ## Being there -/

def Written.path (home : Path) (f : Written) : Path := Workspace.root home f.runId ++ f.parts

/-- The file is in its live workspace. -/
def Live (home : Path) (t : Tree) (f : Written) : Prop :=
  t.file? (f.path home) = some (.data f.content)

def Content.Holds (f : Written) : Content → Prop
  | .data _ => False
  | .tar ms => ∃ m ∈ ms, m.1 = f.runId :: f.parts ∧ m.2.data? = some f.content

instance (f : Written) (c : Content) : Decidable (c.Holds f) :=
  match c with
  | .data _ => inferInstanceAs (Decidable False)
  | .tar ms => inferInstanceAs (Decidable (∃ m ∈ ms, _ ∧ _))

/-- An archive holds the file. -/
def ArchivedAt (home : Path) (t : Tree) (f : Written) (q : Path) : Prop :=
  archiveRoot home <+: q ∧ ∃ c, t.file? q = some c ∧ c.Holds f

def Archived (home : Path) (t : Tree) (f : Written) : Prop := ∃ q, ArchivedAt home t f q

/-- Written and not promoted. -/
def State.Outstanding (s : State) (f : Written) : Prop := f ∈ s.current ∨ f ∈ s.stored

/-! ## Steps that put nothing over a written file -/

/-- A promoted file has the content of a current file that it replaces, and if it replaces
an archive then other archives hold what that one held. -/
def PromoteSafe (home : Path) (runId : String) (rel : List String) (target : Path) (s : State) :
    Prop :=
  ∀ t c, s.tree.mkdirs target.dropLast = some t →
    t.file? (Workspace.root home runId ++ rel) = some c →
    destination t (Workspace.root home runId ++ rel) target ≠ Workspace.root home runId ++ rel →
    (∀ f ∈ s.current, f.path home = destination t (Workspace.root home runId ++ rel) target →
      c = .data f.content) ∧
    ∀ f ∈ s.stored, ∃ q, q ≠ destination t (Workspace.root home runId ++ rel) target ∧
      ArchivedAt home t f q

/-- With an archive: a stored file is in the workspace again, or in an archive other than the
one that is written. Without: the workspace has no written file. -/
def CloseSafe (home : Path) (runId : String) (withArchive : Bool) (now : Calendar) (zst : Bool)
    (s : State) : Prop :=
  if withArchive then
    ∀ t, s.tree.mkdirs (archiveDir home now) = some t →
      ¬ (zst ∧ (t.get? (Workspace.root home runId)).isNone) →
      ¬ t.isDir (archivePath home now zst runId) →
      ∀ f ∈ s.stored,
        f.runId = runId ∧ (t.get? (Workspace.root home runId)).isSome ∧ Live home t f ∨
        ∃ q, q ≠ archivePath home now zst runId ∧ ArchivedAt home t f q
  else s.tree.isDir (Workspace.root home runId) → ∀ f ∈ s.current, f.runId ≠ runId

def Safe (home : Path) (s : State) : Op → Prop
  | .open runId stamp => ∀ c, ⟨runId, [".created"], c⟩ ∈ s.current → c = stamp
  | .write _ _ _ => True
  | .promote i relpath target => ∀ runId rel, s.spaces[i]? = some ⟨runId, false⟩ →
      safeJoin relpath = some rel → PromoteSafe home runId rel target s
  | .close i withArchive now zst => ∀ runId, s.spaces[i]? = some ⟨runId, false⟩ →
      CloseSafe home runId withArchive now zst s

/-! ## Paths -/

theorem under_root_iff {home : Path} {runId : String} {rel : List String} {f : Written} :
    Workspace.root home runId ++ rel <+: f.path home ↔ f.Under runId rel := by
  rw [Written.path, Workspace.root, Workspace.root, List.append_assoc, List.append_assoc,
    List.prefix_append_right_inj, List.singleton_append, List.singleton_append,
    List.cons_prefix_cons, Written.Under, eq_comm (a := runId)]

/-- Nothing in a workspace is in the archives. -/
theorem not_under_root {home q : Path} {runId : String} (rel : List String)
    (h : archiveRoot home <+: q) : ¬ Workspace.root home runId ++ rel <+: q := by
  intro hroot
  obtain ⟨u, rfl⟩ := h
  rw [Workspace.root, workRoot, archiveRoot, List.append_assoc, List.append_assoc,
    List.append_assoc, List.prefix_append_right_inj, List.singleton_append,
    List.singleton_append, List.singleton_append, List.cons_prefix_cons] at hroot
  exact absurd hroot.1 (by decide)

theorem archiveRoot_prefix (home : Path) (now : Calendar) (zst : Bool) (runId : String) :
    archiveRoot home <+: archivePath home now zst runId := by
  rw [archivePath, archiveDir, List.append_assoc]
  exact List.prefix_append _ _

theorem path_ne_of_archive {home q : Path} (h : archiveRoot home <+: q) (f : Written) :
    f.path home ≠ q := by
  rintro rfl
  exact not_under_root f.parts h List.prefix_rfl

theorem path_inj {home : Path} {runId : String} {rel : List String} {f : Written} :
    f.path home = Workspace.root home runId ++ rel ↔ f.runId = runId ∧ f.parts = rel := by
  rw [Written.path, Workspace.root, Workspace.root, List.append_assoc, List.append_assoc,
    List.append_cancel_left_eq, List.singleton_append, List.singleton_append, List.cons_eq_cons]

/-! ## The invariant -/

/-- Current files are live, stored files archived. -/
structure NoLoss (home : Path) (s : State) : Prop where
  current : ∀ f ∈ s.current, Live home s.tree f
  stored : ∀ f ∈ s.stored, Archived home s.tree f

section

variable {home : Path} {s : State} {t t' : Tree} {f : Written}

theorem Live.congr (h : ∀ q, t'.file? q = t.file? q) (hf : Live home t f) : Live home t' f :=
  (h _).trans hf

theorem Archived.congr (h : ∀ q, archiveRoot home <+: q → t'.file? q = t.file? q)
    (hf : Archived home t f) : Archived home t' f := by
  obtain ⟨q, hq, c, hc, hholds⟩ := hf
  exact ⟨q, hq, c, (h q hq).trans hc, hholds⟩

/-- Directories that are made change nothing. -/
theorem NoLoss.mkdirs {p : Path} (h : NoLoss home s) (ht : s.tree.mkdirs p = some t) :
    NoLoss home { s with tree := t } where
  current := fun f hf => (h.current f hf).congr fun _ => file?_mkdirs ht
  stored := fun f hf => (h.stored f hf).congr fun _ _ => file?_mkdirs ht

theorem Live.put {p : Path} {c : Content}
    (ht : ∀ q, t'.file? q = if p = q then some c else t.file? q)
    (hput : p = f.path home → c = .data f.content) (hf : Live home t f) : Live home t' f := by
  rw [Live, ht]
  split_ifs with hp
  · rw [hput hp]
  · exact hf

/-- What is put into a workspace is put over no archive. -/
theorem Archived.putInSpace {runId : String} {rel : List String} {c : Content}
    (ht : ∀ q, t'.file? q = if Workspace.root home runId ++ rel = q then some c else t.file? q)
    (hf : Archived home t f) : Archived home t' f := by
  refine hf.congr fun q hq => ?_
  rw [ht, if_neg]
  rintro rfl
  exact not_under_root rel hq List.prefix_rfl

theorem noLoss_open {runId : String} {stamp : Bytes} (h : NoLoss home s)
    (hsafe : ∀ c, ⟨runId, [".created"], c⟩ ∈ s.current → c = stamp) :
    NoLoss home (openSpace home runId stamp s) := by
  rw [openSpace]
  split_ifs
  · split
    · exact h
    · rename_i t ht
      have hdirs := h.mkdirs ht
      split
      · exact hdirs
      · rename_i t' ht'
        refine ⟨fun f hf => ?_, fun f hf => ?_⟩
        · refine (hdirs.current f hf).put (fun q => file?_writeFile ht') fun hp => ?_
          obtain ⟨rfl, hparts⟩ := path_inj.mp hp.symm
          rw [hsafe f.content (hparts ▸ hf)]
        · exact (hdirs.stored f hf).putInSpace fun q => file?_writeFile ht'
  · exact h

theorem noLoss_write {runId : String} {rel : List String} {content : Bytes} (h : NoLoss home s) :
    NoLoss home (writeTo home runId rel content s) := by
  rw [writeTo]
  split
  · exact h
  · rename_i t ht
    have hdirs := h.mkdirs ht
    split
    · exact hdirs
    · rename_i t' ht'
      refine ⟨fun f hf => ?_, fun f hf => ?_⟩
      · rcases List.mem_cons.mp hf with rfl | hf
        · rw [Live, file?_writeFile ht', Written.path, if_pos rfl]
        · obtain ⟨hf, hother⟩ := List.mem_filter.mp hf
          refine (hdirs.current f hf).put (fun q => file?_writeFile ht') fun hp => ?_
          exact absurd (path_inj.mp hp.symm) (of_decide_eq_true hother)
      · exact (hdirs.stored f hf).putInSpace fun q => file?_writeFile ht'

/-- What a move that succeeds does. -/
theorem move_cases {src target : Path} (h : move t src target = some t') :
    t' = t ∨
      (∃ c, t.file? src = some c ∧ destination t src target ≠ src ∧
        t' = (t.remove src).put (destination t src target) (.file c)) ∨
      t' = t.moveTree src (destination t src target) := by
  unfold move at h
  split at h
  · cases h
  · rename_i c hsrc
    have hfile : t.file? src = some c := by
      rw [file?, hsrc]
      rfl
    split_ifs at h with hdir hdest htarget
    · exact .inl (Option.some.inj h).symm
    · exact .inr (.inl ⟨c, hfile, hdest, (Option.some.inj h).symm⟩)
  · split_ifs at h with htarget hdest
    · exact .inl (Option.some.inj h).symm
    · exact .inr (.inr (Option.some.inj h).symm)

theorem noLoss_promote {runId : String} {rel : List String} {target : Path} (h : NoLoss home s)
    (hsafe : PromoteSafe home runId rel target s) :
    NoLoss home (promoteFrom home runId rel target s) := by
  rw [promoteFrom]
  split_ifs
  · exact h
  · split
    · exact h
    · rename_i t ht
      have hdirs := h.mkdirs ht
      split
      · exact hdirs
      · rename_i t' hmove
        have hcurrent : ∀ f ∈ s.current.filter (fun f => ¬ f.Under runId rel),
            Live home t f ∧ f ∈ s.current ∧ ¬ Workspace.root home runId ++ rel <+: f.path home := by
          intro f hf
          obtain ⟨hf, hother⟩ := List.mem_filter.mp hf
          exact ⟨hdirs.current f hf, hf, fun hp =>
            of_decide_eq_true hother (under_root_iff.mp hp)⟩
        rcases move_cases hmove with rfl | ⟨c, hfile, hne, rfl⟩ | rfl
        · exact ⟨fun f hf => (hcurrent f hf).1, hdirs.stored⟩
        · obtain ⟨hover, hover'⟩ := hsafe t c ht hfile hne
          refine ⟨fun f hf => ?_, fun f hf => ?_⟩
          · obtain ⟨hlive, hf, hp⟩ := hcurrent f hf
            rw [Live, file?_put_file]
            split_ifs with hdest
            · rw [hover f hf hdest.symm]
            · rw [file?_remove, if_neg hp]
              exact hlive
          · obtain ⟨q, hne, hq, c', hc', hholds⟩ := hover' f hf
            refine ⟨q, hq, c', ?_, hholds⟩
            rw [file?_put_file, if_neg hne.symm, file?_remove, if_neg (not_under_root rel hq), hc']
        · refine ⟨fun f hf => ?_, fun f hf => ?_⟩
          · obtain ⟨hlive, -, hp⟩ := hcurrent f hf
            exact file?_moveTree hp hlive
          · obtain ⟨q, hq, c, hc, hholds⟩ := hdirs.stored f hf
            exact ⟨q, hq, c, file?_moveTree (not_under_root rel hq) hc, hholds⟩

/-! ## Closing -/

/-- A live file of the workspace is packed. -/
theorem tarOf_holds {runId : String} (hrun : f.runId = runId) (hf : Live home t f) :
    (tarOf t home runId).Holds f := by
  subst hrun
  exact ⟨_, List.mem_map_of_mem (mem_filesUnder hf), rfl, rfl⟩

theorem file?_rmtree {p q : Path} (h : ¬ p <+: q) : (rmtree t p).file? q = t.file? q := by
  rw [rmtree]
  split_ifs
  · rw [file?_remove, if_neg h]
  · rfl

theorem noLoss_rmtree {runId : String} (h : NoLoss home s)
    (hnone : s.tree.isDir (Workspace.root home runId) → ∀ f ∈ s.current, f.runId ≠ runId) :
    NoLoss home { s with tree := rmtree s.tree (Workspace.root home runId) } := by
  refine ⟨fun f hf => ?_, fun f hf => ?_⟩
  · by_cases hdir : s.tree.isDir (Workspace.root home runId)
    · refine (file?_rmtree fun hp => ?_).trans (h.current f hf)
      rw [← List.append_nil (Workspace.root home runId)] at hp
      exact hnone hdir f hf (under_root_iff.mp hp).1
    · rw [show rmtree s.tree (Workspace.root home runId) = s.tree from if_neg hdir]
      exact h.current f hf
  · refine (h.stored f hf).congr fun q hq => file?_rmtree fun hp => ?_
    rw [← List.append_nil (Workspace.root home runId)] at hp
    exact not_under_root [] hq hp

/-- What making the archive can do: nothing to any file, leave an empty archive where the
workspace is missing, or pack it. -/
theorem archive_cases (t : Tree) (home : Path) (now : Calendar) (zst : Bool) (runId : String) :
    (∃ t', archive t home now zst runId = (t', false) ∧ ∀ q, t'.file? q = t.file? q) ∨
      ∃ t', t.mkdirs (archiveDir home now) = some t' ∧
        ¬ (zst ∧ (t'.get? (Workspace.root home runId)).isNone) ∧
        ¬ t'.isDir (archivePath home now zst runId) ∧
        ((t'.get? (Workspace.root home runId)).isNone ∧ archive t home now zst runId =
            (t'.put (archivePath home now zst runId) (.file (.tar [])), false) ∨
          (t'.get? (Workspace.root home runId)).isSome ∧ archive t home now zst runId =
            (t'.put (archivePath home now zst runId) (.file (tarOf t' home runId)), true)) := by
  rw [archive]
  split
  · exact .inl ⟨t, rfl, fun _ => rfl⟩
  · rename_i t' ht
    have hfiles (q : Path) : t'.file? q = t.file? q := file?_mkdirs ht
    split_ifs with hzst hdir hmissing
    · exact .inl ⟨t', rfl, hfiles⟩
    · exact .inl ⟨t', rfl, hfiles⟩
    · exact .inr ⟨t', ht, hzst, hdir, .inl ⟨hmissing, rfl⟩⟩
    · refine .inr ⟨t', ht, hzst, hdir, .inr ⟨?_, rfl⟩⟩
      rwa [Option.isNone_iff_eq_none, ← ne_eq, Option.ne_none_iff_isSome] at hmissing

/-- A file put at the path of an archive leaves the workspaces and the other archives. -/
theorem file?_putArchive {p q : Path} {c : Content} (hne : q ≠ p) :
    (t.put p (.file c)).file? q = t.file? q := by
  rw [file?_put_file, if_neg (Ne.symm hne)]

theorem noLoss_close {runId : String} {withArchive : Bool} {now : Calendar} {zst : Bool}
    (h : NoLoss home s) (hsafe : CloseSafe home runId withArchive now zst s) :
    NoLoss home (closeSpace home runId withArchive now zst s) := by
  cases withArchive with
  | false => exact noLoss_rmtree h hsafe
  | true =>
    have harchive := archiveRoot_prefix home now zst runId
    rw [closeSpace, if_neg (by simp)]
    rcases archive_cases s.tree home now zst runId with
      ⟨t, heq, hfiles⟩ | ⟨t, ht, hzst, hdir, ⟨hmissing, heq⟩ | ⟨hroot, heq⟩⟩
    · rw [heq]
      exact ⟨fun f hf => (h.current f hf).congr hfiles,
        fun f hf => (h.stored f hf).congr fun q _ => hfiles q⟩
    · rw [heq]
      have hdirs := h.mkdirs ht
      refine ⟨fun f hf => (file?_putArchive (path_ne_of_archive harchive f)).trans
        (hdirs.current f hf), fun f hf => ?_⟩
      rcases hsafe t ht hzst hdir f hf with ⟨-, hsome, -⟩ | ⟨q, hne, hq, c, hc, hholds⟩
      · rw [Option.isNone_iff_eq_none.mp hmissing] at hsome
        cases hsome
      · exact ⟨q, hq, c, (file?_putArchive hne).trans hc, hholds⟩
    · rw [heq]
      have hdirs := h.mkdirs ht
      have hrm {q : Path} (hq : archiveRoot home <+: q) (t : Tree) :
          (rmtree t (Workspace.root home runId)).file? q = t.file? q := by
        refine file?_rmtree fun hp => ?_
        rw [← List.append_nil (Workspace.root home runId)] at hp
        exact not_under_root [] hq hp
      -- the new archive has the files of the workspace
      have hpacked {f : Written} (hrun : f.runId = runId) (hlive : Live home t f) :
          Archived home (rmtree (t.put (archivePath home now zst runId)
            (.file (tarOf t home runId))) (Workspace.root home runId)) f := by
        refine ⟨_, harchive, _, ?_, tarOf_holds hrun hlive⟩
        rw [hrm harchive, file?_put_file, if_pos rfl]
      refine ⟨fun f hf => ?_, fun f hf => ?_⟩
      · obtain ⟨hf, hother⟩ := List.mem_filter.mp hf
        have hp : ¬ Workspace.root home runId <+: f.path home := by
          intro hp
          rw [← List.append_nil (Workspace.root home runId)] at hp
          exact of_decide_eq_true hother (under_root_iff.mp hp).1
        exact (file?_rmtree hp).trans ((file?_putArchive (path_ne_of_archive harchive f)).trans
          (hdirs.current f hf))
      · rcases List.mem_append.mp hf with hf | hf
        · rcases hsafe t ht hzst hdir f hf with ⟨hrun, -, hlive⟩ | ⟨q, hne, hq, c, hc, hholds⟩
          · exact hpacked hrun hlive
          · exact ⟨q, hq, c, (hrm hq _).trans ((file?_putArchive hne).trans hc), hholds⟩
        · obtain ⟨hf, hrun⟩ := List.mem_filter.mp hf
          exact hpacked (of_decide_eq_true hrun) (hdirs.current f hf)

/-! ## Runs -/

theorem noLoss_onSpace {i : Nat} {op : String → State → State} (h : NoLoss home s)
    (hop : ∀ runId, s.spaces[i]? = some ⟨runId, false⟩ → NoLoss home (op runId s)) :
    NoLoss home (onSpace i op s) := by
  rw [onSpace]
  split
  · rename_i runId hspace
    exact hop runId hspace
  · exact h

theorem noLoss_withJoined {relpath : String} {op : List String → State → State}
    (h : NoLoss home s) (hop : ∀ rel, safeJoin relpath = some rel → NoLoss home (op rel s)) :
    NoLoss home (withJoined relpath op s) := by
  rw [withJoined]
  split
  · rename_i rel hrel
    exact hop rel hrel
  · exact h

theorem noLoss_step {op : Op} (h : NoLoss home s) (hsafe : Safe home s op) :
    NoLoss home (step home s op) := by
  cases op with
  | «open» runId stamp => exact noLoss_open h hsafe
  | write i relpath content =>
    exact noLoss_onSpace h fun runId _ => noLoss_withJoined h fun rel _ => noLoss_write h
  | promote i relpath target =>
    exact noLoss_onSpace h fun runId hspace => noLoss_withJoined h fun rel hrel =>
      noLoss_promote h (hsafe runId rel hspace hrel)
  | close i withArchive now zst =>
    rw [step]
    refine noLoss_onSpace h fun runId hspace => ?_
    exact noLoss_close ⟨h.current, h.stored⟩ (hsafe runId hspace)

end

/-- In a run whose steps put nothing over a written file, every file that was written and not
promoted is in its live workspace or in an archive. -/
theorem outstanding_present {home : Path} {tree : Tree} {ops : List Op} {s : State}
    (h : Run (fun s op t => Safe home s op ∧ t = step home s op) (State.init tree) ops s)
    {f : Written} (hf : s.Outstanding f) : Live home s.tree f ∨ Archived home s.tree f := by
  have hkept : NoLoss home s := by
    refine h.invariant (I := fun _ s => NoLoss home s) ?_ ?_
    · exact ⟨List.forall_mem_nil _, List.forall_mem_nil _⟩
    · rintro _ s t op hs ⟨hsafe, rfl⟩
      exact noLoss_step hs hsafe
  rcases hf with hf | hf
  · exact .inl (hkept.current f hf)
  · exact .inr (hkept.stored f hf)

def newYear : Calendar := ⟨2026, 1, 1, 12, 0, 0, 0⟩

def planOps : List Op :=
  [.open "run-1" [49], .write 0 "plan.md" [65], .close 0 true newYear true]

def planFile : Written := ⟨"run-1", ["plan.md"], [65]⟩

/-- The state that operations lead to from an empty disk. -/
def after (ops : List Op) : State := ops.foldl (step []) (State.init [])

theorem outstanding_present_plan :
    (after planOps).Outstanding planFile ∧
      (Live [] (after planOps).tree planFile ∨ Archived [] (after planOps).tree planFile) := by
  have hstored : (after (planOps.take 2)).stored = [] := by decide +kernel
  have hrun : Run (fun s op t => Safe [] s op ∧ t = step [] s op) (State.init []) planOps
      (after planOps) := by
    refine .snoc (.snoc (.snoc .start ⟨?_, rfl⟩) ⟨trivial, rfl⟩) ⟨?_, rfl⟩
    · intro runId _ t _ _ _ f hf
      exact absurd (hstored ▸ hf) List.not_mem_nil
    · exact fun _ hc => absurd hc List.not_mem_nil
  have hout : (after planOps).Outstanding planFile := .inr (by decide +kernel)
  exact ⟨hout, outstanding_present hrun hout⟩

/-- The run id is used again on the same day: the second archive replaces the first. -/
def reuseOps : List Op :=
  planOps ++ [.open "run-1" [50], .write 1 "notes.md" [66], .close 1 true newYear true]

theorem reused_run_id_loses_archive :
    (after reuseOps).Outstanding planFile ∧
      ¬ (Live [] (after reuseOps).tree planFile ∨ Archived [] (after reuseOps).tree planFile) := by
  have hnone : ∀ x ∈ (after reuseOps).tree, ∀ c ∈ x.2.content?, ¬ c.Holds planFile := by
    decide +kernel
  have hmissing : ((after reuseOps).tree.file? (planFile.path [])).isNone := by decide +kernel
  refine ⟨.inr (by decide +kernel), ?_⟩
  rintro (hlive | ⟨q, -, c, hc, hholds⟩)
  · rw [Live] at hlive
    rw [hlive] at hmissing
    cases hmissing
  · exact hnone _ (mem_of_file? hc) c rfl hholds

end SpineFormal.Runtime.Hygiene
