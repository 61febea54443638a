import SpineFormal.Base.TextCodec
import SpineFormal.Json.Loads

/-!
# Restoring a backup

`recovery/restore.py`: the components of a plan are downloaded and applied one after the
other, what looks wrong is noted, and a verdict is given at the end. The command line
tools, the secret store and the downloaded files are parameters.
-/

namespace SpineFormal.Recovery

open Json
set_option autoImplicit false

inductive Scheme where
  | s3
  | gs
  | azure
  | minio
  | file
  deriving DecidableEq

structure BackupTarget where
  scheme : Scheme
  bucket : String
  prefixDir : String
  endpointUrl : Option String
  kmsKeyRef : Option String

def Scheme.uri : Scheme → String
  | s3 | minio => "s3://"
  | gs => "gs://"
  | azure => "azure://"
  | file => "file://"

/-- `"/".join((prefix, *parts)).strip("/")`, after the scheme and the bucket. -/
def BackupTarget.uriFor (target : BackupTarget) (parts : List String) : String :=
  let path := ['/'].intercalate ((target.prefixDir :: parts).map String.toList)
  target.scheme.uri ++ target.bucket ++ "/" ++ String.ofList (trimBy (· == '/') path)

structure RestorePlan where
  backupRunId : String
  targetPostgresDsn : Option String
  components : List String

/-- The dictionary of anomalies: a key is there when its list is not empty. -/
structure Anomalies where
  malformedArtifact : List String
  unknownComponent : List String
  integrityWarnings : List String
  deriving DecidableEq

def Anomalies.none : Anomalies := ⟨[], [], []⟩

structure RestoreOutcome where
  restoreSucceeded : Bool
  anomalies : Anomalies
  componentsRestored : List String
  error : Option String

/-- What the world answers. The turns are numbered by the components of the plan; the checks after
them are one more turn. The runner gives a return code and what the tool wrote to `stderr`. -/
structure World where
  secret : String → Except String String
  runner : Nat → List String → Int × String
  artifact : Nat → Except String (List Char)
  jsonError : List Char → String
  tempDir : String

/-- `text.strip()[:n]`. -/
def excerpt (n : Nat) (text : String) : String :=
  String.ofList ((trimBy pySpace text.toList).take n)

def afterFirst (sub : List Char) : List Char → Option (List Char)
  | [] => if sub = [] then some [] else none
  | c :: s => if sub.isPrefixOf (c :: s) then some ((c :: s).drop sub.length) else afterFirst sub s

/-- `_download_argv`; `none` is the `IndexError` of a blob that does not name its container. -/
def downloadArgv (target : BackupTarget) (srcUri dest : String) : Option (List String) :=
  match target.scheme with
  | .s3 | .minio =>
    some (["aws", "s3", "cp", srcUri, dest, "--only-show-errors"] ++
      match target.endpointUrl with
      | none => []
      | some url => if url = "" then [] else ["--endpoint-url", url])
  | .gs => some ["gcloud", "storage", "cp", srcUri, dest, "--quiet"]
  | .azure =>
    (afterFirst (target.bucket ++ "/").toList srcUri.toList).map fun blob =>
      ["az", "storage", "blob", "download", "--container-name", target.bucket, "--name",
        String.ofList blob, "--file", dest, "--no-progress"]
  | .file =>
    let path := if "file://".toList.isPrefixOf srcUri.toList then srcUri.toList.drop 7
      else srcUri.toList
    some ["cp", String.ofList path, dest]

def artifactName (component : String) : String := component ++ ".tar.zst"

section
variable (w : World) (target : BackupTarget) (plan : RestorePlan)

def localArtifact (component : String) : String := w.tempDir ++ "/" ++ artifactName component

def artifactUri (component : String) : String :=
  target.uriFor ["snapshots", plan.backupRunId, artifactName component]

/-- `_download`. -/
def download (turn : Nat) (component : String) : Except String Unit :=
  let srcUri := artifactUri target plan component
  match downloadArgv target srcUri (localArtifact w component) with
  | none => .error "list index out of range"
  | some argv =>
    let r := w.runner turn argv
    if r.1 = 0 then .ok ()
    else .error ("download from " ++ srcUri ++ " failed (rc=" ++ toString r.1 ++ "): " ++
      excerpt 512 r.2)

def targetDsn : String :=
  match plan.targetPostgresDsn with
  | none => "postgres://localhost/spine_dr_sandbox"
  | some dsn => if dsn = "" then "postgres://localhost/spine_dr_sandbox" else dsn

def pgRestoreArgv (component : String) : List String :=
  ["pg_restore", "--dbname", targetDsn plan, "--clean", "--if-exists", "--no-owner",
    localArtifact w component]

/-- `_restore_postgres`. -/
def restorePostgres (turn : Nat) (component : String) : Except String Unit :=
  let r := w.runner turn (pgRestoreArgv w plan component)
  if r.1 = 0 then .ok ()
  else .error ("pg_restore failed (rc=" ++ toString r.1 ++ "): " ++ excerpt 512 r.2)

/-- The components without a restorer of their own yet. -/
def placeholders : List String := ["kg", "vault", "bundles"]

def noteMalformed (anomalies : Anomalies) (item : String) : Anomalies :=
  { anomalies with malformedArtifact := anomalies.malformedArtifact ++ [item] }

/-- `_apply_component`. -/
def applyComponent (turn : Nat) (component : String) (anomalies : Anomalies) :
    Except String Anomalies :=
  if component = "postgres" then (restorePostgres w plan turn component).map fun _ => anomalies
  else if component ∈ placeholders then
    match w.artifact turn with
    | .error e => .ok (noteMalformed anomalies (component ++ ":" ++ e))
    | .ok text =>
      match loadsText text with
      | some (.obj _) => .ok anomalies
      | some _ => .ok (noteMalformed anomalies component)
      | none => .ok (noteMalformed anomalies (component ++ ":" ++ w.jsonError text))
  else .ok { anomalies with unknownComponent := anomalies.unknownComponent ++ [component] }

/-- The loop over the components, and the error that ended it, if one did. -/
def restoreFrom : Nat → List String → Anomalies → List String →
    Anomalies × List String × Option String
  | _, [], anomalies, restored => (anomalies, restored, none)
  | turn, component :: rest, anomalies, restored =>
    match download w target plan turn component with
    | .error e => (anomalies, restored, some e)
    | .ok () =>
      match applyComponent w plan turn component anomalies with
      | .error e => (anomalies, restored, some e)
      | .ok anomalies => restoreFrom (turn + 1) rest anomalies (restored ++ [component])

/-- `_verify_integrity`. -/
def verifyIntegrity : List String :=
  let r := w.runner plan.components.length ["psql", targetDsn plan, "-c", "SELECT 1;", "-tA"]
  if r.1 = 0 then [] else ["target_dsn_unreachable: " ++ excerpt 200 r.2]

/-- `_resolve_kms_key`. -/
def resolveKmsKey : Except String (Option String) :=
  match target.kmsKeyRef with
  | none => .ok none
  | some ref => if ref = "" then .ok none else (w.secret ref).map some

/-- `_do_restore`. -/
def doRestore : RestoreOutcome :=
  match resolveKmsKey w target with
  | .error e => ⟨false, .none, [], some e⟩
  | .ok _ =>
    match restoreFrom w target plan 0 plan.components .none [] with
    | (anomalies, restored, some e) => ⟨false, anomalies, restored, some e⟩
    | (anomalies, restored, none) =>
      let integrity := verifyIntegrity w plan
      let anomalies :=
        { anomalies with integrityWarnings := anomalies.integrityWarnings ++ integrity }
      ⟨anomalies.integrityWarnings = [] && restored.length = plan.components.length, anomalies,
        restored, none⟩

/-! ## What a turn does -/

/-- The turn ends the restore with an error. -/
def Halts (turn : Nat) (component : String) : Prop :=
  (∃ e, download w target plan turn component = .error e) ∨
    component = "postgres" ∧ (w.runner turn (pgRestoreArgv w plan component)).1 ≠ 0

/-- The restorer of the component took the artifact for what it is. -/
def Applied (turn : Nat) (component : String) : Prop :=
  component = "postgres" ∧ (w.runner turn (pgRestoreArgv w plan component)).1 = 0 ∨
    component ∈ placeholders ∧ ∃ text ms, w.artifact turn = .ok text ∧
      loadsText text = some (.obj ms)

def Anomalies.Clean (a : Anomalies) : Prop := a.malformedArtifact = [] ∧ a.unknownComponent = []

theorem not_clean_noteMalformed (a : Anomalies) (item : String) : ¬ (noteMalformed a item).Clean := by
  intro h
  exact List.append_ne_nil_of_right_ne_nil _ (List.cons_ne_nil _ _) h.1

theorem applyComponent_error_iff {turn : Nat} {component : String} {a : Anomalies} :
    (∃ e, applyComponent w plan turn component a = .error e) ↔
      component = "postgres" ∧ (w.runner turn (pgRestoreArgv w plan component)).1 ≠ 0 := by
  rw [applyComponent]
  by_cases hp : component = "postgres"
  · rw [if_pos hp, restorePostgres, and_iff_right hp]
    by_cases hrc : (w.runner turn (pgRestoreArgv w plan component)).1 = 0
    · simp [hrc, Except.map]
    · simp [hrc, Except.map]
  · rw [if_neg hp]
    refine iff_of_false ?_ fun h => hp h.1
    rintro ⟨e, h⟩
    by_cases hplace : component ∈ placeholders
    · rw [if_pos hplace] at h
      split at h
      · cases h
      · split at h <;> cases h
    · rw [if_neg hplace] at h
      cases h

/-- An artifact that was not applied leaves a note, and the notes of before stay. -/
theorem clean_applyComponent_iff {turn : Nat} {component : String} {a a' : Anomalies}
    (h : applyComponent w plan turn component a = .ok a') :
    a'.integrityWarnings = a.integrityWarnings ∧
      (a'.Clean ↔ a.Clean ∧ Applied w plan turn component) := by
  rw [applyComponent] at h
  by_cases hp : component = "postgres"
  · rw [if_pos hp, restorePostgres] at h
    split at h
    · rename_i hrc
      obtain rfl := Except.ok.inj h
      exact ⟨rfl, (and_iff_left (.inl ⟨hp, hrc⟩)).symm⟩
    · cases h
  · rw [if_neg hp] at h
    by_cases hplace : component ∈ placeholders
    · rw [if_pos hplace] at h
      have hnot : ∀ {item}, (∀ text ms, w.artifact turn = .ok text → loadsText text ≠ some (.obj ms)) →
          ((noteMalformed a item).Clean ↔ a.Clean ∧ Applied w plan turn component) := by
        intro item hread
        refine iff_of_false (not_clean_noteMalformed a item) ?_
        rintro ⟨-, ⟨h, -⟩ | ⟨-, text, ms, hart, hload⟩⟩
        · exact hp h
        · exact hread text ms hart hload
      split at h
      · rename_i e hart
        obtain rfl := Except.ok.inj h
        refine ⟨rfl, hnot ?_⟩
        intro text ms h
        rw [hart] at h
        cases h
      · rename_i text hart
        have htext : ∀ t, w.artifact turn = .ok t → t = text := by
          intro t ht
          rw [hart] at ht
          exact (Except.ok.inj ht).symm
        split at h
        · rename_i ms hload
          obtain rfl := Except.ok.inj h
          exact ⟨rfl, (and_iff_left (.inr ⟨hplace, text, ms, hart, hload⟩)).symm⟩
        · rename_i v hobj hload
          obtain rfl := Except.ok.inj h
          refine ⟨rfl, hnot ?_⟩
          intro t ms ht hms
          rw [htext t ht, hload] at hms
          exact hobj ms (Option.some.inj hms)
        · rename_i hload
          obtain rfl := Except.ok.inj h
          refine ⟨rfl, hnot ?_⟩
          intro t ms ht hms
          rw [htext t ht, hload] at hms
          cases hms
    · rw [if_neg hplace] at h
      obtain rfl := Except.ok.inj h
      refine ⟨rfl, iff_of_false ?_ ?_⟩
      · intro hclean
        exact List.append_ne_nil_of_right_ne_nil _ (List.cons_ne_nil _ _) hclean.2
      · rintro ⟨-, ⟨h, -⟩ | ⟨h, -⟩⟩
        · exact hp h
        · exact hplace h

/-! ## The loop -/

theorem forall_turn_cons {P : Nat → String → Prop} {turn : Nat} {c : String} {cs : List String} :
    (∀ i x, (c :: cs)[i]? = some x → P (turn + i) x) ↔
      P turn c ∧ ∀ i x, cs[i]? = some x → P (turn + 1 + i) x := by
  constructor
  · intro h
    refine ⟨h 0 c rfl, ?_⟩
    intro i x hx
    have hi := h (i + 1) x hx
    rwa [Nat.add_comm i 1, ← Nat.add_assoc] at hi
  · intro h i x hx
    cases i with
    | zero =>
      obtain rfl := Option.some.inj hx
      exact h.1
    | succ i =>
      rw [Nat.add_comm i 1, ← Nat.add_assoc]
      exact h.2 i x hx

/-- The loop goes through to its end just when no turn halts, and then it has restored every
component and noted those that were not applied. -/
theorem restoreFrom_spec {turn : Nat} {cs : List String} {a : Anomalies} {restored : List String} :
    ((restoreFrom w target plan turn cs a restored).2.2 = none ↔
        ∀ i c, cs[i]? = some c → ¬ Halts w target plan (turn + i) c) ∧
      ((restoreFrom w target plan turn cs a restored).2.2 = none →
        (restoreFrom w target plan turn cs a restored).2.1 = restored ++ cs ∧
        (restoreFrom w target plan turn cs a restored).1.integrityWarnings = a.integrityWarnings ∧
        ((restoreFrom w target plan turn cs a restored).1.Clean ↔
          a.Clean ∧ ∀ i c, cs[i]? = some c → Applied w plan (turn + i) c)) := by
  induction cs generalizing turn a restored with
  | nil =>
    rw [restoreFrom]
    refine ⟨iff_of_true rfl ?_, fun _ => ⟨(List.append_nil _).symm, rfl, ?_⟩⟩
    · intro i c h
      cases h
    · refine (and_iff_left ?_).symm
      intro i c h
      cases h
  | cons c cs ih =>
    rw [restoreFrom, forall_turn_cons (P := fun turn c => ¬ Halts w target plan turn c),
      forall_turn_cons (P := Applied w plan)]
    cases hd : download w target plan turn c with
    | error e =>
      refine ⟨iff_of_false (Option.some_ne_none e) ?_, fun h => absurd h (Option.some_ne_none e)⟩
      exact fun h => h.1 (.inl ⟨e, hd⟩)
    | ok u =>
      cases happ : applyComponent w plan turn c a with
      | error e =>
        refine ⟨iff_of_false (Option.some_ne_none e) ?_, fun h => absurd h (Option.some_ne_none e)⟩
        exact fun h => h.1 (.inr ((applyComponent_error_iff w plan).mp ⟨e, happ⟩))
      | ok a' =>
        obtain ⟨hthrough, hend⟩ := @ih (turn + 1) a' (restored ++ [c])
        obtain ⟨hwarn, hclean⟩ := clean_applyComponent_iff w plan happ
        have hgoes : ¬ Halts w target plan turn c := by
          rintro (⟨e, h⟩ | h)
          · rw [hd] at h
            cases h
          · obtain ⟨e, he⟩ := (applyComponent_error_iff w plan (a := a)).mpr h
            rw [happ] at he
            cases he
        refine ⟨hthrough.trans (and_iff_right hgoes).symm, ?_⟩
        intro hnone
        obtain ⟨hrestored, hwarnings, hnotes⟩ := hend hnone
        refine ⟨?_, hwarnings.trans hwarn, ?_⟩
        · rw [hrestored, List.append_assoc]
          rfl
        · rw [hnotes, hclean, and_assoc]

/-! ## The verdict -/

/-- Something outside fails: the key, a download, `pg_restore` or the check at the end. -/
def Stops : Prop :=
  (∃ e, resolveKmsKey w target = .error e) ∨
    (∃ i c, plan.components[i]? = some c ∧ Halts w target plan i c) ∨ verifyIntegrity w plan ≠ []

/-- `listed` are the components of the backup. A success means that all of them were applied and
nothing was noted. -/
def Truthful (listed : List String) : Prop :=
  (doRestore w target plan).restoreSucceeded = true →
    (∀ c ∈ listed, c ∈ (doRestore w target plan).componentsRestored ∧
      ∃ i, plan.components[i]? = some c ∧ Applied w plan i c) ∧
    (doRestore w target plan).anomalies = .none

theorem doRestore_of_stops (h : Stops w target plan) :
    (doRestore w target plan).restoreSucceeded = false := by
  rw [doRestore]
  cases hkey : resolveKmsKey w target with
  | error e => rfl
  | ok key =>
    dsimp only
    have hthrough := (@restoreFrom_spec w target plan 0 plan.components .none []).1
    rcases hrun : restoreFrom w target plan 0 plan.components .none [] with ⟨a, restored, _ | e⟩
    · rw [hrun] at hthrough
      obtain ⟨e, he⟩ | ⟨i, c, hc, hhalts⟩ | hintegrity := h
      · rw [hkey] at he
        cases he
      · have hnot := hthrough.mp rfl i c hc
        rw [Nat.zero_add] at hnot
        exact absurd hhalts hnot
      · have hwarn : a.integrityWarnings ++ verifyIntegrity w plan ≠ [] :=
          List.append_ne_nil_of_right_ne_nil _ hintegrity
        dsimp only
        rw [decide_eq_false hwarn, Bool.false_and]
    · rfl

/-- Without a failure outside, the verdict is success, whatever was noted. -/
theorem doRestore_of_not_stops (h : ¬ Stops w target plan) :
    (doRestore w target plan).restoreSucceeded = true ∧
      (doRestore w target plan).componentsRestored = plan.components ∧
      ((doRestore w target plan).anomalies = .none ↔
        ∀ i c, plan.components[i]? = some c → Applied w plan i c) := by
  have hintegrity : verifyIntegrity w plan = [] := by
    by_contra hne
    exact h (.inr (.inr hne))
  rw [doRestore]
  cases hkey : resolveKmsKey w target with
  | error e => exact absurd (.inl ⟨e, hkey⟩) h
  | ok key =>
    dsimp only
    obtain ⟨hthrough, hend⟩ := @restoreFrom_spec w target plan 0 plan.components .none []
    have hnone := hthrough.mpr fun i c hc hhalts => h (.inr (.inl ⟨i, c, hc, by
      rwa [Nat.zero_add] at hhalts⟩))
    obtain ⟨hrestored, hwarn, hclean⟩ := hend hnone
    rcases hrun : restoreFrom w target plan 0 plan.components .none [] with ⟨a, restored, _ | e⟩
    · rw [hrun] at hrestored hwarn hclean
      obtain rfl : restored = plan.components := hrestored
      have hwarn : a.integrityWarnings = [] := hwarn
      dsimp only
      rw [hintegrity, hwarn]
      refine ⟨by simp, rfl, ?_⟩
      have hnotes : a.Clean ↔ ∀ i c, plan.components[i]? = some c → Applied w plan i c := by
        simpa only [Nat.zero_add] using hclean.trans (and_iff_right ⟨rfl, rfl⟩)
      rw [← hnotes]
      constructor
      · intro heq
        exact ⟨congrArg Anomalies.malformedArtifact heq, congrArg Anomalies.unknownComponent heq⟩
      · intro hc
        rw [Anomalies.none, hc.1, hc.2, List.append_nil]
    · rw [hrun] at hnone
      cases hnone

/-- The verdict can be trusted just when something outside fails, or else every artifact of the
plan is one its restorer takes and the plan names every component of the backup. -/
theorem truthful_iff (listed : List String) : Truthful w target plan listed ↔
    Stops w target plan ∨ (∀ i c, plan.components[i]? = some c → Applied w plan i c) ∧
      ∀ c ∈ listed, c ∈ plan.components := by
  by_cases h : Stops w target plan
  · refine iff_of_true ?_ (.inl h)
    intro hsucceeded
    rw [doRestore_of_stops w target plan h] at hsucceeded
    cases hsucceeded
  · obtain ⟨hsucceeded, hrestored, hnotes⟩ := doRestore_of_not_stops w target plan h
    rw [or_iff_right h, ← hnotes]
    constructor
    · intro htruthful
      obtain ⟨hlisted, hnone⟩ := htruthful hsucceeded
      refine ⟨hnone, ?_⟩
      intro c hc
      rw [← hrestored]
      exact (hlisted c hc).1
    · rintro ⟨hnone, hlisted⟩ -
      refine ⟨?_, hnone⟩
      intro c hc
      obtain ⟨i, hi, hget⟩ := List.mem_iff_getElem.mp (hlisted c hc)
      have hsome : plan.components[i]? = some c := by rw [List.getElem?_eq_getElem hi, hget]
      exact ⟨hrestored ▸ hlisted c hc, i, hsome, hnotes.mp hnone i c hsome⟩

end

/-- A download that is no JSON at all. -/
def corruptWorld : World where
  secret := fun _ => .error "no secret"
  runner := fun _ _ => (0, "")
  artifact := fun _ => .ok "NOT JSON AT ALL".toList
  jsonError := fun _ => "Expecting value: line 1 column 1 (char 0)"
  tempDir := "/tmp/restore"

def corruptTarget : BackupTarget := ⟨.file, "backups", "spine-dr", none, none⟩

def corruptPlan : RestorePlan := ⟨"run", none, ["kg"]⟩

/-- The artifact is noted as malformed and the restore reports success. -/
theorem corruptPlan_succeeds :
    (doRestore corruptWorld corruptTarget corruptPlan).restoreSucceeded = true ∧
      (doRestore corruptWorld corruptTarget corruptPlan).anomalies.malformedArtifact =
        ["kg:Expecting value: line 1 column 1 (char 0)"] ∧
      ¬ Truthful corruptWorld corruptTarget corruptPlan ["kg"] := by
  have hsucceeded : (doRestore corruptWorld corruptTarget corruptPlan).restoreSucceeded = true := by
    decide +kernel
  refine ⟨hsucceeded, by decide +kernel, ?_⟩
  intro htruthful
  have hnone := (htruthful hsucceeded).2
  revert hnone
  decide +kernel

end SpineFormal.Recovery
