import Mathlib.Data.List.Dedup
import Mathlib.Data.List.Sort
import Mathlib.Data.Set.List
import Mathlib.Data.String.Basic
import Mathlib.Order.Bounds.Basic
import SpineFormal.Base.KeyedTable
import SpineFormal.Base.Decimal

/-!
# The latest version of a bundle

`shared/standards/install_bundle.sh` lays bundles out as `bundles/<id>/v<version>/`
under the home. Four readers look for the latest version: the cost router, the
drift detector, the injector of `install_bundle.sh` and the manifest loader.
-/

namespace SpineFormal.Standards

set_option autoImplicit false

/-! ## The home -/

/-- The components of a path under `SPINE_HOME`; a bundle id is one component. -/
abbrev Path := List String

/-- The files of the home, with the text a reader gets of each. -/
abbrev Home := List (Path × String)

def Home.read? (home : Home) (path : Path) : Option String :=
  (home.find? (·.1 = path)).map Prod.snd

def Home.write (home : Home) (path : Path) (text : String) : Home :=
  put Prod.fst (path, text) home

/-- The directory in `base` on the way to a file. -/
def subdirOf (base path : Path) : Option String :=
  if base <+: path then
    match path.drop base.length with
    | name :: _ :: _ => some name
    | _ => none
  else none

def Home.subdirs (home : Home) (base : Path) : List String :=
  (home.filterMap fun file => subdirOf base file.1).dedup

def versionName (version : Nat) : String := "v" ++ toString version

def versionDir (bundleId : String) (version : Nat) : Path :=
  ["bundles", bundleId, versionName version]

def Installed (home : Home) (bundleId : String) (version : Nat) : Prop :=
  versionName version ∈ home.subdirs ["bundles", bundleId]

instance (home : Home) (bundleId : String) (version : Nat) :
    Decidable (Installed home bundleId version) :=
  inferInstanceAs (Decidable (_ ∈ _))

/-! ## The installer -/

/-- A bundle that was fetched and validated. -/
structure Staged where
  bundleId : String
  bundleVersion : Nat
  yaml : String
  sha256 : String
  installedAt : String
  sourceUrl : String
  positive : 1 ≤ bundleVersion

def Staged.filesOf (b : Staged) : List (String × String) :=
  [("bundle.yaml", b.yaml), ("sha256", b.sha256), ("installed_at", b.installedAt),
    ("source_url", b.sourceUrl)]

def writeVersion (home : Home) (b : Staged) : Home :=
  b.filesOf.foldl
    (fun home file => home.write (versionDir b.bundleId b.bundleVersion ++ [file.1]) file.2) home

/-- `cmd_install`; the first bundle becomes the active one. -/
def install (home : Home) (b : Staged) : Home :=
  if b.bundleId = "" then home
  else if ((writeVersion home b).read? ["active", "org"]).isNone then
    (writeVersion home b).write ["active", "org"] b.bundleId
  else writeVersion home b

/-- `cmd_activate`. -/
def activate (home : Home) (bundleId projectId : String) : Home :=
  if bundleId = "" ∨ bundleId ∉ home.subdirs ["bundles"] then home
  else if projectId ≠ "" then home.write ["active", "project-" ++ projectId] bundleId
  else home.write ["active", "org"] bundleId

/-- `cmd_remove`. -/
def remove (home : Home) (bundleId : String) : Home :=
  if bundleId = "" ∨ home.read? ["active", "org"] = some bundleId then home
  else home.filter fun file => ¬ ["bundles", bundleId] <+: file.1

inductive Command where
  | install (b : Staged)
  | activate (bundleId projectId : String)
  | remove (bundleId : String)

def exec (home : Home) : Command → Home
  | .install b => install home b
  | .activate bundleId projectId => activate home bundleId projectId
  | .remove bundleId => remove home bundleId

def homeAfter (commands : List Command) : Home := commands.foldl exec []

/-! ## Version sort -/

inductive Token where
  | text (c : Char)
  | number (n : Nat)
  deriving DecidableEq

/-- The characters and the runs of digits of a line, after a run that was begun. -/
def tokens : Option Nat → List Char → List Token
  | run, [] => (run.map Token.number).toList
  | run, c :: cs =>
    if c.isDigit then tokens (some (10 * run.getD 0 + (c.toNat - '0'.toNat))) cs
    else (run.map Token.number).toList ++ .text c :: tokens none cs

/-- Letters come before other characters, and a tilde before the end of a line. -/
def Token.rank : Token → Int
  | .number _ => 0
  | .text c => if c.isAlpha then c.toNat else if c = '~' then -2 else c.toNat + 256

def compareTokens : List Token → List Token → Ordering
  | [], [] => .eq
  | [], t :: _ => compare (-1) t.rank
  | t :: _, [] => compare t.rank (-1)
  | .number m :: ts, .number n :: us => (compare m n).then (compareTokens ts us)
  | t :: ts, u :: us => (compare t.rank u.rank).then (compareTokens ts us)

/-- The order of `sort -V`; file suffixes, which these lines do not end in, are left out. -/
def versionLe (line line' : String) : Bool :=
  match compareTokens (tokens none line.toList) (tokens none line'.toList) with
  | .lt => true
  | .gt => false
  | .eq => line ≤ line'

/-! ## The readers -/

/-- `ls` lists the directories in a directory, in the order of the file system. -/
abbrev Listing := Path → List String

def startsV (name : String) : Bool := "v".toList.isPrefixOf name.toList

/-- `_load_active_bundle` of the router: the directory whose `bundle.yaml` it reads. -/
def routerDir (ls : Listing) (home : Home) : Option Path :=
  match home.read? ["active", "org"] with
  | none => none
  | some bundleId =>
    if bundleId = "" then none
    else
      (((ls ["bundles", bundleId]).filter startsV).mergeSort (· ≤ ·)).getLast?.bind fun name =>
        (home.read? ["bundles", bundleId, name, "bundle.yaml"]).map fun _ =>
          ["bundles", bundleId, name]

/-- The key of `_latest_version_dir`. -/
def versionKey (name : String) : Int :=
  let digits := name.toList.drop 1
  if digits ≠ [] ∧ digits.all Char.isDigit then Nat.ofDigitChars 10 digits 0 else -1

/-- `_latest_version_dir` of the drift detector. -/
def latestVersionDir (ls : Listing) (bundleId : String) : Option Path :=
  (((ls ["bundles", bundleId]).filter startsV).mergeSort
    fun a b => versionKey a ≤ versionKey b).getLast?.map fun name => ["bundles", bundleId, name]

/-- The bundle of the scope in `cmd_inject`. -/
def injectId (home : Home) (projectId : String) : String :=
  let project :=
    if projectId ≠ "" then (home.read? ["active", "project-" ++ projectId]).getD "" else ""
  if project ≠ "" then project else (home.read? ["active", "org"]).getD ""

/-- `cmd_inject`, where `root` is `BUNDLES_DIR`: the version it injects. -/
def injectDir (root : String) (ls : Listing) (home : Home) (projectId : String) : Option Path :=
  let bundleId := injectId home projectId
  if bundleId = "" then none
  else
    (((ls ["bundles", bundleId]).filter startsV).mergeSort fun a b =>
      versionLe (root ++ "/" ++ bundleId ++ "/" ++ a)
        (root ++ "/" ++ bundleId ++ "/" ++ b)).getLast?.map fun name => ["bundles", bundleId, name]

/-- `_active_bundle` of the manifest loader: the directory whose `bundle.yaml` it reads. -/
def activeBundleDir (home : Home) (bundleId : Option String) : Option Path :=
  let dir := match bundleId with
    | some id => if id ≠ "" then ["bundles", id] else ["active"]
    | none => ["active"]
  (home.read? (dir ++ ["bundle.yaml"])).map fun _ => dir

/-- All four resolve to the directory of the greatest version. -/
def SameLatest (root : String) (ls : Listing) (home : Home) (projectId : String)
    (requested : Option String) (bundleId : String) : Prop :=
  ∃ n, IsGreatest {m | Installed home bundleId m} n ∧
    routerDir ls home = some (versionDir bundleId n) ∧
    latestVersionDir ls bundleId = some (versionDir bundleId n) ∧
    injectDir root ls home projectId = some (versionDir bundleId n) ∧
    activeBundleDir home requested = some (versionDir bundleId n)

/-! ## Sorting version names -/

theorem getLast?_mergeSort {α : Type} [LinearOrder α] (xs : List α) (x : α) :
    (xs.mergeSort (· ≤ ·)).getLast? = some x ↔ IsGreatest {y | y ∈ xs} x := by
  have hsorted : (xs.mergeSort (· ≤ ·)).Pairwise (· ≤ ·) :=
    (List.pairwise_mergeSort (by simpa using fun a b c => le_trans)
      (by simpa using le_total) xs).imp (by simp)
  have hmem : ∀ y, y ∈ xs.mergeSort (· ≤ ·) ↔ y ∈ xs := fun y => List.mem_mergeSort
  rw [List.getLast?_eq_some_iff]
  constructor
  · rintro ⟨init, hinit⟩
    rw [hinit] at hsorted hmem
    refine ⟨(hmem x).mp (by simp), fun y hy => ?_⟩
    rcases List.mem_append.mp ((hmem y).mpr hy) with hy | hy
    · exact (List.pairwise_append.mp hsorted).2.2 y hy x (List.mem_singleton_self x)
    · exact (List.mem_singleton.mp hy).le
  · rintro ⟨hx, hmax⟩
    obtain ⟨init, y, hinit⟩ := (List.eq_nil_or_concat _).resolve_left
      (List.ne_nil_of_mem ((hmem x).mpr hx))
    rw [List.concat_eq_append] at hinit
    rw [hinit] at hsorted hmem
    have hyx : y ≤ x := hmax ((hmem y).mp (by simp))
    have hxy : x ≤ y := by
      rcases List.mem_append.mp ((hmem x).mpr hx) with h | h
      · exact (List.pairwise_append.mp hsorted).2.2 x h y (List.mem_singleton_self y)
      · exact (List.mem_singleton.mp h).le
    exact ⟨init, by rw [hinit, le_antisymm hxy hyx]⟩

theorem getLast?_mergeSort_map {β : Type} {f : Nat → β} {le : β → β → Bool}
    (hle : ∀ m n, le (f m) (f n) = decide (m ≤ n)) {versions : List Nat} {n : Nat}
    (hn : IsGreatest {m | m ∈ versions} n) :
    ((versions.map f).mergeSort le).getLast? = some (f n) := by
  rw [← List.map_mergeSort (r := fun a b => decide (a ≤ b)) fun a _ b _ => (hle a b).symm,
    List.getLast?_map, (getLast?_mergeSort versions n).mpr hn, Option.map_some]

theorem toList_versionName (n : Nat) : (versionName n).toList = 'v' :: Nat.toDigits 10 n := by
  simp [versionName]

theorem versionName_injective : Function.Injective versionName := by
  intro m n h
  have hlist := congrArg String.toList h
  rw [toList_versionName, toList_versionName] at hlist
  exact toDigits_injective (List.cons.inj hlist).2

theorem startsV_versionName (n : Nat) : startsV (versionName n) = true := by
  rw [startsV, toList_versionName]
  rfl

theorem versionKey_versionName (n : Nat) : versionKey (versionName n) = n := by
  rw [versionKey, toList_versionName]
  have hdigits : (Nat.toDigits 10 n).all Char.isDigit = true :=
    List.all_eq_true.mpr Numerals.isDigit_of_mem_toDigits
  simp [hdigits, Nat.ofDigitChars_ten_toDigits]

theorem tokens_digits (k : Nat) {ds : List Char} (h : ∀ c ∈ ds, c.isDigit = true) :
    tokens (some k) ds = [.number (Nat.ofDigitChars 10 ds k)] := by
  induction ds generalizing k with
  | nil => simp [tokens]
  | cons c ds ih =>
    rw [tokens, if_pos (h c List.mem_cons_self), ih _ fun d hd => h d (List.mem_cons_of_mem c hd)]
    simp [Nat.ofDigitChars_cons]

theorem tokens_none_digits {ds : List Char} (hne : ds ≠ []) (h : ∀ c ∈ ds, c.isDigit = true) :
    tokens none ds = [.number (Nat.ofDigitChars 10 ds 0)] := by
  cases ds with
  | nil => exact absurd rfl hne
  | cons c ds =>
    rw [tokens, if_pos (h c List.mem_cons_self),
      tokens_digits _ fun d hd => h d (List.mem_cons_of_mem c hd)]
    simp [Nat.ofDigitChars_cons]

/-- A character that is no digit ends a run. -/
theorem tokens_append {c : Char} (hc : c.isDigit = false) (line rest : List Char)
    (run : Option Nat) :
    tokens run (line ++ c :: rest) = tokens run (line ++ [c]) ++ tokens none rest := by
  induction line generalizing run with
  | nil => simp [tokens, hc]
  | cons d line ih =>
    rw [List.cons_append, List.cons_append, tokens, tokens, ih, ih]
    split
    · rfl
    · simp

theorem compareTokens_append (ts : List Token) (m n : Nat) :
    compareTokens (ts ++ [.number m]) (ts ++ [.number n]) = compare m n := by
  induction ts with
  | nil => simp [compareTokens]
  | cons t ts ih =>
    cases t with
    | text c => simp [compareTokens, ih]
    | number k => simp [compareTokens, ih]

theorem versionLe_versionName (base : String) (m n : Nat) :
    versionLe (base ++ versionName m) (base ++ versionName n) = decide (m ≤ n) := by
  have htokens : ∀ k, tokens none (base ++ versionName k).toList =
      tokens none (base.toList ++ ['v']) ++ [.number k] := by
    intro k
    rw [String.toList_append, toList_versionName, tokens_append (by decide),
      tokens_none_digits Nat.toDigits_ne_nil Numerals.isDigit_of_mem_toDigits,
      Nat.ofDigitChars_ten_toDigits]
  rw [versionLe, htokens, htokens, compareTokens_append]
  rcases lt_trichotomy m n with h | rfl | h
  · rw [compare_lt_iff_lt.mpr h]
    simp [h.le]
  · simp
  · rw [compare_gt_iff_gt.mpr h]
    simp [h]

/-! ## The layout -/

def Home.paths (home : Home) : List Path := home.map Prod.fst

/-- Where the installer puts files. -/
inductive Placed : Path → Prop where
  | version {bundleId : String} (hid : bundleId ≠ "") (n : Nat) (name : String) :
      Placed (versionDir bundleId n ++ [name])
  | org : Placed ["active", "org"]
  | project (projectId : String) : Placed ["active", "project-" ++ projectId]

/-- A version directory holds its `bundle.yaml`, and nothing lies elsewhere. -/
structure Laid (home : Home) : Prop where
  placed : ∀ path ∈ home.paths, Placed path
  complete : ∀ bundleId n name, versionDir bundleId n ++ [name] ∈ home.paths →
    versionDir bundleId n ++ ["bundle.yaml"] ∈ home.paths

section
variable {home : Home}

@[simp] theorem mem_paths_write (path path' : Path) (text : String) :
    path' ∈ (home.write path text).paths ↔ path' = path ∨ path' ∈ home.paths :=
  keys_put (path, text) home path'

theorem isSome_read? (path : Path) : (home.read? path).isSome = true ↔ path ∈ home.paths := by
  simp [Home.read?, Home.paths]

theorem read?_eq_none {path : Path} (h : path ∉ home.paths) : home.read? path = none := by
  rw [← Option.not_isSome_iff_eq_none, isSome_read?]
  exact h

theorem subdirOf_eq_some_iff (base path : Path) (name : String) :
    subdirOf base path = some name ↔ ∃ x rest, path = base ++ name :: x :: rest := by
  rw [subdirOf]
  constructor
  · intro h
    split at h
    · rename_i hprefix
      obtain ⟨rest, rfl⟩ := hprefix
      rw [List.drop_left] at h
      split at h
      · rename_i name' x rest'
        obtain rfl := Option.some.inj h
        exact ⟨x, rest', rfl⟩
      · cases h
    · cases h
  · rintro ⟨x, rest, rfl⟩
    rw [if_pos (List.prefix_append _ _), List.drop_left]

theorem mem_subdirs (base : Path) (name : String) :
    name ∈ home.subdirs base ↔ ∃ x rest, base ++ name :: x :: rest ∈ home.paths := by
  rw [Home.subdirs, List.mem_dedup, List.mem_filterMap, Home.paths]
  constructor
  · rintro ⟨file, hfile, hname⟩
    obtain ⟨x, rest, hpath⟩ := (subdirOf_eq_some_iff base file.1 name).mp hname
    exact ⟨x, rest, List.mem_map.mpr ⟨file, hfile, hpath⟩⟩
  · rintro ⟨x, rest, hmem⟩
    obtain ⟨file, hfile, hpath⟩ := List.mem_map.mp hmem
    exact ⟨file, hfile, (subdirOf_eq_some_iff base file.1 name).mpr ⟨x, rest, hpath⟩⟩

theorem mem_paths_writeVersion (b : Staged) (path : Path) :
    path ∈ (writeVersion home b).paths ↔
      path ∈ home.paths ∨ ∃ name ∈ ["bundle.yaml", "sha256", "installed_at", "source_url"],
        path = versionDir b.bundleId b.bundleVersion ++ [name] := by
  simp only [writeVersion, Staged.filesOf, List.foldl_cons, List.foldl_nil, mem_paths_write,
    List.exists_mem_cons_iff, List.not_mem_nil, false_and, exists_false, or_false]
  tauto

theorem Laid.writeVersion (h : Laid home) {b : Staged} (hid : b.bundleId ≠ "") :
    Laid (writeVersion home b) where
  placed path hpath := by
    rcases (mem_paths_writeVersion b path).mp hpath with hpath | ⟨name, -, rfl⟩
    · exact h.placed path hpath
    · exact .version hid b.bundleVersion name
  complete bundleId n name hpath := by
    rcases (mem_paths_writeVersion b _).mp hpath with hpath | ⟨name', -, hpath⟩
    · exact (mem_paths_writeVersion b _).mpr (.inl (h.complete bundleId n name hpath))
    · refine (mem_paths_writeVersion b _).mpr (.inr ⟨"bundle.yaml", List.mem_cons_self, ?_⟩)
      rw [(List.append_inj' hpath rfl).1]

/-- A pointer file changes no version directory. -/
theorem Laid.pointer (h : Laid home) {path : Path} (hplaced : Placed path)
    (hpointer : path.head? = some "active") (text : String) : Laid (home.write path text) where
  placed path' hpath := by
    rcases (mem_paths_write path path' text).mp hpath with rfl | hpath
    · exact hplaced
    · exact h.placed path' hpath
  complete bundleId n name hpath := by
    rcases (mem_paths_write path _ text).mp hpath with rfl | hpath
    · exact absurd (Option.some.inj hpointer) (by decide)
    · exact (mem_paths_write path _ text).mpr (.inr (h.complete bundleId n name hpath))

theorem Laid.install (h : Laid home) (b : Staged) : Laid (install home b) := by
  rw [Standards.install]
  split
  · exact h
  · rename_i hid
    split
    · exact (h.writeVersion hid).pointer .org rfl b.bundleId
    · exact h.writeVersion hid

theorem Laid.activate (h : Laid home) (bundleId projectId : String) :
    Laid (activate home bundleId projectId) := by
  rw [Standards.activate]
  split
  · exact h
  · split
    · exact h.pointer (.project projectId) rfl bundleId
    · exact h.pointer .org rfl bundleId

theorem Laid.remove (h : Laid home) (bundleId : String) : Laid (remove home bundleId) := by
  rw [Standards.remove]
  split
  · exact h
  · have hmem : ∀ path,
        path ∈ Home.paths (home.filter fun file => ¬ ["bundles", bundleId] <+: file.1) ↔
          path ∈ home.paths ∧ ¬ ["bundles", bundleId] <+: path := by
      intro path
      simp only [Home.paths, List.mem_map, List.mem_filter, decide_eq_true_eq]
      constructor
      · rintro ⟨file, ⟨hfile, hout⟩, rfl⟩
        exact ⟨⟨file, hfile, rfl⟩, hout⟩
      · rintro ⟨⟨file, hfile, rfl⟩, hout⟩
        exact ⟨file, ⟨hfile, hout⟩, rfl⟩
    constructor
    · exact fun path hpath => h.placed path ((hmem path).mp hpath).1
    · intro bundleId' n name hpath
      obtain ⟨hin, hout⟩ := (hmem _).mp hpath
      refine (hmem _).mpr ⟨h.complete bundleId' n name hin, ?_⟩
      simpa [versionDir] using hout

theorem laid_homeAfter (commands : List Command) : Laid (homeAfter commands) := by
  have hrun : ∀ home, Laid home → Laid (commands.foldl exec home) := by
    induction commands with
    | nil => exact fun _ h => h
    | cons command commands ih =>
      intro home h
      refine ih _ ?_
      cases command with
      | install b => exact h.install b
      | activate bundleId projectId => exact h.activate bundleId projectId
      | remove bundleId => exact h.remove bundleId
  exact hrun [] ⟨by simp [Home.paths], by simp [Home.paths]⟩

theorem Laid.installed (h : Laid home) {bundleId name : String}
    (hname : name ∈ home.subdirs ["bundles", bundleId]) :
    bundleId ≠ "" ∧ ∃ n, name = versionName n ∧
      versionDir bundleId n ++ ["bundle.yaml"] ∈ home.paths := by
  obtain ⟨x, rest, hpath⟩ := (mem_subdirs _ _).mp hname
  obtain ⟨path, hpathEq⟩ : ∃ path, path = ["bundles", bundleId] ++ name :: x :: rest := ⟨_, rfl⟩
  have hplaced := h.placed _ hpath
  rw [← hpathEq] at hplaced hpath
  cases hplaced with
  | version hid n name' =>
    simp only [versionDir, List.cons_append, List.nil_append, List.cons.injEq, true_and] at hpathEq
    obtain ⟨rfl, rfl, -⟩ := hpathEq
    exact ⟨hid, n, rfl, h.complete _ n name' hpath⟩
  | org => exact absurd (List.cons.inj hpathEq).1 (by decide)
  | project projectId => exact absurd (List.cons.inj hpathEq).1 (by decide)

theorem Placed.shape {path : Path} (h : Placed path) :
    path.length = 4 ∨ ∃ name, path = ["active", name] ∧ name ≠ "bundle.yaml" := by
  cases h with
  | version hid n name => exact .inl rfl
  | org => exact .inr ⟨"org", rfl, by decide⟩
  | project projectId =>
    refine .inr ⟨_, rfl, fun hname => ?_⟩
    have hhead := congrArg (fun s => s.toList.head?) hname
    simp at hhead

/-- No file is where the manifest loader looks. -/
theorem Laid.activeBundleDir (h : Laid home) (requested : Option String) :
    activeBundleDir home requested = none := by
  have hbundles : ∀ bundleId, home.read? ["bundles", bundleId, "bundle.yaml"] = none := by
    intro bundleId
    refine read?_eq_none fun hpath => ?_
    rcases (h.placed _ hpath).shape with hlength | ⟨name, hname, -⟩
    · cases hlength
    · cases congrArg List.length hname
  have hactive : home.read? ["active", "bundle.yaml"] = none := by
    refine read?_eq_none fun hpath => ?_
    rcases (h.placed _ hpath).shape with hlength | ⟨name, hname, hne⟩
    · cases hlength
    · exact hne (List.cons.inj (List.cons.inj hname).2).1.symm
  cases requested with
  | none => simp [Standards.activeBundleDir, hactive]
  | some bundleId =>
    by_cases hid : bundleId = ""
    · simp [Standards.activeBundleDir, hid, hactive]
    · simp [Standards.activeBundleDir, hid, hbundles]

theorem exists_isGreatest {versions : List Nat} (h : versions ≠ []) :
    ∃ n, IsGreatest {m | m ∈ versions} n := by
  have hne : versions.mergeSort (· ≤ ·) ≠ [] :=
    fun hnil => h (by simpa using congrArg List.length hnil)
  exact ⟨_, (getLast?_mergeSort versions _).mp (List.getLast?_eq_some_getLast hne)⟩

/-- What a listing shows of a bundle. -/
theorem Laid.listing (h : Laid home) {ls : Listing}
    (hls : ∀ base name, name ∈ ls base ↔ name ∈ home.subdirs base) (bundleId : String) :
    ∃ versions : List Nat, (ls ["bundles", bundleId]).filter startsV = versions.map versionName ∧
      ∀ m, m ∈ versions ↔ Installed home bundleId m := by
  have hnames : ∀ name ∈ ls ["bundles", bundleId], ∃ n, versionName n = name := by
    intro name hname
    obtain ⟨-, n, rfl, -⟩ := h.installed ((hls _ name).mp hname)
    exact ⟨n, rfl⟩
  obtain ⟨versions, hversions⟩ : ls ["bundles", bundleId] ∈ Set.range (List.map versionName) := by
    rw [Set.range_list_map]
    exact hnames
  refine ⟨versions, ?_, fun m => ?_⟩
  · rw [← hversions, List.filter_eq_self]
    intro name hname
    obtain ⟨n, -, rfl⟩ := List.mem_map.mp hname
    exact startsV_versionName n
  · rw [Installed, ← hls, ← hversions, List.mem_map_of_injective versionName_injective]

end

/-- The drift detector and the injector find the greatest version, the router finds it when no
other name sorts after it, and the manifest loader never finds a version. -/
theorem never_sameLatest (commands : List Command) {ls : Listing} {bundleId : String}
    (hls : ∀ base name, name ∈ ls base ↔ name ∈ (homeAfter commands).subdirs base)
    (hactive : (homeAfter commands).read? ["active", "org"] = some bundleId)
    (hinstalled : ∃ m, Installed (homeAfter commands) bundleId m)
    {projectId : String} (hproject : injectId (homeAfter commands) projectId = bundleId)
    (root : String) (requested : Option String) :
    ¬ SameLatest root ls (homeAfter commands) projectId requested bundleId ∧
      activeBundleDir (homeAfter commands) requested = none ∧
      ∃ n, IsGreatest {m | Installed (homeAfter commands) bundleId m} n ∧
        latestVersionDir ls bundleId = some (versionDir bundleId n) ∧
        injectDir root ls (homeAfter commands) projectId = some (versionDir bundleId n) ∧
        (routerDir ls (homeAfter commands) = some (versionDir bundleId n) ↔
          ∀ m, Installed (homeAfter commands) bundleId m → versionName m ≤ versionName n) := by
  have hlaid := laid_homeAfter commands
  have hloader := hlaid.activeBundleDir requested
  obtain ⟨versions, hlist, hversions⟩ := hlaid.listing hls bundleId
  obtain ⟨m, hm⟩ := hinstalled
  obtain ⟨n, hn⟩ := exists_isGreatest (List.ne_nil_of_mem ((hversions m).mpr hm))
  have hset : {m | m ∈ versions} = {m | Installed (homeAfter commands) bundleId m} :=
    Set.ext hversions
  obtain ⟨hid, -⟩ := hlaid.installed hm
  refine ⟨?_, hloader, n, hset ▸ hn, ?_, ?_, ?_⟩
  · rintro ⟨n', -, -, -, -, hfound⟩
    rw [hloader] at hfound
    cases hfound
  · have hle : ∀ a b, decide (versionKey (versionName a) ≤ versionKey (versionName b)) =
        decide (a ≤ b) := fun a b => by simp [versionKey_versionName]
    rw [latestVersionDir, hlist, getLast?_mergeSort_map (f := versionName) hle hn]
    rfl
  · simp only [injectDir, hproject, if_neg hid, hlist]
    have hle := versionLe_versionName (root ++ "/" ++ bundleId ++ "/")
    rw [getLast?_mergeSort_map (f := versionName) hle hn]
    rfl
  · have hread : ∀ a, Installed (homeAfter commands) bundleId a →
        ((homeAfter commands).read?
          ["bundles", bundleId, versionName a, "bundle.yaml"]).isSome := by
      intro a ha
      obtain ⟨-, b, hb, hyaml⟩ := hlaid.installed ha
      rw [isSome_read?, versionName_injective hb]
      exact hyaml
    have hlast :
        ((versions.map versionName).mergeSort (· ≤ ·)).getLast? = some (versionName n) ↔
          ∀ m, Installed (homeAfter commands) bundleId m → versionName m ≤ versionName n := by
      rw [getLast?_mergeSort]
      constructor
      · exact fun h a ha => h.2 (List.mem_map_of_mem ((hversions a).mpr ha))
      · intro h
        refine ⟨List.mem_map_of_mem hn.1, fun name hname => ?_⟩
        obtain ⟨a, ha, rfl⟩ := List.mem_map.mp hname
        exact h a ((hversions a).mp ha)
    rw [← hlast]
    simp only [routerDir, hactive, hlist, if_neg hid, Option.bind_eq_some_iff,
      Option.map_eq_some_iff]
    constructor
    · rintro ⟨name, hname, _, -, hdir⟩
      simp only [versionDir, List.cons.injEq, true_and, and_true] at hdir
      rwa [← hdir]
    · intro hname
      obtain ⟨text, htext⟩ := Option.isSome_iff_exists.mp (hread n (hset ▸ hn).1)
      exact ⟨_, hname, text, htext, rfl⟩

def acmeBundle (version : Nat) (h : 1 ≤ version) : Staged where
  bundleId := "acme"
  bundleVersion := version
  yaml := "identity: ..."
  sha256 := "e3b0"
  installedAt := "2026-05-21T00:00:00Z"
  sourceUrl := "file:///srv/acme.yaml"
  positive := h

/-- Versions nine and ten of one bundle. -/
def nineAndTen : List Command :=
  [.install (acmeBundle 9 (by decide)), .install (acmeBundle 10 (by decide))]

theorem never_sameLatest_nineAndTen :
    (∃ m, Installed (homeAfter nineAndTen) "acme" m) ∧
      ¬ SameLatest "/home/ada/.spine/bundles" (homeAfter nineAndTen).subdirs (homeAfter nineAndTen)
        "" (some "acme") "acme" := by
  have hinstalled : ∃ m, Installed (homeAfter nineAndTen) "acme" m := ⟨9, by decide +kernel⟩
  exact ⟨hinstalled, (never_sameLatest nineAndTen (fun _ _ => Iff.rfl) (by decide +kernel)
    hinstalled (by decide +kernel) _ _).1⟩

/-- The router reads version nine, the manifest loader no version. -/
theorem router_reads_nine :
    IsGreatest {m | Installed (homeAfter nineAndTen) "acme" m} 10 ∧
      routerDir (homeAfter nineAndTen).subdirs (homeAfter nineAndTen) =
        some (versionDir "acme" 9) ∧
      activeBundleDir (homeAfter nineAndTen) (some "acme") = none ∧
      ¬ SameLatest "/home/ada/.spine/bundles" (homeAfter nineAndTen).subdirs (homeAfter nineAndTen)
        "" (some "acme") "acme" := by
  have hloader : activeBundleDir (homeAfter nineAndTen) (some "acme") = none := by decide +kernel
  have hdirs : (homeAfter nineAndTen).subdirs ["bundles", "acme"] =
      [versionName 9, versionName 10] := by decide +kernel
  have hten : Installed (homeAfter nineAndTen) "acme" 10 := by decide +kernel
  refine ⟨⟨hten, ?_⟩, ?_, hloader, ?_⟩
  · intro m (hm : versionName m ∈ (homeAfter nineAndTen).subdirs ["bundles", "acme"])
    rw [hdirs] at hm
    rcases List.mem_cons.mp hm with hm | hm
    · rw [versionName_injective hm]
      decide
    · rw [versionName_injective (List.mem_singleton.mp hm)]
  · have hactive : (homeAfter nineAndTen).read? ["active", "org"] = some "acme" := by decide +kernel
    have hread : (homeAfter nineAndTen).read? ["bundles", "acme", versionName 9, "bundle.yaml"] =
        some "identity: ..." := by decide +kernel
    have hnames : ((homeAfter nineAndTen).subdirs ["bundles", "acme"]).filter startsV =
        [versionName 9, versionName 10] := by decide +kernel
    have hlast : (([versionName 9, versionName 10].mergeSort (· ≤ ·)).getLast?) =
        some (versionName 9) := by
      have hle : versionName 10 ≤ versionName 9 := by decide +kernel
      rw [getLast?_mergeSort]
      exact ⟨List.mem_cons_self, by simpa [mem_upperBounds] using hle⟩
    simp [routerDir, hactive, hnames, hlast, hread, versionDir]
  · rintro ⟨n, -, -, -, -, hfound⟩
    rw [hloader] at hfound
    cases hfound

end SpineFormal.Standards
