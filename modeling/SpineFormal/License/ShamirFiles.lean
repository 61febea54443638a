import SpineFormal.License.Shamir

/-!
# Shares in files

The files of the shares are read one after the other, and each is overwritten as soon as it
has been read. What is wrong with a later file, or with the shares together, shows only
after that.
-/

namespace SpineFormal.License.Shamir

set_option autoImplicit false

/-- What the overwriting of a file comes to: it is not opened, or it is left with zeros, or
empty, or it is gone. -/
inductive Wipe where
  | refused
  | zeroed
  | truncated
  | removed
  deriving DecidableEq

/-- A regular file; its text is `none` when its bytes are no text. -/
structure ShareFile where
  text : Option (List Char)
  readable : Bool
  wipe : Wipe
  deriving DecidableEq

abbrev Files := String → Option ShareFile

/-- What `read_and_zeroize_share_file` returns. -/
def readContent (files : Files) (path : String) : Except ShamirError (List Char) :=
  match files path with
  | none => .error .shareFileUnreadable
  | some f =>
    if ¬ f.readable then .error .shareFileUnreadable
    else
      match f.text with
      | none => .error .raised
      | some text => if strip text = [] then .error .shareFileUnreadable else .ok (strip text)

/-- `"0" * len(content)`. -/
def zeros (content : List Char) : List Char := List.replicate content.length '0'

def ShareFile.overwritten (f : ShareFile) (content : List Char) : Option ShareFile :=
  match f.wipe with
  | .refused => some f
  | .zeroed => some { f with text := some (zeros content ++ ['\n']) }
  | .truncated => some { f with text := some [] }
  | .removed => none

/-- What it does to the file. -/
def zeroize (files : Files) (path : String) (content : List Char) : Files :=
  Function.update files path ((files path).bind fun f => f.overwritten content)

/-- The loop over the paths. -/
def readAll (files : Files) : List String → Files × Except ShamirError (List (List Char))
  | [] => (files, .ok [])
  | p :: paths =>
    match readContent files p with
    | .error e => (files, .error e)
    | .ok content =>
      ((readAll (zeroize files p content) paths).1,
        (readAll (zeroize files p content) paths).2.map (content :: ·))

/-- `reconstruct_from_files` with `zeroize_files`: the secret and the wiped paths. -/
def reconstructFromFiles (library : Option Pyshamir) (files : Files) (paths : List String)
    (threshold : Nat) : Files × Except ShamirError (Bytes × List String) :=
  if paths.length < threshold then (files, .error .tooFewShares)
  else ((readAll files paths).1,
    match (readAll files paths).2 with
    | .error e => .error e
    | .ok shares => (combineShares library shares threshold).map fun secret => (secret, paths))

/-- The share that a file gives. -/
def readShare (files : Files) (path : String) : Option (List Char) :=
  match readContent files path with
  | .error _ => none
  | .ok content => some content

/-- Each share that could be read still can. -/
def SharesKept (before after : Files) : Prop :=
  ∀ p s, readShare before p = some s → readShare after p = some s

/-! ## One file -/

section
variable {files : Files} {p q : String} {s t : List Char}

theorem readShare_eq_some_iff : readShare files p = some s ↔ readContent files p = .ok s := by
  rw [readShare]
  cases readContent files p <;> simp

theorem exists_file (h : readShare files p = some s) : ∃ f text, files p = some f ∧
    f.readable = true ∧ f.text = some text ∧ strip text = s ∧ s ≠ [] := by
  rw [readShare_eq_some_iff, readContent] at h
  split at h
  · cases h
  · rename_i f hf
    split_ifs at h with hread
    split at h
    · cases h
    · rename_i text htext
      split_ifs at h with hblank
      obtain rfl := Except.ok.inj h
      exact ⟨f, text, hf, by simpa using hread, htext, rfl, hblank⟩

theorem readShare_of_file {f : ShareFile} (hf : files p = some f) (hread : f.readable = true)
    {text : List Char} (htext : f.text = some text) :
    readShare files p = if strip text = [] then none else some (strip text) := by
  rw [readShare, readContent, hf]
  dsimp only
  rw [if_neg (by simp [hread]), htext]
  dsimp only
  split_ifs <;> rfl

theorem zeroize_of_ne (h : q ≠ p) (content : List Char) : zeroize files p content q = files q :=
  Function.update_of_ne h _ _

theorem readShare_zeroize_of_ne (h : q ≠ p) (content : List Char) :
    readShare (zeroize files p content) q = readShare files q := by
  rw [readShare, readContent, zeroize_of_ne h, ← readContent, ← readShare]

theorem strip_zeros (content : List Char) : strip (zeros content ++ ['\n']) = zeros content := by
  rw [strip, trimBy_append_space _ (List.forall_mem_singleton.mpr (by decide)), trimBy_eq_self]
  intro c hc
  rw [List.eq_of_mem_replicate hc]
  decide

/-- What can be read where a file was overwritten: the same share, zeros, or nothing. -/
theorem readShare_zeroize {f : ShareFile} (hf : files p = some f) (h : readShare files p = some s) :
    readShare (zeroize files p s) p = match f.wipe with
      | .refused => some s
      | .zeroed => some (zeros s)
      | .truncated => none
      | .removed => none := by
  obtain ⟨f', text, hf', hread, htext, hstrip, hne⟩ := exists_file h
  rw [hf] at hf'
  obtain rfl := Option.some.inj hf'
  have hfile : zeroize files p s p = f.overwritten s := by
    rw [zeroize, Function.update_self, hf, Option.bind_some]
  rw [ShareFile.overwritten] at hfile
  cases hwipe : f.wipe with
  | refused =>
    rw [hwipe] at hfile
    rw [readShare_of_file hfile hread htext, if_neg (by rwa [hstrip]), hstrip]
  | zeroed =>
    rw [hwipe] at hfile
    have hzeros : zeros s ≠ [] := by
      rw [zeros, ne_eq, List.replicate_eq_nil_iff, List.length_eq_zero_iff]
      exact hne
    rw [readShare_of_file hfile hread rfl, strip_zeros, if_neg hzeros]
  | truncated =>
    rw [hwipe] at hfile
    have hblank : strip [] = [] := rfl
    rw [readShare_of_file hfile hread rfl, if_pos hblank]
  | removed =>
    rw [hwipe] at hfile
    rw [readShare, readContent, hfile]

/-! ## Files that keep their share -/

/-- The file is not opened for writing, or what it is overwritten with is what it holds. -/
def Survives (files : Files) (path : String) : Prop :=
  ∀ f ∈ files path, f.wipe = .refused ∨
    f.wipe = .zeroed ∧ ∀ text ∈ f.text, ∀ c ∈ strip text, c = '0'

theorem zeros_eq_iff : zeros s = s ↔ ∀ c ∈ s, c = '0' := by
  rw [zeros, eq_comm, List.eq_replicate_iff]
  exact and_iff_right rfl

/-- The two states have the same shares to read and to lose. -/
def Same (files files' : Files) : Prop :=
  ∀ q, readShare files' q = readShare files q ∧ (Survives files' q ↔ Survives files q)

theorem same_of_survives (h : readShare files p = some s) (hsurvives : Survives files p) :
    Same files (zeroize files p s) := by
  intro q
  by_cases hqp : q = p
  · subst hqp
    obtain ⟨f, text, hf, hread, htext, hstrip, -⟩ := exists_file h
    have hshare := readShare_zeroize hf h
    have hfile : zeroize files q s q = f.overwritten s := by
      rw [zeroize, Function.update_self, hf, Option.bind_some]
    rcases hsurvives f hf with hwipe | ⟨hwipe, hzero⟩
    · rw [ShareFile.overwritten, hwipe] at hfile
      rw [hwipe] at hshare
      refine ⟨hshare.trans h.symm, ?_⟩
      rw [Survives, Survives, hfile, hf]
    · rw [ShareFile.overwritten, hwipe] at hfile
      rw [hwipe] at hshare
      have hsame : zeros s = s := by
        rw [zeros_eq_iff, ← hstrip]
        exact hzero text htext
      refine ⟨hshare.trans (hsame.symm ▸ h.symm), iff_of_true ?_ hsurvives⟩
      intro f' hf'
      rw [hfile] at hf'
      obtain rfl := Option.some.inj hf'
      refine .inr ⟨rfl, fun text' htext' c hc => ?_⟩
      obtain rfl := Option.some.inj htext'
      rw [strip_zeros] at hc
      exact List.eq_of_mem_replicate hc
  · rw [Survives, Survives, zeroize_of_ne hqp]
    exact ⟨readShare_zeroize_of_ne hqp s, Iff.rfl⟩

/-! ## Shares that are gone -/

/-- Nothing but other zeros can be read. -/
def Gone (files : Files) (path : String) (share : List Char) : Prop :=
  ∀ t, readShare files path = some t → t ≠ share ∧ ∀ c ∈ t, c = '0'

theorem gone_of_not_survives (h : readShare files p = some s) (hlost : ¬ Survives files p) :
    Gone (zeroize files p s) p s := by
  obtain ⟨f, text, hf, hread, htext, hstrip, -⟩ := exists_file h
  intro t ht
  rw [readShare_zeroize hf h] at ht
  cases hwipe : f.wipe with
  | refused =>
    refine absurd (fun f' hf' => ?_) hlost
    obtain rfl := Option.some.inj (hf.symm.trans hf')
    exact .inl hwipe
  | zeroed =>
    rw [hwipe] at ht
    obtain rfl := Option.some.inj ht
    refine ⟨fun hsame => hlost fun f' hf' => ?_, fun c hc => List.eq_of_mem_replicate hc⟩
    obtain rfl := Option.some.inj (hf.symm.trans hf')
    refine .inr ⟨hwipe, fun text' htext' => ?_⟩
    obtain rfl := Option.some.inj (htext.symm.trans htext')
    rw [hstrip]
    exact zeros_eq_iff.mp hsame
  | truncated =>
    rw [hwipe] at ht
    cases ht
  | removed =>
    rw [hwipe] at ht
    cases ht

theorem Gone.zeroize (h : Gone files q s) (ht : readShare files p = some t) :
    Gone (zeroize files p t) q s := by
  intro u hu
  by_cases hqp : q = p
  · subst hqp
    obtain ⟨hne, hzero⟩ := h t ht
    obtain ⟨f, -, hf, -⟩ := exists_file ht
    rw [readShare_zeroize hf ht] at hu
    have hsame : zeros t = t := zeros_eq_iff.mpr hzero
    have hut : u = t := by
      split at hu
      · exact (Option.some.inj hu).symm
      · exact (Option.some.inj hu).symm.trans hsame
      · cases hu
      · cases hu
    rw [hut]
    exact ⟨hne, hzero⟩
  · rw [readShare_zeroize_of_ne hqp] at hu
    exact h u hu

end

/-! ## The loop -/

/-- The paths that come before one that cannot be read. -/
def reached (files : Files) (paths : List String) : List String :=
  paths.takeWhile fun p => (readShare files p).isSome

section
variable {files : Files} {p : String} {paths : List String} {s : List Char}

theorem readAll_cons (h : readShare files p = some s) :
    readAll files (p :: paths) = ((readAll (zeroize files p s) paths).1,
      (readAll (zeroize files p s) paths).2.map (s :: ·)) := by
  rw [readAll, readShare_eq_some_iff.mp h]

theorem readAll_cons_none (h : readShare files p = none) :
    (readAll files (p :: paths)).1 = files ∧ ∃ e, (readAll files (p :: paths)).2 = .error e := by
  rw [readShare] at h
  rw [readAll]
  cases hread : readContent files p with
  | error e => exact ⟨rfl, e, rfl⟩
  | ok content =>
    rw [hread] at h
    cases h

theorem reached_same {files' : Files} (h : Same files files') (paths : List String) :
    reached files' paths = reached files paths := by
  rw [reached, reached]
  exact congrArg (paths.takeWhile ·) (funext fun q => by rw [(h q).1])

theorem reached_cons (h : readShare files p = some s) :
    reached files (p :: paths) = p :: reached files paths := by
  rw [reached, List.takeWhile_cons, h]
  rfl

theorem readAll_kept (h : ∀ p ∈ reached files paths, Survives files p) (q : String) :
    readShare (readAll files paths).1 q = readShare files q := by
  induction paths generalizing files with
  | nil => rfl
  | cons p paths ih =>
    cases hread : readShare files p with
    | none => rw [(readAll_cons_none hread).1]
    | some s =>
      rw [reached_cons hread, List.forall_mem_cons] at h
      have hsame := same_of_survives hread h.1
      rw [readAll_cons hread, ← (hsame q).1]
      refine ih fun r hr => (hsame r).2.mpr (h.2 r ?_)
      rwa [← reached_same hsame]

theorem readAll_gone {q : String} {share : List Char} (h : Gone files q share) :
    Gone (readAll files paths).1 q share := by
  induction paths generalizing files with
  | nil => exact h
  | cons p paths ih =>
    cases hread : readShare files p with
    | none =>
      rw [(readAll_cons_none hread).1]
      exact h
    | some s =>
      rw [readAll_cons hread]
      exact ih (h.zeroize hread)

/-- A file that is reached and does not keep its share has lost it in the end. -/
theorem readAll_lost (h : ∃ p ∈ reached files paths, ¬ Survives files p) :
    ¬ SharesKept files (readAll files paths).1 := by
  have hgone : ∃ q share, readShare files q = some share ∧
      Gone (readAll files paths).1 q share := by
    induction paths generalizing files with
    | nil =>
      obtain ⟨p, hp, -⟩ := h
      cases hp
    | cons p paths ih =>
      cases hread : readShare files p with
      | none =>
        obtain ⟨q, hq, -⟩ := h
        rw [reached, List.takeWhile_cons, hread] at hq
        cases hq
      | some s =>
        rw [readAll_cons hread]
        by_cases hsurvives : Survives files p
        · have hsame := same_of_survives hread hsurvives
          rw [reached_cons hread] at h
          obtain ⟨q, hq, hlost⟩ := h
          rcases List.mem_cons.mp hq with rfl | hq
          · exact absurd hsurvives hlost
          · rw [← reached_same hsame] at hq
            obtain ⟨r, share, hr, hgone⟩ := ih ⟨q, hq, fun hs => hlost ((hsame q).2.mp hs)⟩
            exact ⟨r, share, (hsame r).1 ▸ hr, hgone⟩
        · exact ⟨p, s, hread, readAll_gone (gone_of_not_survives hread hsurvives)⟩
  obtain ⟨q, share, hread, hgone⟩ := hgone
  intro hkept
  exact (hgone share (hkept q share hread)).1 rfl

/-! ## When nothing is raised -/

theorem readAll_ok_iff (hnodup : paths.Nodup) {shares : List (List Char)} :
    (readAll files paths).2 = .ok shares ↔ paths.map (readShare files) = shares.map some := by
  induction paths generalizing files shares with
  | nil =>
    rw [readAll, List.map_nil, eq_comm (a := []), List.map_eq_nil_iff]
    exact ⟨fun h => (Except.ok.inj h).symm, fun h => congrArg Except.ok h.symm⟩
  | cons p paths ih =>
    obtain ⟨hp, hnodup⟩ := List.nodup_cons.mp hnodup
    cases hread : readShare files p with
    | none =>
      obtain ⟨e, he⟩ := (@readAll_cons_none files p paths hread).2
      rw [he, List.map_cons, hread]
      refine iff_of_false (by simp) fun h => ?_
      obtain ⟨s, rest, -, hs, -⟩ := List.map_eq_cons_iff.mp h.symm
      cases hs
    | some s =>
      have hrest : paths.map (readShare (zeroize files p s)) = paths.map (readShare files) :=
        List.map_congr_left fun q hq => readShare_zeroize_of_ne (ne_of_mem_of_not_mem hq hp) s
      rw [readAll_cons hread, List.map_cons, hread]
      dsimp only
      cases hall : (readAll (zeroize files p s) paths).2 with
      | error e =>
        refine iff_of_false (fun h => by cases h) fun h => ?_
        obtain ⟨t, rest, -, -, hmap⟩ := List.map_eq_cons_iff.mp h.symm
        have hok := (ih hnodup).mpr (hrest.trans hmap.symm)
        rw [hall] at hok
        cases hok
      | ok rest =>
        have hmap := (ih hnodup).mp hall
        rw [hrest] at hmap
        rw [hmap]
        constructor
        · intro h
          obtain rfl : s :: rest = shares := Except.ok.inj h
          rfl
        · intro h
          have heq : s :: rest = shares := by
            rw [← List.map_cons] at h
            exact List.map_injective_iff.mpr (Option.some_injective _) h
          exact congrArg Except.ok heq

/-- The shares pass every check and the library combines them. -/
structure Accepted (library : Option Pyshamir) (shares : List (List Char)) : Prop where
  formed : ∀ s ∈ shares, WellFormed s
  apart : (shares.map xCoordinate).Nodup
  combined : ∃ pyshamir bytes secret, library = some pyshamir ∧
    shares.map shareBytes = bytes.map some ∧ pyshamir.combine bytes = some secret ∧
      secret.length = secretLenBytes

theorem combineShares_accepts_iff {library : Option Pyshamir} {shares : List (List Char)}
    {threshold : Nat} : (∃ secret, combineShares library shares threshold = .ok secret) ↔
      threshold ≤ shares.length ∧ Accepted library shares := by
  constructor
  · rintro ⟨secret, h⟩
    obtain ⟨hlen, hformed, bytes, hbytes, hcombine⟩ := combineShares_ok_iff.mp h
    obtain ⟨-, pyshamir, hlib, hsecret, hwidth⟩ := combineBytes_ok_iff.mp hcombine
    exact ⟨hlen, hformed, (distinct_of_combineShares h).2, pyshamir, bytes, secret, hlib,
      (Json.mapM_eq_some_iff _ _ _).mp hbytes, hsecret, hwidth⟩
  · rintro ⟨hlen, hformed, hapart, pyshamir, bytes, secret, hlib, hbytes, hsecret, hwidth⟩
    rw [xCoordinates_eq hbytes] at hapart
    exact ⟨secret, combineShares_ok_iff.mpr ⟨hlen, hformed, bytes,
      (Json.mapM_eq_some_iff _ _ _).mpr hbytes,
        combineBytes_ok_iff.mpr ⟨hapart, pyshamir, hlib, hsecret, hwidth⟩⟩⟩

theorem zeros_not_wellFormed (content : List Char) : ¬ WellFormed (zeros content) := by
  intro h
  have hstrip : strip (zeros content) = zeros content := by
    rw [strip, trimBy_eq_self]
    intro c hc
    rw [List.eq_of_mem_replicate hc]
    decide
  refine h.nonzero (intBase16_eq_zero_iff.mpr fun c hc => ?_)
  rw [hstrip] at hc
  rw [List.eq_of_mem_replicate hc]
  decide

/-- A path that is read twice gives its share twice, or zeros, or nothing. -/
theorem nodup_of_readAll {shares : List (List Char)} (h : (readAll files paths).2 = .ok shares)
    (hformed : ∀ s ∈ shares, WellFormed s) (hapart : (shares.map xCoordinate).Nodup) :
    paths.Nodup := by
  induction paths generalizing files shares with
  | nil => exact List.nodup_nil
  | cons p paths ih =>
    cases hread : readShare files p with
    | none =>
      obtain ⟨e, he⟩ := (@readAll_cons_none files p paths hread).2
      rw [he] at h
      cases h
    | some s =>
      rw [readAll_cons hread] at h
      dsimp only at h
      cases hall : (readAll (zeroize files p s) paths).2 with
      | error e =>
        rw [hall] at h
        cases h
      | ok rest =>
        rw [hall] at h
        obtain rfl : s :: rest = shares := Except.ok.inj h
        obtain ⟨-, hrest⟩ := List.forall_mem_cons.mp hformed
        rw [List.map_cons, List.nodup_cons] at hapart
        have hnodup := ih hall hrest hapart.2
        refine List.nodup_cons.mpr ⟨fun hmem => ?_, hnodup⟩
        have hmap := (readAll_ok_iff hnodup).mp hall
        have hthere : readShare (zeroize files p s) p ∈ rest.map some :=
          hmap ▸ List.mem_map_of_mem hmem
        obtain ⟨t, ht, heq⟩ := List.mem_map.mp hthere
        obtain ⟨f, -, hf, -⟩ := exists_file hread
        rw [readShare_zeroize hf hread] at heq
        split at heq
        · obtain rfl := Option.some.inj heq
          exact hapart.1 (List.mem_map_of_mem ht)
        · obtain rfl := Option.some.inj heq
          exact zeros_not_wellFormed s (hrest _ ht)
        · cases heq
        · cases heq

end

/-- Enough paths, each named once, each with a share, and the shares pass. -/
def Reconstructs (library : Option Pyshamir) (files : Files) (paths : List String) : Prop :=
  paths.Nodup ∧ ∃ shares, paths.map (readShare files) = shares.map some ∧ Accepted library shares

theorem reconstruct_returns_iff {library : Option Pyshamir} {files : Files} {paths : List String}
    {threshold : Nat} (hlen : threshold ≤ paths.length) :
    (∃ r, (reconstructFromFiles library files paths threshold).2 = .ok r) ↔
      Reconstructs library files paths := by
  rw [reconstructFromFiles, if_neg (Nat.not_lt.mpr hlen), Reconstructs]
  dsimp only
  constructor
  · rintro ⟨r, h⟩
    cases hall : (readAll files paths).2 with
    | error e =>
      rw [hall] at h
      cases h
    | ok shares =>
      rw [hall] at h
      dsimp only at h
      cases hcombine : combineShares library shares threshold with
      | error e =>
        rw [hcombine] at h
        cases h
      | ok secret =>
        obtain ⟨-, haccepted⟩ := combineShares_accepts_iff.mp ⟨secret, hcombine⟩
        have hnodup := nodup_of_readAll hall haccepted.formed haccepted.apart
        exact ⟨hnodup, shares, (readAll_ok_iff hnodup).mp hall, haccepted⟩
  · rintro ⟨hnodup, shares, hmap, haccepted⟩
    have hcount := congrArg List.length hmap
    rw [List.length_map, List.length_map] at hcount
    obtain ⟨secret, hsecret⟩ := combineShares_accepts_iff.mpr ⟨hcount ▸ hlen, haccepted⟩
    refine ⟨(secret, paths), ?_⟩
    rw [(readAll_ok_iff hnodup).mpr hmap]
    dsimp only
    rw [hsecret]
    rfl

/-- A reconstruction that raises has kept every share exactly when it had too few paths to
begin with, or each file that it got to keeps its share. -/
theorem raised_keeps_shares_iff (library : Option Pyshamir) (files : Files) (paths : List String)
    (threshold : Nat) :
    ((∃ e, (reconstructFromFiles library files paths threshold).2 = .error e) →
        SharesKept files (reconstructFromFiles library files paths threshold).1) ↔
      paths.length < threshold ∨ Reconstructs library files paths ∨
        ∀ p ∈ reached files paths, Survives files p := by
  by_cases hfew : paths.length < threshold
  · refine iff_of_true (fun _ => ?_) (.inl hfew)
    rw [reconstructFromFiles, if_pos hfew]
    exact fun p s h => h
  · have hstate : (reconstructFromFiles library files paths threshold).1 =
        (readAll files paths).1 := by
      rw [reconstructFromFiles, if_neg hfew]
    rw [or_iff_right hfew, hstate, ← reconstruct_returns_iff (Nat.le_of_not_lt hfew)]
    cases hresult : (reconstructFromFiles library files paths threshold).2 with
    | ok r =>
      refine iff_of_true ?_ (.inl ⟨r, rfl⟩)
      rintro ⟨e, h⟩
      cases h
    | error e =>
      rw [or_iff_right (fun ⟨r, h⟩ => by cases h)]
      constructor
      · intro h
        by_contra hlost
        rw [not_forall₂] at hlost
        obtain ⟨p, hp, hp'⟩ := hlost
        exact readAll_lost ⟨p, hp, hp'⟩ (h ⟨e, rfl⟩)
      · intro h _ p s hp
        rw [readAll_kept h]
        exact hp

/-- A file with a share, and no other file. -/
def oneShareFile : Files := fun p =>
  if p = "share-1.hex" then some ⟨some (hex (shareAt 1) ++ ['\n']), true, .removed⟩ else none

/-- The second path is mistyped: the first share is gone. -/
theorem mistyped_path_destroys_share :
    ¬ ((∃ e, (reconstructFromFiles none oneShareFile ["share-1.hex", "share-2.hx"] 2).2 = .error e) →
      SharesKept oneShareFile
        (reconstructFromFiles none oneShareFile ["share-1.hex", "share-2.hx"] 2).1) := by
  intro h
  have hkept := h ⟨.shareFileUnreadable, by decide +kernel⟩ "share-1.hex" (hex (shareAt 1))
    (by decide +kernel)
  exact absurd hkept (by decide +kernel)

end SpineFormal.License.Shamir
