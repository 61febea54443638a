import SpineFormal.Base.Glob
import SpineFormal.Base.RegexFirst
import SpineFormal.Base.TextReplace

/-!
# Path filters of a scan

`audit_path_filters.py`: a pattern is matched against a path as it is and, where it begins with
`**/`, without that. A pattern with `**` becomes the text of a regular expression by way of a
placeholder; any other is left to `fnmatch`.
-/

namespace SpineFormal.Verify

open Re
set_option autoImplicit false

/-- `p.replace("\\", "/").lstrip("/")`. -/
def normalizePath (p : List Char) : List Char :=
  (p.map fun c => if c = '\\' then '/' else c).dropWhile fun c => c = '/'

def patternVariants (pat : List Char) : List (List Char) :=
  pat :: if ['*', '*', '/'] <+: pat then [pat.drop 3] else []

/-! ## The regular expression -/

def placeholder : List Char := "@@@DS@@@".toList

/-- The characters that `re.escape` puts a backslash before. -/
def specials : List Char := "()[]\x7b\x7d?*+-|^$\\.&~# \t\n\r\x0b\x0c".toList

def escapeOne (c : Char) : List Char := if c ∈ specials then ['\\', c] else [c]

def escape (s : List Char) : List Char := s.flatMap escapeOne

def globText (pat : List Char) : List Char :=
  let p := escape (replaceText ['*', '*'] placeholder pat)
  replaceText ['\\', '*'] "[^/]*".toList (replaceText placeholder ".*".toList p)

inductive Item where
  | lit (c : Char)
  | dots
  | inSegment
  deriving DecidableEq

/-- What `re` reads in a text where all but `.*` and `[^/]*` is escaped. -/
def readItems : List Char → List Item
  | '\\' :: c :: s => .lit c :: readItems s
  | '.' :: '*' :: s => .dots :: readItems s
  | '[' :: '^' :: '/' :: ']' :: '*' :: s => .inSegment :: readItems s
  | c :: s => .lit c :: readItems s
  | [] => []

def Item.regex : Item → Regex
  | .lit c => .cls (· == c)
  | .dots => atLeast 0 (· != '\n')
  | .inSegment => atLeast 0 (· != '/')

/-- `re.match("^" + ... + "$", path)`: the end may have a newline before it. -/
def matchesItems (items : List Item) (path : List Char) : Bool :=
  ((seqs (items.map Item.regex)).splits path).any fun p => p.2 = [] || p.2 = ['\n']

def pathMatchesGlobOne (path pat : List Char) : Bool :=
  if ¬ ['*', '*'] <:+: pat then Glob.spells (Glob.translate pat) path
  else matchesItems (readItems (globText pat)) path

def pathMatchesGlob (path pattern : String) : Bool :=
  (patternVariants (normalizePath pattern.toList)).any
    (pathMatchesGlobOne (normalizePath path.toList))

/-! ## What the text of a pattern reads as -/

/-- The items of a text in which placeholders stand for `**`. -/
def scanFrom : Nat → List Char → List Item
  | _, [] => []
  | skip + 1, _ :: s => scanFrom skip s
  | 0, c :: s =>
    if placeholder <+: c :: s then .dots :: scanFrom (placeholder.length - 1) s
    else (if c = '*' then .inSegment else .lit c) :: scanFrom 0 s

def scanItems (s : List Char) : List Item := scanFrom 0 s

section
variable {s t : List Char} {c : Char}

theorem placeholder_ne_nil : placeholder ≠ [] := by decide

theorem scanFrom_length (w t : List Char) : scanFrom w.length (w ++ t) = scanItems t := by
  induction w with
  | nil => rfl
  | cons c w ih => exact ih

theorem scanItems_placeholder (t : List Char) :
    scanItems (placeholder ++ t) = .dots :: scanItems t := by
  have hpre : placeholder <+: '@' :: ("@@DS@@@".toList ++ t) := List.prefix_append placeholder t
  have hcons : placeholder ++ t = '@' :: ("@@DS@@@".toList ++ t) := rfl
  rw [hcons, scanItems, scanFrom, if_pos hpre]
  exact congrArg _ (scanFrom_length "@@DS@@@".toList t)

theorem scanItems_cons (h : ¬ placeholder <+: c :: s) :
    scanItems (c :: s) = (if c = '*' then .inSegment else .lit c) :: scanItems s := by
  rw [scanItems, scanFrom, if_neg h]
  rfl

theorem mem_scanItems (h : .lit c ∈ scanItems s) : c ∈ s ∧ c ≠ '*' := by
  induction s using replace_induction placeholder_ne_nil with
  | nil => cases h
  | found t ih =>
    rw [scanItems_placeholder] at h
    have hmem := ih ((List.mem_cons.mp h).resolve_left (by simp))
    exact ⟨List.mem_append_right _ hmem.1, hmem.2⟩
  | other d t hpre ih =>
    rw [scanItems_cons hpre] at h
    rcases List.mem_cons.mp h with h | h
    · split at h
      · cases h
      · rename_i hstar
        obtain rfl := Item.lit.inj h
        exact ⟨List.mem_cons_self, hstar⟩
    · exact ⟨List.mem_cons_of_mem d (ih h).1, (ih h).2⟩

theorem scanItems_append_slash (s t : List Char) :
    scanItems (s ++ '/' :: t) = scanItems s ++ .lit '/' :: scanItems t := by
  have hslash : '/' ∉ placeholder := by decide
  induction s using replace_induction placeholder_ne_nil with
  | nil =>
    refine scanItems_cons fun h => ?_
    exact placeholder_ne_nil (List.prefix_nil.mp ((prefix_append_cons hslash [] t).mp h))
  | found s ih =>
    rw [List.append_assoc, scanItems_placeholder, ih, scanItems_placeholder, List.cons_append]
  | other c s hpre ih =>
    have hpre' : ¬ placeholder <+: c :: (s ++ '/' :: t) := fun h =>
      hpre ((prefix_append_cons hslash (c :: s) t).mp h)
    rw [List.cons_append, scanItems_cons hpre', ih, scanItems_cons hpre, List.cons_append]

/-! ## The steps to the regular expression -/

theorem escape_append (s t : List Char) : escape (s ++ t) = escape s ++ escape t :=
  List.flatMap_append

/-- A text without backslashes stands at the front of an escaped one only if nothing of it had
to be escaped. -/
theorem prefix_of_prefix_escape {w : List Char} (hw : '\\' ∉ w) (h : w <+: escape s) : w <+: s := by
  induction w generalizing s with
  | nil => exact List.nil_prefix
  | cons x w ih =>
    cases s with
    | nil => exact absurd (List.prefix_nil.mp h) (List.cons_ne_nil x w)
    | cons d s =>
      obtain ⟨hx, hw⟩ := List.ne_and_not_mem_of_not_mem_cons hw
      have hcons : escape (d :: s) = escapeOne d ++ escape s := rfl
      rw [hcons, escapeOne] at h
      split at h
      · exact absurd (List.cons_prefix_cons.mp h).1.symm hx
      · obtain ⟨rfl, hrest⟩ := List.cons_prefix_cons.mp h
        exact List.cons_prefix_cons.mpr ⟨rfl, ih hw hrest⟩

theorem suffix_escapeOne {u v : List Char} (h : escapeOne c = u ++ v) (hv : v ≠ []) :
    v = [c] ∨ v = ['\\', c] := by
  rw [escapeOne] at h
  split at h
  · cases u with
    | nil => exact .inr h.symm
    | cons d u =>
      obtain ⟨-, h⟩ := List.cons.inj h
      cases u with
      | nil => exact .inl h.symm
      | cons d' u =>
        obtain ⟨-, h⟩ := List.cons.inj h
        exact absurd (List.append_eq_nil_iff.mp h.symm).2 hv
  · cases u with
    | nil => exact .inl h.symm
    | cons d u =>
      obtain ⟨-, h⟩ := List.cons.inj h
      exact absurd (List.append_eq_nil_iff.mp h.symm).2 hv

def renderEscaped : Item → List Char
  | .lit c => escapeOne c
  | .dots => ".*".toList
  | .inSegment => ['\\', '*']

def renderRegex : Item → List Char
  | .lit c => escapeOne c
  | .dots => ".*".toList
  | .inSegment => "[^/]*".toList

theorem replace_placeholder (s : List Char) : replaceText placeholder ".*".toList (escape s) =
    (scanItems s).flatMap renderEscaped := by
  induction s using replace_induction placeholder_ne_nil with
  | nil => rfl
  | found t ih =>
    have hplain : escape placeholder = placeholder := by decide
    rw [escape_append, hplain, replaceText_front placeholder_ne_nil, ih, scanItems_placeholder]
    rfl
  | other c t hpre ih =>
    have hcons : escape (c :: t) = escapeOne c ++ escape t := rfl
    have hrender : renderEscaped (if c = '*' then .inSegment else .lit c) = escapeOne c := by
      split
      · rename_i hstar
        rw [hstar]
        decide
      · rfl
    rw [hcons, replaceText_pass, ih, scanItems_cons hpre, List.flatMap_cons, hrender]
    intro u v hsplit hv hpre'
    rcases suffix_escapeOne hsplit hv with rfl | rfl
    · obtain rfl : c = '@' := (List.cons_prefix_cons.mp hpre').1.symm
      exact hpre (prefix_of_prefix_escape (by decide) hpre')
    · exact absurd (List.cons_prefix_cons.mp hpre').1 (by decide)

theorem replace_star {items : List Item}
    (h : ∀ c, .lit c ∈ items → c ≠ '*' ∧ c ≠ '\\') :
    replaceText ['\\', '*'] "[^/]*".toList (items.flatMap renderEscaped) =
      items.flatMap renderRegex := by
  induction items with
  | nil => rfl
  | cons i items ih =>
    have hrest := ih fun c hc => h c (List.mem_cons_of_mem i hc)
    rw [List.flatMap_cons, List.flatMap_cons, ← hrest]
    cases i with
    | lit c =>
      obtain ⟨hstar, hslash⟩ := h c List.mem_cons_self
      refine replaceText_pass fun u v hsplit hv hpre => ?_
      rcases suffix_escapeOne hsplit hv with rfl | rfl
      · exact hslash (List.cons_prefix_cons.mp hpre).1.symm
      · have hpre' := (List.cons_prefix_cons.mp hpre).2
        exact hstar (List.cons_prefix_cons.mp hpre').1.symm
    | dots =>
      have hdots : ∀ t, replaceText ['\\', '*'] "[^/]*".toList (".*".toList ++ t) =
          ".*".toList ++ replaceText ['\\', '*'] "[^/]*".toList t := by
        intro t
        exact replaceText_append _ (by decide) t
      exact hdots _
    | inSegment => exact replaceText_front (by decide) _

theorem readItems_other (hc : c ∉ specials) (s : List Char) :
    readItems (c :: s) = .lit c :: readItems s := by
  rw [readItems]
  · rintro c' s' rfl -
    exact hc (by decide)
  · rintro s' rfl -
    exact hc (by decide)
  · rintro s' rfl -
    exact hc (by decide)

theorem readItems_render (items : List Item) : readItems (items.flatMap renderRegex) = items := by
  induction items with
  | nil => rfl
  | cons i items ih =>
    rw [List.flatMap_cons]
    cases i with
    | lit c =>
      rw [renderRegex, escapeOne]
      split
      · rw [List.cons_append, List.singleton_append, readItems, ih]
      · rename_i hc
        rw [List.singleton_append, readItems_other hc, ih]
    | dots =>
      have hdots : ∀ t, readItems (".*".toList ++ t) = .dots :: readItems t := fun _ => rfl
      rw [renderRegex, hdots, ih]
    | inSegment =>
      have hin : ∀ t, readItems ("[^/]*".toList ++ t) = .inSegment :: readItems t := fun _ => rfl
      rw [renderRegex, hin, ih]

/-- What the text of a pattern reads as, once `**` is a placeholder. -/
theorem readItems_globText (h : '\\' ∉ replaceText ['*', '*'] placeholder s) :
    readItems (globText s) = scanItems (replaceText ['*', '*'] placeholder s) := by
  rw [globText, replace_placeholder, replace_star, readItems_render]
  intro c hc
  obtain ⟨hmem, hstar⟩ := mem_scanItems hc
  exact ⟨hstar, fun heq => h (heq ▸ hmem)⟩

end

example : pathMatchesGlob "src/foo.py" "*.py" ∧
    pathMatchesGlob "node_modules/lodash/x.js" "**/node_modules/**" ∧
    ¬ pathMatchesGlob "src/x.js" "**/node_modules/**" := by
  decide

end SpineFormal.Verify
