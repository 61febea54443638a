import Mathlib.Data.List.Basic

/-!
# Shell patterns

`fnmatch.fnmatchcase`: a pattern is cut into tokens, and a name matches if the
tokens spell it from end to end. The text between brackets is read as Python
turns it into a character class, with its treatment of hyphens, of ranges that
run downwards and of brackets that never close.
-/

namespace SpineFormal.Glob

set_option autoImplicit false

inductive Token where
  | star
  | any
  | lit (c : Char)
  | set (negated : Bool) (ranges : List (Char × Char))

/-- The text up to the first closing bracket, and what comes after it. -/
def untilClose : List Char → Option (List Char × List Char)
  | [] => none
  | c :: s => if c = ']' then some ([], s) else (untilClose s).map fun p => (c :: p.1, p.2)

/-- A closing bracket in the first place stands for itself. -/
def bracket : List Char → Option (List Char × List Char)
  | '!' :: ']' :: s => (untilClose s).map fun p => ('!' :: ']' :: p.1, p.2)
  | ']' :: s => (untilClose s).map fun p => (']' :: p.1, p.2)
  | s => untilClose s

/-- Cuts the text at the first hyphen that has at least `skip` characters before it. -/
def cutHyphen (skip : Nat) (s : List Char) : Option (List Char × List Char) :=
  match (s.drop skip).span (· ≠ '-') with
  | (_, []) => none
  | (pre, _ :: rest) => some (s.take skip ++ pre, rest)

/-- The text of a bracket, cut at the hyphens that make ranges. -/
def chunks : Nat → Nat → List Char → List (List Char)
  | 0, _, s => [s]
  | fuel + 1, skip, s =>
    match cutHyphen skip s with
    | none => [s]
    | some (pre, []) => [pre ++ ['-']]
    | some (pre, rest) => pre :: chunks fuel 2 rest

/-- A range that runs downwards is dropped with both its ends. -/
def joinDown (c : List Char) : List (List Char) → List (List Char)
  | [] => [c]
  | d :: ds =>
    match c.getLast?, d.head? with
    | some lo, some hi => if hi < lo then (c.dropLast ++ d.tail) :: ds else c :: d :: ds
    | _, _ => c :: d :: ds

/-- The text of a character class, where `none` is the hyphen of a range. -/
def classText (body : List Char) : List (Option Char) :=
  let skip := if body.head? = some '!' then 2 else 1
  [none].intercalate (((chunks body.length skip body).foldr joinDown []).map (List.map some))

def ranges : List (Option Char) → List (Char × Char)
  | some lo :: none :: some hi :: rest => (lo, hi) :: ranges rest
  | some c :: rest => (c, c) :: ranges rest
  | none :: rest => ('-', '-') :: ranges rest
  | [] => []

def classOf (body : List Char) : Token :=
  match classText body with
  | some '!' :: rest => .set true (ranges rest)
  | text => .set false (ranges text)

def translateFuel : Nat → List Char → List Token
  | 0, _ => []
  | _, [] => []
  | fuel + 1, c :: s =>
    if c = '*' then .star :: translateFuel fuel s
    else if c = '?' then .any :: translateFuel fuel s
    else if c = '[' then
      match bracket s with
      | none => .lit '[' :: translateFuel fuel s
      | some (body, rest) => classOf body :: translateFuel fuel rest
    else .lit c :: translateFuel fuel s

/-- `fnmatch.translate`. -/
def translate (pat : List Char) : List Token := translateFuel pat.length pat

/-- Some rest of the text satisfies `p`. -/
def anySuffix (p : List Char → Bool) : List Char → Bool
  | [] => p []
  | c :: s => p (c :: s) || anySuffix p s

def inRanges (rs : List (Char × Char)) (c : Char) : Bool :=
  rs.any fun r => decide (r.1 ≤ c ∧ c ≤ r.2)

def spells : List Token → List Char → Bool
  | [], s => s.isEmpty
  | .star :: ts, s => anySuffix (spells ts) s
  | _ :: _, [] => false
  | .any :: ts, _ :: s => spells ts s
  | .lit d :: ts, c :: s => c = d && spells ts s
  | .set negated rs :: ts, c :: s => (inRanges rs c != negated) && spells ts s

/-- `fnmatch.fnmatch` on a system where file names keep their case. -/
def fnmatch (name pat : String) : Bool := spells (translate pat.toList) name.toList

theorem anySuffix_iff {p : List Char → Bool} {s : List Char} :
    anySuffix p s = true ↔ ∃ pre rest, s = pre ++ rest ∧ p rest = true := by
  induction s with
  | nil =>
    constructor
    · intro h
      exact ⟨[], [], rfl, h⟩
    · rintro ⟨pre, rest, hs, h⟩
      obtain ⟨rfl, rfl⟩ := List.append_eq_nil_iff.mp hs.symm
      exact h
  | cons c s ih =>
    rw [anySuffix, Bool.or_eq_true, ih]
    constructor
    · rintro (h | ⟨pre, rest, rfl, h⟩)
      · exact ⟨[], c :: s, rfl, h⟩
      · exact ⟨c :: pre, rest, rfl, h⟩
    · rintro ⟨pre, rest, hs, h⟩
      rcases List.cons_eq_append_iff.mp hs with ⟨rfl, rfl⟩ | ⟨pre, rfl, rfl⟩
      · exact .inl h
      · exact .inr ⟨pre, rest, rfl, h⟩

theorem spells_star_iff {ts : List Token} {s : List Char} :
    spells (.star :: ts) s = true ↔ ∃ pre rest, s = pre ++ rest ∧ spells ts rest = true := by
  rw [spells, anySuffix_iff]

theorem spells_lit_iff {ts : List Token} {s : List Char} {d : Char} :
    spells (.lit d :: ts) s = true ↔ ∃ rest, s = d :: rest ∧ spells ts rest = true := by
  cases s with
  | nil => simp [spells]
  | cons c s => simp [spells, and_assoc]

theorem spells_lits_iff {ts : List Token} {s w : List Char} :
    spells (w.map .lit ++ ts) s = true ↔ ∃ rest, s = w ++ rest ∧ spells ts rest = true := by
  induction w generalizing s with
  | nil => simp
  | cons d w ih =>
    rw [List.map_cons, List.cons_append, spells_lit_iff]
    constructor
    · rintro ⟨rest, rfl, hrest⟩
      obtain ⟨tail, rfl, htail⟩ := ih.mp hrest
      exact ⟨tail, rfl, htail⟩
    · rintro ⟨rest, rfl, h⟩
      exact ⟨w ++ rest, rfl, ih.mpr ⟨rest, rfl, h⟩⟩

theorem spells_text_iff {w s : List Char} : spells (w.map .lit) s = true ↔ s = w := by
  rw [← List.append_nil (w.map Token.lit), spells_lits_iff]
  constructor
  · rintro ⟨rest, rfl, h⟩
    rw [List.isEmpty_iff.mp h, List.append_nil]
  · rintro rfl
    exact ⟨[], (List.append_nil s).symm, rfl⟩

/-- A name that matches ends as the pattern does. -/
theorem suffix_of_spells {ts : List Token} {w s : List Char}
    (h : spells (ts ++ w.map .lit) s = true) : w <:+ s := by
  induction ts generalizing s with
  | nil =>
    rw [List.nil_append, ← List.append_nil (w.map Token.lit)] at h
    obtain ⟨rest, rfl, hrest⟩ := spells_lits_iff.mp h
    cases rest with
    | nil => exact ⟨[], (List.append_nil w).symm⟩
    | cons c rest => cases hrest
  | cons t ts ih =>
    rw [List.cons_append] at h
    cases t with
    | star =>
      obtain ⟨pre, rest, rfl, hrest⟩ := spells_star_iff.mp h
      exact (ih hrest).trans (List.suffix_append pre rest)
    | lit d =>
      obtain ⟨rest, rfl, hrest⟩ := spells_lit_iff.mp h
      exact (ih hrest).trans (List.suffix_cons d rest)
    | any =>
      cases s with
      | nil => cases h
      | cons c s => exact (ih h).trans (List.suffix_cons c s)
    | set negated rs =>
      cases s with
      | nil => cases h
      | cons c s => exact (ih (Bool.and_eq_true_iff.mp h).2).trans (List.suffix_cons c s)

/-! ## Patterns of stars and literals -/

/-- The token of a character that stands for itself unless it is a star. -/
def plainToken (c : Char) : Token := if c = '*' then .star else .lit c

theorem translate_plain {s : List Char} (h : ∀ c ∈ s, c ≠ '?' ∧ c ≠ '[') :
    translate s = s.map plainToken := by
  have hfuel : ∀ fuel, s.length ≤ fuel → translateFuel fuel s = s.map plainToken := by
    induction s with
    | nil =>
      intro fuel _
      cases fuel <;> rfl
    | cons c s ih =>
      intro fuel hlen
      obtain ⟨⟨hany, hset⟩, hrest⟩ := List.forall_mem_cons.mp h
      cases fuel with
      | zero => cases hlen
      | succ fuel =>
        have htail := ih hrest fuel (Nat.le_of_succ_le_succ hlen)
        rw [translateFuel, List.map_cons, htail, plainToken, if_neg hany, if_neg hset]
        split <;> rfl
  exact hfuel s.length (Nat.le_refl _)

theorem spells_nil_iff {s : List Char} : spells [] s = true ↔ s = [] := List.isEmpty_iff

theorem spells_append {ts us : List Token} {s : List Char} : spells (ts ++ us) s = true ↔
    ∃ u v, s = u ++ v ∧ spells ts u = true ∧ spells us v = true := by
  induction ts generalizing s with
  | nil =>
    constructor
    · exact fun h => ⟨[], s, rfl, rfl, h⟩
    · rintro ⟨u, v, rfl, hu, hv⟩
      rwa [spells_nil_iff.mp hu]
  | cons t ts ih =>
    have hone : ∀ {p : Char → Bool}, (∀ ts c s, spells (t :: ts) (c :: s) = (p c && spells ts s)) →
        (∀ ts, spells (t :: ts) [] = false) → (spells (t :: (ts ++ us)) s = true ↔
          ∃ u v, s = u ++ v ∧ spells (t :: ts) u = true ∧ spells us v = true) := by
      intro p hcons hnil
      cases s with
      | nil =>
        rw [hnil]
        constructor
        · intro h
          cases h
        · rintro ⟨u, v, hs, hu, -⟩
          rw [(List.append_eq_nil_iff.mp hs.symm).1, hnil] at hu
          cases hu
      | cons c s =>
        rw [hcons, Bool.and_eq_true, ih]
        constructor
        · rintro ⟨hc, u, v, rfl, hu, hv⟩
          exact ⟨c :: u, v, rfl, by rw [hcons, hc, hu]; rfl, hv⟩
        · rintro ⟨u, v, hs, hu, hv⟩
          cases u with
          | nil =>
            rw [hnil] at hu
            cases hu
          | cons d u =>
            obtain ⟨rfl, rfl⟩ := List.cons.inj hs
            rw [hcons, Bool.and_eq_true] at hu
            exact ⟨hu.1, u, v, rfl, hu.2, hv⟩
    cases t with
    | star =>
      rw [List.cons_append, spells_star_iff]
      constructor
      · rintro ⟨pre, rest, rfl, h⟩
        obtain ⟨u, v, rfl, hu, hv⟩ := ih.mp h
        exact ⟨pre ++ u, v, (List.append_assoc ..).symm, spells_star_iff.mpr ⟨pre, u, rfl, hu⟩, hv⟩
      · rintro ⟨u, v, rfl, hu, hv⟩
        obtain ⟨pre, rest, rfl, h⟩ := spells_star_iff.mp hu
        exact ⟨pre, rest ++ v, List.append_assoc .., ih.mpr ⟨rest, v, rfl, h, hv⟩⟩
    | any => exact hone (p := fun _ => true) (fun _ _ _ => rfl) fun _ => rfl
    | lit d => exact hone (p := fun c => decide (c = d)) (fun _ _ _ => rfl) fun _ => rfl
    | set negated rs =>
      exact hone (p := fun c => inRanges rs c != negated) (fun _ _ _ => rfl) fun _ => rfl

theorem spells_star_append {ts : List Token} {s : List Char} (pre : List Char)
    (h : spells (.star :: ts) s = true) : spells (.star :: ts) (pre ++ s) = true := by
  obtain ⟨u, v, rfl, hv⟩ := spells_star_iff.mp h
  exact spells_star_iff.mpr ⟨pre ++ u, v, (List.append_assoc pre u v).symm, hv⟩

theorem spells_append_text {ts : List Token} {s w : List Char}
    (h : spells (ts ++ w.map .lit) (s ++ w) = true) : spells ts s = true := by
  obtain ⟨u, v, hsplit, hu, hv⟩ := spells_append.mp h
  rw [spells_text_iff.mp hv] at hsplit
  rwa [List.append_cancel_right hsplit]

theorem mem_of_spells {ts : List Token} {s : List Char} {c : Char} (hc : .lit c ∈ ts)
    (h : spells ts s = true) : c ∈ s := by
  obtain ⟨as, bs, rfl⟩ := List.append_of_mem hc
  obtain ⟨u, v, rfl, -, hv⟩ := spells_append.mp h
  obtain ⟨rest, rfl, -⟩ := spells_lit_iff.mp hv
  exact List.mem_append_right u List.mem_cons_self

/-- A star can stand for any text. -/
theorem spells_fill (x : Char) (s : List Char) :
    spells (s.map plainToken) (s.map fun c => if c = '*' then x else c) = true := by
  induction s with
  | nil => rfl
  | cons c s ih =>
    rw [List.map_cons, List.map_cons, plainToken]
    split
    · exact spells_star_iff.mpr ⟨[x], _, rfl, ih⟩
    · exact spells_lit_iff.mpr ⟨_, rfl, ih⟩

theorem map_plainToken {s : List Char} (h : '*' ∉ s) : s.map plainToken = s.map .lit :=
  List.map_congr_left fun c hc => if_neg fun heq : c = '*' => h (heq ▸ hc)

example : fnmatch "src/a.py" "src/*.py" ∧ ¬ fnmatch "src/a.pyc" "src/*.py" ∧
    fnmatch "f3" "f[0-9]" ∧ fnmatch "f-" "f[a-]" ∧ fnmatch "f]" "f[]a]" ∧ ¬ fnmatch "fa" "f[!a-c]" ∧
    fnmatch "[a" "[a" ∧ ¬ fnmatch "fb" "f[z-a]" ∧ fnmatch "fb" "f[z-a!]" := by
  decide

end SpineFormal.Glob
