import SpineFormal.Audit.BuiltinRules
import SpineFormal.Base.KeyedTable
import SpineFormal.Base.Numerals
import SpineFormal.Base.RegexFirst
import SpineFormal.Base.WordRuns

/-!
# Ghost logic

`PrivacyGuard.apply_ghost_logic` and `restore_ghost_logic`: names are numbered as they are met,
and an alias with the number stands for each. The guard keeps its numbers from text to text.
-/

namespace SpineFormal.Verify.Ghost

open Re
set_option autoImplicit false

/-! ## The guard -/

structure PrivacyGuard where
  identifierMap : List (List Char × List Char)
  reverseMap : List (List Char × List Char)
  counter : Nat

def PrivacyGuard.new : PrivacyGuard := ⟨[], [], 1⟩

def aliasPrefix : List Char := "SECURE_ALIAS_".toList

/-- `f"SECURE_ALIAS_{counter:04d}"`. -/
def aliasOf (counter : Nat) : List Char :=
  aliasPrefix ++ (Nat.toDigits 10 counter).leftpad 4 '0'

def PrivacyGuard.getAlias (g : PrivacyGuard) (original : List Char) : PrivacyGuard × List Char :=
  match g.identifierMap.lookup original with
  | some found => (g, found)
  | none =>
    let fresh := aliasOf g.counter
    ({ identifierMap := put Prod.fst (original, fresh) g.identifierMap
       reverseMap := put Prod.fst (fresh, original) g.reverseMap
       counter := g.counter + 1 }, fresh)

def preserved : List (List Char) :=
  ["def", "class", "return", "if", "else", "elif", "for", "while", "in", "True", "False", "None",
    "and", "or", "not", "is", "try", "except", "finally", "raise", "import", "from", "as", "with",
    "async", "await", "pass", "continue", "break", "print", "self", "__init__", "str", "int",
    "float", "list", "dict", "set", "Tuple", "List", "Dict", "Optional", "Any"].map String.toList

def keeps (word : List Char) : Bool :=
  preserved.contains word || decide (word.length ≤ 4) || "__".toList.isPrefixOf word

def PrivacyGuard.replaceMatch (g : PrivacyGuard) (word : List Char) : PrivacyGuard × List Char :=
  if keeps word then (g, word) else g.getAlias word

def identHead (c : Char) : Bool := c.isAlpha || c == '_'

def identTail (c : Char) : Bool := c.isAlphanum || c == '_'

/-- `\b[A-Za-z_][A-Za-z0-9_]*\b`. -/
def identifier (u : Audit.UnicodeTables) : Pattern :=
  ⟨.boundary u.word, .seq (.cls identHead) (atLeast 0 identTail), .boundary u.word, by decide⟩

/-- The new guard, the text with aliases, and the mapping back. -/
def PrivacyGuard.applyGhostLogic (u : Audit.UnicodeTables) (g : PrivacyGuard) (code : List Char) :
    PrivacyGuard × List Char × List (List Char × List Char) :=
  let r := subParts PrivacyGuard.replaceMatch g (partsFrom (identifier u) 0 none code)
  (r.1, r.2, r.1.reverseMap)

def restoreGhostLogic (response : List Char) (reverseMap : List (List Char × List Char)) :
    List Char :=
  reverseMap.foldl (fun restored p => replaceText p.1 p.2 restored) response

/-- The guard after some texts. -/
def session (u : Audit.UnicodeTables) (earlier : List (List Char)) : PrivacyGuard :=
  earlier.foldl (fun g code => (g.applyGhostLogic u code).1) .new

def restored (u : Audit.UnicodeTables) (g : PrivacyGuard) (code : List Char) : List Char :=
  let out := g.applyGhostLogic u code
  restoreGhostLogic out.2.1 out.2.2

/-! ## Names in the order in which they are met -/

def isIdent : List Char → Bool
  | [] => false
  | c :: s => identHead c && s.all identTail

/-- An alias takes the place of the run. -/
def hidden (run : List Char) : Bool := isIdent run && !keeps run

theorem lawfulBEq_chars : LawfulBEq (List Char) := inferInstance

attribute [local instance] lawfulBEq_chars

def learnOne (names : List (List Char)) (w : List Char) : List (List Char) :=
  if w ∈ names then names else names ++ [w]

def learn (names words : List (List Char)) : List (List Char) := words.foldl learnOne names

def known (u : Audit.UnicodeTables) (texts : List (List Char)) : List (List Char) :=
  learn [] ((texts.flatMap (runs u.word)).filter hidden)

/-- The aliases of the names from number `k` on. -/
def aliases (k : Nat) (names : List (List Char)) : List (List Char × List Char) :=
  (names.zipIdx k).map fun p => (aliasOf p.2, p.1)

def aliasIn (names : List (List Char)) (w : List Char) : List Char := aliasOf (names.idxOf w + 1)

def guardOf (names : List (List Char)) : PrivacyGuard where
  identifierMap := (aliases 1 names).map Prod.swap
  reverseMap := aliases 1 names
  counter := names.length + 1

section
variable {names words : List (List Char)} {w run : List Char} {m n k : Nat}

theorem ofDigitChars_leftpad (n : Nat) :
    Nat.ofDigitChars 10 ((Nat.toDigits 10 n).leftpad 4 '0') 0 = n := by
  have hzeros : ∀ k, Nat.ofDigitChars 10 (List.replicate k '0' ++ Nat.toDigits 10 n) 0 =
      Nat.ofDigitChars 10 (Nat.toDigits 10 n) 0 := by
    intro k
    induction k with
    | zero => rfl
    | succ k ih => exact ih
  rw [List.leftpad, hzeros, Nat.ofDigitChars_ten_toDigits]

theorem aliasOf_injective (h : aliasOf m = aliasOf n) : m = n := by
  rw [aliasOf, aliasOf, List.append_cancel_left_eq] at h
  rw [← ofDigitChars_leftpad m, h, ofDigitChars_leftpad]

theorem length_aliasOf (h : n < 10000) : (aliasOf n).length = 17 := by
  have hdigits : (Nat.toDigits 10 n).length ≤ 4 :=
    (Nat.length_toDigits_le_iff (by decide) (by decide)).mpr h
  rw [aliasOf, List.length_append, List.length_leftpad, Nat.max_eq_left hdigits]
  rfl

theorem aliasOf_ne_nil (n : Nat) : aliasOf n ≠ [] := by
  rw [aliasOf]
  exact List.append_ne_nil_of_left_ne_nil (by decide) _

theorem aliases_append (k : Nat) (names more : List (List Char)) :
    aliases k (names ++ more) = aliases k names ++ aliases (k + names.length) more := by
  rw [aliases, List.zipIdx_append, List.map_append]
  rfl

theorem aliases_cons (k : Nat) (w : List Char) (names : List (List Char)) :
    aliases k (w :: names) = (aliasOf k, w) :: aliases (k + 1) names := rfl

theorem lookup_aliases (k : Nat) (names : List (List Char)) (w : List Char) :
    ((aliases k names).map Prod.swap).lookup w =
      if w ∈ names then some (aliasOf (k + names.idxOf w)) else none := by
  induction names generalizing k with
  | nil => rfl
  | cons v names ih =>
    rw [aliases_cons, List.map_cons, Prod.swap_prod_mk, List.lookup_cons, ih]
    by_cases hv : w = v
    · subst hv
      simp
    · have hne : (w == v) = false := beq_false_of_ne hv
      have hidx : (v :: names).idxOf w = names.idxOf w + 1 :=
        List.idxOf_cons_ne names (Ne.symm hv)
      rw [hne, hidx]
      simp [hv, Nat.add_right_comm, Nat.add_assoc]

theorem notMem_aliases (h : n ∉ List.range' k names.length) :
    aliasOf n ∉ (aliases k names).map Prod.fst := by
  induction names generalizing k with
  | nil => exact List.not_mem_nil
  | cons v names ih =>
    rw [List.length_cons, List.range'_succ, List.mem_cons, not_or] at h
    rw [aliases_cons, List.map_cons, List.mem_cons, not_or]
    exact ⟨fun heq => h.1 (aliasOf_injective heq), ih h.2⟩

theorem getAlias_guardOf (names : List (List Char)) (w : List Char) :
    (guardOf names).getAlias w = (guardOf (learnOne names w), aliasIn (learnOne names w) w) := by
  have hlookup : (guardOf names).identifierMap.lookup w =
      if w ∈ names then some (aliasOf (1 + names.idxOf w)) else none := lookup_aliases 1 names w
  rw [PrivacyGuard.getAlias, hlookup, learnOne]
  by_cases hw : w ∈ names
  · rw [if_pos hw, if_pos hw, aliasIn, Nat.add_comm]
  · have hold : w ∉ ((aliases 1 names).map Prod.swap).map Prod.fst := by
      intro hmem
      obtain ⟨p, hp, rfl⟩ := List.mem_map.mp hmem
      obtain ⟨q, hq, rfl⟩ := List.mem_map.mp hp
      obtain ⟨r, hr, rfl⟩ := List.mem_map.mp hq
      exact hw (List.fst_mem_of_mem_zipIdx hr)
    have hfresh : aliasOf (names.length + 1) ∉ (aliases 1 names).map Prod.fst :=
      notMem_aliases (by simp [List.mem_range'_1, Nat.add_comm])
    have hidx : aliasIn (names ++ [w]) w = aliasOf (names.length + 1) := by
      rw [aliasIn, List.idxOf_append_of_notMem hw, List.idxOf_cons_self, Nat.add_zero]
    have happend : aliases 1 (names ++ [w]) =
        aliases 1 names ++ [(aliasOf (names.length + 1), w)] := by
      rw [aliases_append, Nat.add_comm 1]
      rfl
    rw [if_neg hw, if_neg hw, hidx]
    refine congrArg (fun g => (g, aliasOf (names.length + 1))) ?_
    rw [guardOf, guardOf, happend, List.map_append, put_of_notMem hold, put_of_notMem hfresh,
      List.length_append]
    rfl

theorem prefix_learnOne (names : List (List Char)) (w : List Char) :
    names <+: learnOne names w := by
  rw [learnOne]
  split
  · exact List.prefix_refl names
  · exact List.prefix_append names [w]

theorem prefix_learn (names words : List (List Char)) : names <+: learn names words := by
  induction words generalizing names with
  | nil => exact List.prefix_refl names
  | cons w words ih => exact (prefix_learnOne names w).trans (ih (learnOne names w))

theorem mem_learnOne_iff {v : List Char} : v ∈ learnOne names w ↔ v ∈ names ∨ v = w := by
  rw [learnOne]
  split
  · rename_i hw
    refine ⟨.inl, fun h => h.elim id ?_⟩
    rintro rfl
    exact hw
  · rw [List.mem_append, List.mem_singleton]

theorem mem_learn_iff : w ∈ learn names words ↔ w ∈ names ∨ w ∈ words := by
  induction words generalizing names with
  | nil => simp [learn]
  | cons v words ih =>
    have hstep : learn names (v :: words) = learn (learnOne names v) words := rfl
    rw [hstep, ih, mem_learnOne_iff, List.mem_cons, or_assoc]

theorem aliasIn_of_extends {more : List (List Char)} (h : names <+: more) (hw : w ∈ names) :
    aliasIn more w = aliasIn names w := by
  obtain ⟨rest, rfl⟩ := h
  rw [aliasIn, aliasIn, List.idxOf_append_of_mem hw]

/-! ## What the guard makes of a text -/

/-- The word of a part that an alias stands for. -/
def aliased : Part → List (List Char)
  | .found w => if keeps w then [] else [w]
  | .other _ => []

/-- What stands for a part. -/
def shown (names : List (List Char)) : Part → List Char
  | .found w => if keeps w then w else aliasIn names w
  | .other c => [c]

theorem subParts_guardOf (names : List (List Char)) (ps : List Part) :
    subParts PrivacyGuard.replaceMatch (guardOf names) ps =
      (guardOf (learn names (ps.flatMap aliased)),
        ps.flatMap (shown (learn names (ps.flatMap aliased)))) := by
  induction ps generalizing names with
  | nil => rfl
  | cons p ps ih =>
    cases p with
    | other c =>
      rw [subParts, ih]
      rfl
    | found w =>
      rw [subParts, PrivacyGuard.replaceMatch]
      by_cases hw : keeps w = true
      · have haliased : (Part.found w :: ps).flatMap aliased = ps.flatMap aliased := by
          rw [List.flatMap_cons, aliased, if_pos hw, List.nil_append]
        rw [if_pos hw, ih, haliased, List.flatMap_cons, shown, if_pos hw]
      · have hlearn : learn names ((Part.found w :: ps).flatMap aliased) =
            learn (learnOne names w) (ps.flatMap aliased) := by
          rw [List.flatMap_cons, aliased, if_neg hw]
          rfl
        have halias : aliasIn (learn (learnOne names w) (ps.flatMap aliased)) w =
            aliasIn (learnOne names w) w :=
          aliasIn_of_extends (prefix_learn _ _) (mem_learnOne_iff.mpr (.inr rfl))
        rw [if_neg hw, getAlias_guardOf, ih, hlearn, List.flatMap_cons, shown, if_neg hw, halias]

def ghost (names : List (List Char)) (run : List Char) : List Char :=
  if hidden run then aliasIn names run else run

theorem ascii_of_identTail {c : Char} (h : identTail c = true) : c.toNat < 128 := by
  rw [identTail, Bool.or_eq_true, beq_iff_eq] at h
  rcases h with h | rfl
  · have hparts : ((c.isUpper || c.isLower) || c.isDigit) = true := h
    rw [Bool.or_eq_true, Bool.or_eq_true] at hparts
    have hval : c.val.toNat ≤ 122 := by
      rcases hparts with (hc | hc) | hc
      · have hupper : c.val.toNat ≤ 90 := (of_decide_eq_true hc).2
        omega
      · exact of_decide_eq_true (Bool.and_eq_true_iff.mp hc).2
      · have hdigit : c.val.toNat ≤ 57 := of_decide_eq_true (Bool.and_eq_true_iff.mp hc).2
        omega
    exact Nat.lt_of_le_of_lt hval (by decide)
  · decide

theorem identTail_of_identHead {c : Char} (h : identHead c = true) : identTail c = true := by
  rw [identHead, Bool.or_eq_true] at h
  rw [identTail, Char.isAlphanum, Bool.or_eq_true, Bool.or_eq_true]
  exact h.imp .inl id

theorem spells_identifier (u : Audit.UnicodeTables) (w : List Char) :
    Spells (identifier u).core w ↔ isIdent w = true := by
  constructor
  · intro h
    cases h with
    | seq hhead htail =>
      cases hhead with
      | cls hc =>
        rw [List.singleton_append, isIdent, hc, Bool.true_and, List.all_eq_true]
        exact forall_of_atLeast htail
  · intro h
    cases w with
    | nil => cases h
    | cons c w =>
      rw [isIdent, Bool.and_eq_true, List.all_eq_true] at h
      exact .seq (v := [c]) (.cls h.1) (spells_many h.2)

theorem identTail_of_isIdent (h : isIdent w = true) : ∀ c ∈ w, identTail c = true := by
  cases w with
  | nil => cases h
  | cons c w =>
    rw [isIdent, Bool.and_eq_true, List.all_eq_true] at h
    exact List.forall_mem_cons.mpr ⟨identTail_of_identHead h.1, h.2⟩

theorem word_of_identTail (u : Audit.UnicodeTables) {c : Char} (h : identTail c = true) :
    u.word c = true := (u.word_ascii c (ascii_of_identTail h)).trans h

theorem wordPattern_identifier (u : Audit.UnicodeTables) : WordPattern u.word (identifier u) where
  opening := rfl
  closing := rfl
  words w h c hc :=
    word_of_identTail u (identTail_of_isIdent ((spells_identifier u w).mp h) c hc)

theorem flatMap_aliased_runParts (run : List Char) :
    (runParts isIdent run).flatMap aliased = if hidden run then [run] else [] := by
  have hother : ∀ s : List Char, (s.map Part.other).flatMap aliased = [] := by
    intro s
    induction s with
    | nil => rfl
    | cons c s ih => exact ih
  rw [runParts, hidden]
  cases hident : isIdent run with
  | false => exact hother run
  | true => cases hkeep : keeps run <;> simp [aliased, hkeep]

theorem flatMap_shown_runParts (names : List (List Char)) (run : List Char) :
    (runParts isIdent run).flatMap (shown names) = ghost names run := by
  have hother : ∀ s : List Char, (s.map Part.other).flatMap (shown names) = s := by
    intro s
    induction s with
    | nil => rfl
    | cons c s ih => exact congrArg (c :: ·) ih
  rw [runParts, ghost, hidden]
  cases hident : isIdent run with
  | false => exact hother run
  | true => cases hkeep : keeps run <;> simp [shown, hkeep]

/-- The guard learns the hidden runs of the text, and an alias stands for each. -/
theorem applyGhostLogic_guardOf (u : Audit.UnicodeTables) (names : List (List Char))
    (code : List Char) : (guardOf names).applyGhostLogic u code =
      let names' := learn names ((runs u.word code).filter hidden)
      (guardOf names', mapRuns u.word (ghost names') code, aliases 1 names') := by
  have hstart : (none : Option Char).any u.word = false := rfl
  have hparts := partsFrom_joinRuns (wordPattern_identifier u) (spells_identifier u)
    (isRuns_runsOf code) hstart
  rw [joinRuns_runsOf] at hparts
  have hcons : ∀ (run : List Char) (more : List (List Char)),
      (run :: more).filter hidden = (if hidden run then [run] else []) ++ more.filter hidden := by
    intro run more
    rw [List.filter_cons]
    split <;> rfl
  have hwords : (partsFrom (identifier u) 0 none code).flatMap aliased =
      (runs u.word code).filter hidden := by
    rw [hparts, List.flatMap_append, flatMap_aliased_runParts, runs, hcons]
    refine congrArg _ ?_
    induction (runsOf u.word code).2 with
    | nil => rfl
    | cons p rest ih =>
      rw [List.flatMap_cons, List.flatMap_append, List.flatMap_cons, flatMap_aliased_runParts, ih,
        List.map_cons, hcons]
      rfl
  have hshown : ∀ names', (partsFrom (identifier u) 0 none code).flatMap (shown names') =
      mapRuns u.word (ghost names') code := by
    intro names'
    rw [hparts, List.flatMap_append, flatMap_shown_runParts, mapRuns, joinRuns, mapRun]
    refine congrArg _ ?_
    induction (runsOf u.word code).2 with
    | nil => rfl
    | cons p rest ih =>
      rw [List.flatMap_cons, List.flatMap_append, List.flatMap_cons, flatMap_shown_runParts, ih]
      rfl
  rw [PrivacyGuard.applyGhostLogic, subParts_guardOf, hwords, hshown]
  rfl

theorem session_eq (u : Audit.UnicodeTables) (earlier : List (List Char)) :
    session u earlier = guardOf (known u earlier) := by
  have hrun : ∀ names, earlier.foldl (fun g code => (g.applyGhostLogic u code).1) (guardOf names) =
      guardOf (learn names ((earlier.flatMap (runs u.word)).filter hidden)) := by
    induction earlier with
    | nil =>
      intro names
      rfl
    | cons code earlier ih =>
      intro names
      rw [List.foldl_cons, applyGhostLogic_guardOf, ih, List.flatMap_cons, List.filter_append,
        learn, learn, learn, List.foldl_append]
  exact hrun []

theorem known_concat (u : Audit.UnicodeTables) (earlier : List (List Char)) (code : List Char) :
    known u (earlier ++ [code]) = learn (known u earlier) ((runs u.word code).filter hidden) := by
  rw [known, known, List.flatMap_append, List.filter_append, List.flatMap_singleton, learn, learn,
    learn, List.foldl_append]

/-! ## Every run by itself -/

def written (names : List (List Char)) (s : List Char) : List Char :=
  replaceAll (aliases 1 names) s

/-- Once the names stand for their aliases, the run is there again. -/
def ComesBack (names : List (List Char)) (run : List Char) : Prop :=
  written names (ghost names run) = run

theorem restored_session (u : Audit.UnicodeTables) (earlier : List (List Char))
    (code : List Char) : restored u (session u earlier) code =
      written (known u (earlier ++ [code]))
        (mapRuns u.word (ghost (known u (earlier ++ [code]))) code) := by
  rw [restored, session_eq, applyGhostLogic_guardOf, ← known_concat]
  rfl

theorem hidden_of_mem_known {u : Audit.UnicodeTables} {texts : List (List Char)}
    (h : w ∈ known u texts) : hidden w = true := by
  have hmem := (mem_learn_iff.mp h).resolve_left List.not_mem_nil
  exact (List.mem_filter.mp hmem).2

theorem identTail_of_hidden (h : hidden w = true) : ∀ c ∈ w, identTail c = true := by
  rw [hidden, Bool.and_eq_true] at h
  exact identTail_of_isIdent h.1

theorem identTail_of_mem_aliasOf : ∀ c ∈ aliasOf n, identTail c = true := by
  intro c hc
  have hdigit : ∀ d : Char, d.isDigit = true → identTail d = true := by
    intro d hd
    rw [identTail, Char.isAlphanum, hd, Bool.or_true, Bool.true_or]
  rw [aliasOf, List.leftpad, List.mem_append, List.mem_append] at hc
  rcases hc with hc | hc | hc
  · have hprefix : aliasPrefix.all identTail = true := by decide
    exact List.all_eq_true.mp hprefix c hc
  · exact hdigit c ((List.mem_replicate.mp hc).2 ▸ rfl)
  · exact hdigit c (Numerals.isDigit_of_mem_toDigits c hc)

theorem isWordPair_of_mem {u : Audit.UnicodeTables} {texts : List (List Char)}
    {p : List Char × List Char} (h : p ∈ aliases k (known u texts)) : IsWordPair u.word p := by
  obtain ⟨q, hq, rfl⟩ := List.mem_map.mp h
  have hhidden := hidden_of_mem_known (List.fst_mem_of_mem_zipIdx hq)
  exact ⟨aliasOf_ne_nil q.2, fun c hc => word_of_identTail u (identTail_of_mem_aliasOf c hc),
    fun c hc => word_of_identTail u (identTail_of_hidden hhidden c hc)⟩

theorem word_ghost {u : Audit.UnicodeTables} (names : List (List Char)) {run : List Char}
    (h : ∀ c ∈ run, u.word c = true) : ∀ c ∈ ghost names run, u.word c = true := by
  rw [ghost]
  split
  · exact fun c hc => word_of_identTail u (identTail_of_mem_aliasOf c hc)
  · exact h

/-- The text is restored if and only if every run is. -/
theorem restored_eq_iff (u : Audit.UnicodeTables) (earlier : List (List Char))
    (code : List Char) : restored u (session u earlier) code = code ↔
      ∀ run ∈ runs u.word code, ComesBack (known u (earlier ++ [code])) run := by
  rw [restored_session, written, replaceAll_mapRuns fun p hp => isWordPair_of_mem hp,
    mapRuns_mapRuns fun x => word_ghost _]
  exact mapRuns_eq_self_iff fun x hx =>
    word_replaceAll (fun p hp => isWordPair_of_mem hp) (word_ghost _ hx)

/-! ## Aliases where the guard did not put them -/

/-- No alias is found where it was not put: the aliases are of one length, and a run has the text
of one only where it stands for itself or its turn is over before the run is written. -/
structure NoStray (names rs : List (List Char)) : Prop where
  few : names.length < 10000
  apart : ∀ run ∈ rs, ∀ j name, names[j]? = some name → aliasOf (j + 1) <:+: run →
    name = aliasOf (j + 1) ∨ run ∈ names ∧ j ≤ names.idxOf run

theorem mem_aliases {p : List Char × List Char} (h : p ∈ aliases k names) :
    ∃ j name, names[j]? = some name ∧ p = (aliasOf (k + j), name) := by
  obtain ⟨q, hq, rfl⟩ := List.mem_map.mp h
  obtain ⟨hle, hget⟩ := List.mem_zipIdx_iff_le_and_getElem?_sub.mp hq
  exact ⟨q.2 - k, q.1, hget, by rw [Nat.add_sub_cancel' hle]⟩

theorem replaceText_of_noStray {name : List Char} (h : aliasOf n <:+: run → name = aliasOf n) :
    replaceText (aliasOf n) name run = run := by
  by_cases hin : aliasOf n <:+: run
  · rw [h hin, replaceText_self (aliasOf_ne_nil n)]
  · exact replaceText_of_not_infix hin

theorem comesBack_of_noStray {rs : List (List Char)} (h : NoStray names rs) (hrun : run ∈ rs)
    (hknown : hidden run = true ↔ run ∈ names) : ComesBack names run := by
  rw [ComesBack, written, ghost]
  by_cases hmem : run ∈ names
  · rw [if_pos (hknown.mpr hmem), aliasIn]
    obtain ⟨front, back, rfl, hfront⟩ := List.eq_append_cons_of_mem hmem
    have hidx : (front ++ run :: back).idxOf run = front.length := by
      rw [List.idxOf_append_of_notMem hfront, List.idxOf_cons_self, Nat.add_zero]
    have hfew := h.few
    rw [List.length_append, List.length_cons] at hfew
    have hself :
        replaceText (aliasOf (front.length + 1)) run (aliasOf (front.length + 1)) = run := by
      have hreplace : replaceText (aliasOf (front.length + 1)) run
          (aliasOf (front.length + 1) ++ []) =
            run ++ replaceText (aliasOf (front.length + 1)) run [] :=
        replaceText_front (aliasOf_ne_nil (front.length + 1)) []
      rw [List.append_nil] at hreplace
      rw [hreplace]
      exact List.append_nil run
    have hbefore : replaceAll (aliases 1 front) (aliasOf (front.length + 1)) =
        aliasOf (front.length + 1) := by
      refine replaceAll_of_fixed fun p hp => ?_
      obtain ⟨j, name, hget, rfl⟩ := mem_aliases hp
      have hj := (List.getElem?_eq_some_iff.mp hget).1
      refine replaceText_of_not_infix fun hin => ?_
      have hlen : (aliasOf (1 + j)).length = (aliasOf (front.length + 1)).length := by
        rw [length_aliasOf (by omega), length_aliasOf (by omega)]
      have heq := aliasOf_injective (hin.eq_of_length hlen)
      omega
    have hafter : replaceAll (aliases (1 + front.length + 1) back) run = run := by
      refine replaceAll_of_fixed fun p hp => ?_
      obtain ⟨j, name, hget, rfl⟩ := mem_aliases hp
      refine replaceText_of_noStray fun hin => ?_
      have hplace : (front ++ run :: back)[front.length + 1 + j]? = some name := by
        rw [List.getElem?_append_right (by omega)]
        have hsub : front.length + 1 + j - front.length = j + 1 := by omega
        rw [hsub, List.getElem?_cons_succ, hget]
      have hnum : 1 + front.length + 1 + j = front.length + 1 + j + 1 := by omega
      rw [hnum] at hin ⊢
      rcases h.apart run hrun _ name hplace hin with heq | ⟨-, hle⟩
      · exact heq
      · rw [hidx] at hle
        omega
    rw [hidx, aliases_append, replaceAll_append, hbefore, aliases_cons, Nat.add_comm 1 front.length]
    rw [Nat.add_comm 1 front.length] at hafter
    have hstep : replaceAll ((aliasOf (front.length + 1), run) ::
        aliases (front.length + 1 + 1) back) (aliasOf (front.length + 1)) =
        replaceAll (aliases (front.length + 1 + 1) back)
          (replaceText (aliasOf (front.length + 1)) run (aliasOf (front.length + 1))) := rfl
    rw [hstep, hself, hafter]
  · rw [if_neg fun hhidden => hmem (hknown.mp hhidden)]
    refine replaceAll_of_fixed fun p hp => ?_
    obtain ⟨j, name, hget, rfl⟩ := mem_aliases hp
    refine replaceText_of_noStray fun hin => ?_
    rw [Nat.add_comm 1 j] at hin ⊢
    exact (h.apart run hrun j name hget hin).resolve_right fun hout => hmem hout.1

/-- Words shorter than an alias have none in them. -/
theorem noStray_of_short {rs : List (List Char)} (hfew : names.length < 10000)
    (h : ∀ run ∈ rs, run.length < 17) : NoStray names rs := by
  refine ⟨hfew, fun run hrun j name hget hin => ?_⟩
  have hj := (List.getElem?_eq_some_iff.mp hget).1
  have hlen := hin.length_le
  rw [length_aliasOf (by omega)] at hlen
  exact absurd (h run hrun) (Nat.not_lt.mpr hlen)

theorem hidden_iff_mem_known (u : Audit.UnicodeTables) (earlier : List (List Char))
    {code : List Char} (hrun : run ∈ runs u.word code) :
    hidden run = true ↔ run ∈ known u (earlier ++ [code]) := by
  constructor
  · intro h
    rw [known_concat, mem_learn_iff, List.mem_filter]
    exact .inr ⟨hrun, h⟩
  · exact hidden_of_mem_known

end

theorem restored_iff_comesBack (u : Audit.UnicodeTables) (earlier : List (List Char))
    (code : List Char) :
    (restored u (session u earlier) code = code ↔
      ∀ run ∈ runs u.word code, ComesBack (known u (earlier ++ [code])) run) ∧
    (NoStray (known u (earlier ++ [code])) (runs u.word code) →
      restored u (session u earlier) code = code) := by
  refine ⟨restored_eq_iff u earlier code, fun h => ?_⟩
  rw [restored_eq_iff]
  exact fun run hrun => comesBack_of_noStray h hrun (hidden_iff_mem_known u earlier hrun)

theorem restored_short : restored Audit.asciiTables
    (session Audit.asciiTables ["total = amount".toList]) "total = balance - 1".toList =
      "total = balance - 1".toList :=
  (restored_iff_comesBack _ _ _).2 (noStray_of_short (by decide) (by decide))

/-- The alias that the second name gets is the first name. -/
theorem not_restored_aliasText :
    restored Audit.asciiTables (session Audit.asciiTables [])
      "SECURE_ALIAS_0002 foobar".toList = "foobar foobar".toList ∧
    "foobar foobar".toList ≠ "SECURE_ALIAS_0002 foobar".toList := by
  decide

/-- A later replacement can put right what an earlier one did where it should not. -/
theorem restored_by_chance :
    let code := "xSSECURE_ALIAS_0002 ECURE_ALIAS_0003 SSECURE_ALIAS_0002".toList
    restored Audit.asciiTables (session Audit.asciiTables []) code = code ∧
    ¬ NoStray (known Audit.asciiTables [code]) (runs Audit.asciiTables.word code) := by
  refine ⟨by decide, fun h => ?_⟩
  have hname := h.apart "xSSECURE_ALIAS_0002".toList (by decide) 1 "ECURE_ALIAS_0003".toList
    (by decide) (by decide)
  exact absurd hname (by decide)

end SpineFormal.Verify.Ghost
