import SpineFormal.Json.PsqlJson
import SpineFormal.Plan.PsqlBound

/-!
# What a bound query is run with

The values that psql has for the variables of `_psql_bound` when it comes to the query.
A value in which every backslash begins a JSON escape is passed without one backslash of
each.
-/

namespace SpineFormal.Plan

open Psql Json
set_option autoImplicit false

def Action.valueOf (name : Bytes) : Action → Option Bytes
  | .set n v => if n = name then some v else none
  | .unterminated _ => none

/-- The value a variable was given last. -/
def variableValue (actions : List Action) (name : Bytes) : Option Bytes :=
  actions.foldl (fun value a => (Action.valueOf name a).or value) none

/-- `_psql_bound`: the values of the variables when psql comes to the query and nothing
else is left; `none` is anything else, an exception among it. -/
def psqlBound (isalnumBeyond : Char → Bool) (B : Bare) (sqlWithBinds : List Char)
    (binds : List (List Char × List Char)) : Option (List (List Char)) := do
  let script ← psqlScript isalnumBeyond sqlWithBinds binds
  let read := readScript B [] (encodeUtf8 script)
  if read.2 = [encodeUtf8 sqlWithBinds] then
    binds.mapM fun b => (variableValue read.1 (encodeUtf8 b.1)).bind decodeUtf8
  else none

theorem variableValue_foldl {binds : List Bind} (hd : (binds.map Prod.fst).Nodup) {b : Bind}
    (value : Option Bytes) (hb : b ∈ binds ∨ (value = some b.2 ∧ b.1 ∉ binds.map Prod.fst)) :
    (binds.map Bind.action).foldl (fun v a => (Action.valueOf b.1 a).or v) value = some b.2 := by
  induction binds generalizing value with
  | nil =>
    rcases hb with hb | hb
    · cases hb
    · exact hb.1
  | cons c binds ih =>
    obtain ⟨hc, hd⟩ := List.nodup_cons.mp hd
    rw [List.map_cons, List.foldl_cons]
    apply ih hd
    rcases hb with hb | ⟨hvalue, hb⟩
    · rcases List.mem_cons.mp hb with rfl | hb
      · exact Or.inr ⟨by simp [Action.valueOf, Bind.action], hc⟩
      · exact Or.inl hb
    · obtain ⟨hne, hb⟩ := List.ne_and_not_mem_of_not_mem_cons hb
      exact Or.inr ⟨by simp [Action.valueOf, Bind.action, Ne.symm hne, hvalue], hb⟩

theorem variableValue_of_mem {binds : List Bind} (hd : (binds.map Prod.fst).Nodup) {b : Bind}
    (hb : b ∈ binds) (a : Action) :
    variableValue (a :: binds.map Bind.action) b.1 = some b.2 :=
  variableValue_foldl hd _ (Or.inl hb)

/-- An ASCII value of one line in which every backslash begins an escape. -/
structure EscapeValue (value : List Char) : Prop where
  escapes : EscapeText value
  ascii : ∀ c ∈ value, c.toNat ≤ 0x7e
  line : '\n' ∉ value

theorem escapeValue_encode (v : Value) : EscapeValue (encode v) where
  escapes := escapeText_encode v
  ascii c hc := (printable_encode v c hc).2
  line hmem := absurd (printable_encode v _ hmem).1 (by decide)

theorem readScript_escapeValue (B : Bare) {name : Bytes} {value : List Char} (hspace : 32 ∉ name)
    (hname : 10 ∉ name) (h : EscapeValue value) (done : List Action) (rest : Bytes) :
    readScript B done (setLine name (encodeUtf8 value) ++ 10 :: rest) =
      (.set name (encodeUtf8 (unslash value)) ::
          (readScript B (done ++ [.set name (encodeUtf8 (unslash value))]) rest).1,
        (readScript B (done ++ [.set name (encodeUtf8 (unslash value))]) rest).2) := by
  have hfuel : value.length < (doubled (asciiBytes value) ++ [39]).length := by
    have hlen := length_le_doubled (asciiBytes value)
    rw [List.length_append, List.length_singleton]
    rw [asciiBytes, List.length_map] at hlen
    exact Nat.lt_succ_of_le hlen
  have hquoted := quoted_escapeText h.escapes h.ascii hfuel
  have hnewline : 10 ∉ encodeUtf8 value := by
    intro hmem
    exact h.line ((ascii_mem_encodeUtf8 (a := '\n') (by decide) value).mp hmem)
  have hline : readSet B done (setLine name (encodeUtf8 value)) =
      some (.set name (encodeUtf8 (unslash value)), []) := by
    rw [encodeUtf8_ascii h.ascii, encodeUtf8_ascii (ascii_unslash h.escapes h.ascii), setLine,
      readSet_quote B hspace, hquoted]
    simp [B.read_word done [] rfl]
  rw [readScript, newlineLines_line (newline_notMem_setLine hname hnewline), readLines, hline]
  rfl

/-- A bind as psql has it in the end. -/
def unslashed (b : List Char × List Char) : List Char × List Char := (b.1, unslash b.2)

theorem readScript_escapeValues (B : Bare) {binds : List (List Char × List Char)}
    (hnames : ∀ b ∈ binds, 32 ∉ encodeUtf8 b.1 ∧ 10 ∉ encodeUtf8 b.1)
    (hvalues : ∀ b ∈ binds, EscapeValue b.2) (done : List Action) (rest : Bytes) :
    ∃ given, given = (binds.map fun b => (bindBytes (unslashed b)).action) ∧
      readScript B done (setLines (binds.map bindBytes) ++ rest) =
        (given ++ (readScript B (done ++ given) rest).1, (readScript B (done ++ given) rest).2) := by
  refine ⟨_, rfl, ?_⟩
  induction binds generalizing done with
  | nil => simp [setLines, joinLines]
  | cons b binds ih =>
    obtain ⟨hname, hnames⟩ := List.forall_mem_cons.mp hnames
    obtain ⟨hvalue, hvalues⟩ := List.forall_mem_cons.mp hvalues
    have hlines : setLines ((b :: binds).map bindBytes) ++ rest =
        setLine (encodeUtf8 b.1) (encodeUtf8 b.2) ++
          10 :: (setLines (binds.map bindBytes) ++ rest) := by
      rw [setLines, List.map_cons, List.map_cons, joinLines_cons, List.append_assoc]
      rfl
    have hrest := ih hnames hvalues (done ++ [(bindBytes (unslashed b)).action])
    rw [List.append_assoc, List.singleton_append] at hrest
    rw [hlines, readScript_escapeValue B hname.1 hname.2 hvalue]
    change (_ :: (readScript B (done ++ [(bindBytes (unslashed b)).action]) _).1,
      (readScript B (done ++ [(bindBytes (unslashed b)).action]) _).2) = _
    rw [hrest, List.map_cons]
    rfl

variable {isalnumBeyond : Char → Bool}

/-- The query is run, and every value has lost one backslash of each escape. -/
theorem psqlBound_escapeValues (B : Bare) {sql : List Char} {binds : List (List Char × List Char)}
    (hsql : ¬ setCommand <+: encodeUtf8 sql) (hline : '\n' ∉ sql)
    (hnames : (binds.all fun b => safeName isalnumBeyond b.1) = true)
    (hdistinct : (binds.map Prod.fst).Nodup) (hvalues : ∀ b ∈ binds, EscapeValue b.2) :
    psqlBound isalnumBeyond B sql binds = some (binds.map fun b => unslash b.2) := by
  have hscript : ∃ script, psqlScript isalnumBeyond sql binds = some script :=
    ⟨_, if_pos hnames⟩
  obtain ⟨script, hscript⟩ := hscript
  have hbytes : ∀ b ∈ binds, 32 ∉ encodeUtf8 b.1 ∧ 10 ∉ encodeUtf8 b.1 :=
    fun b hb => safeName_bytes (List.all_eq_true.mp hnames b hb)
  obtain ⟨given, hgiven, hread⟩ :=
    readScript_escapeValues B hbytes hvalues [onErrorStop] (encodeUtf8 (sql ++ ['\n']))
  have hquery : ∀ done, readScript B done (encodeUtf8 (sql ++ ['\n'])) = ([], [encodeUtf8 sql]) := by
    intro done
    have hnewline : 10 ∉ encodeUtf8 sql := fun hmem =>
      hline ((ascii_mem_encodeUtf8 (a := '\n') (by decide) sql).mp hmem)
    rw [readScript, encodeUtf8_append, encodeUtf8_newline, newlineLines_line hnewline, readLines,
      readSet, if_neg hsql]
    rfl
  have hall : readScript B [] (encodeUtf8 script) = (onErrorStop :: given, [encodeUtf8 sql]) := by
    rw [psqlScript_bytes hscript, readScript_header, hread, hquery]
    simp
  have hvariables : ∀ b ∈ binds,
      (variableValue (onErrorStop :: given) (encodeUtf8 b.1)).bind decodeUtf8 =
        some (unslash b.2) := by
    intro b hb
    have hnodup : ((binds.map fun b => bindBytes (unslashed b)).map Prod.fst).Nodup := by
      have hinj := hdistinct.map encodeUtf8_injective
      rw [List.map_map] at hinj ⊢
      exact hinj
    have hmem : bindBytes (unslashed b) ∈ binds.map fun b => bindBytes (unslashed b) :=
      List.mem_map_of_mem hb
    have hvalue := variableValue_of_mem hnodup hmem onErrorStop
    rw [List.map_map] at hvalue
    rw [hgiven]
    change (variableValue _ (bindBytes (unslashed b)).1).bind decodeUtf8 = _
    rw [show (binds.map fun b => (bindBytes (unslashed b)).action) =
      binds.map (Bind.action ∘ fun b => bindBytes (unslashed b)) from rfl, hvalue, Option.bind_some]
    exact decodeUtf8_encodeUtf8 _
  rw [psqlBound, hscript]
  change (if (readScript B [] (encodeUtf8 script)).2 = [encodeUtf8 sql] then
    binds.mapM fun b => (variableValue (readScript B [] (encodeUtf8 script)).1
      (encodeUtf8 b.1)).bind decodeUtf8 else none) = _
  rw [hall, if_pos rfl, mapM_eq_some_iff, List.map_map]
  exact List.map_congr_left hvariables

end SpineFormal.Plan
