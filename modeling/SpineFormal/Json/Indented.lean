import SpineFormal.Json.Loads
import SpineFormal.Json.RawText

/-!
# `json.dumps` with an indent

Every element stands on a line of its own, two blanks deeper than what holds it. Only the white
space differs from the compact text, and the reader passes over it.
-/

namespace SpineFormal.Json

set_option autoImplicit false

/-- A line end and the indent of a line at a depth. -/
def lineAt (depth : Nat) : List Char := '\n' :: List.replicate (2 * depth) ' '

/-- What stands between the brackets of a value that holds others. -/
def onLines (depth : Nat) (items : List (List Char)) : List Char :=
  lineAt (depth + 1) ++ ((',' :: lineAt (depth + 1)).intercalate items ++ lineAt depth)

mutual
/-- `json.dumps(v, indent=2)`, for a value at a depth. -/
def indented (depth : Nat) : Value → List Char
  | .arr xs => '[' :: ((if xs.isEmpty then [] else onLines depth (indentedElems depth xs)) ++ [']'])
  | .obj ms =>
    '\x7b' :: ((if ms.isEmpty then [] else onLines depth (indentedMembers depth ms)) ++ ['\x7d'])
  | v => encode v
def indentedElems (depth : Nat) : List Value → List (List Char)
  | [] => []
  | v :: vs => indented (depth + 1) v :: indentedElems depth vs
def indentedMembers (depth : Nat) : Members → List (List Char)
  | [] => []
  | (k, v) :: ms =>
    (encodeString k ++ [':', ' '] ++ indented (depth + 1) v) :: indentedMembers depth ms
end

/-- `json.dumps(v, indent=2, sort_keys=True)`. -/
def dumpsIndented (v : Value) : List Char := indented 0 v.sortKeys

/-! ## Read back -/

theorem blank_lineAt (depth : Nat) : Blank (lineAt depth) := by
  intro c hc
  rcases List.mem_cons.mp hc with rfl | hc
  · rfl
  · rw [List.eq_of_mem_replicate hc]
    rfl

theorem keyText_encodeString (s : String) : KeyText (s.toList.flatMap escapeChar ++ ['"']) s := by
  intro rest
  rw [List.append_assoc, List.singleton_append]
  exact scanString_escapes s.toList rest

theorem elemsText_lines (depth : Nat) {xs : List Value} (hne : xs ≠ [])
    (h : ∀ v ∈ xs, ValueText (indented (depth + 1) v) v) :
    ElemsText ((',' :: lineAt (depth + 1)).intercalate (indentedElems depth xs) ++ lineAt depth)
      xs := by
  induction xs with
  | nil => exact absurd rfl hne
  | cons v vs ih =>
    obtain ⟨hv, hvs⟩ := List.forall_mem_cons.mp h
    cases vs with
    | nil =>
      rw [indentedElems, indentedElems, List.intercalate_singleton]
      exact hv.elems (blank_lineAt depth)
    | cons w ws =>
      have hrest := ih (List.cons_ne_nil w ws) hvs
      rw [indentedElems] at hrest
      rw [indentedElems, indentedElems, List.intercalate_cons_cons, List.append_assoc,
        List.append_assoc, List.cons_append]
      exact hv.elems_cons blank_nil (blank_lineAt (depth + 1)) hrest

theorem membersText_lines (depth : Nat) {ms : Members} (hne : ms ≠ [])
    (h : ∀ m ∈ ms, ValueText (indented (depth + 1) m.2) m.2) :
    MembersText
      ((',' :: lineAt (depth + 1)).intercalate (indentedMembers depth ms) ++ lineAt depth) ms := by
  have hcolon : Blank [' '] := List.forall_mem_singleton.mpr rfl
  have htext (k : String) (v : Value) (b : List Char) :
      encodeString k ++ [':', ' '] ++ indented (depth + 1) v ++ b =
        memberText (k.toList.flatMap escapeChar ++ ['"']) [] [' '] (indented (depth + 1) v) b := by
    rw [encodeString, memberText]
    simp
  induction ms with
  | nil => exact absurd rfl hne
  | cons m ms ih =>
    obtain ⟨hm, hms⟩ := List.forall_mem_cons.mp h
    cases ms with
    | nil =>
      rw [indentedMembers, indentedMembers, List.intercalate_singleton, htext]
      exact .single (keyText_encodeString m.1) blank_nil hcolon hm (blank_lineAt depth)
    | cons n ns =>
      have hrest := ih (List.cons_ne_nil n ns) hms
      rw [indentedMembers] at hrest
      have htext' := htext m.1 m.2 []
      rw [List.append_nil] at htext'
      rw [indentedMembers, indentedMembers, List.intercalate_cons_cons, htext', List.append_assoc,
        List.append_assoc, List.cons_append]
      exact .cons (keyText_encodeString m.1) blank_nil hcolon hm blank_nil
        (blank_lineAt (depth + 1)) hrest

/-- The text of a value is read as the value, at every depth. -/
theorem valueText_indented (depth : Nat) (v : Value) : ValueText (indented depth v) v := by
  induction v using Value.inductionOn generalizing depth with
  | null | bool b | int n | float x | str s => exact valueText_encode _
  | arr xs ih =>
    rw [indented]
    cases xs with
    | nil => exact valueText_arr_nil blank_nil
    | cons x xs =>
      have helems := elemsText_lines depth (List.cons_ne_nil x xs) fun v hv => ih v hv (depth + 1)
      rw [List.isEmpty_cons, if_neg Bool.false_ne_true, onLines, List.append_assoc]
      exact helems.value (blank_lineAt (depth + 1))
  | obj ms ih =>
    rw [indented]
    cases ms with
    | nil => exact valueText_obj_nil blank_nil
    | cons m ms =>
      have hmembers :=
        membersText_lines depth (List.cons_ne_nil m ms) fun m hm => ih m hm (depth + 1)
      rw [List.isEmpty_cons, if_neg Bool.false_ne_true, onLines, List.append_assoc]
      exact hmembers.value (blank_lineAt (depth + 1))

theorem mem_lineAt {depth : Nat} {c : Char} (h : c ∈ lineAt depth) : c = '\n' ∨ Printable c := by
  rcases List.mem_cons.mp h with rfl | h
  · exact .inl rfl
  · rw [List.eq_of_mem_replicate h]
    exact .inr (by decide)

theorem mem_onLines {depth : Nat} {items : List (List Char)} {c : Char}
    (h : c ∈ onLines depth items) : (c = '\n' ∨ Printable c) ∨ ∃ item ∈ items, c ∈ item := by
  rw [onLines, List.mem_append, List.mem_append] at h
  rcases h with h | h | h
  · exact .inl (mem_lineAt h)
  · rcases mem_sep_or_field h with h | h
    · rcases List.mem_cons.mp h with rfl | h
      · exact .inl (.inr (by decide))
      · exact .inl (mem_lineAt h)
    · exact .inr h
  · exact .inl (mem_lineAt h)

theorem indentedElems_eq_map (depth : Nat) (xs : List Value) :
    indentedElems depth xs = xs.map (indented (depth + 1)) := by
  induction xs with
  | nil => rfl
  | cons v vs ih => rw [indentedElems, ih, List.map_cons]

theorem indentedMembers_eq_map (depth : Nat) (ms : Members) :
    indentedMembers depth ms =
      ms.map fun m => encodeString m.1 ++ [':', ' '] ++ indented (depth + 1) m.2 := by
  induction ms with
  | nil => rfl
  | cons m ms ih => rw [indentedMembers, ih, List.map_cons]

/-- Apart from its line ends the text is printable. -/
theorem mem_indented {v : Value} {depth : Nat} {c : Char} (h : c ∈ indented depth v) :
    c = '\n' ∨ Printable c := by
  induction v using Value.inductionOn generalizing depth with
  | null | bool b | int n | float x | str s => exact .inr (printable_encode _ c h)
  | arr xs ih =>
    rw [indented, List.mem_cons, List.mem_append, List.mem_singleton] at h
    rcases h with rfl | h | rfl
    · exact .inr (by decide)
    · split_ifs at h
      · cases h
      · rcases mem_onLines h with h | ⟨item, hitem, hc⟩
        · exact h
        · rw [indentedElems_eq_map] at hitem
          obtain ⟨x, hx, rfl⟩ := List.mem_map.mp hitem
          exact ih x hx hc
    · exact .inr (by decide)
  | obj ms ih =>
    rw [indented, List.mem_cons, List.mem_append, List.mem_singleton] at h
    rcases h with rfl | h | rfl
    · exact .inr (by decide)
    · split_ifs at h
      · cases h
      · rcases mem_onLines h with h | ⟨item, hitem, hc⟩
        · exact h
        · rw [indentedMembers_eq_map] at hitem
          obtain ⟨m, hm, rfl⟩ := List.mem_map.mp hitem
          rw [List.mem_append, List.mem_append] at hc
          rcases hc with (hc | hc) | hc
          · exact .inr (printable_encodeString m.1 c hc)
          · exact .inr (Numerals.forall_mem_of_all (p := Printable) (by decide) c hc)
          · exact ih m hm hc
    · exact .inr (by decide)

theorem return_notMem_dumpsIndented (v : Value) : '\r' ∉ dumpsIndented v := by
  intro h
  rcases mem_indented h with h | h
  · cases h
  · exact absurd h (by decide)

/-- A dictionary that was dumped on several lines is read back, its keys in order. -/
theorem loadsText_dumpsIndented {v : Value} (h : v.Distinct) :
    loadsText (dumpsIndented v) = some v.sortKeys := by
  have hread := (valueText_indented 0 v.sortKeys).loads blank_nil blank_nil
  rw [List.nil_append, List.append_nil] at hread
  rw [loadsText, dumpsIndented, hread, Option.map_some, dicts_of_distinct (distinct_sortKeys h)]

end SpineFormal.Json
