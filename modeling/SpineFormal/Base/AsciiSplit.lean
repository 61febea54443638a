import Mathlib.Data.List.Infix
import SpineFormal.Base.TextCodec

/-!
# Cutting bytes at an ASCII byte

In UTF-8 a byte below 128 is a character of its own, so a text can be cut there and
both sides are texts. A pattern without some byte lies on one side of it.
-/

namespace SpineFormal

set_option autoImplicit false

/-- The bytes of a text. -/
def Utf8 (bs : Bytes) : Prop := ∃ t, bs = encodeUtf8 t

theorem Utf8.append {x y : Bytes} (hx : Utf8 x) (hy : Utf8 y) : Utf8 (x ++ y) := by
  obtain ⟨s, rfl⟩ := hx
  obtain ⟨t, rfl⟩ := hy
  exact ⟨s ++ t, (encodeUtf8_append s t).symm⟩

theorem decodeUtf8_eq_some_iff {bs : Bytes} {t : List Char} :
    decodeUtf8 bs = some t ↔ bs = encodeUtf8 t := by
  constructor
  · intro h
    obtain ⟨a, ha, rfl⟩ := Option.map_eq_some_iff.mp h
    have hsome : bs.toByteArray.utf8Decode?.isSome := by rw [ha]; rfl
    have hbytes := ByteArray.utf8Encode_get_utf8Decode? (b := bs.toByteArray) (h := hsome)
    rw [Option.get_of_eq_some hsome ha] at hbytes
    exact List.toByteArray_inj.mp hbytes.symm
  · rintro rfl
    exact decodeUtf8_encodeUtf8 t

theorem encodeUtf8_eq_append_cons {t : List Char} {x y : Bytes} {c : Char} (hc : c.toNat < 128)
    (h : encodeUtf8 t = x ++ UInt8.ofNat c.toNat :: y) :
    ∃ t₁ t₂, t = t₁ ++ c :: t₂ ∧ x = encodeUtf8 t₁ ∧ y = encodeUtf8 t₂ := by
  induction t generalizing x with
  | nil => simp [encodeUtf8] at h
  | cons d t ih =>
    rw [encodeUtf8_cons] at h
    by_cases hd : d.toNat < 128
    · rw [encodeChar_of_ascii hd, List.singleton_append] at h
      cases x with
      | nil =>
        obtain ⟨hhead, rfl⟩ := List.cons.inj h
        obtain rfl : d = c := by
          have hnat := congrArg UInt8.toNat hhead
          rw [UInt8.toNat_ofNat', UInt8.toNat_ofNat', Nat.mod_eq_of_lt (by omega),
            Nat.mod_eq_of_lt (by omega)] at hnat
          rw [← Char.ofNat_toNat d, hnat, Char.ofNat_toNat]
        exact ⟨[], t, rfl, rfl, rfl⟩
      | cons b x =>
        obtain ⟨rfl, hrest⟩ := List.cons.inj h
        obtain ⟨t₁, t₂, rfl, rfl, rfl⟩ := ih hrest
        exact ⟨d :: t₁, t₂, rfl, by rw [encodeUtf8_cons, encodeChar_of_ascii hd]; rfl, rfl⟩
    · -- the byte is not among those of `d`
      have hne : ∀ b ∈ String.utf8EncodeChar d, b ≠ UInt8.ofNat c.toNat := by
        rintro b hb rfl
        have hlow := le_of_mem_encodeChar (not_lt.mp hd) hb
        rw [UInt8.toNat_ofNat', Nat.mod_eq_of_lt (by omega)] at hlow
        omega
      rcases List.append_eq_append_iff.mp h with ⟨z, rfl, hrest⟩ | ⟨z, hz, hrest⟩
      · obtain ⟨t₁, t₂, rfl, rfl, rfl⟩ := ih hrest
        exact ⟨d :: t₁, t₂, rfl, (encodeUtf8_cons d t₁).symm, rfl⟩
      · cases z with
        | nil =>
          obtain ⟨t₁, t₂, rfl, hx, rfl⟩ := ih (x := []) hrest.symm
          refine ⟨d :: t₁, t₂, rfl, ?_, rfl⟩
          rw [encodeUtf8_cons, ← hx, hz, List.append_nil, List.append_nil]
        | cons b z =>
          obtain ⟨rfl, -⟩ := List.cons.inj hrest
          exact absurd rfl (hne _ (hz ▸ List.mem_append_right x List.mem_cons_self))

theorem Utf8.cut {x y : Bytes} {c : Char} (hc : c.toNat < 128)
    (h : Utf8 (x ++ UInt8.ofNat c.toNat :: y)) : Utf8 x ∧ Utf8 y := by
  obtain ⟨t, ht⟩ := h
  obtain ⟨t₁, t₂, -, hx, hy⟩ := encodeUtf8_eq_append_cons hc ht.symm
  exact ⟨⟨t₁, hx⟩, t₂, hy⟩

variable {α : Type}

/-- A pattern that does not contain the separator lies on one side of it. -/
theorem infix_append_cons_iff {p x y : List α} {c : α} (hc : c ∉ p) :
    p <:+: x ++ c :: y ↔ p <:+: x ∨ p <:+: y := by
  constructor
  · rintro ⟨u, w, h⟩
    rcases List.append_eq_append_iff.mp h with ⟨z, rfl, -⟩ | ⟨z, hz, hrest⟩
    · exact .inl ⟨u, z, rfl⟩
    · cases z with
      | nil => exact .inl ⟨u, [], by simpa using hz⟩
      | cons d z =>
        obtain ⟨rfl, rfl⟩ := List.cons.inj hrest
        rcases List.append_eq_append_iff.mp hz with ⟨v, rfl, hv⟩ | ⟨v, rfl, hv⟩
        · exact absurd (hv ▸ List.mem_append_right v List.mem_cons_self) hc
        · cases v with
          | nil =>
            have hp : c :: z = p := hv
            exact absurd (hp ▸ List.mem_cons_self) hc
          | cons d' v =>
            obtain ⟨-, rfl⟩ := List.cons.inj hv
            exact .inr ⟨v, w, rfl⟩
  · rintro (h | h)
    · exact h.trans (List.prefix_append x _).isInfix
    · exact h.trans ((List.suffix_cons c y).trans (List.suffix_append x _)).isInfix

end SpineFormal
