import Mathlib.Data.List.Basic

namespace fable.Utf8

/-! Text in UTF-8 as a list of bytes. -/

open List

def Valid (s : List UInt8) : Prop := s.toByteArray.IsValidUTF8

variable {c : Char} {b : UInt8} {p q s : List UInt8}

theorem valid_char : Valid (String.utf8EncodeChar c ++ s) ↔ Valid s := by
  rw [Valid, toByteArray_append, ← utf8Encode_singleton]
  exact ByteArray.isValidUTF8_utf8Encode_singleton_append_iff

theorem encode_ascii (hb : b < 0x80) : String.utf8EncodeChar (Char.ofNat b.toNat) = [b] := by
  have hall : ∀ n : Fin 256, UInt8.ofFin n < 0x80 → String.utf8EncodeChar (Char.ofNat n) = [UInt8.ofFin n] := by decide +kernel
  exact hall b.toFin hb

theorem valid_of_ascii {x} (hx : ∀ b ∈ x, b < 0x80) (h : Valid (x ++ s)) : Valid s := by
  induction x with
  | nil => exact h
  | cons b x ih =>
    obtain ⟨hb, hx⟩ := forall_mem_cons.mp hx
    rw [cons_append, ← singleton_append, ← encode_ascii hb, valid_char] at h
    exact ih hx h

/-- Of the bytes of a character only the first is one that begins a character. -/
theorem isUTF8FirstByte_iff (hc : String.utf8EncodeChar c = p ++ b :: q) : b.IsUTF8FirstByte ↔ p = [] := by
  have hlen : p.length < (String.utf8EncodeChar c).length := by
    rw [hc, length_append, length_cons]
    omega
  have hbyte : (String.utf8EncodeChar c)[p.length] = b := by simp [hc]
  rw [← hbyte, UInt8.isUTF8FirstByte_getElem_utf8EncodeChar, length_eq_zero_iff]

theorem Valid.of_cons (h : Valid (b :: s)) : ∃ c k t, String.utf8EncodeChar c = b :: k ∧ s = k ++ t ∧ Valid t ∧
    ∀ x ∈ k, ¬ x.IsUTF8FirstByte := by
  obtain ⟨m, hm⟩ := h
  rw [utf8Encode, toByteArray_inj] at hm
  cases m with
  | nil => cases hm
  | cons c m =>
    obtain ⟨x, k, hc⟩ := exists_cons_of_ne_nil (@String.utf8EncodeChar_ne_nil c)
    rw [flatMap_cons, hc, cons_append, cons.injEq] at hm
    obtain ⟨rfl, rfl⟩ := hm
    refine ⟨c, k, _, hc, rfl, ⟨m, rfl⟩, fun x hx hfirst => ?_⟩
    obtain ⟨p, q, rfl⟩ := append_of_mem hx
    exact cons_ne_nil b p ((isUTF8FirstByte_iff hc).mp hfirst)

/-- A part of a text is a text exactly if a character begins behind it. -/
theorem Valid.cut_iff (h : Valid (p ++ b :: q)) : Valid p ↔ b.IsUTF8FirstByte := by
  let s : String := ⟨_, h⟩
  have hlt : p.length < (p ++ b :: q).toByteArray.size := by simp
  have hpart : s.toByteArray.extract 0 p.length = p.toByteArray := by
    simp only [s, toByteArray_append]
    exact ByteArray.extract_append_eq_left size_toByteArray.symm
  have hbyte : s.getUTF8Byte ⟨p.length⟩ hlt = b := by
    simp only [s, String.getUTF8Byte, getElem_toByteArray]
    simp
  have hvalid : Valid p ↔ String.Pos.Raw.IsValid s ⟨p.length⟩ := by
    rw [String.Pos.Raw.isValid_iff_isValidUTF8_extract_zero, hpart]
    exact (and_iff_right (Nat.le_of_lt hlt)).symm
  rw [hvalid, String.Pos.Raw.isValid_iff_isUTF8FirstByte]
  constructor
  · rintro (hend | ⟨_, hfirst⟩)
    · exact absurd (congrArg String.Pos.Raw.byteIdx hend) (Nat.ne_of_lt hlt)
    · rwa [hbyte] at hfirst
  · exact fun hfirst => Or.inr ⟨hlt, by rwa [hbyte]⟩

end fable.Utf8
