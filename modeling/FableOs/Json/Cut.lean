import FableOs.Json.Found
import FableOs.Lib.Utf8

namespace fable.json

open Utf8 List

/-! What `json_str` leaves of a text that does not fit. -/

theorem utf8_encode_eq {cp : Nat} (h : cp.isValidChar) : utf8_encode cp = String.utf8EncodeChar (Char.ofNat cp) := by
  have hval : (Char.ofNat cp).val.toNat = cp := by
    rw [Char.ofNat, dif_pos h]
    rfl
  have hlt : cp < 0x110000 := by
    obtain h | h := h <;> omega
  -- the marks of the bytes and the bits of the code do not overlap
  have hlead {k m x : Nat} (a : Nat) (hx : x < m) (hm : m ≤ 2 ^ k) : 2 ^ k * a ||| x = x % m + 2 ^ k * a := by
    rw [← Nat.two_pow_add_eq_or_of_lt (hx.trans_le hm), Nat.add_comm, Nat.mod_eq_of_lt hx]
  have htail (n : Nat) : 0x80 ||| n &&& 0x3F = n % 64 + 0x80 := by
    rw [Nat.and_two_pow_sub_one_eq_mod n 6]
    exact (hlead (k := 6) 2 (Nat.mod_lt n (by decide)) le_rfl).trans (congrArg (· + 128) (Nat.mod_mod n 64))
  unfold utf8_encode String.utf8EncodeChar
  simp only [hval, Nat.shiftRight_eq_div_pow, htail, Nat.lt_succ_iff (n := 0x7F), Nat.lt_succ_iff (n := 0x7FF),
    Nat.lt_succ_iff (n := 0xFFFF)]
  split_ifs
  · rfl
  · exact congrArg (UInt8.ofNat · :: _) (hlead (k := 6) (m := 32) 3 (by omega) (by decide))
  · exact congrArg (UInt8.ofNat · :: _) (hlead (k := 5) (m := 16) 7 (by omega) (by decide))
  · exact congrArg (UInt8.ofNat · :: _) (hlead (k := 4) (m := 8) 15 (by omega) (by decide))

variable {t : List UInt8} {us : List unit_t}

theorem valid_encode {cp : Nat} (hcp : cp.isValidChar) {s} (h : Valid s) : Valid (utf8_encode cp ++ s) := by
  rw [utf8_encode_eq hcp]
  exact valid_char.mpr h

theorem hexValue_ascii {c} {n : Nat} (h : HexValue c n) : c < 0x80 := by
  obtain h | h | h := h
  · exact UInt8.lt_of_le_of_lt h.2.1 (by decide)
  · exact UInt8.lt_of_le_of_lt h.2.1 (by decide)
  · exact UInt8.lt_of_le_of_lt h.2.1 (by decide)

/-- A string in UTF-8 stands for a text in UTF-8. Its bytes are read one by one,
    so this is about the rest `k` of a character and what comes behind it; and two
    codes may be one character. -/
theorem Units.utf8_valid {k s} (h : Units t us) (hk : ∀ x ∈ k, ¬ x.IsUTF8FirstByte) (ht : t = k ++ s) (hs : Valid s) :
    (∃ s', utf8 us = k ++ s' ∧ Valid s') ∧ ∀ u us', us = .code u :: us' → Valid (utf8 us') := by
  induction h generalizing k s with
  | nil =>
    obtain ⟨rfl, rfl⟩ := append_eq_nil_iff.mp ht.symm
    exact ⟨⟨[], rfl, hs⟩, fun _ _ h => nomatch h⟩
  | @cons x t u us hx hrest ih =>
    -- a character begins at an escape, and behind it
    have hbehind {x' : List UInt8} (hslash : x = 0x5C :: x') (hascii : ∀ b ∈ x', b < 0x80) :
        k = [] ∧ Valid (utf8 us) ∧ ∀ u us', us = .code u :: us' → Valid (utf8 us') := by
      subst hslash
      cases k with
      | nil =>
        have hbytes : ∀ b ∈ 0x5C :: x', b < 0x80 := forall_mem_cons.mpr ⟨by decide, hascii⟩
        have hbody : Valid t := valid_of_ascii hbytes (by rwa [ht])
        obtain ⟨⟨s', hs', hv⟩, hpair⟩ := ih (forall_mem_nil _) (nil_append t).symm hbody
        exact ⟨rfl, hs' ▸ hv, hpair⟩
      | cons b k =>
        obtain ⟨rfl, -⟩ := cons.inj ht
        exact absurd (by decide) (hk _ mem_cons_self)
    cases hx with
    | @plain c hc =>
      refine ⟨?_, fun _ _ h => nomatch h⟩
      cases k with
      | nil =>
        subst ht
        obtain ⟨d, k, s', hd, rfl, hs', hk'⟩ := hs.of_cons
        obtain ⟨⟨s'', hs'', hv⟩, -⟩ := ih hk' rfl hs'
        refine ⟨_, ?_, (@valid_char d _).mpr hv⟩
        rw [utf8, hs'', hd]
        rfl
      | cons b k =>
        obtain ⟨rfl, rfl⟩ := cons.inj ht
        obtain ⟨⟨s', hs', hv⟩, -⟩ := ih (forall_mem_cons.mp hk).2 rfl hs
        exact ⟨s', by rw [utf8, hs']; rfl, hv⟩
    | @escape e c he =>
      have hall : ∀ p ∈ short_escapes, p.1 < 0x80 ∧ p.2 < 0x80 := by simp [short_escapes]
      obtain ⟨he, hc⟩ : e < 0x80 ∧ c < 0x80 := hall _ he
      obtain ⟨rfl, hv, -⟩ := hbehind rfl (by simpa using he)
      refine ⟨⟨_, rfl, ?_⟩, fun _ _ h => nomatch h⟩
      have hchar := (@valid_char (Char.ofNat c.toNat) _).mpr hv
      rwa [encode_ascii hc] at hchar
    | unicode ha hb hc hd =>
      obtain ⟨rfl, hv, hpair⟩ := hbehind rfl (by
        simp [hexValue_ascii ha, hexValue_ascii hb, hexValue_ascii hc, hexValue_ascii hd])
      obtain ⟨cp, t', us', hcp, -, -, htext, -, hus'⟩ := decode_u_of_units ha hb hc hd hrest
      refine ⟨⟨_, htext, valid_encode hcp ?_⟩, fun _ _ h => by cases h; exact hv⟩
      obtain rfl | ⟨lo, rfl⟩ := hus'
      · exact hv
      · exact hpair lo us' rfl

/-- What should be left of a text: all of it, or the longest part of it that fits
    and is UTF-8. -/
def Stored (out : List UInt8) (cap : Nat) (res : Int × List UInt8) : Prop :=
  if out.length < cap then res = (JSON_OK, out)
  else res.1 = JSON_ENOSPC ∧ res.2 <+: out ∧ res.2.length < cap ∧ Valid res.2 ∧
    ∀ q, q <+: out → q.length < cap → Valid q → q.length ≤ res.2.length

/-- No character that is written as it is stands across the end of a buffer of
    `cap` bytes: the byte that there is no more room for begins a character. -/
def Uncut (body : List UInt8) (cap : Nat) : Prop :=
  ∀ us₁ c us₂, Units body (us₁ ++ .byte c :: us₂) → (utf8 us₁).length + 1 = cap → c.IsUTF8FirstByte

theorem encode_first {cp : Nat} (h : cp.isValidChar) {b buf} (hbuf : b :: buf = utf8_encode cp) : b.IsUTF8FirstByte := by
  rw [utf8_encode_eq h] at hbuf
  exact (isUTF8FirstByte_iff (p := []) hbuf.symm).mpr rfl

/-- Of a text that a whole character did not fit behind, no longer part fits and is
    in UTF-8: it would end within that character. -/
theorem length_le_of_valid {p buf s q : List UInt8} {cap : Nat} (hvalid : Valid (p ++ (buf ++ s)))
    (hbuf : buf.length = 1 ∨ ∃ cp : Nat, cp.isValidChar ∧ buf = utf8_encode cp) (hfull : cap ≤ p.length + buf.length)
    (hq : q <+: p ++ (buf ++ s)) (hfits : q.length < cap) (hqvalid : Valid q) : q.length ≤ p.length := by
  by_contra hlong
  obtain ⟨x, rfl⟩ := prefix_of_prefix_length_le (prefix_append p _) hq (by omega)
  rw [length_append] at hfits hlong
  obtain ⟨y, rfl⟩ : x <+: buf := by
    refine prefix_of_prefix_length_le ((prefix_append_right_inj p).mp hq) (prefix_append _ _) (by omega)
  rw [length_append] at hfull
  obtain ⟨d, y, rfl⟩ : ∃ d rest, y = d :: rest := exists_cons_of_length_pos (by omega)
  obtain hone | ⟨cp, hcp, hchar⟩ := hbuf
  · rw [length_append, length_cons] at hone
    omega
  · have hd : d.IsUTF8FirstByte := by
      rw [append_assoc, ← append_assoc p] at hvalid
      exact hvalid.cut_iff.mp hqvalid
    rw [utf8_encode_eq hcp] at hchar
    rw [(isUTF8FirstByte_iff hchar.symm).mp hd, length_nil] at hlong
    omega

/-- `json_str` leaves of every string in UTF-8 what it should, exactly when the
    text fits or no raw character of it stands across the end of the buffer. An
    escape is stored as a whole or not at all. -/
theorem json_str_stored_iff {depth : Nat} {v : json_value_t} (h : Found depth v) (htype : v.type = .string)
    (hutf8 : Valid v.text) {out : List UInt8} (hout : Decodes v.body out) {cap : Nat} (hcap : 0 < cap) :
    Stored out cap (json_str (some v) cap) ↔ (cap ≤ out.length → Uncut v.body cap) := by
  obtain ⟨_, -, htext, rfl, -, -⟩ := h.string htype
  obtain ⟨us, hus, rfl⟩ := hout
  have hvalid : Valid (utf8 us) := by
    rw [htext] at hutf8
    have hquoted : Valid (v.body ++ QUOTE :: []) := valid_of_ascii (x := [QUOTE]) (by simp [QUOTE]) hutf8
    obtain ⟨⟨s, hs, hv⟩, -⟩ := hus.utf8_valid (forall_mem_nil _) rfl (hquoted.cut_iff.mpr (by decide))
    exact hs ▸ hv
  have hlen : ¬ (v.type ≠ .string ∨ v.len < 2) := by
    rw [h.len_eq, htext, htype]
    simp
  rw [json_str]
  simp only [if_neg (Nat.pos_iff_ne_zero.mp hcap), if_neg hlen]
  unfold Stored
  by_cases hroom : (utf8 us).length < cap
  · rw [if_pos hroom]
    refine iff_of_true ?_ fun hfull => absurd hroom (Nat.not_lt.mpr hfull)
    exact str_chars_of_units hus (Nat.lt_succ_self _) (by rw [length_nil]; omega)
  · obtain ⟨p, buf, s, hrun, hsplit, hp, hfull, hbuf⟩ := @str_chars_stops _ _ cap _ [] hus (Nat.lt_succ_self _) hcap
      (by simpa using hroom)
    rw [length_nil, Nat.zero_add] at hp hfull
    rw [if_neg hroom, forall_prop_of_true (Nat.not_lt.mp hroom)]
    constructor
    · intro hstored us₁ c us₂ hus' hend
      rw [str_chars_stops_at hus' (Nat.lt_succ_self _) (by rw [length_nil]; omega), nil_append] at hstored
      rw [hus.utf8_eq hus', utf8_append_byte] at hvalid
      exact hvalid.cut_iff.mp hstored.2.2.2.1
    intro huncut
    rw [hrun, hsplit, nil_append]
    rw [hsplit] at hvalid
    obtain ⟨b, buf, rfl⟩ : ∃ b rest, buf = b :: rest := exists_cons_of_length_pos (by omega)
    have hb : b.IsUTF8FirstByte := by
      obtain ⟨us₁, c, us₂, rfl, rfl, hc⟩ | ⟨cp, hcp, hchar⟩ := hbuf
      · obtain ⟨rfl, rfl⟩ := cons.inj hc
        exact huncut us₁ b us₂ hus (by rw [length_singleton] at hfull; omega)
      · exact encode_first hcp hchar
    refine ⟨rfl, prefix_append _ _, hp, hvalid.cut_iff.mpr hb, fun q hq hfits hqvalid => ?_⟩
    refine length_le_of_valid hvalid ?_ hfull hq hfits hqvalid
    obtain ⟨-, c, -, -, -, hc⟩ | ⟨cp, hcp, hchar⟩ := hbuf
    · exact .inl (congrArg length hc)
    · exact .inr ⟨cp, hcp, hchar⟩

/-- Where a character of the text begins at the end of the buffer, none is cut. -/
theorem uncut_of_first {body out : List UInt8} {cap : Nat} (hout : Decodes body out)
    (h : ∀ b ∈ out[cap - 1]?, b.IsUTF8FirstByte) : Uncut body cap := by
  rintro us₁ c us₂ hus rfl
  obtain ⟨us, hus', rfl⟩ := hout
  refine h c ?_
  rw [hus'.utf8_eq hus, utf8_append_byte]
  simp

/-- The string `"xé"`. -/
def x_e_acute : json_value_t := ⟨.string, some [0x22, 0x78, 0xC3, 0xA9, 0x22], 5⟩

/-- With room for one byte, the first character is left. -/
theorem x_e_acute_stored : Stored [0x78, 0xC3, 0xA9] 2 (json_str (some x_e_acute) 2) := by
  have hfound := found_of_json_parse (by decide : json_parse (some [0x22, 0x78, 0xC3, 0xA9, 0x22]) = (JSON_OK, x_e_acute))
  have hdecodes : Decodes x_e_acute.body [0x78, 0xC3, 0xA9] :=
    ⟨[.byte 0x78, .byte 0xC3, .byte 0xA9],
      .cons (.plain (by decide)) (.cons (.plain (by decide)) (.cons (.plain (by decide)) .nil)), rfl⟩
  refine (json_str_stored_iff hfound rfl ⟨['"', 'x', 'é', '"'], rfl⟩ hdecodes (by decide)).mpr fun _ => ?_
  refine uncut_of_first hdecodes fun b hb => ?_
  obtain rfl : 0xC3 = b := Option.some.inj hb
  decide

/-- The string of one character of two bytes, `é`. -/
def e_acute : json_value_t := ⟨.string, some [0x22, 0xC3, 0xA9, 0x22], 4⟩

theorem e_acute_found : Found JSON_MAX_DEPTH e_acute :=
  found_of_json_parse (by decide : json_parse (some [0x22, 0xC3, 0xA9, 0x22]) = (JSON_OK, e_acute))

theorem e_acute_valid : Valid e_acute.text ∧ Valid [0xC3, 0xA9] :=
  ⟨⟨['"', 'é', '"'], rfl⟩, ⟨['é'], rfl⟩⟩

theorem e_acute_decodes : Decodes e_acute.body [0xC3, 0xA9] :=
  ⟨[.byte 0xC3, .byte 0xA9], .cons (.plain (by decide)) (.cons (.plain (by decide)) .nil), rfl⟩

/-- With room for one byte, half of the character is left. -/
theorem e_acute_cut_in_two : Found JSON_MAX_DEPTH e_acute ∧ Valid e_acute.text ∧ Decodes e_acute.body [0xC3, 0xA9] ∧
    json_str (some e_acute) 2 = (JSON_ENOSPC, [0xC3]) ∧ ¬ Stored [0xC3, 0xA9] 2 (json_str (some e_acute) 2) := by
  have hrun : json_str (some e_acute) 2 = (JSON_ENOSPC, [0xC3]) := by decide
  refine ⟨e_acute_found, e_acute_valid.1, e_acute_decodes, hrun, fun hstored => ?_⟩
  rw [hrun, Stored, if_neg (by decide)] at hstored
  exact absurd ((Valid.cut_iff (p := [0xC3]) e_acute_valid.2).mp hstored.2.2.2.1) (by decide)

end fable.json
