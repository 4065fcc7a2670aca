import FableOs.Json.Decode
import FableOs.Json.Parse

namespace fable.json

open Scanner List Language Option

/-! What a string stands for: its characters one by one, and the UTF-8 text they
make up together. -/

/-- A character of a string: a byte that stands for itself or is named by an
    escape, or a sixteen bit code. -/
inductive unit_t where
  | byte (c : UInt8)
  | code (u : Nat)
  deriving DecidableEq, Repr

/-- The value of a hexadecimal digit. -/
def HexValue (c : UInt8) (n : Nat) : Prop :=
  (0x30 ≤ c ∧ c ≤ 0x39 ∧ c.toNat = 0x30 + n) ∨ (0x61 ≤ c ∧ c ≤ 0x66 ∧ c.toNat = 0x61 + (n - 10) ∧ 10 ≤ n) ∨
    (0x41 ≤ c ∧ c ≤ 0x46 ∧ c.toNat = 0x41 + (n - 10) ∧ 10 ≤ n)

/-- The letters of the short escapes, with the bytes they name: a quote, a
    backslash, a slash, backspace, form feed, line feed, return and tab. -/
def short_escapes : List (UInt8 × UInt8) :=
  [(0x22, 0x22), (0x5C, 0x5C), (0x2F, 0x2F), (0x62, 0x08), (0x66, 0x0C), (0x6E, 0x0A), (0x72, 0x0D), (0x74, 0x09)]

/-- One way of writing a character. -/
inductive Spells : List UInt8 → unit_t → Prop
  | plain {c : UInt8} (h : 0x20 ≤ c ∧ c ≠ 0x22 ∧ c ≠ 0x5C) : Spells [c] (.byte c)
  | escape {e c : UInt8} (h : (e, c) ∈ short_escapes) : Spells [0x5C, e] (.byte c)
  | unicode {a b c d : UInt8} {i j k l : Nat} (ha : HexValue a i) (hb : HexValue b j) (hc : HexValue c k)
      (hd : HexValue d l) : Spells [0x5C, 0x75, a, b, c, d] (.code (((i * 16 + j) * 16 + k) * 16 + l))

/-- The characters of a string body. -/
inductive Units : List UInt8 → List unit_t → Prop
  | nil : Units [] []
  | cons {x t : List UInt8} {u : unit_t} {us : List unit_t} (h : Spells x u) (hrest : Units t us) :
      Units (x ++ t) (u :: us)

/-- The code that a lone surrogate is replaced by. -/
def scalar (u : Nat) : Nat := if is_high u || is_low u then 0xFFFD else u

/-- The UTF-8 text of a sequence of characters. Two surrogates that make up a
    pair are one character of the text. -/
def utf8 : List unit_t → List UInt8
  | [] => []
  | .byte c :: us => c :: utf8 us
  | .code u :: .code lo :: us =>
    if is_high u && is_low lo then utf8_encode (0x10000 + (u - 0xD800) * 0x400 + (lo - 0xDC00)) ++ utf8 us
    else utf8_encode (scalar u) ++ utf8 (.code lo :: us)
  | .code u :: us => utf8_encode (scalar u) ++ utf8 us

/-- The string body `t` stands for the text `out`. -/
def Decodes (t out : List UInt8) : Prop := ∃ us, Units t us ∧ utf8 us = out

section Hex

variable {c : UInt8} {n : Nat}

theorem hexval_eq_some_iff : hexval c = some n ↔ HexValue c n := by
  simp only [hexval, HexValue, UInt8.le_iff_toNat_le, UInt8.toNat_ofNat]
  norm_num
  constructor
  · intro h
    split at h
    · rw [some.injEq] at h
      omega
    split at h
    · rw [some.injEq] at h
      omega
    split at h
    · rw [some.injEq] at h
      omega
    · cases h
  · rintro (h | h | h)
    · rw [if_pos (by omega), some.injEq]
      omega
    · rw [if_neg (by omega), if_pos (by omega), some.injEq]
      omega
    · rw [if_neg (by omega), if_neg (by omega), if_pos (by omega), some.injEq]
      omega

theorem hexValue_lt (h : HexValue c n) : n < 16 := by
  simp only [HexValue, UInt8.le_iff_toNat_le, UInt8.toNat_ofNat] at h
  norm_num at h
  omega

theorem exists_hexValue (h : HexDigit c) : ∃ n, HexValue c n := by
  simp only [HexDigit, Digit, UInt8.le_iff_toNat_le, UInt8.toNat_ofNat] at h
  simp only [HexValue, UInt8.le_iff_toNat_le, UInt8.toNat_ofNat]
  norm_num at h ⊢
  rcases h with h | h | h
  · exact ⟨c.toNat - 0x30, by omega⟩
  · exact ⟨c.toNat - 0x61 + 10, by omega⟩
  · exact ⟨c.toNat - 0x41 + 10, by omega⟩

theorem hexDigit_of_value (h : HexValue c n) : HexDigit c := by
  rcases h with h | h | h
  · exact Or.inl ⟨h.1, h.2.1⟩
  · exact Or.inr (Or.inl ⟨h.1, h.2.1⟩)
  · exact Or.inr (Or.inr ⟨h.1, h.2.1⟩)

theorem hex4_of_values {a b c d} {i j k l : Nat} (ha : HexValue a i) (hb : HexValue b j) (hc : HexValue c k)
    (hd : HexValue d l) (t : ptr_t) : hex4 (a :: b :: c :: d :: t) = some (((i * 16 + j) * 16 + k) * 16 + l) := by
  have hor (v h : Nat) (hh : h < 16) : (v <<< 4) ||| h = v * 16 + h := by
    rw [← Nat.shiftLeft_add_eq_or_of_lt (b := h) (i := 4) hh, Nat.shiftLeft_eq]
  rw [hex4, hexval_eq_some_iff.mpr ha, hexval_eq_some_iff.mpr hb, hexval_eq_some_iff.mpr hc,
    hexval_eq_some_iff.mpr hd]
  simp [hor _ _ (hexValue_lt hb), hor _ _ (hexValue_lt hc), hor _ _ (hexValue_lt hd)]

end Hex

section Characters

variable {t : List UInt8} {us : List unit_t}

theorem unescape_of_mem {e c} (h : (e, c) ∈ short_escapes) :
    unescape e = some c ∧ e ≠ LOWER_U ∧ is_escape e = true := by
  simp only [short_escapes, mem_cons, not_mem_nil, or_false, Prod.mk.injEq] at h
  rcases h with ⟨rfl, rfl⟩ | ⟨rfl, rfl⟩ | ⟨rfl, rfl⟩ | ⟨rfl, rfl⟩ | ⟨rfl, rfl⟩ | ⟨rfl, rfl⟩ | ⟨rfl, rfl⟩ | ⟨rfl, rfl⟩ <;>
    decide

/-- The low half of a pair is there when the next character is one. -/
theorem low_half_of_units (h : Units t us) :
    (∃ lo rest, us = .code lo :: rest ∧ is_low lo = true ∧ low_half t = some lo ∧ Units (t.drop 6) rest) ∨
      ((∀ lo rest, us = .code lo :: rest → is_low lo = false) ∧ low_half t = none) := by
  cases h with
  | nil => exact Or.inr ⟨fun _ _ h => (nomatch h), rfl⟩
  | @cons x t u us hx hrest =>
    cases hx with
    | @plain c hc =>
      refine Or.inr ⟨fun _ _ h => (nomatch h), ?_⟩
      cases t with
      | nil => rfl
      | cons b t =>
        have hno : ¬ (6 ≤ (c :: b :: t).length ∧ c = BACKSLASH ∧ b = LOWER_U) := fun h => hc.2.2 h.2.1
        exact if_neg hno
    | @escape e c he =>
      refine Or.inr ⟨fun _ _ h => (nomatch h), ?_⟩
      have hno : ¬ (6 ≤ (BACKSLASH :: e :: t).length ∧ BACKSLASH = BACKSLASH ∧ e = LOWER_U) :=
        fun h => (unescape_of_mem he).2.1 h.2.2
      exact if_neg hno
    | @unicode a b c d i j k l ha hb hc hd =>
      have hsix : 6 ≤ (BACKSLASH :: LOWER_U :: a :: b :: c :: d :: t).length ∧ BACKSLASH = BACKSLASH ∧
          LOWER_U = LOWER_U := by
        refine ⟨?_, rfl, rfl⟩
        simp only [length_cons]
        omega
      have heq : low_half ([0x5C, 0x75, a, b, c, d] ++ t) =
          (some (((i * 16 + j) * 16 + k) * 16 + l)).filter is_low := by
        rw [← hex4_of_values ha hb hc hd t]
        exact if_pos (e := none) hsix
      cases hlow : is_low (((i * 16 + j) * 16 + k) * 16 + l) with
      | true =>
        left
        refine ⟨_, us, rfl, hlow, ?_, hrest⟩
        rw [heq, filter_some, if_pos hlow]
      | false =>
        right
        refine ⟨?_, ?_⟩
        · intro lo rest h
          cases h
          exact hlow
        · rw [heq, filter_some, hlow]
          rfl

theorem utf8_code_of_not_pair {u : Nat} (h : is_high u = true → ∀ lo rest, us = .code lo :: rest → is_low lo = false) :
    utf8 (.code u :: us) = utf8_encode (scalar u) ++ utf8 us := by
  cases us with
  | nil => rfl
  | cons v us =>
    cases v with
    | byte c => rfl
    | code lo =>
      rw [utf8]
      cases hu : is_high u with
      | false => rfl
      | true =>
        rw [h hu lo us rfl]
        rfl

theorem scalar_valid {u : Nat} (hu : u < 0x10000) : (scalar u).isValidChar := by
  unfold scalar is_high is_low Nat.isValidChar
  split_ifs with h
  · omega
  · simp at h
    omega

theorem pair_valid {u lo : Nat} (hu : is_high u = true) (hlo : is_low lo = true) :
    (0x10000 + (u - 0xD800) * 0x400 + (lo - 0xDC00)).isValidChar := by
  simp only [is_high, is_low, Bool.and_eq_true, decide_eq_true_eq] at hu hlo
  unfold Nat.isValidChar
  omega

theorem decode_u_of_units {a b c d} {i j k l : Nat} (ha : HexValue a i) (hb : HexValue b j) (hc : HexValue c k)
    (hd : HexValue d l) (h : Units t us) :
    ∃ cp t' us', cp.isValidChar ∧ decode_u (a :: b :: c :: d :: t) = some (utf8_encode cp, t') ∧ Units t' us' ∧
      utf8 (.code (((i * 16 + j) * 16 + k) * 16 + l) :: us) = utf8_encode cp ++ utf8 us' ∧ t'.length ≤ t.length ∧
      (us' = us ∨ ∃ lo, us = .code lo :: us') := by
  have hlt : ((i * 16 + j) * 16 + k) * 16 + l < 0x10000 := by
    have hi := hexValue_lt ha
    have hj := hexValue_lt hb
    have hk := hexValue_lt hc
    have hl := hexValue_lt hd
    omega
  rw [decode_u, hex4_of_values ha hb hc hd]
  generalize ((i * 16 + j) * 16 + k) * 16 + l = u at hlt ⊢
  simp only [drop_succ_cons, drop_zero]
  cases hhigh : is_high u with
  | false =>
    refine ⟨_, t, us, scalar_valid hlt, ?_, h, utf8_code_of_not_pair (by simp [hhigh]), le_refl _, .inl rfl⟩
    cases hlow : is_low u <;> rw [scalar, hhigh, hlow] <;> rfl
  | true =>
    simp only [if_true]
    rcases low_half_of_units h with ⟨lo, rest, rfl, hlow, hhalf, hrest⟩ | ⟨hnone, hhalf⟩
    · refine ⟨_, t.drop 6, rest, pair_valid hhigh hlow, by rw [hhalf, Nat.shiftLeft_eq], hrest, ?_, ?_, .inr ⟨lo, rfl⟩⟩
      · rw [utf8, hhigh, hlow, Bool.and_self, if_pos rfl]
      · rw [length_drop]
        omega
    · refine ⟨_, t, us, scalar_valid hlt, ?_, h, utf8_code_of_not_pair fun _ => hnone, le_refl _, .inl rfl⟩
      rw [hhalf, scalar, hhigh]
      rfl

/-- The characters that `buf` is the text of: one byte, or one or two codes. -/
def Taken (front : List unit_t) (buf : List UInt8) : Prop :=
  (∃ c, front = [.byte c] ∧ buf = [c]) ∨ (∀ c, .byte c ∉ front) ∧ ∃ cp, cp.isValidChar ∧ buf = utf8_encode cp

/-- `decode_one` takes the first character off a string body, or the two halves
    of a surrogate pair, and gives its UTF-8 bytes. -/
theorem decode_one_of_units (h : Units t us) (hne : t ≠ []) :
    ∃ buf t' us', decode_one t = some (buf, t') ∧ Units t' us' ∧ utf8 us = buf ++ utf8 us' ∧
      t'.length < t.length ∧ ∃ front, us = front ++ us' ∧ Taken front buf := by
  cases h with
  | nil => exact absurd rfl hne
  | @cons x t u us hx hrest =>
    cases hx with
    | @plain c hc =>
      refine ⟨[c], t, us, ?_, hrest, rfl, Nat.lt_succ_self _, [_], rfl, .inl ⟨c, rfl, rfl⟩⟩
      rw [cons_append, nil_append, decode_one.eq_def]
      simp only [if_pos hc.2.2]
    | @escape e c he =>
      obtain ⟨hunescape, hu, -⟩ := unescape_of_mem he
      refine ⟨[c], t, us, ?_, hrest, rfl, ?_, [_], rfl, .inl ⟨c, rfl, rfl⟩⟩
      · have hslash : ¬ (0x5C : UInt8) ≠ BACKSLASH := fun h => h rfl
        rw [cons_append, cons_append, nil_append, decode_one.eq_def]
        simp only [if_neg hslash, if_neg hu, hunescape, map_some]
      · simp only [cons_append, nil_append, length_cons]
        omega
    | @unicode a b c d i j k l ha hb hc hd =>
      obtain ⟨cp, t', us', hcp, hdecode, hunits, htext, hlength, hus'⟩ := decode_u_of_units ha hb hc hd hrest
      have hfront : ∃ front, .code (((i * 16 + j) * 16 + k) * 16 + l) :: us = front ++ us' ∧ ∀ c, .byte c ∉ front := by
        obtain rfl | ⟨lo, rfl⟩ := hus'
        · exact ⟨[_], rfl, by simp⟩
        · exact ⟨[_, _], rfl, by simp⟩
      obtain ⟨front, hfront, hcodes⟩ := hfront
      refine ⟨_, t', us', ?_, hunits, htext, ?_, front, hfront, .inr ⟨hcodes, cp, hcp, rfl⟩⟩
      · have hslash : ¬ (0x5C : UInt8) ≠ BACKSLASH := fun h => h rfl
        simp only [cons_append, nil_append]
        rw [decode_one.eq_def]
        simp only [if_neg hslash, if_true]
        exact hdecode
      · simp only [cons_append, nil_append, length_cons]
        omega

end Characters

section Strings

variable {t out : List UInt8} {us : List unit_t}

theorem Units.eq_nil (h : Units [] us) : us = [] := by
  generalize ht : ([] : List UInt8) = t at h
  cases h with
  | nil => rfl
  | cons hx _ => cases hx <;> cases ht

theorem Units.append {t' us'} (h : Units t us) (h' : Units t' us') : Units (t ++ t') (us ++ us') := by
  induction h with
  | nil => exact h'
  | cons hx _ ih =>
    rw [append_assoc, cons_append]
    exact .cons hx ih

theorem Units.zero_not_mem (h : Units t us) : 0 ∉ t := by
  induction h with
  | nil => exact not_mem_nil
  | @cons x t u us hx _ ih =>
    rw [mem_append, not_or]
    refine ⟨fun hzero => ?_, ih⟩
    have hhex {n : Nat} (h : HexValue 0 n) : False := by
      rcases h with h | h | h <;> exact absurd h.1 (by decide)
    cases hx with
    | plain hc =>
      rw [← mem_singleton.mp hzero] at hc
      exact absurd hc.1 (by decide)
    | @escape e c he =>
      have hletters : ∀ p ∈ short_escapes, p.1 ≠ 0 := by simp [short_escapes]
      simp only [mem_cons, not_mem_nil, or_false] at hzero
      rcases hzero with hzero | hzero
      · cases hzero
      · exact hletters _ he hzero.symm
    | unicode ha hb hc hd =>
      simp only [mem_cons, not_mem_nil, or_false] at hzero
      rcases hzero with hzero | hzero | rfl | rfl | rfl | rfl
      · cases hzero
      · cases hzero
      · exact hhex ha
      · exact hhex hb
      · exact hhex hc
      · exact hhex hd

/-- Every body of the grammar has a reading. -/
theorem exists_units_of_kstar (h : t ∈ KStar.kstar char) : ∃ us, Units t us := by
  have hescapes : ∀ e ∈ [(0x22 : UInt8), 0x5C, 0x2F, 0x62, 0x66, 0x6E, 0x72, 0x74], ∃ p ∈ short_escapes, p.1 = e := by
    simp [short_escapes]
  obtain ⟨parts, rfl, hparts⟩ := mem_kstar.mp h
  clear h
  induction parts with
  | nil => exact ⟨[], .nil⟩
  | cons x parts ih =>
    obtain ⟨hx, hparts⟩ := forall_mem_cons.mp hparts
    obtain ⟨us, hus⟩ := ih hparts
    obtain ⟨u, hu⟩ : ∃ u, Spells x u := by
      rcases hx with (⟨c, hc, rfl⟩ | hx) | hx
      · exact ⟨_, .plain hc⟩
      · obtain ⟨e, rfl, he⟩ := mem_escape.mp hx
        obtain ⟨⟨_, c⟩, hmem, rfl⟩ := hescapes e (is_escape_iff.mp he)
        exact ⟨_, .escape hmem⟩
      · obtain ⟨a, b, c, d, rfl, ha, hb, hc, hd⟩ := mem_unicode.mp hx
        obtain ⟨i, hi⟩ := exists_hexValue ha
        obtain ⟨j, hj⟩ := exists_hexValue hb
        obtain ⟨k, hk⟩ := exists_hexValue hc
        obtain ⟨l, hl⟩ := exists_hexValue hd
        exact ⟨_, .unicode hi hj hk hl⟩
    exact ⟨u :: us, .cons hu hus⟩

theorem Spells.mem_char {x u} (h : Spells x u) : x ∈ char := by
  cases h with
  | @plain c hc => exact Or.inl (Or.inl ⟨c, hc, rfl⟩)
  | @escape e c he => exact Or.inl (Or.inr (mem_escape.mpr ⟨e, rfl, (unescape_of_mem he).2.2⟩))
  | @unicode a b c d i j k l ha hb hc hd =>
    exact Or.inr (mem_unicode.mpr ⟨a, b, c, d, rfl, hexDigit_of_value ha, hexDigit_of_value hb, hexDigit_of_value hc,
      hexDigit_of_value hd⟩)

theorem Units.mem_kstar (h : Units t us) : t ∈ KStar.kstar char := by
  induction h with
  | nil => exact nil_mem_kstar _
  | @cons x t u us hx _ ih =>
    obtain ⟨parts, rfl, hparts⟩ := Language.mem_kstar.mp ih
    exact Language.mem_kstar.mpr ⟨x :: parts, rfl, forall_mem_cons.mpr ⟨hx.mem_char, hparts⟩⟩

theorem mem_string_iff {k} : k ∈ string ↔ ∃ t us, k = QUOTE :: (t ++ [QUOTE]) ∧ Units t us := by
  constructor
  · intro hk
    obtain ⟨_, rfl, _, hrest, rfl⟩ := mem_mul.mp hk
    obtain ⟨t, ht, _, rfl, rfl⟩ := mem_mul.mp hrest
    obtain ⟨us, hus⟩ := exists_units_of_kstar ht
    exact ⟨t, us, rfl, hus⟩
  · rintro ⟨t, us, rfl, hus⟩
    exact mem_mul.mpr ⟨[QUOTE], rfl, t ++ [QUOTE],
      mem_mul.mpr ⟨t, hus.mem_kstar, [QUOTE], rfl, rfl⟩, rfl⟩

/-- The loop of `json_str` stores the text, when there is room for it. -/
theorem str_chars_of_units {cap fuel : Nat} {dst} (h : Units t us) (hfuel : t.length < fuel)
    (hcap : dst.length + (utf8 us).length < cap) : str_chars cap fuel t dst = (JSON_OK, dst ++ utf8 us) := by
  induction fuel generalizing t us dst with
  | zero => omega
  | succ fuel ih =>
    by_cases hnil : t = []
    · subst hnil
      rw [h.eq_nil, str_chars, if_pos rfl, utf8, append_nil]
    · obtain ⟨buf, t', us', hdecode, hunits, htext, hlength, -⟩ := decode_one_of_units h hnil
      have hroom : ¬ cap ≤ dst.length + buf.length := by
        rw [htext, length_append] at hcap
        omega
      rw [str_chars, if_neg hnil, hdecode]
      simp only [if_neg hroom]
      rw [ih hunits (by omega) (by rw [htext, length_append] at hcap; rw [length_append]; omega), htext,
        append_assoc]

/-- A pair of codes does not reach over a byte. -/
theorem utf8_append_byte {us' c} : utf8 (us ++ .byte c :: us') = utf8 us ++ c :: utf8 us' := by
  induction us using utf8.induct with
  | case1 => rfl
  | case2 d us ih => rw [cons_append, utf8, utf8, ih, cons_append]
  | case3 u lo us hpair ih =>
    rw [cons_append, cons_append, utf8, utf8, if_pos hpair, if_pos hpair, ih, append_assoc]
  | case4 u lo us hpair ih =>
    rw [cons_append, cons_append, utf8, utf8, if_neg hpair, if_neg hpair, ← cons_append, ih, append_assoc]
  | case5 u us hne ih =>
    have hbehind : ∀ lo rest, us ++ .byte c :: us' = .code lo :: rest → is_low lo = false := by
      intro lo rest h
      cases us with
      | nil => cases h
      | cons v us =>
        obtain ⟨rfl, -⟩ := cons.inj h
        exact absurd rfl (hne lo us)
    rw [cons_append, utf8_code_of_not_pair fun _ => hbehind, ih,
      utf8_code_of_not_pair fun _ lo rest h => absurd h (hne lo rest), append_assoc]

/-- A byte of the string is what is taken, or it is behind that. -/
theorem Taken.split {front buf us' us₁ us₂ c} (h : Taken front buf) (hsplit : us₁ ++ .byte c :: us₂ = front ++ us') :
    (∃ as, us₁ = front ++ as ∧ us' = as ++ .byte c :: us₂) ∨ us₁ = [] ∧ buf = [c] := by
  obtain ⟨as, hfront, hrest⟩ | ⟨as, hfront, hrest⟩ := append_eq_append_iff.mp hsplit
  · cases as with
    | nil => exact .inl ⟨[], by rw [hfront, append_nil, append_nil], hrest.symm⟩
    | cons u as =>
      obtain ⟨rfl, -⟩ := cons.inj hrest
      obtain ⟨d, rfl, rfl⟩ | ⟨hcodes, -⟩ := h
      · cases us₁ with
        | nil =>
          obtain ⟨hd, -⟩ := cons.inj hfront
          exact .inr ⟨rfl, by rw [unit_t.byte.inj hd]⟩
        | cons u us₁ =>
          have hlen := congrArg length hfront
          simp at hlen
      · exact absurd (hfront ▸ mem_append_right _ mem_cons_self) (hcodes c)
  · exact .inl ⟨as, hfront, hrest⟩

/-- The loop of `json_str` gives up at the first character that there is no room
    for. -/
theorem str_chars_stops {cap fuel : Nat} {dst} (h : Units t us) (hfuel : t.length < fuel) (hdst : dst.length < cap)
    (hcap : cap ≤ dst.length + (utf8 us).length) :
    ∃ p buf s, str_chars cap fuel t dst = (JSON_ENOSPC, dst ++ p) ∧ utf8 us = p ++ (buf ++ s) ∧
      dst.length + p.length < cap ∧ cap ≤ dst.length + p.length + buf.length ∧
      ((∃ us₁ c us₂, us = us₁ ++ .byte c :: us₂ ∧ utf8 us₁ = p ∧ buf = [c]) ∨ ∃ cp, cp.isValidChar ∧ buf = utf8_encode cp) := by
  induction fuel generalizing t us dst with
  | zero => omega
  | succ fuel ih =>
    have hnil : t ≠ [] := by
      rintro rfl
      rw [h.eq_nil, utf8, length_nil] at hcap
      omega
    obtain ⟨buf, t', us', hdecode, hunits, htext, hlength, front, rfl, hbuf⟩ := decode_one_of_units h hnil
    rw [str_chars, if_neg hnil, hdecode]
    simp only
    by_cases hroom : cap ≤ dst.length + buf.length
    · rw [if_pos hroom]
      refine ⟨[], buf, _, by rw [append_nil], htext, hdst, hroom, ?_⟩
      obtain ⟨c, rfl, rfl⟩ | ⟨-, hcode⟩ := hbuf
      · exact .inl ⟨[], c, us', rfl, rfl, rfl⟩
      · exact .inr hcode
    · rw [if_neg hroom]
      rw [htext, length_append] at hcap
      obtain ⟨p, buf', s, hrun, hsplit, hp, hfull, hstop⟩ := @ih t' us' (dst ++ buf) hunits (by omega)
        (by rw [length_append]; omega) (by rw [length_append]; omega)
      have hlen : (dst ++ buf).length + p.length = dst.length + (buf ++ p).length := by simp [Nat.add_assoc]
      rw [hlen] at hp hfull
      refine ⟨buf ++ p, buf', s, by rw [hrun, append_assoc], by rw [htext, hsplit, append_assoc], hp, hfull, ?_⟩
      obtain ⟨us₁, c, us₂, rfl, rfl, rfl⟩ | hcode := hstop
      · refine .inl ⟨front ++ us₁, c, us₂, (append_assoc ..).symm, ?_, rfl⟩
        rw [← append_assoc, utf8_append_byte, utf8_append_byte, ← append_assoc] at htext
        exact append_cancel_right htext
      · exact .inr hcode

/-- And it gives up at a byte of the string that there is no room for. -/
theorem str_chars_stops_at {cap fuel : Nat} {dst us₁ c us₂} (h : Units t (us₁ ++ .byte c :: us₂)) (hfuel : t.length < fuel)
    (hcap : dst.length + (utf8 us₁).length + 1 = cap) : str_chars cap fuel t dst = (JSON_ENOSPC, dst ++ utf8 us₁) := by
  induction fuel generalizing t us₁ dst with
  | zero => omega
  | succ fuel ih =>
    have hnil : t ≠ [] := by
      rintro rfl
      have hempty := h.eq_nil
      simp at hempty
    obtain ⟨buf, t', us', hdecode, hunits, htext, hlength, front, hfront, hbuf⟩ := decode_one_of_units h hnil
    rw [str_chars, if_neg hnil, hdecode]
    simp only
    obtain ⟨as, rfl, rfl⟩ | ⟨rfl, rfl⟩ := hbuf.split hfront
    · rw [utf8_append_byte, utf8_append_byte, ← append_assoc] at htext
      have hsplit := append_cancel_right htext
      rw [hsplit, length_append] at hcap
      rw [if_neg (by omega), ih hunits (by omega) (by rw [length_append]; omega), hsplit, append_assoc]
    · have hfull : cap ≤ dst.length + [c].length := hcap.ge
      rw [if_pos hfull, utf8, append_nil]

theorem match_bytes_append (buf s : List UInt8) : match_bytes buf (buf ++ s) = some s := by
  induction buf with
  | nil => rfl
  | cons b buf ih => rw [cons_append, match_bytes, if_pos rfl, ih]

theorem eq_append_of_match_bytes {buf s s'} (h : match_bytes buf s = some s') : s = buf ++ s' := by
  induction buf generalizing s with
  | nil => exact some.inj h
  | cons b buf ih =>
    cases s with
    | nil => cases h
    | cons c s =>
      rw [match_bytes] at h
      split at h
      · rename_i hc
        rw [ih h, hc, cons_append]
      · cases h

/-- The loop of `json_str_eq` compares the text, byte by byte. -/
theorem str_eq_chars_iff {fuel : Nat} {s} (h : Units t us) (hfuel : t.length < fuel) :
    str_eq_chars fuel t s = true ↔ utf8 us = s := by
  induction fuel generalizing t us s with
  | zero => omega
  | succ fuel ih =>
    by_cases hnil : t = []
    · subst hnil
      rw [h.eq_nil, str_eq_chars, if_pos rfl, utf8, decide_eq_true_eq, eq_comm]
    · obtain ⟨buf, t', us', hdecode, hunits, htext, hlength, -⟩ := decode_one_of_units h hnil
      rw [str_eq_chars, if_neg hnil, hdecode, htext]
      simp only
      cases hmatch : match_bytes buf s with
      | none =>
        simp only [Bool.false_eq_true, false_iff]
        rintro rfl
        rw [match_bytes_append] at hmatch
        cases hmatch
      | some s' =>
        simp only
        rw [ih hunits (by omega), eq_append_of_match_bytes hmatch, append_cancel_left_eq]

/-- A string body stands for one text only. -/
theorem Units.utf8_eq {us'} (h : Units t us) (h' : Units t us') : utf8 us = utf8 us' := by
  have hself := (str_eq_chars_iff h' (Nat.lt_succ_self t.length)).mpr rfl
  exact (str_eq_chars_iff h (Nat.lt_succ_self t.length)).mp hself

end Strings

section Located

variable {type : json_type_t} {a b : UInt8} {t r v : List UInt8}

@[simp] theorem text_located : (json_value_t.mk type (some (v ++ r)) v.length).text = v := by
  simp [json_value_t.text]

theorem body_located : (json_value_t.mk type (some (a :: (t ++ [b]) ++ r)) (a :: (t ++ [b])).length).body = t := by
  rw [json_value_t.body, text_located, tail_cons, dropLast_concat]

theorem has_quotes : ¬ (json_type_t.string ≠ .string ∨ (QUOTE :: (t ++ [QUOTE])).length < 2) := by
  simp

/-- `json_str` gives the text of a string, when there is room for it and its
    terminating zero. -/
theorem json_str_located {cap : Nat} {out} (h : Decodes t out) (hcap : out.length < cap) :
    json_str (some ⟨.string, some (QUOTE :: (t ++ [QUOTE]) ++ r), (QUOTE :: (t ++ [QUOTE])).length⟩) cap =
      (JSON_OK, out) := by
  obtain ⟨us, hus, rfl⟩ := h
  have hcap0 : cap ≠ 0 := by omega
  rw [json_str]
  simp only [if_neg hcap0, if_neg has_quotes, body_located]
  exact str_chars_of_units hus (Nat.lt_succ_self _) (by rw [length_nil]; omega)

theorem json_str_eq_located {s} :
    json_str_eq (some ⟨.string, some (QUOTE :: (t ++ [QUOTE]) ++ r), (QUOTE :: (t ++ [QUOTE])).length⟩) (some s) =
      str_eq_chars (t.length + 1) t s.bytes := by
  rw [json_str_eq]
  simp only [if_neg has_quotes, body_located]

end Located

end fable.json
