import FableOs.Json.Correct
import FableOs.Json.Text
import FableOs.Json.Writer

namespace fable.json

open List Language

/-- The body that a string is written as. -/
def escaped (s : List UInt8) : List UInt8 := s.flatMap escape_byte

section Escape

theorem foldl_emit (cap : Nat) (out : emit_t) (x : List UInt8) (hdst : out.dst.length = out.need)
    (hroom : out.need + x.length < cap) : x.foldl (emit cap) out = ⟨out.dst ++ x, out.need + x.length⟩ := by
  induction x generalizing out with
  | nil => rw [foldl_nil, append_nil, length_nil, Nat.add_zero]
  | cons c x ih =>
    rw [length_cons] at hroom
    have hemit : emit cap out c = ⟨out.dst ++ [c], out.need + 1⟩ := by
      rw [emit, if_pos (by omega)]
    rw [foldl_cons, hemit, ih _ (by simp [hdst]) (by simp only; omega), append_assoc, length_cons,
      singleton_append]
    congr 1
    simp only
    omega

theorem need_foldl_emit (cap : Nat) (out : emit_t) (x : List UInt8) :
    (x.foldl (emit cap) out).need = out.need + x.length := by
  induction x generalizing out with
  | nil => rfl
  | cons c x ih =>
    rw [foldl_cons, ih, length_cons, emit]
    simp only
    omega

theorem need_json_escape_n (cap : Nat) (s : List UInt8) : (json_escape_n cap s).need = (escaped s).length := by
  rw [json_escape_n, escaped, ← foldl_flatMap, need_foldl_emit, Nat.zero_add]

/-- With room for the whole body and its terminating zero, all of it is stored. -/
theorem json_escape_n_eq {cap : Nat} {s} (hroom : (escaped s).length < cap) :
    json_escape_n cap s = ⟨escaped s, (escaped s).length⟩ := by
  have hfold := foldl_emit cap ⟨[], 0⟩ (escaped s) rfl (by simpa using hroom)
  rw [nil_append, Nat.zero_add] at hfold
  rw [json_escape_n, ← foldl_flatMap]
  exact hfold

theorem length_escape_byte_le (c : UInt8) : (escape_byte c).length ≤ 6 := by
  unfold escape_byte
  repeat' split
  all_goals simp

theorem length_escaped_le (s : List UInt8) : (escaped s).length ≤ 6 * s.length := by
  induction s with
  | nil => exact le_refl _
  | cons c s ih =>
    have hbyte := length_escape_byte_le c
    rw [escaped, flatMap_cons, length_append, length_cons]
    rw [escaped] at ih
    omega

end Escape

section Strings

/-- The character that a byte is written as. -/
def unit_of (c : UInt8) : unit_t :=
  if c < 0x20 ∧ c ∉ [(0x08 : UInt8), 0x0C, 0x0A, 0x0D, 0x09] then .code c.toNat else .byte c

theorem hexValue_hex_digit (n : Nat) (h : n < 16) : HexValue (hex_digit n) n := by
  rw [← hexval_eq_some_iff]
  revert n
  decide

/-- What `json_escape_n` emits for a byte spells that byte. -/
theorem spells_escape_byte (c : UInt8) : Spells (escape_byte c) (unit_of c) := by
  unfold escape_byte
  -- the bytes that have a letter of their own
  iterate 7
    split
    · next h =>
      subst h
      exact .escape (by decide)
  rename_i hquote hslash hb hf hn hr ht
  split
  · rename_i hlt
    have hunit : unit_of c = .code c.toNat := if_pos ⟨hlt, by simp [hb, hf, hn, hr, ht]⟩
    have hc : c.toNat < 32 := hlt
    have hhi : (c.toNat >>> 4) &&& 0xF = c.toNat / 16 := by
      rw [Nat.shiftRight_eq_div_pow, Nat.and_two_pow_sub_one_eq_mod _ 4]
      omega
    have hlo : c.toNat &&& 0xF = c.toNat % 16 := Nat.and_two_pow_sub_one_eq_mod _ 4
    have hspell := Spells.unicode (hexValue_hex_digit 0 (by decide)) (hexValue_hex_digit 0 (by decide))
      (hexValue_hex_digit (c.toNat / 16) (by omega)) (hexValue_hex_digit (c.toNat % 16) (by omega))
    have hvalue : ((0 * 16 + 0) * 16 + c.toNat / 16) * 16 + c.toNat % 16 = c.toNat := by omega
    rw [hvalue] at hspell
    rw [hunit, hhi, hlo]
    exact hspell
  · rename_i hlt
    have hunit : unit_of c = .byte c := if_neg fun h => hlt h.1
    rw [hunit]
    exact .plain ⟨UInt8.not_lt.mp hlt, hquote, hslash⟩

theorem units_escaped (s : List UInt8) : Units (escaped s) (s.map unit_of) := by
  induction s with
  | nil => exact .nil
  | cons c s ih => exact .cons (spells_escape_byte c) ih

theorem utf8_unit_of (c : UInt8) (us : List unit_t) : utf8 (unit_of c :: us) = c :: utf8 us := by
  unfold unit_of
  split
  · rename_i h
    have hc : c.toNat < 32 := h.1
    have hhigh : is_high c.toNat = false := by
      simp only [is_high, Bool.and_eq_false_iff, decide_eq_false_iff_not]
      omega
    have hlow : is_low c.toNat = false := by
      simp only [is_low, Bool.and_eq_false_iff, decide_eq_false_iff_not]
      omega
    have hscalar : scalar c.toNat = c.toNat := by
      rw [scalar, hhigh, hlow]
      rfl
    have hcode : utf8_encode c.toNat = [c] := by
      rw [utf8_encode, if_pos (by omega), UInt8.ofNat_toNat]
    rw [utf8_code_of_not_pair (fun h => by rw [hhigh] at h; cases h), hscalar, hcode]
    rfl
  · rfl

theorem decodes_escaped (s : List UInt8) : Decodes (escaped s) s := by
  refine ⟨_, units_escaped s, ?_⟩
  induction s with
  | nil => rfl
  | cons c s ih => rw [map_cons, utf8_unit_of, ih]

end Strings

section Writer

variable {w : json_writer_t}

/-- `json_put_string` appends the quoted body, or gives up. -/
theorem json_put_string_eq {s} (hok : w.overflow = false) (hroom : w.len + (escaped s.bytes).length + 2 < w.cap) :
    json_put_string w s = w.push (QUOTE :: (escaped s.bytes ++ [QUOTE])) := by
  have hopen : json_put_char w QUOTE = w.push [QUOTE] := json_put_char_of_room hok (by omega)
  have hlen : (w.push [QUOTE]).len = w.len + 1 := push_len
  have hesc := @json_escape_n_eq (w.cap - (w.len + 1)) s.bytes (by omega)
  have hover : ¬ w.overflow = true := by
    rw [hok]
    exact Bool.false_ne_true
  rw [json_put_string, if_neg hover, hopen]
  simp only [push_overflow, if_neg hover, hlen, push_cap, json_escape, hesc]
  rw [if_neg (by omega)]
  change json_put_char ((w.push [QUOTE]).push (escaped s.bytes)) QUOTE = _
  rw [push_push, json_put_char_of_room (w := w.push _) hok, push_push]
  · simp
  · rw [push_len, push_cap, length_append, length_singleton]
    omega

theorem room_of_json_put_string {s} (h : (json_put_string w s).overflow = false) :
    w.overflow = false ∧ w.len + (escaped s.bytes).length + 2 < w.cap := by
  rw [json_put_string] at h
  split at h
  · rename_i hover
    cases h.symm.trans hover
  rename_i hover
  have hok : w.overflow = false := Bool.eq_false_iff.mpr hover
  simp only at h
  split at h
  · rename_i hover'
    cases h.symm.trans hover'
  rename_i hover'
  have hopen := room_of_json_put_char (Bool.eq_false_iff.mpr hover')
  rw [json_put_char_of_room hok hopen.2] at h
  split at h
  · cases h
  rename_i hneed
  rw [json_escape, need_json_escape_n, push_len, push_cap, length_singleton] at hneed
  exact ⟨hok, by omega⟩

end Writer

section Integers

/-- The number that digits stand for, behind those of `mag`. -/
def decimal_value (mag : Nat) (ds : List UInt8) : Nat := ds.foldl (fun mag c => mag * 10 + (c.toNat - 0x30)) mag

/-- The digits of a number. -/
def decimal (v : Nat) : List UInt8 := (if v = 0 then [ZERO] else uint_digits 20 v).reverse

theorem le_decimal_value (mag : Nat) (ds : List UInt8) : mag ≤ decimal_value mag ds := by
  induction ds generalizing mag with
  | nil => exact le_refl _
  | cons c ds ih =>
    have hle := ih (mag * 10 + (c.toNat - 0x30))
    change mag ≤ decimal_value (mag * 10 + (c.toNat - 0x30)) ds
    omega

theorem toNat_digit {d : Nat} (hd : d < 10) : (UInt8.ofNat (0x30 + d)).toNat = 0x30 + d := by
  rw [UInt8.toNat_ofNat']
  omega

theorem is_digit_ofNat {d : Nat} (hd : d < 10) : is_digit (UInt8.ofNat (0x30 + d)) = true := by
  simp only [is_digit, Bool.and_eq_true, decide_eq_true_eq, UInt8.le_iff_toNat_le, toNat_digit hd]
  exact ⟨Nat.le_add_right _ _, by change 0x30 + d ≤ 0x39; omega⟩

/-- The digits of `json_put_uint`, most significant first: they stand for the
    number, and the first of them is no zero. -/
theorem uint_digits_spec {fuel v : Nat} (hv : v < 10 ^ fuel) (hpos : 0 < v) :
    ∃ c ds, (uint_digits fuel v).reverse = c :: ds ∧ Digit19 c ∧ (∀ d ∈ ds, Digit d) ∧
      decimal_value 0 (c :: ds) = v := by
  induction fuel generalizing v with
  | zero => omega
  | succ fuel ih =>
    have hmod := Nat.mod_lt v (show 0 < 10 by decide)
    have hdigit : Digit (UInt8.ofNat (0x30 + v % 10)) := is_digit_iff.mp (is_digit_ofNat hmod)
    have heq : (uint_digits (fuel + 1) v).reverse = (uint_digits fuel (v / 10)).reverse ++ [UInt8.ofNat (0x30 + v % 10)] := by
      rw [uint_digits, if_neg (by omega), reverse_cons]
    by_cases hsmall : v < 10
    · have hlast : uint_digits fuel (v / 10) = [] := by
        rw [Nat.div_eq_of_lt hsmall]
        cases fuel <;> rfl
      rw [heq, hlast]
      refine ⟨_, [], rfl, ⟨?_, hdigit.2⟩, forall_mem_nil _, ?_⟩
      · rw [UInt8.le_iff_toNat_le, toNat_digit hmod]
        change 0x31 ≤ _
        omega
      · change 0 * 10 + ((UInt8.ofNat (0x30 + v % 10)).toNat - 0x30) = v
        rw [toNat_digit hmod]
        omega
    · obtain ⟨c, ds, hds, hc, hall, hvalue⟩ := @ih (v / 10) (by rw [pow_succ] at hv; omega) (by omega)
      rw [heq, hds]
      refine ⟨c, ds ++ [UInt8.ofNat (0x30 + v % 10)], rfl, hc, ?_, ?_⟩
      · exact forall_mem_append.mpr ⟨hall, forall_mem_singleton.mpr hdigit⟩
      · rw [← cons_append, decimal_value, foldl_append]
        change decimal_value 0 (c :: ds) * 10 + ((UInt8.ofNat (0x30 + v % 10)).toNat - 0x30) = v
        rw [hvalue, toNat_digit hmod]
        omega

theorem decimal_spec {v : Nat} (hv : v < 10 ^ 20) :
    decimal v ∈ int ∧ decimal v ≠ [] ∧ (∀ d ∈ decimal v, is_digit d = true) ∧ decimal_value 0 (decimal v) = v ∧
      (decimal v).head? ≠ some MINUS := by
  rw [decimal]
  split
  · rename_i hzero
    subst hzero
    exact ⟨Or.inl rfl, by decide, forall_mem_singleton.mpr rfl, rfl, by decide⟩
  · rename_i hpos
    obtain ⟨c, ds, hds, hc, hall, hvalue⟩ := uint_digits_spec hv (by omega)
    have hdigits : ∀ d ∈ c :: ds, is_digit d = true :=
      forall_mem_cons.mpr ⟨is_digit_of_digit19 hc, fun d hd => is_digit_iff.mpr (hall d hd)⟩
    rw [hds]
    refine ⟨Or.inr (mem_mul.mpr ⟨[c], ⟨c, hc, rfl⟩, ds, hall, rfl⟩), cons_ne_nil _ _, hdigits, hvalue, ?_⟩
    rintro ⟨⟩
    exact absurd (is_digit_of_digit19 hc) (by decide)

/-- `json_int` reads digits whose number is within the limit. -/
theorem int_digits_eq {limit mag : Nat} {any : Bool} {ds} (hds : ∀ d ∈ ds, is_digit d = true)
    (hlimit : decimal_value mag ds ≤ limit) :
    int_digits limit ds mag any = some (decimal_value mag ds, any || !ds.isEmpty, []) := by
  induction ds generalizing mag any with
  | nil => simp [int_digits, decimal_value]
  | cons c ds ih =>
    have hle := le_decimal_value (mag * 10 + (c.toNat - 0x30)) ds
    change decimal_value (mag * 10 + (c.toNat - 0x30)) ds ≤ limit at hlimit
    have hdiv : ¬ limit / 10 < mag := by omega
    have hmag : ¬ limit < mag * 10 + (c.toNat - 0x30) := by omega
    rw [int_digits, if_pos (hds c mem_cons_self), if_neg hdiv]
    simp only [if_neg hmag]
    rw [ih (fun d hd => hds d (mem_cons_of_mem c hd)) hlimit]
    simp [decimal_value]

theorem int_digits_decimal {limit v : Nat} (hv : v < 10 ^ 20) (hlimit : v ≤ limit) :
    int_digits limit (decimal v) 0 false = some (v, true, []) := by
  obtain ⟨-, hne, hdigits, hvalue, -⟩ := decimal_spec hv
  rw [int_digits_eq hdigits (by rwa [hvalue]), hvalue]
  simpa using hne

theorem json_put_uint_eq {w} {v : Nat} (hok : w.overflow = false) (hroom : w.len + (decimal v).length < w.cap) :
    json_put_uint w v = w.push (decimal v) :=
  foldl_json_put_char hok hroom

/-- The text of an integer. -/
def int_text (v : Int64) : List UInt8 :=
  if v.toInt < 0 then MINUS :: decimal ((-(v.toInt + 1)).toNat + 1) else decimal v.toInt.toNat

theorem length_decimal_le (v : Nat) : (decimal v).length ≤ 20 := by
  have hdigits (fuel v : Nat) : (uint_digits fuel v).length ≤ fuel := by
    induction fuel generalizing v with
    | zero => exact le_refl _
    | succ fuel ih =>
      rw [uint_digits]
      split
      · exact Nat.zero_le _
      · rw [length_cons]
        have hrest := ih (v / 10)
        omega
  rw [decimal, length_reverse]
  split
  · decide
  · exact hdigits 20 v

theorem json_put_int_eq {w v} (hok : w.overflow = false) (hroom : w.len + (int_text v).length < w.cap) :
    json_put_int w v = w.push (int_text v) := by
  rw [json_put_int, int_text] at *
  split at hroom
  · rename_i hneg
    rw [length_cons] at hroom
    rw [if_pos hneg, if_pos hneg, json_put_char_of_room hok (by omega), json_put_uint_eq (w := w.push _) hok, push_push,
      singleton_append]
    rw [push_len, push_cap, length_singleton]
    omega
  · rename_i hneg
    rw [if_neg hneg, if_neg hneg, json_put_uint_eq hok hroom]

theorem room_of_json_put_int {w v} (h : (json_put_int w v).overflow = false) :
    w.overflow = false ∧ w.len + (int_text v).length < w.cap := by
  have hne (v : Nat) : decimal v ≠ [] := by
    rw [decimal, reverse_ne_nil_iff]
    split
    · exact cons_ne_nil _ _
    · rename_i hpos
      rw [uint_digits, if_neg hpos]
      exact cons_ne_nil _ _
  rw [json_put_int] at h
  rw [int_text]
  split at h
  · rename_i hneg
    obtain ⟨hok, hroom⟩ := room_of_foldl_json_put_char (hne _) h
    obtain ⟨hok', hroom'⟩ := room_of_json_put_char hok
    rw [json_put_char_of_room hok' hroom', push_len, push_cap, length_singleton] at hroom
    rw [if_pos hneg, length_cons]
    exact ⟨hok', by omega⟩
  · rename_i hneg
    rw [if_neg hneg]
    exact room_of_foldl_json_put_char (hne _) h

theorem int_text_number (v : Int64) : int_text v ∈ number := by
  have hbound := v.toInt_lt
  have hbound' := v.le_toInt
  have hdecimal {n : Nat} (hn : n < 10 ^ 20) : decimal n ∈ int * ((frac + 1) * (exp + 1)) :=
    mem_mul.mpr ⟨_, (decimal_spec hn).1, [],
      mem_mul.mpr ⟨[], Or.inr rfl, [], Or.inr rfl, rfl⟩, append_nil _⟩
  rw [int_text]
  split
  · exact mem_mul.mpr ⟨[MINUS], Or.inl rfl, _, hdecimal (by omega), rfl⟩
  · exact mem_mul.mpr ⟨[], Or.inr rfl, _, hdecimal (by omega), rfl⟩

/-- `json_int` gives back the integer that a text was written for. -/
theorem json_int_int_text (v : Int64) :
    json_int (some ⟨.number, some (int_text v), (int_text v).length⟩) = (JSON_OK, some v.toInt) := by
  have hbound := v.toInt_lt
  have hbound' := v.le_toInt
  have htext : (json_value_t.mk .number (some (int_text v)) (int_text v).length).text = int_text v := by
    have hlocated := @text_located .number [] (int_text v)
    rwa [append_nil] at hlocated
  rw [json_int]
  simp only [ne_eq, not_true_eq_false, if_false, htext]
  by_cases hneg : v.toInt < 0
  · have hread := @int_digits_decimal 0x8000000000000000 ((-(v.toInt + 1)).toNat + 1) (by omega) (by omega)
    simp only [int_text, if_pos hneg, head?_cons, tail_cons, if_true, hread, Bool.true_eq_false, if_false,
      skip_fraction, not_true_eq_false, Prod.mk.injEq, true_and, Option.some.injEq]
    omega
  · have hread := @int_digits_decimal 0x7FFFFFFFFFFFFFFF v.toInt.toNat (by omega) (by omega)
    obtain ⟨-, -, -, -, hhead⟩ := @decimal_spec v.toInt.toNat (by omega)
    simp only [int_text, if_neg hneg, hhead, if_false, hread, Bool.true_eq_false, skip_fraction, not_true_eq_false,
      Prod.mk.injEq, true_and, Option.some.injEq]
    omega

end Integers

theorem json_parse_value {type v} (h : Value JSON_MAX_DEPTH type v) :
    json_parse (some v) = (JSON_OK, ⟨type, some v, v.length⟩) := by
  have hrun := json_parse_complete ⟨forall_mem_nil _, h, forall_mem_nil _⟩
  rwa [append_nil, nil_append] at hrun

theorem json_parse_string {t us} (h : Units t us) :
    json_parse (some (QUOTE :: (t ++ [QUOTE]))) =
      (JSON_OK, ⟨.string, some (QUOTE :: (t ++ [QUOTE])), (QUOTE :: (t ++ [QUOTE])).length⟩) :=
  json_parse_value (Production.string (mem_string_iff.mpr ⟨t, us, rfl, h⟩))

theorem json_parse_int_text (v : Int64) :
    json_parse (some (int_text v)) = (JSON_OK, ⟨.number, some (int_text v), (int_text v).length⟩) :=
  json_parse_value (Production.number (int_text_number v))

/-- What the writer appends, the reader gives back. A string that is written
    without an overflow is accepted as a string and decoded to the same bytes,
    and the text of an integer is read as that integer. Six bytes for each one
    of the string and its two quotes, or a sign and twenty digits, are room
    enough. -/
theorem written_text_reads_back (w : json_writer_t) :
    (∀ s : cstr_t, w.overflow = false → w.len + 6 * s.bytes.length + 2 < w.cap →
      (json_put_string w s).overflow = false) ∧
    (∀ s : cstr_t, (json_put_string w s).overflow = false → ∃ t v, (json_put_string w s).text = w.text ++ t ∧
      json_parse (some t) = (JSON_OK, v) ∧ v.type = .string ∧
      ∀ cap, s.bytes.length < cap → json_str (some v) cap = (JSON_OK, s.bytes)) ∧
    (∀ i : Int64, w.overflow = false → w.len + 21 < w.cap → (json_put_int w i).overflow = false) ∧
    (∀ i : Int64, (json_put_int w i).overflow = false → ∃ t v, (json_put_int w i).text = w.text ++ t ∧
      json_parse (some t) = (JSON_OK, v) ∧ json_int (some v) = (JSON_OK, some i.toInt)) := by
  refine ⟨?_, ?_, ?_, ?_⟩
  · intro s hok hroom
    have hlength := length_escaped_le s.bytes
    rw [json_put_string_eq hok (by omega)]
    exact hok
  · intro s hdone
    obtain ⟨hok, hroom⟩ := room_of_json_put_string hdone
    have hstr (cap : Nat) (hcap : s.bytes.length < cap) :=
      @json_str_located (escaped s.bytes) [] cap s.bytes (decodes_escaped s.bytes) hcap
    rw [append_nil] at hstr
    rw [json_put_string_eq hok hroom]
    exact ⟨_, _, rfl, json_parse_string (units_escaped s.bytes), rfl, hstr⟩
  · intro i hok hroom
    have hlength : (int_text i).length ≤ 21 := by
      have hneg := length_decimal_le ((-(i.toInt + 1)).toNat + 1)
      have hpos := length_decimal_le i.toInt.toNat
      rw [int_text]
      split
      · rw [length_cons]
        omega
      · omega
    rw [json_put_int_eq hok (by omega)]
    exact hok
  · intro i hdone
    obtain ⟨hok, hroom⟩ := room_of_json_put_int hdone
    rw [json_put_int_eq hok hroom]
    exact ⟨_, _, rfl, json_parse_int_text i, json_int_int_text i⟩

/-- A quote and a byte from `0x80` on, in a writer with room for sixteen. -/
theorem quote_reads_back :
    (json_put_string (json_writer_init true 16) ⟨[0x22, 0xFF], by decide⟩).overflow = false ∧
      ∃ t v, (json_put_string (json_writer_init true 16) ⟨[0x22, 0xFF], by decide⟩).text = [] ++ t ∧
        json_parse (some t) = (JSON_OK, v) ∧ v.type = .string ∧
        ∀ cap, 2 < cap → json_str (some v) cap = (JSON_OK, [0x22, 0xFF]) := by
  have hroom : (json_put_string (json_writer_init true 16) ⟨[0x22, 0xFF], by decide⟩).overflow = false :=
    (written_text_reads_back (json_writer_init true 16)).1 ⟨[0x22, 0xFF], by decide⟩ (by decide) (by decide)
  exact ⟨hroom, (written_text_reads_back (json_writer_init true 16)).2.1 _ hroom⟩

end fable.json
