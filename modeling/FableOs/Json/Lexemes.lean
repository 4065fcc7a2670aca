import FableOs.Json.Grammar

namespace fable.json

open Scanner List Language

section Classes

variable {c : UInt8}

theorem is_ws_iff : is_ws c = true ↔ IsWs c := by
  simp [is_ws, IsWs, or_assoc]

theorem is_digit_iff : is_digit c = true ↔ Digit c := by
  simp [is_digit, Digit]

theorem is_digit_of_digit19 (h : Digit19 c) : is_digit c = true :=
  is_digit_iff.mpr ⟨UInt8.le_trans (show (0x30 : UInt8) ≤ 0x31 by decide) h.1, h.2⟩

theorem is_hex_iff : is_hex c = true ↔ HexDigit c := by
  simp [is_hex, HexDigit, Digit, or_assoc]

theorem is_escape_iff :
    is_escape c = true ↔ c ∈ [(0x22 : UInt8), 0x5C, 0x2F, 0x62, 0x66, 0x6E, 0x72, 0x74] := by
  simp [is_escape, or_assoc]

end Classes

section WhiteSpace

/-- What `skip_ws` steps over is white space. -/
theorem skip_ws_split (p : ptr_t) : ∃ w ∈ ws, p = w ++ skip_ws p := by
  obtain ⟨w, hw, heq⟩ := dropWhile_split is_ws p
  exact ⟨w, fun c hc => is_ws_iff.mp (hw c hc), heq⟩

/-- All of the white space is stepped over when none follows. -/
theorem skip_ws_append {w r : ptr_t} (hw : w ∈ ws) (hr : Clear is_ws r) : skip_ws (w ++ r) = r :=
  dropWhile_append_of_clear (fun c hc => is_ws_iff.mpr (hw c hc)) hr

end WhiteSpace

section Strings

/-- What stands between the quotes. -/
abbrev char : Language UInt8 := unescaped + escape + unicode

/-- One more character may stand in front of the rest of a string. -/
theorem char_append {x v l} (hx : x ∈ char) (hv : v ∈ KStar.kstar char * l) : x ++ v ∈ KStar.kstar char * l := by
  obtain ⟨a, ha, b, hb, rfl⟩ := mem_mul.mp hv
  obtain ⟨parts, rfl, hparts⟩ := mem_kstar.mp ha
  have hall : ∀ y ∈ x :: parts, y ∈ char := forall_mem_cons.mpr ⟨hx, hparts⟩
  refine mem_mul.mpr ⟨(x :: parts).flatten, mem_kstar.mpr ⟨x :: parts, rfl, hall⟩, b, hb, ?_⟩
  rw [flatten_cons, append_assoc]

/-- The encoded form of a character: a backslash, `u` and four hexadecimal digits. -/
theorem mem_unicode {x} :
    x ∈ unicode ↔ ∃ a b c d, x = [0x5C, 0x75, a, b, c, d] ∧ HexDigit a ∧ HexDigit b ∧ HexDigit c ∧ HexDigit d := by
  simp only [unicode, mem_mul, mem_word, mem_letter]
  constructor
  · rintro ⟨_, rfl, _, ⟨_, ⟨a, ha, rfl⟩, _, ⟨_, ⟨b, hb, rfl⟩, _, ⟨_, ⟨c, hc, rfl⟩, _, ⟨d, hd, rfl⟩, rfl⟩, rfl⟩, rfl⟩, rfl⟩
    exact ⟨a, b, c, d, rfl, ha, hb, hc, hd⟩
  · rintro ⟨a, b, c, d, rfl, ha, hb, hc, hd⟩
    exact ⟨_, rfl, _, ⟨_, ⟨a, ha, rfl⟩, _, ⟨_, ⟨b, hb, rfl⟩, _, ⟨_, ⟨c, hc, rfl⟩, _, ⟨d, hd, rfl⟩, rfl⟩, rfl⟩, rfl⟩, rfl⟩

/-- The short form: a backslash and one of the eight letters. -/
theorem mem_escape {x} : x ∈ escape ↔ ∃ c, x = [0x5C, c] ∧ is_escape c = true := by
  simp only [escape, mem_mul, mem_word, mem_letter, is_escape_iff]
  constructor
  · rintro ⟨_, rfl, _, ⟨c, hc, rfl⟩, rfl⟩
    exact ⟨c, rfl, hc⟩
  · rintro ⟨c, rfl, hc⟩
    exact ⟨_, rfl, _, ⟨c, hc, rfl⟩, rfl⟩

/-- Behind the opening quote, what is scanned is characters up to a closing quote. -/
theorem scan_chars_sound : Sound scan_chars (KStar.kstar char * word [QUOTE]) := by
  intro p r hrun
  fun_induction scan_chars p with
  | case1 => cases hrun
  | case2 p =>
    cases hrun
    exact ⟨[QUOTE], mem_mul.mpr ⟨[], nil_mem_kstar _, [QUOTE], rfl, rfl⟩, rfl⟩
  | case3 | case4 => cases hrun
  | case5 e p hescape _ _ ih =>
    obtain ⟨v, hv, rfl⟩ := ih hrun
    have hx : [BACKSLASH, e] ∈ char := Or.inl (Or.inr (mem_escape.mpr ⟨e, rfl, hescape⟩))
    exact ⟨_, char_append hx hv, rfl⟩
  | case6 a b c d p hhex _ _ _ ih =>
    obtain ⟨v, hv, rfl⟩ := ih hrun
    simp only [Bool.and_eq_true, is_hex_iff, and_assoc] at hhex
    have hx : [BACKSLASH, LOWER_U, a, b, c, d] ∈ char := Or.inr (mem_unicode.mpr ⟨a, b, c, d, rfl, hhex⟩)
    exact ⟨_, char_append hx hv, rfl⟩
  | case7 | case8 | case9 => cases hrun
  | case10 ch p hquote hcontrol hslash ih =>
    obtain ⟨v, hv, rfl⟩ := ih hrun
    have hx : [ch] ∈ char := Or.inl (Or.inl ⟨ch, ⟨UInt8.not_lt.mp hcontrol, hquote, hslash⟩, rfl⟩)
    exact ⟨_, char_append hx hv, rfl⟩

/-- The loop takes one character of the grammar at a time. -/
theorem scan_chars_char {x} (hx : x ∈ char) (r : ptr_t) : scan_chars (x ++ r) = scan_chars r := by
  rcases hx with (⟨c, ⟨hcontrol, hquote, hslash⟩, rfl⟩ | hx) | hx
  · have hlt : ¬ c < 0x20 := UInt8.not_lt.mpr hcontrol
    rw [cons_append, nil_append, scan_chars.eq_def]
    simp only [if_neg hquote, if_neg hlt, if_neg hslash]
  · obtain ⟨c, rfl, hc⟩ := mem_escape.mp hx
    have hquote : BACKSLASH ≠ QUOTE := by decide
    have hcontrol : ¬ BACKSLASH < 0x20 := by decide
    rw [cons_append, cons_append, nil_append, scan_chars.eq_def]
    simp only [if_neg hquote, if_neg hcontrol, if_true, hc]
  · obtain ⟨a, b, c, d, rfl, ha, hb, hc, hd⟩ := mem_unicode.mp hx
    have hquote : BACKSLASH ≠ QUOTE := by decide
    have hcontrol : ¬ BACKSLASH < 0x20 := by decide
    have hu : ¬ is_escape LOWER_U = true := by decide
    rw [← is_hex_iff] at ha hb hc hd
    simp only [cons_append, nil_append]
    rw [scan_chars.eq_def]
    simp [if_neg hquote, if_neg hu, ha, hb, hc, hd]

/-- Every run of characters with a closing quote is scanned, whatever follows it. -/
theorem scan_chars_complete : Complete scan_chars (KStar.kstar char * word [QUOTE]) fun _ => True := by
  intro v r hv _
  obtain ⟨a, ha, b, hb, rfl⟩ := mem_mul.mp hv
  obtain ⟨parts, rfl, hparts⟩ := mem_kstar.mp ha
  rw [mem_word.mp hb, append_assoc]
  clear hv ha
  induction parts with
  | nil =>
    rw [flatten_nil, nil_append, cons_append, scan_chars.eq_def]
    rfl
  | cons x rest ih =>
    rw [flatten_cons, append_assoc, scan_chars_char (hparts x mem_cons_self)]
    exact ih fun y hy => hparts y (mem_cons_of_mem x hy)

theorem scan_string_eq : scan_string = either (· = QUOTE) scan_chars fun _ => .error JSON_EINVAL := by
  funext p
  cases p <;> rfl

theorem string_eq : string = letter (· = QUOTE) * (KStar.kstar char * word [QUOTE]) + 0 := by
  rw [letter_eq, add_zero]
  rfl

/-- What `scan_string` takes is a string of the grammar. -/
theorem scan_string_sound : Sound scan_string string := by
  rw [scan_string_eq, string_eq]
  exact scan_chars_sound.either fun p r hrun => by cases hrun

/-- Every string of the grammar is taken, whatever follows it. -/
theorem scan_string_complete : Complete scan_string string fun _ => True := by
  rw [scan_string_eq, string_eq]
  exact scan_chars_complete.either (fun v r hv => hv.elim) (fun _ => id) fun v r hv => hv.elim

end Strings

section Numbers

/-- What may not follow a number: it would be taken for a part of it. -/
def is_number_char (c : UInt8) : Bool := is_digit c || c = DOT || c = LOWER_E || c = UPPER_E

/-- One digit, and then any number of them. -/
theorem digits_iff {v} :
    v ∈ digits ↔ ∃ c rest, v = c :: rest ∧ is_digit c = true ∧ ∀ d ∈ rest, is_digit d = true := by
  simp only [digits, mem_mul, mem_letter, mem_letters, is_digit_iff]
  constructor
  · rintro ⟨_, ⟨c, hc, rfl⟩, rest, hrest, rfl⟩
    exact ⟨c, rest, rfl, hc, hrest⟩
  · rintro ⟨c, rest, rfl, hc, hrest⟩
    exact ⟨[c], ⟨c, hc, rfl⟩, rest, hrest, rfl⟩

theorem skip_digits_split {c} (p : ptr_t) (hc : is_digit c = true) :
    ∃ rest, (∀ d ∈ rest, is_digit d = true) ∧ c :: p = c :: rest ++ skip_digits (c :: p) := by
  obtain ⟨rest, hrest, heq⟩ := dropWhile_split is_digit p
  refine ⟨rest, hrest, ?_⟩
  have hskip : skip_digits (c :: p) = p.dropWhile is_digit := dropWhile_cons_of_pos hc
  rw [hskip, cons_append, ← heq]

theorem skip_digits_append {v r : ptr_t} (hv : ∀ d ∈ v, is_digit d = true) (hr : Clear is_digit r) :
    skip_digits (v ++ r) = r :=
  dropWhile_append_of_clear hv hr

/-- What `scan_digits` takes is at least one digit, and digits only. -/
theorem scan_digits_sound : Sound scan_digits digits := by
  intro p r hrun
  cases p with
  | nil => cases hrun
  | cons c p =>
    by_cases hc : is_digit c = true
    · rw [scan_digits, if_pos hc] at hrun
      cases hrun
      obtain ⟨rest, hrest, heq⟩ := skip_digits_split p hc
      exact ⟨c :: rest, digits_iff.mpr ⟨c, rest, rfl, hc, hrest⟩, heq⟩
    · rw [scan_digits, if_neg hc] at hrun
      cases hrun

/-- Digits are taken to the last one. -/
theorem scan_digits_complete : Complete scan_digits digits (Clear is_digit) := by
  intro v r hv hr
  obtain ⟨c, rest, rfl, hc, hrest⟩ := digits_iff.mp hv
  have hskip := skip_digits_append (forall_mem_cons.mpr ⟨hc, hrest⟩) hr
  rw [cons_append] at hskip ⊢
  rw [scan_digits, if_pos hc, hskip]

/-- What `scan_int` takes has no zero in front of other digits. -/
theorem scan_int_sound : Sound scan_int int := by
  intro p r hrun
  cases p with
  | nil => cases hrun
  | cons c p =>
    by_cases hzero : c = ZERO
    · rw [scan_int, if_pos hzero] at hrun
      cases hrun
      exact ⟨[c], Or.inl (by rw [hzero]; rfl), rfl⟩
    rw [scan_int, if_neg hzero] at hrun
    by_cases hc : is_digit c = true
    · cases (if_pos hc).symm.trans hrun
      obtain ⟨rest, hrest, heq⟩ := skip_digits_split p hc
      have hfirst : Digit19 c := by
        obtain ⟨hlo, hhi⟩ := is_digit_iff.mp hc
        refine ⟨?_, hhi⟩
        rw [UInt8.le_iff_toNat_le] at hlo ⊢
        have hne : c.toNat ≠ 0x30 := fun heq => hzero (UInt8.toNat_inj.mp heq)
        simp only [UInt8.toNat_ofNat] at hlo ⊢
        omega
      refine ⟨c :: rest, Or.inr (mem_mul.mpr ⟨[c], ⟨c, hfirst, rfl⟩, rest, ?_, rfl⟩), heq⟩
      exact fun d hd => is_digit_iff.mp (hrest d hd)
    · cases (if_neg hc).symm.trans hrun

/-- An integer part is taken to its last digit. -/
theorem scan_int_complete : Complete scan_int int (Clear is_digit) := by
  intro v r hv hr
  rcases hv with rfl | hv
  · rfl
  · obtain ⟨_, ⟨c, hfirst, rfl⟩, rest, hrest, rfl⟩ := mem_mul.mp hv
    have hc := is_digit_of_digit19 hfirst
    have hzero : c ≠ ZERO := by
      rintro rfl
      exact absurd hfirst.1 (by decide)
    have hskip := skip_digits_append (forall_mem_cons.mpr ⟨hc, fun d hd => is_digit_iff.mpr (hrest d hd)⟩) hr
    rw [cons_append] at hskip
    rw [cons_append, nil_append, cons_append, scan_int, if_neg hzero, if_pos hc, hskip]

theorem scan_frac_eq : scan_frac = either (· = DOT) scan_digits .ok := by
  funext p
  cases p <;> rfl

theorem frac_eq : frac = letter (· = DOT) * digits := by
  rw [letter_eq]
  rfl

/-- What `scan_frac` takes is a point with digits, or nothing. -/
theorem scan_frac_sound : Sound scan_frac (frac + 1) := by
  rw [scan_frac_eq, frac_eq]
  exact scan_digits_sound.either sound_ok

/-- A fraction is taken whole, and its absence is no error. -/
theorem scan_frac_complete : Complete scan_frac (frac + 1) (Clear fun c => is_digit c || c = DOT) := by
  rw [scan_frac_eq, frac_eq]
  refine scan_digits_complete.either complete_ok (fun r hr => hr.mono fun c hc => by simp [hc]) ?_
  rintro _ r rfl hr c hc
  have hclear := hr c hc
  simp only [Bool.or_eq_false_iff, decide_eq_false_iff_not] at hclear
  exact hclear.2

theorem skip_sign_eq : skip_sign = skip fun c => c = PLUS ∨ c = MINUS := by
  funext p
  cases p <;> rfl

theorem scan_exp_eq :
    scan_exp = either (fun c => c = LOWER_E ∨ c = UPPER_E) (fun p => .ok (skip_sign p) >>= scan_digits) .ok := by
  funext p
  cases p <;> rfl

/-- What `scan_exp` takes is an exponent with digits, or nothing. -/
theorem scan_exp_sound : Sound scan_exp (exp + 1) := by
  rw [scan_exp_eq, skip_sign_eq]
  exact (sound_skip.bind scan_digits_sound).either sound_ok

/-- An exponent is taken whole, and its absence is no error. -/
theorem scan_exp_complete : Complete scan_exp (exp + 1) (Clear is_number_char) := by
  rw [scan_exp_eq, skip_sign_eq]
  refine (complete_skip.bind scan_digits_complete ?_).either complete_ok ?_ ?_
  · rintro v r hv - d hd
    obtain ⟨c, rest, rfl, hc, -⟩ := digits_iff.mp hv
    cases hd
    rintro (rfl | rfl) <;> cases hc
  · exact fun r hr => hr.mono fun c hc => by simp [is_number_char, hc]
  · rintro _ r rfl hr c hc
    have hclear := hr c hc
    simp only [is_number_char, Bool.or_eq_false_iff, decide_eq_false_iff_not] at hclear
    exact not_or.mpr ⟨hclear.1.2, hclear.2⟩

/-- Everything of a number but its sign. -/
def scan_unsigned : Scanner Int UInt8 := fun p => scan_int p >>= fun p => scan_frac p >>= scan_exp

theorem scan_unsigned_sound : Sound scan_unsigned (int * ((frac + 1) * (exp + 1))) :=
  scan_int_sound.bind (scan_frac_sound.bind scan_exp_sound)

/-- Neither a digit nor a point starts an exponent. -/
theorem exp_clear {w} (hw : w ∈ exp + 1) : Clear (fun c => is_digit c || c = DOT) w := by
  rcases hw with hw | rfl
  · obtain ⟨_, ⟨c, hc, rfl⟩, x, -, rfl⟩ := mem_mul.mp hw
    rw [cons_append, clear_cons]
    rcases hc with rfl | rfl <;> decide
  · exact clear_nil _

/-- No digit starts a fraction. -/
theorem frac_clear {w} (hw : w ∈ frac + 1) : Clear is_digit w := by
  rcases hw with hw | rfl
  · obtain ⟨_, rfl, x, -, rfl⟩ := mem_mul.mp hw
    rw [cons_append, clear_cons]
    decide
  · exact clear_nil _

theorem scan_unsigned_complete : Complete scan_unsigned (int * ((frac + 1) * (exp + 1))) (Clear is_number_char) := by
  refine scan_int_complete.bind (scan_frac_complete.bind scan_exp_complete ?_) ?_
  · intro w r hw hr
    refine clear_append (exp_clear hw) fun _ => hr.mono fun c hc => ?_
    simp only [Bool.or_eq_true, decide_eq_true_eq] at hc
    simp only [is_number_char, Bool.or_eq_true, decide_eq_true_eq]
    exact Or.inl (Or.inl hc)
  · intro w r hw hr
    obtain ⟨f, hf, e, he, rfl⟩ := mem_mul.mp hw
    have hdigit (c : UInt8) (hc : is_digit c = true) : (is_digit c || decide (c = DOT)) = true := by
      rw [hc, Bool.true_or]
    rw [append_assoc]
    refine clear_append (frac_clear hf) fun _ => clear_append ((exp_clear he).mono hdigit) fun _ => hr.mono fun c hc => ?_
    simp [is_number_char, hc]

/-- A number without its sign starts with a digit. -/
theorem unsigned_head {v} (hv : v ∈ int * ((frac + 1) * (exp + 1))) :
    ∃ c rest, v = c :: rest ∧ is_digit c = true := by
  obtain ⟨i, hi, x, -, rfl⟩ := mem_mul.mp hv
  rcases hi with rfl | hi
  · exact ⟨_, _, rfl, by decide⟩
  · obtain ⟨_, ⟨c, hfirst, rfl⟩, rest, -, rfl⟩ := mem_mul.mp hi
    exact ⟨c, rest ++ x, rfl, is_digit_of_digit19 hfirst⟩

/-- A number, before the test whether anything was scanned. -/
def scan_signed : Scanner Int UInt8 := fun p => .ok (skip (· = MINUS) p) >>= scan_unsigned

theorem number_eq : number = (letter (· = MINUS) + 1) * (int * ((frac + 1) * (exp + 1))) := by
  rw [letter_eq]
  rfl

theorem scan_number_eq (s : ptr_t) :
    scan_number s = scan_signed s >>= fun p => if p.length = s.length then .error JSON_EINVAL else .ok p := by
  have hskip : skip_minus s = skip (· = MINUS) s := by cases s <;> rfl
  simp only [scan_number, scan_signed, scan_unsigned, hskip, bind_assoc, ok_bind]

/-- What `scan_number` takes is a number of the grammar. -/
theorem scan_number_sound : Sound scan_number number := by
  intro s r hrun
  rw [scan_number_eq] at hrun
  obtain ⟨p, hp, hrun⟩ := except_bind_eq_ok_iff.mp hrun
  split at hrun
  · cases hrun
  cases hrun
  rw [number_eq]
  exact sound_skip.bind scan_unsigned_sound s r hp

/-- A number of the grammar is taken whole, up to a byte that no number goes on
    with. -/
theorem scan_number_complete : Complete scan_number number (Clear is_number_char) := by
  intro x r hx hr
  rw [number_eq] at hx
  have hsigned : scan_signed (x ++ r) = .ok r := by
    refine complete_skip.bind scan_unsigned_complete ?_ x r hx hr
    rintro v r hv - d hd
    obtain ⟨c, rest, rfl, hc⟩ := unsigned_head hv
    cases hd
    rintro rfl
    cases hc
  have hlength : ¬ r.length = (x ++ r).length := by
    obtain ⟨sign, -, v, hv, rfl⟩ := mem_mul.mp hx
    obtain ⟨c, rest, rfl, -⟩ := unsigned_head hv
    simp only [length_append, length_cons]
    omega
  rw [scan_number_eq, hsigned]
  exact if_neg hlength

end Numbers

section Literals

variable {lit : List UInt8}

/-- What `scan_lit` takes is the word it was given. -/
theorem scan_lit_sound : Sound (scan_lit lit) (word lit) := by
  intro p r hrun
  unfold scan_lit at hrun
  split at hrun
  · rename_i hpre
    cases hrun
    refine ⟨lit, rfl, ?_⟩
    rw [List.isPrefixOf_iff_prefix, prefix_iff_eq_append] at hpre
    exact hpre.symm
  · cases hrun

/-- The word is taken, whatever follows it. -/
theorem scan_lit_complete : Complete (scan_lit lit) (word lit) fun _ => True := by
  intro v r hv _
  rw [mem_word.mp hv]
  have hpre : lit.isPrefixOf (lit ++ r) = true := by
    rw [List.isPrefixOf_iff_prefix]
    exact prefix_append lit r
  rw [scan_lit, if_pos hpre, drop_left]

end Literals

end fable.json
