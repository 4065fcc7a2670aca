import FableOs.Json.Records

namespace fable.chat

/-! The model's prose on the console: what it may put where, and where it leaves the
cursor. -/

open fable.json fable.record List
open fable.sse (ascii)

abbrev UNICODE_REPLACEMENT : Nat := 0xFFFD

section Console

/-- A sequence in progress. Only a sequence of several bytes is ever in progress,
    and none of those may encode an ASCII character. -/
structure utf8_stream_t where
  acc : Nat
  pending : Nat
  seen : Nat
  lowest : Nat
  multibyte : pending ≠ 0 → 0x80 ≤ lowest

def utf8_stream_reset : utf8_stream_t := ⟨0, 0, 0, 0, fun h => absurd rfl h⟩

inductive utf8_rc_t where
  | ok (cp : Nat)
  | more
  | bad
  | bad_retry

/-- How long a sequence its first byte announces, with the bits it carries and the
    least value that needs that length. -/
def lead_length (b : UInt8) : Option (Nat × Nat × Nat) :=
  if b < 0x80 then some (1, b.toNat, 0)
  else if b < 0xC2 then none
  else if b < 0xE0 then some (2, (b &&& 0x1F).toNat, 0x80)
  else if b < 0xF0 then some (3, (b &&& 0x0F).toNat, 0x800)
  else if b < 0xF5 then some (4, (b &&& 0x07).toNat, 0x10000)
  else none

theorem lead_length_lowest {b} {len acc lowest : Nat} (h : lead_length b = some (len, acc, lowest)) (hlen : len ≠ 1) :
    0x80 ≤ lowest := by
  unfold lead_length at h
  split_ifs at h <;> cases h <;> first | exact absurd rfl hlen | decide

def value_ok (cp lowest : Nat) : Bool := lowest ≤ cp && !(0xD800 ≤ cp && cp ≤ 0xDFFF) && cp ≤ 0x10FFFF

def utf8_feed (st : utf8_stream_t) (byte : UInt8) : utf8_stream_t × utf8_rc_t :=
  if st.pending ≠ 0 then
    if byte &&& 0xC0 ≠ 0x80 then (utf8_stream_reset, .bad_retry)
    else
      let acc := (st.acc <<< 6) ||| (byte &&& 0x3F).toNat
      if st.seen + 1 < st.pending then ({ st with acc := acc, seen := st.seen + 1 }, .more)
      else (utf8_stream_reset, if value_ok acc st.lowest then .ok acc else .bad)
  else
    match h : lead_length byte with
    | none => (st, .bad)
    | some (len, acc, lowest) =>
      if hlen : len = 1 then (st, .ok acc)
      else (⟨acc, len - 1, 0, lowest, fun _ => lead_length_lowest h hlen⟩, .more)

/-- A code point on its way to the grid, and where the cursor was. -/
structure mark_t where
  cp : Nat
  pos : Nat
  col : Nat

/-- The console's cursor and the state of its decoder. The cells are left out; `trace`
    has every code point in the order of `emit_codepoint`. -/
structure console_t where
  rows : Nat
  cols : Nat
  cur_row : Nat
  cur_col : Nat
  scrolls : Nat
  ustream : utf8_stream_t
  trace : List mark_t
  row_lt : cur_row < rows
  col_lt : cur_col < cols

/-- The cursor in reading order, with the lines that were scrolled away. -/
def console_t.pos (con : console_t) : Nat := (con.scrolls + con.cur_row) * con.cols + con.cur_col

def console_t.mark (con : console_t) (cp : Nat) : console_t :=
  { con with trace := con.trace ++ [⟨cp, con.pos, con.cur_col⟩] }

/-- `cur_col = 0; if (++cur_row >= con_rows) scroll();` -/
def line_feed (con : console_t) : console_t :=
  have := con.row_lt
  have := con.col_lt
  if h : con.cur_row + 1 < con.rows then { con with cur_row := con.cur_row + 1, cur_col := 0, row_lt := h, col_lt := by omega }
  else { con with cur_row := con.rows - 1, cur_col := 0, scrolls := con.scrolls + 1, row_lt := by omega, col_lt := by omega }

/-- The column behind a tab, or behind the slot that `put_slot` fills. -/
def next_col (col cp : Nat) : Nat := if cp = 0x09 then (col + 8) / 8 * 8 else col + 1

def emit_codepoint (con : console_t) (cp : Nat) : console_t :=
  let con := con.mark cp
  have := con.row_lt
  have := con.col_lt
  if cp = 0x0A then line_feed con
  else if cp = 0x0D then { con with cur_col := 0, col_lt := by omega }
  else if cp = 0x08 then
    if 0 < con.cur_col then { con with cur_col := con.cur_col - 1, col_lt := by omega }
    else if 0 < con.cur_row then
      { con with cur_row := con.cur_row - 1, cur_col := con.cols - 1, row_lt := by omega, col_lt := by omega }
    else con
  else if h : next_col con.cur_col cp < con.cols then { con with cur_col := next_col con.cur_col cp, col_lt := h }
  else line_feed con

/-- The loop of `kputc`: the code points that a byte completes. A byte that ended
    someone else's sequence is fed once more. -/
def code_points (st : utf8_stream_t) (b : UInt8) : utf8_stream_t × List Nat :=
  match utf8_feed st b with
  | (st, .more) => (st, [])
  | (st, .ok cp) => (st, [cp])
  | (st, .bad) => (st, [UNICODE_REPLACEMENT])
  | (st, .bad_retry) =>
    match utf8_feed st b with
    | (st, .more) => (st, [UNICODE_REPLACEMENT])
    | (st, .ok cp) => (st, [UNICODE_REPLACEMENT, cp])
    | (st, _) => (st, [UNICODE_REPLACEMENT, UNICODE_REPLACEMENT])

def kputc (con : console_t) (c : UInt8) : console_t :=
  let (st, cps) := code_points con.ustream c
  { cps.foldl emit_codepoint con with ustream := st }

def kputs (con : console_t) (s : text_t) : console_t := s.foldl kputc con

/-- The column of `console_cursor`: where the next printable character will land. -/
def console_cursor (con : console_t) : Nat :=
  if con.ustream.pending ≠ 0 then if con.cur_col + 1 < con.cols then con.cur_col + 1 else 0 else con.cur_col

end Console

section Prose

/-- One byte of `print_untrusted_n`. -/
def print_untrusted (con : console_t) (c : UInt8) : console_t :=
  if (c < 0x20 ∧ c ≠ 0x0A ∧ c ≠ 0x09) ∨ c = 0x7F then
    kputs con [0x5C, 0x78, hex_digit ((c.toNat >>> 4) &&& 0xF), hex_digit (c.toNat &&& 0xF)]
  else kputc (if c = 0x5B ∧ console_cursor con = 0 then kputc con 0x20 else con) c

/-- `print_model_prose`; the buffer counts up to its first zero. -/
def print_model_prose (con : console_t) (s : text_t) : console_t := (zstr s).foldl print_untrusted con

def CLIPPED : text_t := ascii "\n[chat: reply clipped to the print buffer]".toList

def print_text_block (con : console_t) (v : json_value_t) : console_t :=
  match json_str (some v) 8192 with
  | (rc, s) =>
    if (rc ≠ JSON_OK ∧ rc ≠ JSON_ENOSPC) ∨ s = [] then con
    else
      let con := print_model_prose con s
      let con := if rc = JSON_ENOSPC then kputs con CLIPPED else con
      if s.getLast? ≠ some 0x0A then kputc con 0x0A else con

end Prose

section Decoding

variable {st : utf8_stream_t} {b : UInt8}

theorem lead_length_ascii (h : b < 0x80) : lead_length b = some (1, b.toNat, 0) := if_pos h

theorem lead_length_high {len acc lowest : Nat} (hb : ¬ b < 0x80) (h : lead_length b = some (len, acc, lowest)) : 2 ≤ len := by
  unfold lead_length at h
  rw [if_neg hb] at h
  split_ifs at h <;> cases h <;> decide

/-- A byte between sequences: an ASCII character comes out at once, and anything else
    starts a sequence or is no character. -/
theorem utf8_feed_lead (hst : st.pending = 0) :
    (b < 0x80 ∧ utf8_feed st b = (st, .ok b.toNat)) ∨ (¬ b < 0x80 ∧ (utf8_feed st b = (st, .bad) ∨
      ∃ st', st'.pending ≠ 0 ∧ utf8_feed st b = (st', .more))) := by
  rw [utf8_feed, if_neg (not_not.mpr hst)]
  by_cases hb : b < 0x80
  · refine .inl ⟨hb, ?_⟩
    split
    · rename_i h
      cases (lead_length_ascii hb).symm.trans h
    · rename_i h
      cases (lead_length_ascii hb).symm.trans h
      rfl
  · refine .inr ⟨hb, ?_⟩
    split
    · exact .inl rfl
    · rename_i h
      have hlen := lead_length_high hb h
      rw [dif_neg (by omega)]
      exact .inr ⟨_, by change _ - 1 ≠ 0; omega, rfl⟩

theorem high_of_continuation (h : b &&& 0xC0 = 0x80) : ¬ b < 0x80 := by
  have hbit : b.toNat.testBit 7 = true := by
    have h := congrArg (fun x : UInt8 => x.toNat.testBit 7) h
    rw [UInt8.toNat_and, Nat.testBit_and] at h
    exact (Bool.and_eq_true_iff.mp h).1
  exact UInt8.not_lt.mpr (UInt8.le_iff_toNat_le.mpr (Nat.ge_two_pow_of_testBit hbit))

/-- What a byte brings to the grid. An ASCII character is always drawn, behind the
    mark of a sequence that it cut short; no other byte ever makes one. -/
theorem code_points_cases (st : utf8_stream_t) (b : UInt8) :
    (b < 0x80 ∧ ∃ st', st'.pending = 0 ∧
        code_points st b = (st', (if st.pending ≠ 0 then [UNICODE_REPLACEMENT] else []) ++ [b.toNat])) ∨
      (¬ b < 0x80 ∧ ∃ st' cps, code_points st b = (st', cps) ∧ (∀ cp ∈ cps, 0x80 ≤ cp) ∧ cps.length ≤ 2 ∧
        (cps = [] → st'.pending ≠ 0)) := by
  have hone : ∀ cp ∈ [UNICODE_REPLACEMENT], 0x80 ≤ cp := by decide
  have htwo : ∀ cp ∈ [UNICODE_REPLACEMENT, UNICODE_REPLACEMENT], 0x80 ≤ cp := by decide
  by_cases hst : st.pending = 0
  · obtain ⟨hb, hfeed⟩ | ⟨hb, hfeed | ⟨st', hst', hfeed⟩⟩ := @utf8_feed_lead st b hst
    · exact .inl ⟨hb, st, hst, by simp [code_points, hfeed, hst]⟩
    · exact .inr ⟨hb, st, _, by rw [code_points, hfeed], hone, by decide, fun h => nomatch h⟩
    · exact .inr ⟨hb, st', [], by rw [code_points, hfeed], nofun, by decide, fun _ => hst'⟩
  by_cases hcont : b &&& 0xC0 = 0x80
  · refine .inr ⟨high_of_continuation hcont, ?_⟩
    have hlow := st.multibyte hst
    rw [code_points, utf8_feed, if_pos hst, if_neg (not_not.mpr hcont)]
    by_cases hmore : st.seen + 1 < st.pending
    · rw [if_pos hmore]
      exact ⟨_, [], rfl, nofun, by decide, fun _ => hst⟩
    rw [if_neg hmore]
    by_cases hvalue : value_ok ((st.acc <<< 6) ||| (b &&& 0x3F).toNat) st.lowest = true
    · rw [if_pos hvalue]
      have hle : st.lowest ≤ (st.acc <<< 6) ||| (b &&& 0x3F).toNat := by
        simp only [value_ok, Bool.and_eq_true, decide_eq_true_eq] at hvalue
        exact hvalue.1.1
      exact ⟨_, _, rfl, forall_mem_singleton.mpr (hlow.trans hle), by simp, fun h => nomatch h⟩
    · rw [if_neg hvalue]
      exact ⟨_, _, rfl, hone, by decide, fun h => nomatch h⟩
  · have hretry : utf8_feed st b = (utf8_stream_reset, .bad_retry) := by
      rw [utf8_feed, if_pos hst, if_pos hcont]
    obtain ⟨hb, hfeed⟩ | ⟨hb, hfeed | ⟨st', hst', hfeed⟩⟩ := @utf8_feed_lead utf8_stream_reset b rfl
    · exact .inl ⟨hb, _, rfl, by simp only [code_points, hretry, hfeed, if_pos hst]; rfl⟩
    · exact .inr ⟨hb, utf8_stream_reset, _, by simp only [code_points, hretry, hfeed], htwo, by decide, fun h => nomatch h⟩
    · exact .inr ⟨hb, st', _, by simp only [code_points, hretry, hfeed], hone, by decide, fun h => nomatch h⟩

end Decoding

section Cursor

/-- What happened between two states of the console: marks that are all good, with a
    cursor that never went back. -/
structure Advances (good : mark_t → Prop) (con con' : console_t) : Prop where
  cols : con'.cols = con.cols
  le : con.pos ≤ con'.pos
  marks : ∃ new, con'.trace = con.trace ++ new ∧ (∀ m ∈ new, good m ∧ con.pos ≤ m.pos ∧ m.pos ≤ con'.pos) ∧
    new.Pairwise fun m m' => m.pos ≤ m'.pos

variable {good : mark_t → Prop} {con con' con'' : console_t}

theorem Advances.refl (con : console_t) : Advances good con con :=
  ⟨rfl, le_rfl, [], (append_nil _).symm, nofun, .nil⟩

theorem Advances.trans (h : Advances good con con') (h' : Advances good con' con'') : Advances good con con'' := by
  obtain ⟨new, htrace, hnew, hsorted⟩ := h.marks
  obtain ⟨new', htrace', hnew', hsorted'⟩ := h'.marks
  refine ⟨h'.cols.trans h.cols, h.le.trans h'.le, new ++ new', by rw [htrace', htrace, append_assoc],
    forall_mem_append.mpr ⟨fun m hm => ?_, fun m hm => ?_⟩, pairwise_append.mpr ⟨hsorted, hsorted', ?_⟩⟩
  · exact ⟨(hnew m hm).1, (hnew m hm).2.1, (hnew m hm).2.2.trans h'.le⟩
  · exact ⟨(hnew' m hm).1, h.le.trans (hnew' m hm).2.1, (hnew' m hm).2.2⟩
  · exact fun m hm m' hm' => (hnew m hm).2.2.trans (hnew' m' hm').2.1

theorem Advances.foldl {α : Type} {f} {as : List α} (h : ∀ con, ∀ a ∈ as, Advances good con (f con a))
    (con : console_t) : Advances good con (as.foldl f con) := by
  induction as generalizing con with
  | nil => exact .refl con
  | cons a as ih =>
    exact (h con a mem_cons_self).trans (ih (fun con b hb => h con b (mem_cons_of_mem a hb)) (f con a))

theorem Advances.forget (h : Advances good con con') : Advances (fun _ => True) con con' := by
  obtain ⟨new, htrace, hnew, hsorted⟩ := h.marks
  exact ⟨h.cols, h.le, new, htrace, fun m hm => ⟨trivial, (hnew m hm).2⟩, hsorted⟩

theorem Advances.decoder (h : Advances good con con') (st : utf8_stream_t) :
    Advances good con { con' with ustream := st } := ⟨h.cols, h.le, h.marks⟩

theorem pos_line_feed (con : console_t) : (line_feed con).pos = (con.scrolls + con.cur_row + 1) * con.cols := by
  have := con.row_lt
  rw [line_feed]
  split
  · rfl
  · simp only [console_t.pos, Nat.add_zero]
    congr 1
    omega

theorem pos_le_line_feed (con : console_t) : con.pos ≤ (line_feed con).pos := by
  have := con.col_lt
  rw [pos_line_feed, console_t.pos, Nat.add_mul _ 1, Nat.one_mul]
  omega

theorem line_feed_keeps (con : console_t) :
    (line_feed con).cols = con.cols ∧ (line_feed con).cur_col = 0 ∧ (line_feed con).trace = con.trace := by
  rw [line_feed]
  split <;> exact ⟨rfl, rfl, rfl⟩

/-- Neither a backspace nor a carriage return. -/
abbrev Forward (cp : Nat) : Prop := cp ≠ 0x08 ∧ cp ≠ 0x0D

theorem next_col_bounds (col cp : Nat) : col < next_col col cp ∧ next_col col cp ≤ col + 8 := by
  rw [next_col]
  split <;> omega

theorem emit_codepoint_eq {cp : Nat} (hcp : Forward cp) :
    emit_codepoint con cp = if cp = 0x0A then line_feed (con.mark cp)
      else if h : next_col con.cur_col cp < con.cols then
        { con.mark cp with cur_col := next_col con.cur_col cp, col_lt := h }
      else line_feed (con.mark cp) := by
  simp only [emit_codepoint, if_neg hcp.1, if_neg hcp.2]
  rfl

theorem advances_emit {cp : Nat} (hcp : Forward cp) (hgood : good ⟨cp, con.pos, con.cur_col⟩) :
    Advances good con (emit_codepoint con cp) := by
  have hmarked (con' : console_t) (hcols : con'.cols = con.cols) (hle : con.pos ≤ con'.pos)
      (htrace : con'.trace = (con.mark cp).trace) : Advances good con con' :=
    ⟨hcols, hle, _, htrace, forall_mem_singleton.mpr ⟨hgood, le_rfl, hle⟩, pairwise_singleton ..⟩
  have hline : Advances good con (line_feed (con.mark cp)) :=
    hmarked _ (line_feed_keeps _).1 (pos_le_line_feed (con.mark cp)) (line_feed_keeps _).2.2
  rw [emit_codepoint_eq hcp]
  split
  · exact hline
  · split
    · exact hmarked _ rfl (Nat.add_le_add_left (next_col_bounds ..).1.le _) rfl
    · exact hline

/-- A bracket of the kernel's own kind of line is the only thing that may not be here. -/
def Clear (m : mark_t) : Prop := m.cp = 0x5B → m.col ≠ 0

theorem cur_col_emit {cp : Nat} (hcp : Forward cp) :
    (emit_codepoint con cp).cur_col =
      if cp = 0x0A ∨ con.cols ≤ next_col con.cur_col cp then 0 else next_col con.cur_col cp := by
  rw [emit_codepoint_eq hcp]
  by_cases hline : cp = 0x0A
  · rw [if_pos hline, if_pos (.inl hline), (line_feed_keeps _).2.1]
  · by_cases hfits : next_col con.cur_col cp < con.cols
    · rw [if_neg hline, dif_pos hfits, if_neg (not_or.mpr ⟨hline, Nat.not_le.mpr hfits⟩)]
    · rw [if_neg hline, dif_neg hfits, if_pos (.inr (Nat.le_of_not_lt hfits)), (line_feed_keeps _).2.1]

/-- The console once a sequence in progress was given up. -/
def abandon (con : console_t) : console_t :=
  if con.ustream.pending ≠ 0 then emit_codepoint con UNICODE_REPLACEMENT else con

/-- What `kputc` does: an ASCII character is placed behind what was in progress, and
    any other byte places up to two code points that are not ASCII. -/
theorem kputc_cases (con : console_t) (c : UInt8) :
    (c < 0x80 ∧ ∃ st, st.pending = 0 ∧ kputc con c = { emit_codepoint (abandon con) c.toNat with ustream := st }) ∨
      (¬ c < 0x80 ∧ ∃ st cps, kputc con c = { cps.foldl emit_codepoint con with ustream := st } ∧
        (∀ cp ∈ cps, 0x80 ≤ cp) ∧ cps.length ≤ 2 ∧ (cps = [] → st.pending ≠ 0)) := by
  rw [kputc]
  obtain ⟨hc, st, hst, hcps⟩ | ⟨hc, st, cps, hcps, hall⟩ := code_points_cases con.ustream c
  · refine .inl ⟨hc, st, hst, ?_⟩
    rw [hcps, abandon]
    by_cases hpending : con.ustream.pending ≠ 0
    · rw [if_pos hpending, if_pos hpending]
      rfl
    · rw [if_neg hpending, if_neg hpending]
      rfl
  · exact .inr ⟨hc, st, cps, by rw [hcps], hall⟩

/-- The column that `console_cursor` foretells is the one the next character gets. -/
theorem console_cursor_eq (con : console_t) : console_cursor con = (abandon con).cur_col := by
  rw [console_cursor, abandon]
  split
  · rw [cur_col_emit (by decide)]
    simp only [next_col, UNICODE_REPLACEMENT]
    split_ifs <;> omega
  · rfl

/-- Marks that are no bracket are good. -/
def Lenient (good : mark_t → Prop) : Prop := ∀ m, m.cp ≠ 0x5B → good m

theorem lenient_Clear : Lenient Clear := fun _ hm h => absurd h hm

theorem advances_other (hgood : Lenient good) {cp : Nat} (hcp : 0x80 ≤ cp) : Advances good con (emit_codepoint con cp) :=
  advances_emit (by omega) (hgood _ (by change cp ≠ _; omega))

theorem advances_abandon (hgood : Lenient good) (con : console_t) : Advances good con (abandon con) := by
  rw [abandon]
  split
  · exact advances_other hgood (by decide)
  · exact .refl con

theorem advances_kputc (hgood : Lenient good) {c : UInt8} (hc : Forward c.toNat)
    (hcol : c = 0x5B → ∀ pos, good ⟨0x5B, pos, console_cursor con⟩) : Advances good con (kputc con c) := by
  obtain ⟨-, st, -, h⟩ | ⟨-, st, cps, h, hall, -⟩ := kputc_cases con c
  · rw [h]
    refine ((advances_abandon hgood con).trans (advances_emit hc ?_)).decoder st
    by_cases hbracket : c = 0x5B
    · rw [hbracket, ← console_cursor_eq]
      exact hcol hbracket _
    · exact hgood _ fun h => hbracket (UInt8.toNat_inj.mp h)
  · rw [h]
    exact (Advances.foldl (fun con cp hcp => advances_other hgood (hall cp hcp)) con).decoder st

/-- The console between lines: nothing is drawn or owed since the last line ended. -/
def AtLineStart (con : console_t) : Prop := con.cur_col = 0 ∧ con.ustream.pending = 0

theorem kputc_newline (con : console_t) : AtLineStart (kputc con 0x0A) := by
  obtain ⟨-, st, hst, h⟩ | ⟨hc, -⟩ := kputc_cases con 0x0A
  · rw [h]
    exact ⟨(cur_col_emit (by decide)).trans (if_pos (.inl rfl)), hst⟩
  · exact absurd (by decide) hc

/-- A space in column zero makes room for a bracket. -/
theorem console_cursor_space (hcols : 2 ≤ con.cols) (hcol : console_cursor con = 0) :
    console_cursor (kputc con 0x20) = 1 := by
  obtain ⟨-, st, hst, h⟩ | ⟨hc, -⟩ := kputc_cases con 0x20
  · rw [console_cursor_eq] at hcol
    have hwide : ¬ ((0x20 : UInt8).toNat = 0x0A ∨ (abandon con).cols ≤ next_col (abandon con).cur_col (0x20 : UInt8).toNat) := by
      rw [(advances_abandon lenient_Clear con).cols, hcol]
      exact not_or.mpr ⟨by decide, Nat.not_le.mpr hcols⟩
    rw [h, console_cursor, if_neg (not_not.mpr hst)]
    refine (cur_col_emit (by decide)).trans ?_
    rw [if_neg hwide, hcol]
    rfl
  · exact absurd (by decide) hc

theorem hex_digit_plain {n : Nat} (hn : n < 16) : hex_digit n ∉ ([0x08, 0x0A, 0x0D, 0x5B] : List UInt8) := by
  revert n
  decide

/-- The bytes of an escape are printable, and none of them is a bracket. -/
theorem escape_plain {c b : UInt8}
    (hb : b ∈ ([0x5C, 0x78, hex_digit ((c.toNat >>> 4) &&& 0xF), hex_digit (c.toNat &&& 0xF)] : List UInt8)) :
    Forward b.toNat ∧ b ≠ 0x0A ∧ b ≠ 0x5B := by
  have hplain : b ∉ ([0x08, 0x0A, 0x0D, 0x5B] : List UInt8) := by
    simp only [mem_cons, not_mem_nil, or_false] at hb
    obtain rfl | rfl | rfl | rfl := hb
    · decide
    · decide
    all_goals exact hex_digit_plain (lt_of_le_of_lt Nat.and_le_right (by decide))
  simp only [mem_cons, not_mem_nil, or_false, not_or] at hplain
  obtain ⟨hback, hline, hreturn, hbracket⟩ := hplain
  exact ⟨⟨fun h => hback (UInt8.toNat_inj.mp h), fun h => hreturn (UInt8.toNat_inj.mp h)⟩, hline, hbracket⟩

theorem no_control {c : UInt8} (hc : ¬ ((c < 0x20 ∧ c ≠ 0x0A ∧ c ≠ 0x09) ∨ c = 0x7F)) : Forward c.toNat := by
  refine ⟨fun h => ?_, fun h => ?_⟩
  · obtain rfl : c = 0x08 := UInt8.toNat_inj.mp h
    exact hc (.inl (by decide))
  · obtain rfl : c = 0x0D := UInt8.toNat_inj.mp h
    exact hc (.inl (by decide))

/-- One byte of the reply, on a console with room for a bracket beside the margin. -/
theorem advances_print_untrusted (hcols : 2 ≤ con.cols) (c : UInt8) : Advances Clear con (print_untrusted con c) := by
  rw [print_untrusted]
  split
  · refine Advances.foldl (fun con b hb => ?_) con
    obtain ⟨hforward, -, hbracket⟩ := escape_plain hb
    exact advances_kputc lenient_Clear hforward fun h => absurd h hbracket
  · rename_i hc
    have hforward := no_control hc
    split
    · rename_i hzero
      refine Advances.trans (advances_kputc lenient_Clear (by decide) fun h => absurd h (by decide))
        (advances_kputc lenient_Clear hforward fun _ _ _ => ?_)
      rw [console_cursor_space hcols hzero.2]
      exact Nat.one_ne_zero
    · rename_i hzero
      exact advances_kputc lenient_Clear hforward fun hbracket _ _ hcol => hzero ⟨hbracket, hcol⟩

theorem advances_print_model_prose (hcols : 2 ≤ con.cols) (s : text_t) : Advances Clear con (print_model_prose con s) := by
  rw [print_model_prose]
  induction zstr s generalizing con with
  | nil => exact .refl con
  | cons c s ih =>
    have hfirst := advances_print_untrusted hcols c
    exact hfirst.trans (ih (hfirst.cols ▸ hcols))

end Cursor

section Lines

variable {con : console_t} {k : Nat}

/-- Room for `k` columns on the current line. -/
def Roomy (k : Nat) (con : console_t) : Prop := con.cur_col + k < con.cols

theorem cols_emit {cp : Nat} (hcp : Forward cp) : (emit_codepoint con cp).cols = con.cols :=
  (@advances_emit (fun _ => True) con cp hcp trivial).cols

theorem roomy_emit {cp : Nat} (hcp : Forward cp) (h : Roomy (k + 8) con) :
    Roomy k (emit_codepoint con cp) ∧ (cp ≠ 0x0A → 0 < (emit_codepoint con cp).cur_col) := by
  have hbounds := next_col_bounds con.cur_col cp
  rw [Roomy] at h ⊢
  rw [cur_col_emit hcp, cols_emit hcp]
  split
  · rename_i hor
    exact ⟨by omega, fun hline => absurd (hor.resolve_left hline) (by omega)⟩
  · exact ⟨by omega, fun _ => by omega⟩

theorem roomy_emits {cps} (hall : ∀ cp ∈ cps, 0x80 ≤ cp) (h : Roomy (k + 8 * cps.length) con) :
    Roomy k (cps.foldl emit_codepoint con) ∧ (cps ≠ [] → 0 < (cps.foldl emit_codepoint con).cur_col) := by
  induction cps generalizing con with
  | nil => exact ⟨h, fun hne => absurd rfl hne⟩
  | cons cp cps ih =>
    obtain ⟨hcp, hall⟩ := forall_mem_cons.mp hall
    obtain ⟨hroom, hcol⟩ := @roomy_emit con (k + 8 * cps.length) cp (by omega) h
    obtain ⟨hlast, hne⟩ := ih hall hroom
    refine ⟨hlast, fun _ => ?_⟩
    by_cases hcps : cps = []
    · rw [hcps]
      exact hcol (by omega)
    · exact hne hcps

theorem roomy_kputc {c} (hc : Forward c.toNat) (h : Roomy (k + 16) con) :
    Roomy k (kputc con c) ∧ (c ≠ 0x0A → ¬ AtLineStart (kputc con c)) := by
  obtain ⟨-, st, -, hput⟩ | ⟨-, st, cps, hput, hall, hlen, hmore⟩ := kputc_cases con c
  · have habandon : Roomy (k + 8) (abandon con) := by
      rw [abandon]
      split
      · exact (@roomy_emit con (k + 8) _ (by decide) h).1
      · exact lt_of_le_of_lt (by omega) h
    obtain ⟨hroom, hcol⟩ := @roomy_emit (abandon con) k c.toNat hc habandon
    rw [hput]
    exact ⟨hroom, fun hline hstart => absurd hstart.1 (hcol fun h => hline (UInt8.toNat_inj.mp h)).ne'⟩
  · obtain ⟨hroom, hcol⟩ := @roomy_emits con k cps hall (lt_of_le_of_lt (by omega) h)
    rw [hput]
    refine ⟨hroom, fun _ hstart => ?_⟩
    by_cases hcps : cps = []
    · exact hmore hcps hstart.2
    · exact absurd hstart.1 (hcol hcps).ne'

theorem roomy_foldl {f} {width : Nat} {s : List UInt8}
    (hf : ∀ con k, ∀ c ∈ s, Roomy (k + width) con → Roomy k (f con c) ∧ (c ≠ 0x0A → ¬ AtLineStart (f con c)))
    (h : Roomy (k + width * s.length) con) :
    Roomy k (s.foldl f con) ∧ ∀ c, s.getLast? = some c → c ≠ 0x0A → ¬ AtLineStart (s.foldl f con) := by
  induction s using reverseRecOn generalizing k with
  | nil => exact ⟨h, fun c hc => nomatch hc⟩
  | append_singleton s c ih =>
    rw [length_append, length_singleton, Nat.mul_add, Nat.mul_one] at h
    have hbefore := (ih (fun con k b hb => hf con k b (mem_append_left _ hb))
      (lt_of_le_of_lt (by omega) h : Roomy (k + width + width * s.length) con)).1
    have hlast := hf _ k c (mem_append_right s mem_cons_self) hbefore
    rw [foldl_append]
    refine ⟨hlast.1, fun c' hc' => ?_⟩
    rw [getLast?_concat] at hc'
    obtain rfl := Option.some.inj hc'
    exact hlast.2

theorem roomy_kputs {s : text_t} (hplain : ∀ c ∈ s, Forward c.toNat) (h : Roomy (k + 16 * s.length) con) :
    Roomy k (kputs con s) ∧ ∀ c, s.getLast? = some c → c ≠ 0x0A → ¬ AtLineStart (kputs con s) :=
  roomy_foldl (fun _ _ c hc => roomy_kputc (hplain c hc)) h

theorem roomy_print_untrusted (c : UInt8) (h : Roomy (k + 64) con) :
    Roomy k (print_untrusted con c) ∧ (c ≠ 0x0A → ¬ AtLineStart (print_untrusted con c)) := by
  rw [print_untrusted]
  split
  · obtain ⟨hroom, hstarted⟩ := roomy_kputs (fun b hb => (escape_plain hb).1) h
    exact ⟨hroom, fun _ => hstarted _ rfl (@escape_plain c _ (by simp)).2.1⟩
  · rename_i hc
    have hforward := no_control hc
    split
    · exact roomy_kputc hforward
        (roomy_kputc (by decide) (lt_of_le_of_lt (by omega) h : Roomy (k + 16 + 16) con)).1
    · exact roomy_kputc hforward (lt_of_le_of_lt (by omega) h : Roomy (k + 16) con)

theorem print_model_prose_newline {s : text_t} (h : (zstr s).getLast? = some 0x0A) : AtLineStart (print_model_prose con s) := by
  obtain ⟨before, hs⟩ := getLast?_eq_some_iff.mp h
  rw [print_model_prose, hs, foldl_append]
  exact kputc_newline _

/-- That the decision about the last newline is the right one: something is printed,
    and either the buffer does not end in a newline, or that newline was the last
    byte to go out. -/
def EndsLine (v : json_value_t) : Prop :=
  match json_str (some v) 8192 with
  | (rc, s) => (rc = JSON_OK ∨ rc = JSON_ENOSPC) ∧ s ≠ [] ∧
      (s.getLast? ≠ some 0x0A ∨ (rc = JSON_OK ∧ (zstr s).getLast? = some 0x0A))

instance (v : json_value_t) : Decidable (EndsLine v) := by
  unfold EndsLine
  infer_instance

/-- A console wide enough for anything up to `n` columns, with its first line started. -/
def wide_console (n : Nat) : console_t := ⟨1, n + 2, 0, 1, 0, utf8_stream_reset, [], by decide, by omega⟩

theorem roomy_wide_console (n : Nat) : Roomy n (wide_console n) := by
  change 1 + n < n + 2
  omega

theorem CLIPPED_plain : ∀ c ∈ CLIPPED, Forward c.toNat := by
  have hall : (CLIPPED.all fun c => decide (Forward c.toNat)) = true := rfl
  exact fun c hc => of_decide_eq_true (all_eq_true.mp hall c hc)

theorem advances_print_text_block {v} (hcols : 2 ≤ con.cols) :
    Advances (fun _ => True) con (print_text_block con v) := by
  have hput {con : console_t} {c : UInt8} (h : Forward c.toNat) : Advances (fun _ => True) con (kputc con c) :=
    advances_kputc (fun _ _ => trivial) h fun _ _ => trivial
  cases hjson : json_str (some v) 8192 with
  | mk rc s =>
    have hprose := (advances_print_model_prose hcols s).forget
    have hclipped : Advances (fun _ => True) con
        (if rc = JSON_ENOSPC then kputs (print_model_prose con s) CLIPPED else print_model_prose con s) := by
      split
      · exact hprose.trans (Advances.foldl (fun _ c hc => hput (CLIPPED_plain c hc)) _)
      · exact hprose
    simp only [print_text_block, hjson]
    split
    · exact .refl con
    · split
      · exact hclipped.trans (hput (by decide))
      · exact hclipped

/-- On consoles of two columns and more, a reply never puts a bracket in column zero
    and never moves the cursor back. It leaves every such console between lines
    exactly if its last byte is judged rightly; an empty text, a clipped one that
    ends in a newline, and a newline behind a zero are not. -/
theorem print_text_block_ends_line_iff (v : json_value_t) :
    (∀ con : console_t, 2 ≤ con.cols →
      Advances Clear con (print_model_prose con (json_str (some v) 8192).2) ∧
        Advances (fun _ => True) con (print_text_block con v) ∧ AtLineStart (print_text_block con v)) ↔ EndsLine v := by
  suffices hline : (∀ con : console_t, 2 ≤ con.cols → AtLineStart (print_text_block con v)) ↔ EndsLine v from
    ⟨fun h => hline.mp fun con hcols => (h con hcols).2.2, fun h con hcols =>
      ⟨advances_print_model_prose hcols _, advances_print_text_block hcols, hline.mpr h con hcols⟩⟩
  cases hjson : json_str (some v) 8192 with
  | mk rc s =>
    simp only [print_text_block, EndsLine, hjson]
    constructor
    · intro h
      -- a console that nothing this reply prints can fill
      let con := wide_console (16 * CLIPPED.length + 64 * (zstr s).length)
      have hstart := h con (Nat.le_add_left 2 _)
      have hprose := @roomy_foldl con (16 * CLIPPED.length) print_untrusted 64 (zstr s)
        (fun _ _ c _ => roomy_print_untrusted c) (roomy_wide_console _)
      have hclipped := @roomy_kputs (print_model_prose con s) 0 CLIPPED CLIPPED_plain ((Nat.zero_add _).symm ▸ hprose.1)
      by_cases hprinted : (rc ≠ JSON_OK ∧ rc ≠ JSON_ENOSPC) ∨ s = []
      · rw [if_pos hprinted] at hstart
        exact absurd hstart.1 Nat.one_ne_zero
      rw [if_neg hprinted] at hstart
      obtain ⟨hrc, hs⟩ := not_or.mp hprinted
      refine ⟨by omega, hs, ?_⟩
      by_contra hlast
      obtain ⟨hlast, hunclipped⟩ := not_or.mp hlast
      rw [if_neg hlast] at hstart
      by_cases hfull : rc = JSON_ENOSPC
      · rw [if_pos hfull] at hstart
        exact hclipped.2 0x5D rfl (by decide) hstart
      · rw [if_neg hfull] at hstart
        have hok : rc = JSON_OK := by omega
        cases hend : (zstr s).getLast? with
        | none =>
          rw [print_model_prose, getLast?_eq_none_iff.mp hend] at hstart
          exact absurd hstart.1 Nat.one_ne_zero
        | some c => exact hprose.2 c hend (fun hc => hunclipped ⟨hok, hc ▸ hend⟩) hstart
    · rintro ⟨hrc, hs, hlast⟩ con -
      rw [if_neg (not_or.mpr ⟨by omega, hs⟩)]
      split
      · exact kputc_newline _
      · rename_i hnewline
        obtain ⟨hok, hend⟩ := hlast.resolve_left hnewline
        rw [if_neg (by rw [hok]; decide)]
        exact print_model_prose_newline hend

/-- The console in text mode, as it boots. -/
def text_console : console_t := ⟨25, 80, 0, 0, 0, utf8_stream_reset, [], by decide, by decide⟩

/-- A string value of the parser, alone in its document. -/
def reply_text (s : String) : json_value_t := (json_parse (some (ascii s.toList))).2

/-- A bracket that starts the reply and one that starts a line of it are kept off
    column zero. -/
theorem bracketed_reply_ends_line : EndsLine (reply_text "\"[a]\\n[b\"") ∧
    Advances Clear text_console (print_model_prose text_console (json_str (some (reply_text "\"[a]\\n[b\"")) 8192).2) ∧
    AtLineStart (print_text_block text_console (reply_text "\"[a]\\n[b\"")) := by
  -- under a name, so that only the first condition computes what is printed
  generalize hv : reply_text "\"[a]\\n[b\"" = v
  have hends : EndsLine v := by
    rw [← hv]
    decide +kernel
  obtain ⟨hclear, -, hstart⟩ := (print_text_block_ends_line_iff v).mpr hends text_console (by decide)
  exact ⟨hends, hclear, hstart⟩

/-- The newline behind an encoded zero is not printed, and still counts as printed. -/
theorem zero_hides_newline : (json_parse (some (ascii "\"a\\u0000\\n\"".toList))).1 = JSON_OK ∧
    ¬ AtLineStart (print_text_block text_console (reply_text "\"a\\u0000\\n\"")) := by
  refine ⟨by decide +kernel, fun h => absurd h.1 (by decide +kernel)⟩

end Lines

end fable.chat
