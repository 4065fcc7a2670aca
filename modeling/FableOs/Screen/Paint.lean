import Mathlib.Tactic

/-! Two writers of the same cells: the kernel's console (lib/base.c) and the tool
`write_screen` (tools/screen_tools.c). A cell knows which of them wrote it last;
its colours, and the calls whose colours are refused, are left out. -/

namespace fable.screen

def TEXT_MAX : Nat := 512

/-- What a kernel trace line begins with. -/
def BRACKET : UInt8 := 0x5B

structure cell_t where
  slot : UInt8
  painted : Bool

def blank_cell : cell_t := ⟨0x20, false⟩

structure screen_t where
  rows : Nat
  cols : Nat
  cur_row : Nat
  cur_col : Nat
  cells : Nat → Nat → cell_t
  row_lt : cur_row < rows
  col_lt : cur_col < cols

section Console

variable (s : screen_t)

def scroll : screen_t :=
  { s with
    cells := fun r c => if r + 1 < s.rows then s.cells (r + 1) c else blank_cell
    cur_row := s.rows - 1
    row_lt := Nat.sub_one_lt_of_lt s.row_lt }

def put_slot (slot : UInt8) : screen_t :=
  { s with cells := fun r c => if r = s.cur_row ∧ c = s.cur_col then ⟨slot, false⟩ else s.cells r c }

/-- `cur_col = 0; if (++cur_row >= con_rows) scroll();` -/
def line_feed : screen_t :=
  let t := { s with cur_col := 0, col_lt := Nat.zero_lt_of_lt s.col_lt }
  if h : s.cur_row + 1 < s.rows then { t with cur_row := s.cur_row + 1, row_lt := h } else scroll t

def move_to (col : Nat) : screen_t := if h : col < s.cols then { s with cur_col := col, col_lt := h } else line_feed s

/-- `page` is `font_page_slot`. -/
def emit_codepoint (page : Nat → UInt8) (cp : Nat) : screen_t :=
  if cp = 0x0A then line_feed s
  else if cp = 0x0D then { s with cur_col := 0, col_lt := Nat.zero_lt_of_lt s.col_lt }
  else if cp = 0x08 then
    if 0 < s.cur_col then { s with cur_col := s.cur_col - 1, col_lt := (Nat.sub_le _ 1).trans_lt s.col_lt }
    else if 0 < s.cur_row then
      { s with
        cur_row := s.cur_row - 1
        cur_col := s.cols - 1
        row_lt := (Nat.sub_le _ 1).trans_lt s.row_lt
        col_lt := Nat.sub_one_lt_of_lt s.col_lt }
    else s
  else if cp = 0x09 then move_to s ((s.cur_col + 8) / 8 * 8)
  else move_to (put_slot s (page cp)) (s.cur_col + 1)

end Console

/-- The arguments of a call, decoded. -/
structure call_t where
  text : List UInt8
  row : Int
  col : Int
  fill_row : Bool

inductive refusal_t
  | too_long
  | control
  | non_ascii
  | row
  | col
  | bracket

/-- How many cells of its row a call writes. -/
def call_t.width (c : call_t) (cols : Nat) : Nat :=
  let room := cols - c.col.toNat
  if c.fill_row then room else min c.text.length room

/-- The checks of `t_write_screen`, in their order. -/
def call_t.refused (c : call_t) (s : screen_t) : Option refusal_t :=
  if c.text.length > TEXT_MAX then some .too_long
  else
    match c.text.find? fun ch => ch < 0x20 || ch > 0x7E with
    | some ch => some (if ch < 0x20 || ch = 0x7F then .control else .non_ascii)
    | none =>
      if c.row < 0 ∨ c.row ≥ s.rows then some .row
      else if c.col < 0 ∨ c.col ≥ s.cols then some .col
      else if c.col = 0 ∧ c.text.head? = some BRACKET then some .bracket
      else none

def call_t.paint (c : call_t) (s : screen_t) : screen_t :=
  { s with
    cells := fun r k =>
      if r = c.row.toNat ∧ c.col.toNat ≤ k ∧ k < c.col.toNat + c.width s.cols then
        ⟨c.text.getD (k - c.col.toNat) 0x20, true⟩
      else s.cells r k }

def t_write_screen (s : screen_t) (c : call_t) : Except refusal_t screen_t :=
  match c.refused s with
  | some e => .error e
  | none => .ok (c.paint s)

inductive act_t
  | printed (cp : Nat)
  | called (c : call_t)

/-- A call that is refused paints nothing. -/
def step (page : Nat → UInt8) (s : screen_t) : act_t → screen_t
  | .printed cp => emit_codepoint s page cp
  | .called c =>
    match t_write_screen s c with
    | .ok t => t
    | .error _ => s

/-- A row that looks like a kernel trace line is the kernel's in every column. -/
def Genuine (s : screen_t) : Prop :=
  ∀ r < s.rows, (s.cells r 0).slot = BRACKET → ∀ c < s.cols, (s.cells r c).painted = false

/-- Along a history, after each of its acts. -/
def AlwaysGenuine (page : Nat → UInt8) (s : screen_t) : List act_t → Prop
  | [] => True
  | a :: as => Genuine (step page s a) ∧ AlwaysGenuine page (step page s a) as

/-- What the acts would have to keep to: the kernel begins no trace line on a row
    with painted cells, and no call paints beside the bracket of a row that has
    one. -/
def Clean (page : Nat → UInt8) (s : screen_t) : act_t → Prop
  | .printed cp => cp ∉ [0x0A, 0x0D, 0x08, 0x09] → s.cur_col = 0 → page cp = BRACKET →
      ∀ c < s.cols, 0 < c → (s.cells s.cur_row c).painted = false
  | .called c => c.refused s = none → 0 < c.col → 0 < c.width s.cols → (s.cells c.row.toNat 0).slot ≠ BRACKET

def AlwaysClean (page : Nat → UInt8) (s : screen_t) : List act_t → Prop
  | [] => True
  | a :: as => Clean page s a ∧ AlwaysClean page (step page s a) as

section Steps

variable {s : screen_t}

theorem line_feed_genuine (h : Genuine s) : Genuine (line_feed s) := by
  unfold line_feed
  dsimp only
  split
  · exact h
  · intro r hr hb c hc
    simp only [scroll] at hr hb hc ⊢
    split_ifs at hb ⊢ with hlt
    · exact h (r + 1) hlt hb c hc
    · rfl

theorem move_to_genuine (h : Genuine s) (col : Nat) : Genuine (move_to s col) := by
  unfold move_to
  split
  · exact h
  · exact line_feed_genuine h

/-- A bracket in column zero turns the row into a trace line as it is. -/
theorem put_slot_genuine_iff (h : Genuine s) (slot : UInt8) :
    Genuine (move_to (put_slot s slot) (s.cur_col + 1)) ↔
      (s.cur_col = 0 → slot = BRACKET → ∀ c < s.cols, 0 < c → (s.cells s.cur_row c).painted = false) := by
  constructor
  · intro hg hcol hslot c hc hpos
    have hone : s.cur_col + 1 < s.cols := by omega
    rw [move_to, dif_pos (show s.cur_col + 1 < (put_slot s slot).cols from hone)] at hg
    have hrow := hg s.cur_row s.row_lt (by simp [put_slot, hcol, hslot]) c hc
    simpa [put_slot, hcol, hpos.ne'] using hrow
  · intro hclean
    refine move_to_genuine (fun r hr hb c hc => ?_) _
    simp only [put_slot] at hr hb hc ⊢
    split_ifs with hcell
    · rfl
    · split_ifs at hb with h₀
      · obtain ⟨rfl, hcol⟩ := h₀
        exact hclean hcol.symm hb c hc (Nat.pos_of_ne_zero fun h => hcell ⟨rfl, h.trans hcol⟩)
      · exact h r hr hb c hc

theorem print_genuine_iff (page : Nat → UInt8) (h : Genuine s) (cp : Nat) :
    Genuine (emit_codepoint s page cp) ↔ Clean page s (.printed cp) := by
  have still : ∀ {t}, Genuine t → cp ∈ [0x0A, 0x0D, 0x08, 0x09] → (Genuine t ↔ Clean page s (.printed cp)) :=
    fun ht hcp => ⟨fun _ hno => absurd hcp hno, fun _ => ht⟩
  unfold emit_codepoint
  split_ifs with hlf hcr hbs hc hr htab
  · exact still (line_feed_genuine h) (by simp [hlf])
  · exact still h (by simp [hcr])
  · exact still h (by simp [hbs])
  · exact still h (by simp [hbs])
  · exact still h (by simp [hbs])
  · exact still (move_to_genuine h _) (by simp [htab])
  · rw [put_slot_genuine_iff h]
    simp [Clean, hlf, hcr, hbs, htab]

theorem not_refused {c : call_t} (h : c.refused s = none) :
    c.row.toNat < s.rows ∧ 0 ≤ c.col ∧ c.col.toNat < s.cols ∧ ¬ (c.col = 0 ∧ c.text.head? = some BRACKET) := by
  unfold call_t.refused at h
  split at h
  · cases h
  · split at h
    · cases h
    · split_ifs at h with hrow hcol hbr
      exact ⟨by omega, by omega, by omega, hbr⟩

/-- A call that paints at column zero makes no trace line of its row. -/
theorem paint_genuine_iff (h : Genuine s) {c : call_t} (hc : c.refused s = none) :
    Genuine (c.paint s) ↔ (0 < c.col → 0 < c.width s.cols → (s.cells c.row.toNat 0).slot ≠ BRACKET) := by
  obtain ⟨hrow, hcol, hcols, hbr⟩ := not_refused hc
  constructor
  · intro hg hpos hwidth hslot
    have hshown : ((c.paint s).cells c.row.toNat 0).slot = BRACKET := by
      simpa [call_t.paint, hpos.not_ge] using hslot
    have hcell := hg c.row.toNat hrow hshown c.col.toNat hcols
    simp [call_t.paint, hwidth] at hcell
  · intro hclean r hr hb k hk
    simp only [call_t.paint] at hr hb hk ⊢
    split_ifs at hb with h₀
    · have hzero : c.col = 0 := by omega
      rw [hzero] at hb
      cases htext : c.text with
      | nil => simp [htext, BRACKET] at hb
      | cons ch rest => exact absurd ⟨hzero, by simpa [htext] using hb⟩ hbr
    · split_ifs with hcell
      · obtain ⟨rfl, hcell⟩ := hcell
        exact absurd hb (hclean (by omega) (by omega))
      · exact h r hr hb k hk

theorem step_genuine_iff (page : Nat → UInt8) (h : Genuine s) (a : act_t) : Genuine (step page s a) ↔ Clean page s a := by
  cases a with
  | printed cp => exact print_genuine_iff page h cp
  | called c =>
    simp only [step, t_write_screen, Clean]
    cases hc : c.refused s with
    | some e => simp [h]
    | none => simpa using paint_genuine_iff h hc

theorem always_genuine_iff (page : Nat → UInt8) (h : Genuine s) (as : List act_t) :
    AlwaysGenuine page s as ↔ AlwaysClean page s as := by
  induction as generalizing s with
  | nil => exact Iff.rfl
  | cons a as ih =>
    have hstep := step_genuine_iff page h a
    constructor
    · rintro ⟨hg, hrest⟩
      exact ⟨hstep.mp hg, (ih hg).mp hrest⟩
    · rintro ⟨hc, hrest⟩
      have hg := hstep.mpr hc
      exact ⟨hg, (ih hg).mpr hrest⟩

end Steps

/-- A console with that many rows and columns more than one, before anything is
    printed on it. -/
def console_init (rows cols : Nat) : screen_t :=
  ⟨rows + 1, cols + 1, 0, 0, fun _ _ => blank_cell, Nat.succ_pos _, Nat.succ_pos _⟩

/-- Through any history of console output and calls, every row with a bracket in
    column zero is the kernel's in all its columns, exactly when no call paints
    beside such a bracket and no trace line begins on a painted row. The source
    refuses only a bracket that is itself painted in column zero. -/
theorem trace_rows_genuine_iff (page : Nat → UInt8) (rows cols : Nat) (as : List act_t) :
    AlwaysGenuine page (console_init rows cols) as ↔ AlwaysClean page (console_init rows cols) as :=
  always_genuine_iff page (fun _ _ _ _ _ => rfl) as

/-- The kernel prints a bracket, and a call goes on behind it. -/
theorem text_beside_bracket :
    ¬ AlwaysGenuine Nat.toUInt8 (console_init 24 79) [.printed 0x5B, .called ⟨[0x6F, 0x6B], 0, 1, false⟩] := by
  rintro ⟨-, hg, -⟩
  exact absurd (hg 0 (by decide) (by decide) 1 (by decide)) (by decide)

end fable.screen
