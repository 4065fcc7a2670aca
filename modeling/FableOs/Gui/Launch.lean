import FableOs.Lib.CArray

/-! The window of an app: the size that its document asks for, the size that the
window manager gives it, and the size that a refusal suggests (apps/runtime.c,
gui/wm.c, gui/widgets.c). -/

namespace fable.launch

abbrev GUI_BORDER : Int := 1
abbrev GUI_TITLE_H : Int := 18
abbrev GUI_MIN_W : Int := 64
abbrev GUI_MIN_H : Int := GUI_TITLE_H + 2 * GUI_BORDER + 8
abbrev GUI_CONSOLE_RESERVE_H : Int := 16
abbrev APP_MIN_CELL : Int := 8

structure gui_rect_t where
  x : Int
  y : Int
  w : Int
  h : Int
  deriving DecidableEq

def none : gui_rect_t := ⟨0, 0, 0, 0⟩

def gui_rect_empty (r : gui_rect_t) : Prop := r.w ≤ 0 ∨ r.h ≤ 0

instance (r : gui_rect_t) : Decidable (gui_rect_empty r) := inferInstanceAs (Decidable (_ ∨ _))

/-- The screen, and the height of the title bar that the preferences give to
    windows of the document's title. -/
structure desk_t where
  w : Int
  h : Int
  title_h : Int
  title_pos : 0 < title_h

/-- Each `if (v > bound) v = bound` is a `min`, each `if (v < bound) v = bound` a
    `max`; the place is clamped before it is added to, so no sum leaves 32 bits. -/
def clamp_frame (d : desk_t) (f : gui_rect_t) : gui_rect_t :=
  let w := max f.w GUI_MIN_W
  let h := max f.h GUI_MIN_H
  let w := if d.w > 0 then min w d.w else w
  let h := if d.h > 0 then min h d.h else h
  let x := min f.x (d.w - 48)
  let x := if x + w < 48 then 48 - w else x
  let y := max (min (max f.y 0) (d.h - (GUI_TITLE_H + 2 * GUI_BORDER))) 0
  if d.h > GUI_CONSOLE_RESERVE_H + GUI_MIN_H then
    let floor_y := d.h - GUI_CONSOLE_RESERVE_H
    let h := min h floor_y
    ⟨x, max (if y + h > floor_y then floor_y - h else y) 0, w, h⟩
  else ⟨x, y, w, h⟩

def gui_client_area (d : desk_t) (frame : gui_rect_t) : gui_rect_t :=
  ⟨0, 0, max (frame.w - 2 * GUI_BORDER) 0, max (frame.h - 2 * GUI_BORDER - d.title_h) 0⟩

def gui_inset (r : gui_rect_t) (dx dy : Int) : gui_rect_t :=
  let w := r.w - 2 * dx
  let h := r.h - 2 * dy
  if gui_rect_empty r ∨ w ≤ 0 ∨ h ≤ 0 then none else ⟨r.x + dx, r.y + dy, w, h⟩

def gui_grid (area : gui_rect_t) (rows cols row col rowspan colspan gap : Int) : gui_rect_t :=
  let availw := area.w - gap * (cols - 1)
  let availh := area.h - gap * (rows - 1)
  let x0 := availw * col / cols
  let x1 := availw * (col + colspan) / cols
  let y0 := availh * row / rows
  let y1 := availh * (row + rowspan) / rows
  let w := x1 - x0 + gap * (colspan - 1)
  let h := y1 - y0 + gap * (rowspan - 1)
  if gui_rect_empty area ∨ rows ≤ 0 ∨ cols ≤ 0 ∨ gap < 0 ∨ row < 0 ∨ col < 0 ∨ rowspan < 1 ∨ colspan < 1 then none
  else if row + rowspan > rows ∨ col + colspan > cols ∨ availw ≤ 0 ∨ availh ≤ 0 ∨ w ≤ 0 ∨ h ≤ 0 then none
  else ⟨area.x + x0 + gap * col, area.y + y0 + gap * row, w, h⟩

/-- The place of a widget, as `parse_widgets` lets it through. -/
inductive wdesc_t (rows cols : Int)
  | rect (r : gui_rect_t) (hw : 0 < r.w) (hh : 0 < r.h)
  | cell (row col rowspan colspan : Int) (hrow : 0 ≤ row) (hcol : 0 ≤ col) (hrowspan : 1 ≤ rowspan)
      (hcolspan : 1 ≤ colspan) (hrows : row + rowspan ≤ rows) (hcols : col + colspan ≤ cols)

def wdesc_t.use_rect {rows cols : Int} : wdesc_t rows cols → Bool
  | .rect .. => true
  | .cell .. => false

/-- The sizes that a document may ask for. -/
def Extent (n : Int) : Prop := 32 ≤ n ∧ n ≤ 4096

/-- What of a document its window depends on. -/
structure doc_t where
  width : Int
  height : Int
  wide : Extent width
  high : Extent height
  rows : Int
  cols : Int
  gap : Nat
  pad : Nat
  widgets : List (wdesc_t rows cols)

/-- The numbers of a refusal: what the grid needs, what it has, and the width and
    the height to use. -/
structure small_t where
  needw : Int
  needh : Int
  areaw : Int
  areah : Int
  sw : Int
  sh : Int
  deriving DecidableEq

inductive refusal_t
  | small (n : small_t)
  | widget (i : Nat) (r client : gui_rect_t)
  deriving DecidableEq

def place (doc : doc_t) (area : gui_rect_t) : wdesc_t doc.rows doc.cols → gui_rect_t
  | .rect r _ _ => r
  | .cell row col rowspan colspan .. => gui_grid area doc.rows doc.cols row col rowspan colspan doc.gap

def doc_t.needw (doc : doc_t) : Int := doc.cols * APP_MIN_CELL + (doc.cols - 1) * doc.gap

def doc_t.needh (doc : doc_t) : Int := doc.rows * APP_MIN_CELL + (doc.rows - 1) * doc.gap

def doc_t.grid_used (doc : doc_t) : Bool := doc.widgets.any fun widget => !widget.use_rect

/-- The client area of the document's window, opened at a place. -/
def doc_t.client (doc : doc_t) (d : desk_t) (x y : Int) : gui_rect_t :=
  gui_client_area d (clamp_frame d ⟨x, y, doc.width, doc.height⟩)

/-- The two tests of the window's size, and where the widgets come to stand. -/
def instantiate (d : desk_t) (doc : doc_t) (x y : Int) : Except refusal_t (List gui_rect_t) := do
  let client := doc.client d x y
  let area := gui_inset client doc.pad doc.pad
  refuse (doc.grid_used = true ∧ (area.w < doc.needw ∨ area.h < doc.needh)) (.small
    ⟨doc.needw, doc.needh, area.w, area.h, max (doc.needw + 2 * doc.pad + (doc.width - client.w)) GUI_MIN_W,
      max (doc.needh + 2 * doc.pad + (doc.height - client.h)) GUI_MIN_H⟩)
  checkFrom (fun i widget => refuse (gui_rect_empty (place doc area widget)) (.widget i (place doc area widget) client)) 0
    doc.widgets
  return doc.widgets.map (place doc area)

def doc_t.resized (doc : doc_t) (w h : Int) (hw : Extent w) (hh : Extent h) : doc_t :=
  { doc with width := w, height := h, wide := hw, high := hh }

/-- The document does not ask for less than the smallest width unless that is
    enough, its window is as high as its own title bar, and the grid leaves the
    row of the prompt free. -/
structure Roomy (d : desk_t) (doc : doc_t) : Prop where
  wide : GUI_MIN_W ≤ doc.width ∨ doc.needw + 2 * doc.pad + 2 * GUI_BORDER ≤ GUI_MIN_W
  title : 2 * GUI_BORDER + d.title_h ≤ doc.height
  row : d.h > GUI_CONSOLE_RESERVE_H + GUI_MIN_H →
    doc.needh + 2 * doc.pad + (2 * GUI_BORDER + d.title_h) ≤ d.h - GUI_CONSOLE_RESERVE_H

section Sizes

variable {d : desk_t} {doc : doc_t} {x y : Int}

theorem clamp_w {f} (h : 0 < d.w) : (clamp_frame d f).w = min (max f.w GUI_MIN_W) d.w := by
  rw [clamp_frame, if_pos h]
  split <;> rfl

theorem clamp_h {f} (h : 0 < d.h) : (clamp_frame d f).h =
    if d.h > GUI_CONSOLE_RESERVE_H + GUI_MIN_H then min (min (max f.h GUI_MIN_H) d.h) (d.h - GUI_CONSOLE_RESERVE_H)
    else min (max f.h GUI_MIN_H) d.h := by
  rw [clamp_frame, if_pos h]
  split <;> rfl

theorem need_pos {n : Int} {gap : Nat} (h : 0 < n) : 0 < n * APP_MIN_CELL + (n - 1) * gap := by
  have hgap : 0 ≤ (n - 1) * (gap : Int) := mul_nonneg (by omega) (Int.natCast_nonneg _)
  have hcell : 0 < n * APP_MIN_CELL := mul_pos h (by decide)
  omega

theorem needs_pos (h : doc.grid_used = true) : 0 < doc.needw ∧ 0 < doc.needh := by
  obtain ⟨widget, -, hcell⟩ := List.any_eq_true.mp h
  cases widget with
  | rect r hw hh => cases hcell
  | cell row col rowspan colspan hrow hcol hrowspan hcolspan hrows hcols =>
    exact ⟨need_pos (by omega), need_pos (by omega)⟩

theorem inset_fits_iff {client} {needw needh : Int} {pad : Nat} (hw : 0 < needw) (hh : 0 < needh) :
    (needw ≤ (gui_inset client pad pad).w ∧ needh ≤ (gui_inset client pad pad).h) ↔
      needw + 2 * pad ≤ client.w ∧ needh + 2 * pad ≤ client.h := by
  unfold gui_inset gui_rect_empty none
  dsimp only
  split
  · dsimp only
    omega
  · dsimp only
    omega

/-- The edges of a cell are at least as far apart as the smallest cell is wide. -/
theorem span_pos {n a c s : Int} (hn : 0 < n) (hs : 1 ≤ s) (ha : n * 8 ≤ a) : 0 < a * (c + s) / n - a * c / n := by
  have hle : a * c + n * 8 ≤ a * (c + s) := by
    have hspan : a * 1 ≤ a * s := Int.mul_le_mul_of_nonneg_left hs (by omega)
    rw [mul_add]
    omega
  have hdiv := Int.ediv_le_ediv hn hle
  rw [Int.add_mul_ediv_left _ _ hn.ne'] at hdiv
  omega

/-- In an area that the grid fits, every widget has pixels. -/
theorem place_not_empty {area} (widget : wdesc_t doc.rows doc.cols)
    (h : widget.use_rect = false → doc.needw ≤ area.w ∧ doc.needh ≤ area.h) :
    ¬ gui_rect_empty (place doc area widget) := by
  cases widget with
  | rect r hw hh => exact not_or.mpr ⟨not_le.mpr hw, not_le.mpr hh⟩
  | cell row col rowspan colspan hrow hcol hrowspan hcolspan hrows hcols =>
    obtain ⟨hw, hh⟩ := h rfl
    rw [doc_t.needw, APP_MIN_CELL, mul_comm (doc.cols - 1)] at hw
    rw [doc_t.needh, APP_MIN_CELL, mul_comm (doc.rows - 1)] at hh
    have hgap {n : Int} (hn : 1 ≤ n) : 0 ≤ (doc.gap : Int) * (n - 1) := mul_nonneg (Int.natCast_nonneg _) (by omega)
    have hcols' := @hgap doc.cols (by omega)
    have hrows' := @hgap doc.rows (by omega)
    have hgapw := hgap hcolspan
    have hgaph := hgap hrowspan
    have hspanw : 0 < (area.w - doc.gap * (doc.cols - 1)) * (col + colspan) / doc.cols - _ :=
      span_pos (by omega) hcolspan (by omega)
    have hspanh : 0 < (area.h - doc.gap * (doc.rows - 1)) * (row + rowspan) / doc.rows - _ :=
      span_pos (by omega) hrowspan (by omega)
    simp only [place, gui_grid]
    unfold gui_rect_empty
    rw [if_neg (by omega), if_neg (by omega)]
    dsimp only
    omega

/-- A document is refused for the size of its window only where its grid does not
    fit it. -/
theorem instantiate_ok_iff : (∃ rs, instantiate d doc x y = .ok rs) ↔ (doc.grid_used = true →
    doc.needw + 2 * doc.pad ≤ (doc.client d x y).w ∧ doc.needh + 2 * doc.pad ≤ (doc.client d x y).h) := by
  have hfits (h : doc.grid_used = true) := @inset_fits_iff (doc.client d x y) _ _ doc.pad (needs_pos h).1 (needs_pos h).2
  simp only [instantiate, except_bind_eq_ok_iff, refuse_eq_ok_iff, checkFrom_refuse_eq_ok_iff, not_and, not_or, not_lt]
  constructor
  · rintro ⟨rs, -, hgrid, -⟩ hused
    exact (hfits hused).mp (hgrid hused)
  · intro hgrid
    refine ⟨_, (), fun hused => (hfits hused).mpr (hgrid hused), (), fun widget hmem => ?_, rfl⟩
    refine place_not_empty widget fun hcell => ?_
    have hused : doc.grid_used = true := List.any_eq_true.mpr ⟨widget, hmem, by rw [hcell]; rfl⟩
    exact (hfits hused).mpr (hgrid hused)

theorem small_numbers {n} (h : instantiate d doc x y = .error (.small n)) : doc.grid_used = true ∧
    n.sw = max (doc.needw + 2 * doc.pad + (doc.width - (doc.client d x y).w)) GUI_MIN_W ∧
    n.sh = max (doc.needh + 2 * doc.pad + (doc.height - (doc.client d x y).h)) GUI_MIN_H := by
  have hno : ¬ (doc.grid_used = true → _) := fun hgrid => by
    obtain ⟨rs, hok⟩ := instantiate_ok_iff.mpr hgrid
    cases h.symm.trans hok
  obtain ⟨hused, hbad⟩ := Classical.not_imp.mp hno
  rw [← inset_fits_iff (needs_pos hused).1 (needs_pos hused).2, not_and_or, not_le, not_le] at hbad
  rw [instantiate, refuse, if_pos ⟨hused, hbad⟩] at h
  cases h
  exact ⟨hused, rfl, rfl⟩

end Sizes

/-- A document is refused for its grid, and submitted again with the width and the
    height of the refusal, which are within the limits and fit the screen. It is
    accepted exactly when it did not ask for less than the smallest width without
    need, its window was as high as the title bar, and the grid leaves the row of
    the prompt free. -/
theorem second_attempt_lands_iff (d : desk_t) (doc : doc_t) (x y x' y' : Int) (n : small_t)
    (hrefused : instantiate d doc x y = .error (.small n)) (hw : Extent n.sw) (hh : Extent n.sh) (hsw : n.sw ≤ d.w)
    (hsh : n.sh ≤ d.h) :
    (∃ rs, instantiate d (doc.resized n.sw n.sh hw hh) x' y' = .ok rs) ↔ Roomy d doc := by
  obtain ⟨hused, hsw', hsh'⟩ := small_numbers hrefused
  have hneeds := needs_pos hused
  have hwidth := doc.wide
  have hheight := doc.high
  have htitle := d.title_pos
  simp only [GUI_MIN_W, GUI_MIN_H, GUI_TITLE_H, GUI_BORDER] at hsw' hsh'
  have hdw : 0 < d.w := by omega
  have hdh : 0 < d.h := by omega
  have hlands : (∃ rs, instantiate d (doc.resized n.sw n.sh hw hh) x' y' = .ok rs) ↔
      doc.needw + 2 * doc.pad ≤ (gui_client_area d (clamp_frame d ⟨x', y', n.sw, n.sh⟩)).w ∧
        doc.needh + 2 * doc.pad ≤ (gui_client_area d (clamp_frame d ⟨x', y', n.sw, n.sh⟩)).h :=
    instantiate_ok_iff.trans (forall_prop_of_true hused)
  have hroomy : Roomy d doc ↔ _ ∧ _ ∧ _ := ⟨fun h => ⟨h.wide, h.title, h.row⟩, fun h => ⟨h.1, h.2.1, h.2.2⟩⟩
  rw [hlands, hroomy]
  simp only [doc_t.client, gui_client_area, clamp_w hdw, clamp_h hdh, GUI_MIN_W, GUI_MIN_H, GUI_TITLE_H, GUI_BORDER,
    GUI_CONSOLE_RESERVE_H] at hsw' hsh' ⊢
  simp only [Extent] at hwidth hheight
  split at hsh'
  · rename_i hrow
    rw [if_pos hrow]
    omega
  · rename_i hrow
    rw [if_neg hrow]
    omega

def screen : desk_t := ⟨1024, 768, GUI_TITLE_H, by decide⟩

/-- A button in a row of eight cells. -/
def eight_cells (width : Int) (h : Extent width) : doc_t :=
  ⟨width, 40, h, ⟨by decide, by decide⟩, 1, 8, 0, 6,
    [.cell 0 0 1 1 (by decide) (by decide) (by decide) (by decide) (by decide) (by decide)]⟩

theorem least_width_lands : instantiate screen (eight_cells 64 ⟨by decide, by decide⟩) 0 0 =
      .error (.small ⟨64, 8, 50, 8, 78, 40⟩) ∧
    ∃ rs, instantiate screen (eight_cells 78 ⟨by decide, by decide⟩) 0 0 = .ok rs :=
  ⟨rfl, (second_attempt_lands_iff screen (eight_cells 64 ⟨by decide, by decide⟩) 0 0 0 0 ⟨64, 8, 50, 8, 78, 40⟩ rfl
    ⟨by decide, by decide⟩ ⟨by decide, by decide⟩ (by decide) (by decide)).mpr ⟨.inl (by decide), by decide, by decide⟩⟩

/-- A width below the smallest one is raised for the window, but the suggestion
    starts from the width that was asked for, and so it is too small again. -/
theorem narrow_request_refused_again : instantiate screen (eight_cells 32 ⟨by decide, by decide⟩) 0 0 =
      .error (.small ⟨64, 8, 50, 8, 64, 40⟩) ∧
    instantiate screen ((eight_cells 32 ⟨by decide, by decide⟩).resized 64 40 ⟨by decide, by decide⟩
      ⟨by decide, by decide⟩) 0 0 = .error (.small ⟨64, 8, 50, 8, 78, 40⟩) :=
  ⟨rfl, rfl⟩

end fable.launch
