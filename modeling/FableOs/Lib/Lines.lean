import Mathlib.Data.List.Basic
import Mathlib.Tactic

namespace fable.Lines

/-! Messages whose head is lines that end in CR LF, up to an empty line. -/

open List

def CRLF : List UInt8 := [0x0D, 0x0A]

/-- Read the head of a message: its lines, and what follows the empty line.
    `line` is what was read of the current line, backwards. -/
def read_head (line : List UInt8) : List UInt8 → Option (List (List UInt8) × List UInt8)
  | 0x0D :: 0x0A :: rest =>
    if line = [] then some ([], rest) else (read_head [] rest).map fun m => (line.reverse :: m.1, m.2)
  | c :: rest => read_head (c :: line) rest
  | [] => none

/-- A head as it is sent. -/
def head_text (lines : List (List UInt8)) : List UInt8 := lines.flatMap (· ++ CRLF) ++ CRLF

/-- A line that cannot end early, for readers that take CR LF and for readers
    that take a bare LF. -/
structure Whole (line : List UInt8) : Prop where
  ne_nil : line ≠ []
  no_cr : 0x0D ∉ line
  no_lf : 0x0A ∉ line

theorem read_head_append {line} (hcr : 0x0D ∉ line) (acc rest : List UInt8) :
    read_head acc (line ++ rest) = read_head (line.reverse ++ acc) rest := by
  induction line generalizing acc with
  | nil => rfl
  | cons c line ih =>
    have hc : c ≠ 0x0D := fun h => hcr (h ▸ mem_cons_self)
    have hstep : read_head acc (c :: (line ++ rest)) = read_head (c :: acc) (line ++ rest) := by
      rw [read_head]
      intro _ heq
      exact absurd heq hc
    rw [cons_append, hstep, ih fun h => hcr (mem_cons_of_mem _ h)]
    simp

/-- Whole lines are read back as they were sent, and nothing of the body is
    taken for a line. -/
theorem read_head_text {lines} (h : ∀ line ∈ lines, Whole line) (body : List UInt8) :
    read_head [] (head_text lines ++ body) = some (lines, body) := by
  induction lines with
  | nil => rfl
  | cons line lines ih =>
    have hline := h line mem_cons_self
    have hsplit : head_text (line :: lines) ++ body = line ++ (CRLF ++ (head_text lines ++ body)) := by
      simp [head_text]
    have hread : read_head line.reverse (CRLF ++ (head_text lines ++ body)) =
        (read_head [] (head_text lines ++ body)).map fun m => (line.reverse.reverse :: m.1, m.2) := by
      rw [CRLF, cons_append, cons_append, nil_append, read_head, if_neg (by simpa using hline.ne_nil)]
    rw [hsplit, read_head_append hline.no_cr, append_nil, hread, ih fun l hl => h l (mem_cons_of_mem _ hl)]
    simp

end fable.Lines
