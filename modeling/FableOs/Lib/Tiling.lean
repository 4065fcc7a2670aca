import Mathlib.Tactic

namespace fable

/-! Cells laid end to end from an address on. -/

section Tiling

variable {B : Type} (width : B → Nat)
variable {b : B} {L : List B}

/-- The total width of some cells. -/
def span : List B → Nat
  | [] => 0
  | b :: rest => width b + span rest

/-- Cell `b` of a row that starts at `a` starts at `x`. -/
def CellAt (a : Nat) : List B → Nat → B → Prop
  | [], _, _ => False
  | c :: rest, x, b => (x = a ∧ b = c) ∨ CellAt (a + width c) rest x b

/-- Where the last cell of a row starts, and `before` when there is none. -/
def lastStart (before a : Nat) : List B → Nat
  | [] => before
  | b :: rest => lastStart a (a + width b) rest

variable {width}

@[simp] theorem span_nil : span width ([] : List B) = 0 := rfl

@[simp] theorem span_cons (b : B) (rest : List B) : span width (b :: rest) = width b + span width rest := rfl

@[simp] theorem span_append (L L' : List B) : span width (L ++ L') = span width L + span width L' := by
  induction L with
  | nil => simp
  | cons b rest ih => rw [List.cons_append, span_cons, span_cons, ih, Nat.add_assoc]

@[simp] theorem cellAt_nil {a x : Nat} : ¬ CellAt width a [] x b := id

@[simp] theorem cellAt_cons {a x : Nat} {c : B} {rest} :
    CellAt width a (c :: rest) x b ↔ (x = a ∧ b = c) ∨ CellAt width (a + width c) rest x b := Iff.rfl

@[simp] theorem cellAt_append {a x : Nat} {L'} :
    CellAt width a (L ++ L') x b ↔ CellAt width a L x b ∨ CellAt width (a + span width L) L' x b := by
  induction L generalizing a with
  | nil => simp
  | cons c rest ih =>
    rw [List.cons_append, cellAt_cons, cellAt_cons, ih, span_cons, or_assoc, Nat.add_assoc]

theorem CellAt.bounds {a x : Nat} (h : CellAt width a L x b) : a ≤ x ∧ x + width b ≤ a + span width L := by
  induction L generalizing a with
  | nil => exact h.elim
  | cons c rest ih =>
    rw [span_cons]
    rcases h with ⟨rfl, rfl⟩ | h
    · omega
    · have hrest := ih h
      omega

/-- Two cells of a row are the same cell or do not overlap. -/
theorem CellAt.apart {a x y : Nat} {c : B} (hx : CellAt width a L x b) (hy : CellAt width a L y c) :
    (x = y ∧ b = c) ∨ x + width b ≤ y ∨ y + width c ≤ x := by
  induction L generalizing a with
  | nil => exact hx.elim
  | cons d rest ih =>
    rcases hx with ⟨rfl, rfl⟩ | hx
    · rcases hy with ⟨rfl, rfl⟩ | hy
      · exact Or.inl ⟨rfl, rfl⟩
      · exact Or.inr (Or.inl hy.bounds.1)
    · rcases hy with ⟨rfl, rfl⟩ | hy
      · exact Or.inr (Or.inr hx.bounds.1)
      · exact ih hx hy

theorem CellAt.mem {a x : Nat} (h : CellAt width a L x b) : b ∈ L := by
  induction L generalizing a with
  | nil => exact h.elim
  | cons c rest ih =>
    rcases h with ⟨-, rfl⟩ | h
    · exact List.mem_cons_self
    · exact List.mem_cons_of_mem c (ih h)

theorem CellAt.split {a x : Nat} (h : CellAt width a L x b) :
    ∃ pre post, L = pre ++ b :: post ∧ x = a + span width pre := by
  induction L generalizing a with
  | nil => exact h.elim
  | cons c rest ih =>
    rcases h with ⟨rfl, rfl⟩ | h
    · exact ⟨[], rest, rfl, rfl⟩
    · obtain ⟨pre, post, rfl, rfl⟩ := ih h
      refine ⟨c :: pre, post, rfl, ?_⟩
      rw [span_cons, Nat.add_assoc]

theorem cellAt_middle (a : Nat) (pre : List B) (b : B) (post : List B) :
    CellAt width a (pre ++ b :: post) (a + span width pre) b :=
  cellAt_append.mpr (Or.inr (Or.inl ⟨rfl, rfl⟩))

theorem lastStart_append (before a : Nat) (L L' : List B) :
    lastStart width before a (L ++ L') =
      lastStart width (lastStart width before a L) (a + span width L) L' := by
  induction L generalizing before a with
  | nil => simp [lastStart]
  | cons b rest ih => simp [lastStart, ih, Nat.add_assoc]

end Tiling

end fable
