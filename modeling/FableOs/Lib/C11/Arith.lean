import Mathlib

namespace c11

/-! Integer arithmetic of C11 for a target with 32-bit `int` and 64-bit `long`,
two's complement and arithmetic right shifts. What the standard leaves undefined
has no value. -/

inductive Rank where
  | char | short | int | long
  deriving DecidableEq

namespace Rank

def num : Rank → Nat
  | char => 0
  | short => 1
  | int => 2
  | long => 3

def width : Rank → Nat
  | char => 8
  | short => 16
  | int => 32
  | long => 64

end Rank

structure Ty where
  rank : Rank
  unsigned : Bool
  deriving DecidableEq

namespace Ty

abbrev int : Ty := ⟨.int, false⟩
abbrev uint : Ty := ⟨.int, true⟩

def width (t : Ty) : Nat := t.rank.width

/-- The values of a type. -/
def Holds (t : Ty) (v : Int) : Prop :=
  if t.unsigned then 0 ≤ v ∧ v < 2 ^ t.width else -2 ^ (t.width - 1) ≤ v ∧ v < 2 ^ (t.width - 1)

instance (t : Ty) (v : Int) : Decidable (t.Holds v) :=
  inferInstanceAs (Decidable
    (if t.unsigned then 0 ≤ v ∧ v < 2 ^ t.width else -2 ^ (t.width - 1) ≤ v ∧ v < 2 ^ (t.width - 1)))

/-- Every value of the first type is one of the second. -/
def fits (t u : Ty) : Bool :=
  if t.unsigned then if u.unsigned then t.width ≤ u.width else t.width < u.width
  else !u.unsigned && decide (t.width ≤ u.width)

/-- The number that a bit pattern stands for. -/
def ofBits (t : Ty) (b : BitVec t.width) : Int := if t.unsigned then b.toNat else b.toInt

end Ty

/-- Conversion to a type (6.3.1.3). -/
def convert (t : Ty) (v : Int) : Int := if t.unsigned then v % 2 ^ t.width else v.bmod (2 ^ t.width)

/-- The integer promotions (6.3.1.1). -/
def promote (t : Ty) : Ty :=
  if t.rank.num ≤ Rank.int.num then if t.fits .int then .int else .uint else t

/-- The common type of two promoted types, one unsigned and one signed. -/
def mixed (u s : Ty) : Ty :=
  if s.rank.num ≤ u.rank.num then u else if u.fits s then s else ⟨s.rank, true⟩

/-- The usual arithmetic conversions (6.3.1.8). -/
def usual (t u : Ty) : Ty :=
  let t := promote t
  let u := promote u
  if t = u then t
  else if t.unsigned = u.unsigned then if t.rank.num < u.rank.num then u else t
  else if t.unsigned then mixed t u
  else mixed u t

/-- The result of an operation: reduced for an unsigned type, undefined for a
    signed one that does not have it (6.5p5). -/
def settle (t : Ty) (v : Int) : Option Int :=
  if t.unsigned then some (convert t v) else if t.Holds v then some v else none

inductive Arith where
  | add | sub | mul | div | mod | and | or | xor
  deriving DecidableEq

/-- An operation on two values of one type (6.5.5, 6.5.6, 6.5.10 to 6.5.12). -/
def arith (op : Arith) (t : Ty) (a b : Int) : Option Int :=
  match op with
  | .add => settle t (a + b)
  | .sub => settle t (a - b)
  | .mul => settle t (a * b)
  | .div => if b = 0 then none else settle t (a.tdiv b)
  | .mod => if b = 0 then none else if t.Holds (a.tdiv b) then some (a.tmod b) else none
  | .and => some (t.ofBits (BitVec.ofInt t.width a &&& BitVec.ofInt t.width b))
  | .or => some (t.ofBits (BitVec.ofInt t.width a ||| BitVec.ofInt t.width b))
  | .xor => some (t.ofBits (BitVec.ofInt t.width a ^^^ BitVec.ofInt t.width b))

/-- A shift of a value of a promoted type (6.5.7). -/
def shift (left : Bool) (t : Ty) (a b : Int) : Option Int :=
  if b < 0 ∨ t.width ≤ b then none
  else if !left then some (a / 2 ^ b.toNat)
  else if t.unsigned then some (convert t (a * 2 ^ b.toNat))
  else if a < 0 then none
  else settle t (a * 2 ^ b.toNat)

inductive BinOp where
  | arith (op : Arith)
  | shift (left : Bool)
  deriving DecidableEq

/-- The type of an operation on operands of two types. -/
def BinOp.ty (op : BinOp) (t u : Ty) : Ty :=
  match op with
  | arith _ => usual t u
  | shift _ => promote t

/-- The value of an operation on values of two types. -/
def BinOp.val (op : BinOp) (t u : Ty) (a b : Int) : Option Int :=
  match op with
  | arith op => c11.arith op (usual t u) (convert (usual t u) a) (convert (usual t u) b)
  | shift left => c11.shift left (promote t) a b

inductive Rel where
  | eq | ne | lt | le | gt | ge
  deriving DecidableEq

def Rel.holds (rel : Rel) (a b : Int) : Bool :=
  match rel with
  | eq => a = b
  | ne => a ≠ b
  | lt => a < b
  | le => a ≤ b
  | gt => a > b
  | ge => a ≥ b

/-- The value of a truth value. -/
def ofBool (b : Bool) : Int := if b then 1 else 0

section Facts

variable {t u : Ty} {v : Int}

theorem Ty.width_pos (t : Ty) : 0 < t.width := by
  obtain ⟨rank, _⟩ := t
  cases rank <;> simp [Ty.width, Rank.width]

theorem holds_convert (t : Ty) (v : Int) : t.Holds (convert t v) := by
  obtain ⟨rank, unsigned⟩ := t
  cases rank <;> cases unsigned <;>
    simp only [Ty.Holds, convert, Ty.width, Rank.width, Bool.false_eq_true, if_false, if_true, Int.bmod_def] <;>
    omega

theorem convert_of_holds (h : t.Holds v) : convert t v = v := by
  obtain ⟨rank, unsigned⟩ := t
  cases rank <;> cases unsigned <;>
    simp only [Ty.Holds, convert, Ty.width, Rank.width, Bool.false_eq_true, if_false, if_true, Int.bmod_def] at * <;>
    omega

theorem holds_of_fits (hfits : t.fits u = true) (h : t.Holds v) : u.Holds v := by
  obtain ⟨rank, unsigned⟩ := t
  obtain ⟨rank', unsigned'⟩ := u
  cases rank <;> cases unsigned <;> cases rank' <;> cases unsigned' <;>
    first
    | (simp [Ty.fits, Ty.width, Rank.width] at hfits; done)
    | (simp only [Ty.Holds, Ty.width, Rank.width, Bool.false_eq_true, if_false, if_true] at *
       omega)

theorem fits_promote (t : Ty) : t.fits (promote t) = true := by
  obtain ⟨rank, unsigned⟩ := t
  cases rank <;> cases unsigned <;> decide

theorem holds_promote (h : t.Holds v) : (promote t).Holds v := holds_of_fits (fits_promote t) h

theorem holds_settle {r : Int} (h : settle t v = some r) : t.Holds r := by
  unfold settle at h
  split at h
  · cases h
    exact holds_convert t v
  · split at h
    · cases h
      assumption
    · cases h

/-- A sum from which the second part is taken again. -/
theorem settle_undo {a d r : Int} (ha : t.Holds a) (h : settle t (a + d) = some r) : settle t (r - d) = some a := by
  unfold settle at h ⊢
  by_cases hunsigned : t.unsigned = true
  · rw [if_pos hunsigned] at h ⊢
    obtain rfl := Option.some.inj h
    have hback : convert t (convert t (a + d) - d) = convert t a := by
      simp [convert, hunsigned]
    rw [hback, convert_of_holds ha]
  · rw [if_neg hunsigned] at h ⊢
    split at h
    · cases h
      rw [Int.add_sub_cancel, if_pos ha]
    · cases h

theorem holds_ofBits (t : Ty) (b : BitVec t.width) : t.Holds (t.ofBits b) := by
  have hlt := b.isLt
  have hlo := BitVec.le_toInt b
  have hhi := BitVec.toInt_lt (x := b)
  unfold Ty.Holds Ty.ofBits
  split
  · exact ⟨by omega, by exact_mod_cast hlt⟩
  · exact ⟨by exact_mod_cast hlo, by exact_mod_cast hhi⟩

theorem holds_tmod {a b : Int} (ha : t.Holds a) : t.Holds (a.tmod b) := by
  have hle : (a.tmod b).natAbs ≤ a.natAbs := by
    rw [Int.natAbs_tmod]
    exact Nat.mod_le _ _
  have hsign : 0 ≤ a → 0 ≤ a.tmod b := fun h => Int.tmod_nonneg b h
  have hsign' : a ≤ 0 → a.tmod b ≤ 0 := fun h => by
    have := Int.tmod_nonneg b (Int.neg_nonneg_of_nonpos h)
    rw [Int.neg_tmod] at this
    omega
  obtain ⟨rank, unsigned⟩ := t
  cases rank <;> cases unsigned <;>
    simp only [Ty.Holds, Ty.width, Rank.width, Bool.false_eq_true, if_false, if_true] at * <;> omega

theorem holds_arith {op} {a b r : Int} (ha : t.Holds a) (h : arith op t a b = some r) : t.Holds r := by
  cases op with
  | add | sub | mul => exact holds_settle h
  | div =>
    simp only [arith] at h
    split at h
    · cases h
    · exact holds_settle h
  | mod =>
    simp only [arith] at h
    split at h
    · cases h
    · split at h
      · cases h
        exact holds_tmod ha
      · cases h
  | and | or | xor =>
    cases h
    exact holds_ofBits _ _

theorem holds_shiftRight {a : Int} (ha : t.Holds a) (n : Nat) : t.Holds (a / 2 ^ n) := by
  have hpos : (0 : Int) < 2 ^ n := by positivity
  have hlo : 0 ≤ a → 0 ≤ a / 2 ^ n := fun h => Int.ediv_nonneg h hpos.le
  have hhi : 0 ≤ a → a / 2 ^ n ≤ a := fun h => Int.ediv_le_self _ h
  have hlo' : a < 0 → a ≤ a / 2 ^ n := fun h => by
    rw [Int.le_ediv_iff_mul_le hpos]
    nlinarith
  have hhi' : a < 0 → a / 2 ^ n < 0 := fun h => Int.ediv_neg_of_neg_of_pos h hpos
  obtain ⟨rank, unsigned⟩ := t
  cases rank <;> cases unsigned <;>
    simp only [Ty.Holds, Ty.width, Rank.width, Bool.false_eq_true, if_false, if_true] at * <;> omega

theorem holds_shift {left : Bool} {a b r : Int} (ha : t.Holds a) (h : shift left t a b = some r) : t.Holds r := by
  unfold shift at h
  split at h
  · cases h
  split at h
  · cases h
    exact holds_shiftRight ha _
  split at h
  · cases h
    exact holds_convert _ _
  split at h
  · cases h
  · exact holds_settle h

theorem holds_binOp {op : BinOp} {a b r : Int} (ha : t.Holds a) (h : op.val t u a b = some r) :
    (op.ty t u).Holds r := by
  cases op with
  | arith op => exact holds_arith (holds_convert _ _) h
  | shift left => exact holds_shift (holds_promote ha) h

end Facts

end c11
