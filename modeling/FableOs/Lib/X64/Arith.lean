import FableOs.Lib.X64.Facts

namespace x64

/-! The arithmetic instructions at 32 and 64 bits, in terms of the operations
on bit vectors of that width. -/

open BitVec

/-- The widths whose writes set the whole register. -/
def Width.Wide (w : Width) : Prop := w = .w32 ∨ w = .w64

/-- The operand-size choice of the instructions that come in both widths. -/
def wide (w64 : Bool) : Width := if w64 then .w64 else .w32

theorem wide_wide (w64 : Bool) : (wide w64).Wide := by
  cases w64
  · exact .inl rfl
  · exact .inr rfl

/-- What a register holds at a width. -/
abbrev Machine.low (s : Machine) (w : Width) (r : Reg) : BitVec w.bits := (s.regs r).setWidth w.bits

section Wide

variable {w : Width} {s : Machine} {r : Reg} {v d : BitVec 64}

theorem regs_writeReg_wide (hw : w.Wide) (s : Machine) (r : Reg) (v : BitVec 64) :
    (s.writeReg w r v).regs r = w.zext v := by
  obtain rfl | rfl := hw
  · exact regs_writeReg_w32 _ _ _
  · rw [regs_writeReg_w64, Width.zext_w64]

theorem aluExec_reg (op : Alu) (hop : op ≠ .cmp) (s : Machine) (r : Reg) (b : BitVec 64) :
    aluExec s op w (.reg r) b =
      (s.writeReg w r ((aluOp op (s.low w r) (b.setWidth w.bits)).1.setWidth 64)).setFlags
        (aluOp op (s.low w r) (b.setWidth w.bits)).2 := by
  unfold aluExec
  rw [if_neg hop]
  simp [Machine.getRM, Machine.setRM]

theorem aluExec_cmp (s : Machine) (r : Reg) (b : BitVec 64) :
    aluExec s .cmp w (.reg r) b =
      s.setFlags (aluOp .cmp (s.low w r) (b.setWidth w.bits)).2 := by
  unfold aluExec
  rw [if_pos rfl]
  simp [Machine.getRM]

theorem exec_xor_self (s : Machine) (next : BitVec 64) (r : Reg) :
    exec s next (.alu .xor .w32 (.reg r) (.reg r)) =
      some (((s.setReg r 0).setFlags (flagsOf (0 : BitVec 32) false false)).goto next) := by
  simp only [exec, aluExec_reg .xor (by decide), Machine.getRM, Width.setWidth_zext, aluOp, BitVec.xor_self]
  rfl

theorem toNat_zext (w : Width) (v : BitVec 64) : (w.zext v).toNat = (v.setWidth w.bits).toNat := by
  rw [w.toNat_zext, toNat_setWidth]

theorem zext_ofNat (w : Width) (r : BitVec w.bits) : w.zext (BitVec.ofNat 64 r.toNat) = r.setWidth 64 := by
  rw [← w.zext_setWidth r, ofNat_toNat]

theorem zext_ofInt (w : Width) (r : BitVec w.bits) : w.zext (BitVec.ofInt 64 r.toInt) = r.setWidth 64 := by
  rw [Width.zext, setWidth_ofInt_of_le w.bits_le, ofInt_toInt]

theorem zext_ne_zero (h : d.setWidth w.bits ≠ 0) : w.zext d ≠ 0 := by
  intro hzero
  apply h
  rw [← w.setWidth_zext, hzero]
  exact setWidth_zero _ _

theorem dividend_eq (s : Machine) (w : Width) : dividend s w = (s.low w .rdx ++ s.low w .rax).toNat := by
  unfold dividend
  rw [toNat_zext, toNat_zext, toNat_append, ← Nat.shiftLeft_add_eq_or_of_lt (s.low w .rax).isLt, Nat.shiftLeft_eq]

theorem divExec_unsigned (hrdx : w.zext (s.regs .rdx) = 0) (hd : d.setWidth w.bits ≠ 0) :
    divExec s false w (w.zext d) =
      some (((s.writeReg w .rax (BitVec.ofNat 64 (s.low w .rax / d.setWidth w.bits).toNat)).writeReg w
        .rdx (BitVec.ofNat 64 (s.low w .rax % d.setWidth w.bits).toNat)).setFlags undefinedFlags) := by
  have hdividend : dividend s w = (s.low w .rax).toNat := by
    unfold dividend
    rw [hrdx, toNat_zext]
    simp
  have hquot : (s.low w .rax).toNat / (d.setWidth w.bits).toNat < 2 ^ w.bits :=
    Nat.lt_of_le_of_lt (Nat.div_le_self _ _) (s.low w .rax).isLt
  unfold divExec
  simp only [if_neg (zext_ne_zero hd), Bool.false_eq_true, if_false, hdividend, toNat_zext]
  rw [if_neg (Nat.not_le.mpr hquot), toNat_udiv, toNat_umod]

theorem dividend_signed (hrdx : w.zext (s.regs .rdx) = w.zext (if (s.low w .rax).msb then -1 else 0)) :
    (dividend s w : Int).bmod (2 ^ (2 * w.bits)) = (s.low w .rax).toInt := by
  have hhigh : (s.low w .rdx).toInt = if (s.low w .rax).msb then -1 else 0 := by
    have hlow := congrArg (setWidth w.bits) hrdx
    rw [Width.setWidth_zext, Width.setWidth_zext] at hlow
    rw [Machine.low, hlow]
    cases (s.low w .rax).msb <;> cases w <;> decide
  have hbits : (w.bits == 0) = false := by cases w <;> rfl
  rw [dividend_eq, Nat.two_mul, ← toInt_eq_toNat_bmod, toInt_append, hbits, hhigh,
    toInt_eq_msb_cond (s.low w .rax)]
  cases (s.low w .rax).msb with
  | true =>
    simp only [Bool.false_eq_true, if_false, if_true]
    push_cast
    ring
  | false => simp

theorem toInt_sext (w : Width) (v : BitVec 64) : (w.sext v).toInt = (v.setWidth w.bits).toInt := by
  exact toInt_signExtend_of_le w.bits_le

theorem divExec_signed (hrdx : w.zext (s.regs .rdx) = w.zext (if (s.low w .rax).msb then -1 else 0))
    (hd : d.setWidth w.bits ≠ 0) (hover : ¬ (s.low w .rax = BitVec.intMin w.bits ∧ d.setWidth w.bits = -1)) :
    divExec s true w (w.zext d) =
      some (((s.writeReg w .rax
        (BitVec.ofInt 64 ((s.low w .rax).sdiv (d.setWidth w.bits)).toInt)).writeReg w .rdx
        (BitVec.ofInt 64 ((s.low w .rax).srem (d.setWidth w.bits)).toInt)).setFlags
          undefinedFlags) := by
  have hquot := toInt_sdiv_of_ne_or_ne (s.low w .rax) (d.setWidth w.bits)
    (not_and_or.mp hover)
  have hlo := le_toInt ((s.low w .rax).sdiv (d.setWidth w.bits))
  have hhi := toInt_lt (x := (s.low w .rax).sdiv (d.setWidth w.bits))
  unfold divExec
  simp only [if_neg (zext_ne_zero hd), if_true, dividend_signed hrdx, Width.sext_zext, toInt_sext, ← hquot, ← toInt_srem]
  rw [if_neg (by omega)]

end Wide

section Conditions

theorem sub_eq_zero_iff {n : Nat} (a b : BitVec n) : a - b = 0 ↔ a = b := by
  rw [sub_eq_iff_eq_add]
  exact Iff.of_eq (congrArg (a = ·) (zero_add b))

/-- After a comparison, the sign and the overflow flag differ if the left side
    is less as a signed number. -/
theorem cmp_signed_lt {w : Width} (a b : BitVec w.bits) : ((a - b).msb != a.ssubOverflow b) = a.slt b := by
  rw [slt_eq_decide, msb_eq_toInt, toInt_sub, Bool.eq_iff_iff, ssubOverflow, Int.bmod_def]
  have halo := le_toInt a
  have hahi := toInt_lt (x := a)
  have hblo := le_toInt b
  have hbhi := toInt_lt (x := b)
  simp only [bne_iff_ne, ne_eq, Bool.or_eq_decide, decide_eq_true_eq, decide_eq_decide]
  generalize a.toInt = x at *
  generalize b.toInt = y at *
  cases w <;> simp only [Width.bits, Width.bytes] at * <;> omega

theorem lt_or_eq_eq_le {n : Nat} (a b : BitVec n) : (decide (a < b) || decide (a = b)) = decide (a ≤ b) := by
  rw [Bool.eq_iff_iff, Bool.or_eq_true, decide_eq_true_eq, decide_eq_true_eq, decide_eq_true_eq, lt_def,
    le_def, ← toNat_inj]
  omega

theorem eq_or_slt_eq_sle {n : Nat} (a b : BitVec n) : (decide (a = b) || a.slt b) = a.sle b := by
  rw [Bool.eq_iff_iff, Bool.or_eq_true, decide_eq_true_eq, slt_iff_toInt_lt, sle_iff_toInt_le,
    ← toInt_inj]
  omega

theorem zext_merge_w8 (r x : BitVec 64) : Width.w8.zext (r - Width.w8.zext r + Width.w8.zext x) = Width.w8.zext x := by
  have hr : Width.w8.zext r = BitVec.ofNat 64 (r.toNat % 256) := by
    apply eq_of_toNat_eq
    rw [toNat_zext, toNat_setWidth, toNat_ofNat]
    exact (Nat.mod_eq_of_lt (by change r.toNat % 256 < 2 ^ 64; omega)).symm
  apply eq_of_toNat_eq
  rw [toNat_zext, toNat_zext, toNat_setWidth, toNat_setWidth, toNat_add, toNat_zext,
    toNat_setWidth, hr, toNat_sub, toNat_ofNat]
  change (((2 ^ 64 - r.toNat % 256 % 2 ^ 64 + r.toNat) % 2 ^ 64 + x.toNat % 256) % 2 ^ 64) % 256 = x.toNat % 256
  omega

end Conditions

end x64
