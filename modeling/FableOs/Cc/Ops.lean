import FableOs.Cc.Blocks
import FableOs.Lib.X64.Arith

namespace fable.cc

open BitVec

open x64 (Machine Runs Instr Reg Width RM Encodes exec decode wide)

/-! The blocks of the operators. -/

theorem by_width_eq (w64 : Bool) (bs : List UInt8) : by_width w64 bs = EMIT (if w64 then 0x48 :: bs else bs) := by
  cases w64 <;> rfl

theorem binop_value_eq (kind : binop_kind) (ty : cc_type) (a b : BitVec 64) :
    binop_value kind ty a b =
      (binop_at kind (is_uns ty) (a.setWidth (wide (is_w64 ty)).bits) (b.setWidth (wide (is_w64 ty)).bits)).map
        fun v => as_type ty (v.setWidth 64) := by
  unfold binop_value
  cases is_w64 ty with
  | false => rfl
  | true =>
    change (binop_at kind (is_uns ty) a b).map (as_type ty) =
      (binop_at kind (is_uns ty) (a.setWidth 64) (b.setWidth 64)).map fun v => as_type ty (v.setWidth 64)
    simp

section Blocks

variable {C : code_t} {s t : Machine} {v : BitVec 64} {w64 : Bool}
variable {w : Width} {x : BitVec 64} {bs : List UInt8} {n : Nat} {uns : Bool}

theorem rax_of_write (s : Machine) (r : BitVec (wide w64).bits) :
    (s.writeReg (wide w64) .rax (r.setWidth 64)).regs .rax = r.setWidth 64 := by
  rw [x64.regs_writeReg_wide (x64.wide_wide w64), Width.zext_setWidth]

theorem alu_yields (op : x64.Alu) (hop : op ≠ .cmp)
    (hcode : Encodes (if w64 then 0x48 :: bs else bs) (.alu op (wide w64) (.reg .rax) (.reg .rdi))) :
    Yields C (by_width w64 bs) s ((x64.aluOp op (s.low (wide w64) .rax) (s.low (wide w64) .rdi)).1.setWidth 64) := by
  rw [by_width_eq]
  refine Reaches.emit hcode (fun _ => congrArg (fun t => some (Machine.goto t _)) (x64.aluExec_reg op hop s .rax _))
    (.setFlags (.writeReg (by decide)) _) fun _ => (rax_of_write s _).trans ?_
  simp [Machine.getRM]

theorem imul_yields : Yields C (by_width w64 [0x0F, 0xAF, 0xC7]) s
    ((s.low (wide w64) .rax * s.low (wide w64) .rdi).setWidth 64) := by
  rw [by_width_eq]
  refine Reaches.emit (i := .imul (wide w64) .rax (.reg .rdi)) (by cases w64 <;> exact ⟨by decide, fun _ => rfl⟩)
    (fun _ => rfl) (.setFlags (.writeReg (by decide)) _) fun _ => (rax_of_write s _).trans ?_
  simp [Machine.getRM]

theorem shift_yields (op : x64.Shift)
    (hcode : Encodes (if w64 then 0x48 :: bs else bs) (.shift op (wide w64) (.reg .rax))) :
    Yields C (EMIT [0x48, 0x89, 0xF9] >>= fun _ => by_width w64 bs) s
      ((x64.shiftOp op (s.low (wide w64) .rax) ((s.regs .rdi).toNat % (wide w64).bits)).setWidth 64) := by
  have hmov : Reaches C (EMIT [0x48, 0x89, 0xF9]) s fun t => t.regs = Function.update s.regs .rcx (s.regs .rdi) := by
    refine .emit (i := .mov .w64 (.reg .rcx) (.reg .rdi)) (t := s.setReg .rcx (s.regs .rdi)) ⟨by decide, fun _ => rfl⟩
      (fun _ => ?_) (.writeReg (w := .w64) (by decide)) fun _ => rfl
    simp only [exec, Machine.getRM, Machine.setRM, Width.zext_w64]
    rfl
  have hcount : x64.shiftCount (wide w64) (s.regs .rdi) = (s.regs .rdi).toNat % (wide w64).bits := by
    cases w64 <;> rfl
  refine hmov.bind fun t ht => ?_
  rw [by_width_eq]
  refine Reaches.emit hcode (fun _ => rfl) (.setFlags (.writeReg (by decide)) _) fun _ => (rax_of_write t _).trans ?_
  simp [Machine.getRM, ht, hcount]

/-- The dividing instruction, which leaves its quotient in rax and its remainder in
    rdx. -/
theorem div_reaches {signed : Bool} {q r : BitVec (wide w64).bits} {y}
    (hcode : Encodes (if w64 then 0x48 :: bs else bs) (.div signed (wide w64) (.reg .rdi)))
    (hexec : x64.divExec s signed (wide w64) ((wide w64).zext (s.regs .rdi)) = some (((s.writeReg (wide w64) .rax x).writeReg (wide w64) .rdx y).setFlags x64.undefinedFlags))
    (hq : (wide w64).zext x = q.setWidth 64) (hr : (wide w64).zext y = r.setWidth 64) :
    Reaches C (by_width w64 bs) s fun t => t.regs .rax = q.setWidth 64 ∧ t.regs .rdx = r.setWidth 64 := by
  rw [by_width_eq]
  refine .emit hcode (fun _ => congrArg (Option.map (Machine.goto · _)) hexec) ⟨by simp, fun r hr => ?_⟩
    fun _ => ⟨?_, ?_⟩
  · exact ((Quiet.writeReg (by decide)).kept r hr).trans ((Quiet.writeReg (by decide)).kept r hr)
  · simp only [x64.regs_goto, x64.regs_setFlags]
    rw [x64.regs_writeReg_of_ne _ _ _ _ _ (by decide), x64.regs_writeReg_wide (x64.wide_wide w64), hq]
  · exact (x64.regs_writeReg_wide (x64.wide_wide w64) _ _ _).trans hr

theorem gen_div_reaches (hd : s.low (wide w64) .rdi ≠ 0)
    (hover : uns = false → ¬ (s.low (wide w64) .rax = BitVec.intMin (wide w64).bits ∧ s.low (wide w64) .rdi = -1)) :
    Reaches C (gen_div w64 uns) s fun t =>
      t.regs .rax = (if uns then s.low (wide w64) .rax / s.low (wide w64) .rdi
        else (s.low (wide w64) .rax).sdiv (s.low (wide w64) .rdi)).setWidth 64 ∧
      t.regs .rdx = (if uns then s.low (wide w64) .rax % s.low (wide w64) .rdi
        else (s.low (wide w64) .rax).srem (s.low (wide w64) .rdi)).setWidth 64 := by
  have hlow {t : Machine} {x : BitVec 64} (ht : t.regs = Function.update s.regs .rdx x) {r : Reg} (hr : r ≠ .rdx) :
      s.low (wide w64) r = t.low (wide w64) r := by
    rw [Machine.low, Machine.low, ht, Function.update_of_ne hr]
  cases uns with
  | true =>
    have hzero : Reaches C (EMIT [0x31, 0xD2]) s fun t => t.regs = Function.update s.regs .rdx 0 :=
      .emit (i := .alu .xor .w32 (.reg .rdx) (.reg .rdx)) ⟨by decide, fun _ => rfl⟩ (fun _ => x64.exec_xor_self _ _ _)
        (.setFlags (.writeReg (w := .w64) (by decide)) _) fun _ => rfl
    refine hzero.bind fun t ht => ?_
    have hrdx : (wide w64).zext (t.regs .rdx) = 0 := by
      rw [ht, Function.update_self]
      cases w64 <;> decide
    rw [hlow ht (r := .rax) (by decide), hlow ht (r := .rdi) (by decide)] at *
    exact div_reaches (by cases w64 <;> exact ⟨by decide, fun _ => rfl⟩) (x64.divExec_unsigned hrdx hd)
      (x64.zext_ofNat _ _) (x64.zext_ofNat _ _)
  | false =>
    have hsign : Reaches C (by_width w64 [0x99]) s fun t => ∃ x, t.regs = Function.update s.regs .rdx x ∧
        (wide w64).zext x = (wide w64).zext (if (s.low (wide w64) .rax).msb then -1 else 0) := by
      rw [by_width_eq]
      refine .emit (i := .cdq (wide w64)) (by cases w64 <;> exact ⟨by decide, fun _ => rfl⟩) (fun _ => rfl)
        (.writeReg (by decide)) fun _ => ?_
      cases w64 with
      | false => exact ⟨_, rfl, Width.zext_zext _ _⟩
      | true => exact ⟨_, rfl, rfl⟩
    refine hsign.bind fun t ht => ?_
    obtain ⟨x, ht, hx⟩ := ht
    have hrdx : t.regs .rdx = x := by rw [ht, Function.update_self]
    have hover := hover rfl
    rw [hlow ht (r := .rax) (by decide), hlow ht (r := .rdi) (by decide)] at *
    exact div_reaches (by cases w64 <;> exact ⟨by decide, fun _ => rfl⟩)
      (x64.divExec_signed (by rw [hrdx, hx]) hd hover) (x64.zext_ofInt _ _) (x64.zext_ofInt _ _)

/-- A division that has a value does not fault. -/
theorem binop_at_div {a b v} (h : binop_at .ND_DIV uns a b = some v) :
    b ≠ 0 ∧ (uns = false → ¬ (a = BitVec.intMin n ∧ b = -1)) ∧ v = if uns then a / b else a.sdiv b := by
  cases uns <;> simp only [binop_at] at h <;> split at h <;> simp_all

theorem binop_at_mod {a b v} (h : binop_at .ND_MOD uns a b = some v) :
    b ≠ 0 ∧ (uns = false → ¬ (a = BitVec.intMin n ∧ b = -1)) ∧ v = if uns then a % b else a.srem b := by
  cases uns <;> simp only [binop_at] at h <;> split at h <;> simp_all

/-- A shift count is taken modulo the width, before or after it is cut to the
    width. -/
theorem shift_count_eq (w64 : Bool) (c : BitVec 64) :
    (c.setWidth (wide w64).bits).toNat % (wide w64).bits = c.toNat % (wide w64).bits := by
  rw [toNat_setWidth]
  cases w64 with
  | false | true => exact Nat.mod_mod_of_dvd _ (by decide)

/-- The code of an operator computes it, at the width it works in. -/
theorem gen_op_yields {kind v} (hval : binop_at kind uns (s.low (wide w64) .rax) (s.low (wide w64) .rdi) = some v) :
    Yields C (gen_op kind w64 uns) s (v.setWidth 64) := by
  cases kind with
  | ND_ADD =>
    cases hval
    exact alu_yields .add (by decide) (by cases w64 <;> exact ⟨by decide, fun _ => rfl⟩)
  | ND_SUB =>
    cases hval
    exact alu_yields .sub (by decide) (by cases w64 <;> exact ⟨by decide, fun _ => rfl⟩)
  | ND_MUL =>
    cases hval
    exact imul_yields
  | ND_BITAND =>
    cases hval
    exact alu_yields .and (by decide) (by cases w64 <;> exact ⟨by decide, fun _ => rfl⟩)
  | ND_BITOR =>
    cases hval
    exact alu_yields .or (by decide) (by cases w64 <;> exact ⟨by decide, fun _ => rfl⟩)
  | ND_BITXOR =>
    cases hval
    exact alu_yields .xor (by decide) (by cases w64 <;> exact ⟨by decide, fun _ => rfl⟩)
  | ND_DIV =>
    obtain ⟨hd, hover, rfl⟩ := binop_at_div hval
    exact (gen_div_reaches hd hover).imp fun _ h => h.1
  | ND_MOD =>
    obtain ⟨hd, hover, rfl⟩ := binop_at_mod hval
    refine (gen_div_reaches hd hover).bind fun t ht => ?_
    rw [by_width_eq]
    refine Yields.emit (i := .mov (wide w64) (.reg .rax) (.reg .rdx)) (w := wide w64)
      (by cases w64 <;> exact ⟨by decide, fun _ => rfl⟩) (fun _ => rfl) ?_
    rw [Machine.getRM, ht.2, Width.zext_setWidth, rax_of_write]
  | ND_SHL =>
    cases hval
    rw [shift_count_eq]
    exact shift_yields .shl (by cases w64 <;> exact ⟨by decide, fun _ => rfl⟩)
  | ND_SHR =>
    cases hval
    rw [shift_count_eq]
    cases uns with
    | true => exact shift_yields .shr (by cases w64 <;> exact ⟨by decide, fun _ => rfl⟩)
    | false => exact shift_yields .sar (by cases w64 <;> exact ⟨by decide, fun _ => rfl⟩)

theorem gen_binop_yields {kind ty} (hval : binop_value kind ty (s.regs .rax) (s.regs .rdi) = some v) :
    Yields C (gen_binop kind ty) s v := by
  rw [binop_value_eq, Option.map_eq_some_iff] at hval
  obtain ⟨r, hr, rfl⟩ := hval
  refine (gen_op_yields hr).bind fun t ht => ?_
  rw [← ht]
  exact normalise_yields ty

/-- The condition code of a comparison. -/
def cond_of (kind : compare_kind) (uns : Bool) : x64.Cond :=
  match kind with
  | .ND_EQ => .e
  | .ND_NE => .ne
  | .ND_LT => if uns then .b else .l
  | .ND_LE => if uns then .be else .le

/-- After a `cmp` the condition code says how the operands compare. -/
theorem cond_of_holds (kind : compare_kind) (uns : Bool) (a b : BitVec w.bits) :
    (cond_of kind uns).holds (x64.aluOp .cmp a b).2 = some (compare_at kind uns a b) := by
  have hzero : decide (a - b = 0) = decide (a = b) := decide_eq_decide.mpr (x64.sub_eq_zero_iff a b)
  have hborrow := usubOverflow_eq a b
  have hsigned := x64.cmp_signed_lt a b
  cases kind with
  | ND_EQ => simp only [cond_of, x64.Cond.holds, x64.aluOp, x64.flagsOf, compare_at, hzero]
  | ND_NE =>
    simp only [cond_of, x64.Cond.holds, x64.aluOp, x64.flagsOf, compare_at, hzero, Option.map_some]
    simp
  | ND_LT =>
    cases uns with
    | true => simp [cond_of, x64.Cond.holds, x64.aluOp, x64.flagsOf, compare_at, hborrow]
    | false => simp [cond_of, x64.Cond.holds, x64.aluOp, x64.flagsOf, compare_at, hsigned]
  | ND_LE =>
    cases uns with
    | true =>
      have hle := x64.lt_or_eq_eq_le a b
      simp only [cond_of, x64.Cond.holds, x64.aluOp, x64.flagsOf, compare_at, hborrow, hzero, if_true]
      simpa using hle
    | false =>
      have hle := x64.eq_or_slt_eq_sle a b
      simp only [cond_of, x64.Cond.holds, x64.aluOp, x64.flagsOf, compare_at, hzero, Bool.false_eq_true, if_false]
      simpa [hsigned] using hle

theorem truth_of_byte (b : Bool) (r : BitVec 64) :
    Width.w32.zext (Width.w8.zext (r - Width.w8.zext r + Width.w8.zext (if b then 1 else 0))) = truth b := by
  rw [x64.zext_merge_w8]
  cases b <;> decide

theorem setcc_yields {c} {b : Bool} (hcode : Encodes bs (.setcc c (.reg .rax))) (hcond : c.holds s.flags = some b) :
    Yields C (EMIT bs >>= fun _ => EMIT [0x0F, 0xB6, 0xC0]) s (truth b) := by
  have hset : Yields C (EMIT bs) s _ := .emit (w := .w8) (x := if b then 1 else 0) hcode
    (fun _ => by simp only [exec, hcond]; rfl) rfl
  refine hset.bind fun t ht => ?_
  refine Yields.emit (i := .movx false .w8 .w32 .rax (.reg .rax)) (w := .w32) ⟨by decide, fun _ => rfl⟩ (fun _ => rfl) ?_
  rw [x64.regs_writeReg_w32]
  simp only [Machine.getRM, ht]
  exact truth_of_byte b _

theorem gen_setcc_yields {kind} {b : Bool} (hcond : (cond_of kind uns).holds s.flags = some b) :
    Yields C (gen_setcc kind uns >>= fun _ => EMIT [0x0F, 0xB6, 0xC0]) s (truth b) := by
  cases kind with
  | ND_EQ | ND_NE => exact setcc_yields ⟨by decide, fun _ => rfl⟩ hcond
  | ND_LT | ND_LE => cases uns <;> exact setcc_yields ⟨by decide, fun _ => rfl⟩ hcond

theorem compare_value_eq (kind : compare_kind) (ot : cc_type) (a b : BitVec 64) :
    compare_value kind ot a b =
      truth (compare_at kind (is_uns ot) (a.setWidth (wide (is_w64 ot)).bits)
        (b.setWidth (wide (is_w64 ot)).bits)) := by
  unfold compare_value
  cases is_w64 ot with
  | false => rfl
  | true =>
    change truth (compare_at kind (is_uns ot) a b) =
      truth (compare_at kind (is_uns ot) (a.setWidth 64) (b.setWidth 64))
    simp

theorem gen_compare_yields (kind : compare_kind) (ot : cc_type) :
    Yields C (gen_compare kind ot) s (compare_value kind ot (s.regs .rax) (s.regs .rdi)) := by
  have hcmp : Reaches C (by_width (is_w64 ot) [0x39, 0xF8]) s fun t =>
      t.flags = (x64.aluOp .cmp (s.low (wide (is_w64 ot)) .rax) (s.low (wide (is_w64 ot)) .rdi)).2 := by
    rw [by_width_eq]
    refine .emit (i := .alu .cmp (wide (is_w64 ot)) (.reg .rax) (.reg .rdi))
      (by cases is_w64 ot <;> exact ⟨by decide, fun _ => rfl⟩)
      (fun _ => congrArg (fun t => some (Machine.goto t _)) (x64.aluExec_cmp _ _ _)) ⟨rfl, fun _ _ => rfl⟩ fun _ => ?_
    simp only [Machine.getRM, Width.setWidth_zext]
    rfl
  rw [compare_value_eq]
  refine hcmp.bind fun t ht => gen_setcc_yields ?_
  rw [ht]
  exact cond_of_holds kind (is_uns ot) _ _

theorem test_rax_reaches : Reaches C (EMIT [0x48, 0x85, 0xC0]) s fun t =>
    t.regs = s.regs ∧ t.flags.zf = some (decide (s.regs .rax = 0)) := by
  refine .emit (i := .test .w64 (.reg .rax) .rax) ⟨by decide, fun _ => rfl⟩ (fun _ => rfl) ⟨rfl, fun _ _ => rfl⟩
    fun _ => ⟨rfl, ?_⟩
  have hand : (Width.w64.zext (s.regs .rax)).setWidth 64 &&& (s.regs .rax).setWidth 64 = s.regs .rax := by
    rw [Width.zext_w64, BitVec.setWidth_eq, BitVec.and_self]
  change some (decide ((Width.w64.zext (s.regs .rax)).setWidth 64 &&& (s.regs .rax).setWidth 64 = 0)) = _
  rw [hand]

theorem gen_bitnot_yields (ty : cc_type) :
    Yields C (by_width (ty.size == 8) [0xF7, 0xD0] >>= fun _ => normalise ty) s (bitnot_value ty (s.regs .rax)) := by
  have hvalue : (wide (ty.size == 8)).zext (~~~((wide (ty.size == 8)).zext (s.regs .rax))) =
      if ty.size = 8 then ~~~(s.regs .rax) else (~~~((s.regs .rax).setWidth 32)).setWidth 64 := by
    by_cases h8 : ty.size = 8
    · simp [h8, wide]
    · have hbeq : (ty.size == 8) = false := by simpa using h8
      rw [if_neg h8, hbeq]
      change (setWidth 32 (~~~(setWidth 64 (setWidth 32 (s.regs .rax))))).setWidth 64 = _
      congr 1
      ext i hi
      simp
  have hnot : Yields C (by_width (ty.size == 8) [0xF7, 0xD0]) s
      (if ty.size = 8 then ~~~(s.regs .rax) else (~~~((s.regs .rax).setWidth 32)).setWidth 64) := by
    rw [by_width_eq]
    exact .emit (i := .not (wide (ty.size == 8)) (.reg .rax)) (w := wide (ty.size == 8))
      (by cases ty.size == 8 <;> exact ⟨by decide, fun _ => rfl⟩) (fun _ => rfl)
      ((x64.regs_writeReg_wide (x64.wide_wide _) _ _ _).trans hvalue)
  refine hnot.bind fun t ht => ?_
  rw [bitnot_value, ← ht]
  exact normalise_yields ty

end Blocks

end fable.cc
