import FableOs.Dvm.OpTable

namespace fable.dvm

def kind_is_value (k : UInt8) : Bool := k = DVM_O_NONE || k = DVM_O_REG || k = DVM_O_IMM

def fmt_wants_dst (fmt : fmt_t) : Bool :=
  fmt = .F_RD || fmt = .F_RD_A || fmt = .F_RD_A_B || fmt = .F_RD_PORT || fmt = .F_RD_ADDR ||
    fmt = .F_RD_BDF_OFF || fmt = .F_RD_A_B_C || fmt = .F_RD_STR_A || fmt = .F_RD_STR_A_B || fmt = .F_SYS

def fmt_wants_str (fmt : fmt_t) : Bool :=
  fmt = .F_STR || fmt = .F_STR_OPT_A || fmt = .F_RD_STR_A || fmt = .F_RD_STR_A_B

/-- `p->stroff[idx]`; an index outside the table reads as an offset outside
    the pool. -/
def stroff_at (p : dvm_program_t) (idx : Nat) : Nat := ((p.stroff.get? idx).getD 0xFFFF).toNat

/-- The pool from an offset on. -/
def pool_from (p : dvm_program_t) (off : Nat) : List UInt8 := (p.strpool.front DVM_STRPOOL).drop off

abbrev verdict_t := dvm_status_t × dvm_asm_err_t

/-- The kind an operand slot may have under a format. -/
def kind_refused (fmt : fmt_t) (k : Fin 3) (kind : UInt8) : Bool :=
  (kind = DVM_O_PC && !(fmt = .F_LBL && k = 0)) || (kind = DVM_O_STR && !(fmt_wants_str fmt && k = 0)) ||
    (kind ≠ DVM_O_PC && kind ≠ DVM_O_STR && !kind_is_value kind)

/-- The value of an operand slot against the table its kind points into. -/
def validate_operand (p : dvm_program_t) (fail : dvm_status_t → String → verdict_t) (at_ : String)
    (insn : dvm_insn_t) (k : Fin 3) : Except verdict_t Unit :=
  if insn.kind k = DVM_O_REG then
    refuse (DVM_NREGS ≤ (insn.val k).toNat)
      (fail .DVM_TRAP_RANGE s!"{at_}: register r{(insn.val k).toNat} does not exist")
  else if insn.kind k = DVM_O_PC then
    refuse (p.ninsn.toNat ≤ (insn.val k).toNat)
      (fail .DVM_TRAP_PC
        s!"{at_}: branch target {(insn.val k).toNat} is outside the program (0-{p.ninsn.toNat - 1})")
  else if insn.kind k = DVM_O_STR then
    refuse (p.nstr.toNat ≤ (insn.val k).toNat ∨ DVM_STRPOOL ≤ stroff_at p (insn.val k).toNat)
      (fail .DVM_TRAP_BADOP s!"{at_}: string {(insn.val k).toNat} is outside the pool")
  else if insn.kind k = DVM_O_NONE ∨ insn.kind k = DVM_O_IMM then .ok ()
  else .error (fail .DVM_TRAP_BADOP s!"{at_}: operand {k.val} has an unknown kind {(insn.kind k).toNat}")

/-- The body of the instruction loop of `dvm_program_validate`. -/
def validate_insn (p : dvm_program_t) (i : Nat) (insn : dvm_insn_t) : Except verdict_t Unit :=
  let fail (s : dvm_status_t) (text : String) : verdict_t := (s, ⟨insn.line, snprintf DVM_MSG_MAX text⟩)
  match dvm_op_t.ofByte insn.op with
  | none => .error (fail .DVM_TRAP_BADOP s!"instruction {i}: opcode {insn.op.toNat} does not exist")
  | some op => do
    let fmt := op_fmt op
    let at_ := s!"instruction {i} ({dvm_op_name op})"
    refuse (insn.dst ≠ DVM_NOREG ∧ DVM_NREGS ≤ insn.dst.toNat)
      (fail .DVM_TRAP_RANGE s!"{at_}: destination register r{insn.dst.toNat} does not exist")
    refuse (fmt_wants_dst fmt ∧ insn.dst = DVM_NOREG) (fail .DVM_TRAP_BADOP s!"{at_}: no destination register")
    checkFrom (fun _ k => refuse (kind_refused fmt k (insn.kind k))
      (fail .DVM_TRAP_BADOP
        s!"{at_}: operand {k.val} has kind {(insn.kind k).toNat}, which this instruction cannot take"))
      0 (List.finRange 3)
    refuse (fmt = .F_LBL ∧ insn.kind 0 ≠ DVM_O_PC)
      (fail .DVM_TRAP_BADOP s!"{at_}: operand 0 is not a branch target")
    refuse (fmt ≠ .F_STR_OPT_A ∧ fmt_wants_str fmt ∧ insn.kind 0 ≠ DVM_O_STR)
      (fail .DVM_TRAP_BADOP s!"{at_}: operand 0 is not a string")
    refuse (fmt = .F_SYS ∧ (insn.kind 0 ≠ DVM_O_IMM ∨ DVM_SYS__COUNT ≤ (insn.val 0).toNat))
      (fail .DVM_TRAP_BADOP
        s!"instruction {i} (sys): syscall number {(insn.val 0).toNat} is not one of the {DVM_SYS__COUNT} this VM has")
    checkFrom (fun _ k => validate_operand p fail at_ insn k) 0 (List.finRange 3)

/-- `ok` is `DVM_OK`. The line of the string errors is the one the instruction
    loop left behind. -/
def dvm_program_validate (p : dvm_program_t) : Except verdict_t Unit := do
  refuse (p.ninsn = 0 ∨ DVM_MAX_INSNS < p.ninsn.toNat)
    (.DVM_TRAP_BADOP, ⟨0, s!"program has {p.ninsn.toNat} instructions (must be 1-{DVM_MAX_INSNS})"⟩)
  refuse (DVM_MAX_STRINGS < p.nstr.toNat ∨ DVM_STRPOOL < p.strused.toNat ∨ DVM_MAX_LABELS < p.nlabel.toNat)
    (.DVM_TRAP_BADOP, ⟨0, "program tables are out of range"⟩)
  checkFrom (validate_insn p) 0 (p.insn.front p.ninsn.toNat)
  let last := ((p.insn.front p.ninsn.toNat).getLast?.map dvm_insn_t.line).getD 0
  checkFrom (fun i (off : UInt16) => refuse (0 ∉ pool_from p off.toNat)
    (.DVM_TRAP_BADOP, ⟨last, s!"string {i} is not terminated"⟩)) 0 (p.stroff.front p.nstr.toNat)

/-- What the validator has established about one instruction. -/
structure InsnOk (p : dvm_program_t) (insn : dvm_insn_t) (op : dvm_op_t) : Prop where
  op_eq : dvm_op_t.ofByte insn.op = some op
  dst_range : insn.dst = DVM_NOREG ∨ insn.dst.toNat < DVM_NREGS
  dst_given : fmt_wants_dst (op_fmt op) → insn.dst ≠ DVM_NOREG
  kinds : ∀ k, kind_refused (op_fmt op) k (insn.kind k) = false
  label : op_fmt op = .F_LBL → insn.kind 0 = DVM_O_PC
  string : op_fmt op ≠ .F_STR_OPT_A → fmt_wants_str (op_fmt op) → insn.kind 0 = DVM_O_STR
  sys : op_fmt op = .F_SYS → insn.kind 0 = DVM_O_IMM ∧ (insn.val 0).toNat < DVM_SYS__COUNT
  reg_lt : ∀ k, insn.kind k = DVM_O_REG → (insn.val k).toNat < DVM_NREGS
  pc_lt : ∀ k, insn.kind k = DVM_O_PC → (insn.val k).toNat < p.ninsn.toNat
  str_lt : ∀ k, insn.kind k = DVM_O_STR →
    (insn.val k).toNat < p.nstr.toNat ∧ stroff_at p (insn.val k).toNat < DVM_STRPOOL

/-- What the validator has established about a whole image. -/
structure ProgramOk (p : dvm_program_t) : Prop where
  ninsn_pos : 0 < p.ninsn.toNat
  ninsn_le : p.ninsn.toNat ≤ DVM_MAX_INSNS
  nstr_le : p.nstr.toNat ≤ DVM_MAX_STRINGS
  strused_le : p.strused.toNat ≤ DVM_STRPOOL
  nlabel_le : p.nlabel.toNat ≤ DVM_MAX_LABELS
  insns : ∀ insn ∈ p.insn.front p.ninsn.toNat, ∃ op, InsnOk p insn op
  strings : ∀ off ∈ p.stroff.front p.nstr.toNat, 0 ∈ pool_from p off.toNat

theorem InsnOk.dst_lt {p insn op} (h : InsnOk p insn op) (hwants : fmt_wants_dst (op_fmt op)) :
    insn.dst.toNat < DVM_NREGS :=
  h.dst_range.resolve_left (h.dst_given hwants)

theorem kind_value_of_not_refused {fmt k kind} (h : kind_refused fmt k kind = false) (hpc : kind ≠ DVM_O_PC)
    (hstr : kind ≠ DVM_O_STR) : kind = DVM_O_NONE ∨ kind = DVM_O_REG ∨ kind = DVM_O_IMM := by
  simp only [kind_refused, hpc, hstr, kind_is_value] at h
  by_contra hnot
  simp_all

theorem kind_codes_distinct :
    DVM_O_PC ≠ DVM_O_REG ∧ DVM_O_STR ≠ DVM_O_REG ∧ DVM_O_STR ≠ DVM_O_PC ∧
      DVM_O_NONE ≠ DVM_O_REG ∧ DVM_O_NONE ≠ DVM_O_PC ∧ DVM_O_NONE ≠ DVM_O_STR ∧
      DVM_O_IMM ≠ DVM_O_REG ∧ DVM_O_IMM ≠ DVM_O_PC ∧ DVM_O_IMM ≠ DVM_O_STR := by
  decide

theorem validate_operand_eq_ok_iff (p : dvm_program_t) (fail : dvm_status_t → String → verdict_t) (at_ : String)
    (insn : dvm_insn_t) (k : Fin 3) (u : Unit) :
    validate_operand p fail at_ insn k = .ok u ↔
      (insn.kind k = DVM_O_REG → (insn.val k).toNat < DVM_NREGS) ∧
      (insn.kind k = DVM_O_PC → (insn.val k).toNat < p.ninsn.toNat) ∧
      (insn.kind k = DVM_O_STR →
        (insn.val k).toNat < p.nstr.toNat ∧ stroff_at p (insn.val k).toNat < DVM_STRPOOL) ∧
      (insn.kind k = DVM_O_NONE ∨ insn.kind k = DVM_O_REG ∨ insn.kind k = DVM_O_IMM ∨
        insn.kind k = DVM_O_PC ∨ insn.kind k = DVM_O_STR) := by
  obtain ⟨h31, h41, h43, h01, h03, h04, h21, h23, h24⟩ := kind_codes_distinct
  unfold validate_operand
  by_cases hreg : insn.kind k = DVM_O_REG
  · simp [hreg, h31.symm, h41.symm]
  by_cases hpc : insn.kind k = DVM_O_PC
  · simp [hpc, h31, h43.symm]
  by_cases hstr : insn.kind k = DVM_O_STR
  · simp [hstr, h41, h43]
  by_cases hval : insn.kind k = DVM_O_NONE ∨ insn.kind k = DVM_O_IMM
  · simp only [hreg, hpc, hstr, hval, if_true, if_false]
    tauto
  · simp only [hreg, hpc, hstr, hval, if_false]
    simp only [reduceCtorEq, false_iff]
    tauto

theorem validate_insn_eq_ok_iff (p : dvm_program_t) (i : Nat) (insn : dvm_insn_t) (u : Unit) :
    validate_insn p i insn = .ok u ↔ ∃ op, InsnOk p insn op := by
  unfold validate_insn
  cases hop : dvm_op_t.ofByte insn.op with
  | none =>
    simp only [reduceCtorEq, false_iff]
    rintro ⟨op, h⟩
    cases h.op_eq.symm.trans hop
  | some op =>
    simp only [except_bind_eq_ok_iff, refuse_eq_ok_iff, exists_const,
      checkFrom_refuse_eq_ok_iff,
      checkFrom_eq_ok_iff (fun _ k => validate_operand_eq_ok_iff p _ _ insn k ()),
      List.mem_finRange, forall_const]
    constructor
    · rintro ⟨hdst, hgiven, hkinds, hlabel, hstring, hsys, hops⟩
      refine ⟨op, hop, ?_, ?_, ?_, ?_, ?_, ?_, ?_, ?_, ?_⟩
      · by_contra hnot
        push Not at hnot
        exact hdst hnot
      · intro hwants hnone
        exact hgiven ⟨hwants, hnone⟩
      · intro k
        simpa using hkinds k
      · intro hfmt
        by_contra hne
        exact hlabel ⟨hfmt, hne⟩
      · intro hopt hwants
        by_contra hne
        exact hstring ⟨hopt, hwants, hne⟩
      · intro hfmt
        by_contra hnot
        refine hsys ⟨hfmt, ?_⟩
        by_cases himm : insn.kind 0 = DVM_O_IMM
        · right
          by_contra hlt
          exact hnot ⟨himm, by omega⟩
        · exact Or.inl himm
      · exact fun k => (hops k).1
      · exact fun k => (hops k).2.1
      · exact fun k => (hops k).2.2.1
    · rintro ⟨op', h⟩
      obtain rfl : op' = op := by
        have heq := h.op_eq
        rw [hop] at heq
        exact (Option.some.inj heq).symm
      refine ⟨?_, ?_, ?_, ?_, ?_, ?_, ?_⟩
      · rintro ⟨hne, hge⟩
        have hlt := h.dst_range.resolve_left hne
        omega
      · rintro ⟨hwants, hnone⟩
        exact h.dst_given hwants hnone
      · intro k
        simp [h.kinds k]
      · rintro ⟨hfmt, hne⟩
        exact hne (h.label hfmt)
      · rintro ⟨hopt, hwants, hne⟩
        exact hne (h.string hopt hwants)
      · rintro ⟨hfmt, hbad⟩
        obtain ⟨himm, hlt⟩ := h.sys hfmt
        rcases hbad with hne | hge
        · exact hne himm
        · omega
      · intro k
        refine ⟨h.reg_lt k, h.pc_lt k, h.str_lt k, ?_⟩
        by_cases hpc : insn.kind k = DVM_O_PC
        · simp [hpc]
        by_cases hstr : insn.kind k = DVM_O_STR
        · simp [hstr]
        have hvalue := kind_value_of_not_refused (h.kinds k) hpc hstr
        tauto

/-- The validator accepts exactly the images that meet `ProgramOk`. -/
theorem dvm_program_validate_eq_ok_iff (p : dvm_program_t) (u : Unit) :
    dvm_program_validate p = .ok u ↔ ProgramOk p := by
  unfold dvm_program_validate
  simp only [except_bind_eq_ok_iff, refuse_eq_ok_iff, exists_const,
    checkFrom_eq_ok_iff (fun i insn => validate_insn_eq_ok_iff p i insn ()),
    checkFrom_refuse_eq_ok_iff]
  constructor
  · rintro ⟨hninsn, htables, hinsns, hstrings⟩
    have hpos : p.ninsn.toNat ≠ 0 := by
      intro hzero
      exact hninsn (Or.inl (UInt32.toNat_inj.mp hzero))
    push Not at hninsn htables
    refine ⟨by omega, hninsn.2, htables.1, htables.2.1, htables.2.2, hinsns, ?_⟩
    intro off hoff
    simpa using hstrings off hoff
  · intro h
    refine ⟨?_, ?_, h.insns, ?_⟩
    · rintro (hzero | hbig)
      · have hpos := h.ninsn_pos
        rw [hzero] at hpos
        simp at hpos
      · have hle := h.ninsn_le
        omega
    · have h₁ := h.nstr_le
      have h₂ := h.strused_le
      have h₃ := h.nlabel_le
      omega
    · intro off hoff
      simpa using h.strings off hoff

end fable.dvm
