import FableOs.Dvm.Asm.Emit

namespace fable.dvm

open List

variable {s : slot_t} {ins : dvm_insn_t} {op : dvm_op_t} {p₀ p : dvm_program_t} {stmts : List stmt_t}

theorem FirstSlot.mono {m n : Nat} {fmt} (h : FirstSlot m fmt s) (hle : m ≤ n) : FirstSlot n fmt s := by
  cases fmt <;> first | exact h | exact ⟨h.1, h.2.trans_le hle⟩

theorem InsnShape.mono {m n : Nat} (h : InsnShape m ins op) (hle : m ≤ n) : InsnShape n ins op :=
  ⟨h.op_eq, h.dst, h.first.mono hle, h.second, h.third⟩

/-- What the second pass has in its image after the statements `stmts`, when
    it has started with the labels of `p₀`. -/
structure Emitted (p₀ : dvm_program_t) (stmts : List stmt_t) (p : dvm_program_t) : Prop where
  ninsn_eq : p.ninsn.toNat = (stmt_insns stmts).length
  ninsn_le : (stmt_insns stmts).length ≤ DVM_MAX_INSNS
  label_eq : p.label = p₀.label
  nlabel_eq : p.nlabel = p₀.nlabel
  pool : PoolOk p
  insns : ∀ i op args, (stmt_insns stmts)[i]? = some (op, args) →
    ∃ ins, p.insn.get? i = some ins ∧ InsnShape p.nstr.toNat ins op ∧ Targets p₀ op args ins

theorem Emitted.emit {p'} {as : as_t} {line : Nat} {args} {mn : String} (h : Emitted p₀ stmts as.p)
    (hok : assemble_insn as line op args mn = .ok p') : Emitted p₀ (stmts ++ [.insn op args]) p' := by
  unfold assemble_insn at hok
  split at hok
  · cases hok
  next hroom =>
  rw [except_bind_eq_ok_iff] at hok
  obtain ⟨⟨q, ins⟩, hops, hok⟩ := hok
  cases hok
  have henc := assemble_operands_ok h.pool hops
  have hcount := h.ninsn_eq
  have hsucc : (q.ninsn + 1).toNat = as.p.ninsn.toNat + 1 := by
    rw [henc.same.ninsn_eq]
    exact u32_toNat_succ DVM_MAX_INSNS (by omega) (by decide)
  have hinsns : stmt_insns (stmts ++ [.insn op args]) = stmt_insns stmts ++ [(op, args)] := stmt_insns_append _ _
  refine ⟨?_, ?_, henc.same.label_eq.trans h.label_eq, henc.same.nlabel_eq.trans h.nlabel_eq, ?_, ?_⟩
  · simp only [hsucc, hinsns, length_append, length_singleton, hcount]
  · simp only [hinsns, length_append, length_singleton]
    omega
  · exact ⟨henc.pool.nstr_le, henc.pool.strused_le, henc.pool.offsets, henc.pool.ended⟩
  · intro i op' args' hi
    rw [hinsns] at hi
    simp only [henc.same.ninsn_eq, henc.same.insn_eq, CArray.get?_set]
    by_cases hlast : i = (stmt_insns stmts).length
    · rw [hlast, getElem?_concat_length] at hi
      cases hi
      refine ⟨ins, if_pos ⟨by omega, by omega⟩, henc.shape, ?_⟩
      intro hlbl
      obtain ⟨t, target, hargs, hfound, hval⟩ := henc.targets hlbl
      refine ⟨t, target, hargs, ?_, hval⟩
      rwa [label_lookup, h.label_eq, h.nlabel_eq] at hfound
    · have hlt : i < (stmt_insns stmts).length := by
        have hbound := (List.getElem?_eq_some_iff.mp hi).1
        simp only [length_append, length_singleton] at hbound
        omega
      rw [getElem?_append_left hlt] at hi
      obtain ⟨old, hold, hshape, htarget⟩ := h.insns i op' args' hi
      refine ⟨old, ?_, hshape.mono henc.nstr_le, htarget⟩
      rw [if_neg (by omega)]
      exact hold

theorem second_pass_emits {src} {as as' : as_t} (h : Collected (source_stmts src) as.p)
    (hok : assemble_pass .second as src = .ok as') : Emitted as.p (source_stmts src) as'.p := by
  simp only [assemble_pass, except_bind_eq_ok_iff] at hok
  obtain ⟨mid, hlines, hok⟩ := hok
  cases hok
  have hstart : Emitted as.p [] { as.p with ninsn := 0 } := by
    refine ⟨rfl, Nat.zero_le _, rfl, rfl, ⟨?_, ?_, ?_, ?_⟩, ?_⟩
    · simp [h.no_strings.1]
    · simp [h.no_strings.2]
    · intro i off hi
      simp [h.no_strings.1] at hi
    · intro hpos
      simp [h.no_strings.2] at hpos
    · intro i op args hi
      cases hi
  have hmid : Emitted as.p (source_stmts src) mid.p := by
    refine assemble_lines_keeps (I := fun stmts s => Emitted as.p stmts s.p) ?_ ?_ ?_ hstart hlines
    · intro stmts s s' args _ hfirst
      cases hfirst
    · intro stmts s s' name hs hlabel
      cases hlabel
      have hinsns : stmt_insns (stmts ++ [.label name]) = stmt_insns stmts := by
        rw [stmt_insns_append]
        exact append_nil _
      refine ⟨?_, ?_, hs.label_eq, hs.nlabel_eq, hs.pool, ?_⟩
      · rw [hinsns]
        exact hs.ninsn_eq
      · rw [hinsns]
        exact hs.ninsn_le
      · rw [hinsns]
        exact hs.insns
    · intro stmts s s' line op args mn hs hstmt
      simp only [assemble_stmt, except_bind_eq_ok_iff] at hstmt
      obtain ⟨q, hq, hstmt⟩ := hstmt
      cases hstmt
      exact hs.emit hq
  exact ⟨hmid.ninsn_eq, hmid.ninsn_le, hmid.label_eq, hmid.nlabel_eq,
    ⟨hmid.pool.nstr_le, hmid.pool.strused_le, hmid.pool.offsets, hmid.pool.ended⟩, hmid.insns⟩

/-- An optional operand passes every check of the validator. -/
theorem OptionalSlot.checks (h : OptionalSlot s) :
    (∀ fmt k, kind_refused fmt k s.1 = false) ∧ (s.1 = DVM_O_REG → s.2.toNat < DVM_NREGS) ∧
      s.1 ≠ DVM_O_PC ∧ s.1 ≠ DVM_O_STR := by
  obtain ⟨pc_reg, str_reg, str_pc, none_reg, none_pc, none_str, imm_reg, imm_pc, imm_str⟩ := kind_codes_distinct
  obtain ⟨kind, val⟩ := s
  rcases h with hkind | ⟨hkind, hlt⟩ | hkind <;> simp only at hkind <;> subst hkind
  · exact ⟨fun _ _ => rfl, fun hk => absurd hk none_reg, none_pc, none_str⟩
  · exact ⟨fun _ _ => rfl, fun _ => hlt, pc_reg.symm, str_reg.symm⟩
  · exact ⟨fun _ _ => rfl, fun hk => absurd hk imm_reg, imm_pc, imm_str⟩

/-- So does the first operand of every format, when a branch target exists. -/
theorem FirstSlot.checks {nstr : Nat} {fmt} (h : FirstSlot nstr fmt s) :
    kind_refused fmt 0 s.1 = false ∧ (s.1 = DVM_O_REG → s.2.toNat < DVM_NREGS) ∧
      (s.1 = DVM_O_PC → fmt = .F_LBL) ∧ (s.1 = DVM_O_STR → s.2.toNat < nstr) := by
  obtain ⟨pc_reg, str_reg, str_pc, -⟩ := kind_codes_distinct
  obtain ⟨kind, val⟩ := s
  have optional (hopt : OptionalSlot (kind, val)) :
      kind_refused fmt 0 kind = false ∧ (kind = DVM_O_REG → val.toNat < DVM_NREGS) ∧
        (kind = DVM_O_PC → fmt = .F_LBL) ∧ (kind = DVM_O_STR → val.toNat < nstr) := by
    obtain ⟨hkinds, hreg, hpc, hstr⟩ := hopt.checks
    exact ⟨hkinds fmt 0, hreg, fun hk => absurd hk hpc, fun hk => absurd hk hstr⟩
  have string (hwants : fmt_wants_str fmt = true) (hs : kind = DVM_O_STR ∧ val.toNat < nstr) :
      kind_refused fmt 0 kind = false ∧ (kind = DVM_O_REG → val.toNat < DVM_NREGS) ∧
        (kind = DVM_O_PC → fmt = .F_LBL) ∧ (kind = DVM_O_STR → val.toNat < nstr) := by
    obtain ⟨rfl, hlt⟩ := hs
    have hallowed : kind_refused fmt 0 DVM_O_STR = !fmt_wants_str fmt := by
      cases fmt <;> rfl
    refine ⟨?_, fun hk => absurd hk str_reg, fun hk => absurd hk str_pc, fun _ => hlt⟩
    rw [hallowed, hwants]
    rfl
  cases fmt with
  | F_LBL =>
    obtain rfl : kind = DVM_O_PC := h
    exact ⟨rfl, fun hk => absurd hk pc_reg, fun _ => rfl, fun hk => absurd hk str_pc.symm⟩
  | F_SYS => exact optional (Or.inr (Or.inr h.1))
  | F_STR | F_STR_OPT_A | F_RD_STR_A | F_RD_STR_A_B => exact string rfl h
  | _ => exact optional h

/-- The validator accepts an instruction of the assembler whose branch target
    is inside the program. -/
theorem InsnShape.insn_ok (h : InsnShape p.nstr.toNat ins op) (hpool : PoolOk p)
    (hpc : op_fmt op = .F_LBL → (ins.val 0).toNat < p.ninsn.toNat) : InsnOk p ins op := by
  obtain ⟨hfirst, hfirstReg, hfirstPc, hfirstStr⟩ := h.first.checks
  obtain ⟨hsecond, hsecondReg, hsecondPc, hsecondStr⟩ := h.second.checks
  obtain ⟨hthird, hthirdReg, hthirdPc, hthirdStr⟩ := h.third.checks
  have hfirstShape := h.first
  refine ⟨?_, ?_, ?_, ?_, ?_, ?_, ?_, ?_, ?_, ?_⟩
  · rw [h.op_eq]
    exact dvm_op_t.ofByte_toByte op
  · exact h.dst.elim Or.inr fun hnone => Or.inl hnone.1
  · intro hwants hnone
    rcases h.dst with hlt | ⟨-, hfmt⟩
    · rw [hnone] at hlt
      exact absurd hlt (by decide)
    · cases hfmt.symm.trans hwants
  · intro k
    fin_cases k
    · exact hfirst
    · exact hsecond _ _
    · exact hthird _ _
  · intro hfmt
    rw [hfmt] at hfirstShape
    exact hfirstShape
  · intro _ hwants
    cases hfmt : op_fmt op <;> rw [hfmt] at hwants hfirstShape <;> first | exact hfirstShape.1 | cases hwants
  · intro hfmt
    rw [hfmt] at hfirstShape
    exact hfirstShape
  · intro k
    fin_cases k
    · exact hfirstReg
    · exact hsecondReg
    · exact hthirdReg
  · intro k
    fin_cases k
    · exact fun hk => hpc (hfirstPc hk)
    · exact fun hk => absurd hk hsecondPc
    · exact fun hk => absurd hk hthirdPc
  · intro k
    fin_cases k
    · intro hk
      have hlt := hfirstStr hk
      refine ⟨hlt, ?_⟩
      have hbound := hpool.nstr_le
      obtain ⟨off, hoff⟩ := p.stroff.get?_isSome_of_lt (i := (ins.val 0).toNat) (by simp only at hlt; omega)
      have hused := hpool.offsets _ off hlt hoff
      have hcap := hpool.strused_le
      simp only [stroff_at, Fin.mk_zero, Fin.isValue, hoff, Option.getD_some]
      omega
    · exact fun hk => absurd hk hsecondStr
    · exact fun hk => absurd hk hthirdStr

/-- The second pass leaves an image that the validator accepts exactly when
    every branch target is inside it. -/
theorem Emitted.program_ok (h : Emitted p₀ stmts p) (hpos : p.ninsn ≠ 0)
    (hlabels : p₀.nlabel.toNat ≤ DVM_MAX_LABELS)
    (hpc : ∀ i ins op, i < p.ninsn.toNat → p.insn.get? i = some ins → ins.op = op.toByte → op_fmt op = .F_LBL →
      (ins.val 0).toNat < p.ninsn.toNat) : ProgramOk p := by
  refine ⟨?_, ?_, h.pool.nstr_le, h.pool.strused_le, ?_, ?_, ?_⟩
  · by_contra hzero
    exact hpos (UInt32.toNat_inj.mp (by rw [UInt32.toNat_zero]; omega))
  · rw [h.ninsn_eq]
    exact h.ninsn_le
  · rw [h.nlabel_eq]
    exact hlabels
  · intro ins hmem
    obtain ⟨i, hi, hget⟩ := (p.insn.mem_front_iff _ _).mp hmem
    have hlt := hi
    rw [h.ninsn_eq] at hlt
    obtain ⟨ins', hget', hshape, -⟩ := h.insns i _ _ (getElem?_eq_getElem hlt)
    cases hget.symm.trans hget'
    exact ⟨_, hshape.insn_ok h.pool (hpc i ins _ hi hget hshape.op_eq)⟩
  · intro off hmem
    obtain ⟨i, hi, hget⟩ := (p.stroff.mem_front_iff _ _).mp hmem
    have hoff := h.pool.offsets i off hi hget
    have hnul := h.pool.ended (by omega)
    -- the NUL that ends the used part of the pool lies behind every offset
    rw [pool_from, mem_iff_getElem?]
    refine ⟨p.strused.toNat - 1 - off.toNat, ?_⟩
    have hcap := h.pool.strused_le
    rw [getElem?_drop, CArray.getElem?_front, if_pos (by omega)]
    have hindex : off.toNat + (p.strused.toNat - 1 - off.toNat) = p.strused.toNat - 1 := by omega
    rw [hindex, hnul]

theorem dvm_assemble_eq_ok {src} (h : dvm_assemble (some src) = .ok p) :
    ∃ p₀, Collected (source_stmts src) p₀ ∧ Emitted p₀ (source_stmts src) p ∧ p.ninsn ≠ 0 := by
  simp only [dvm_assemble, except_bind_eq_ok_iff, refuse_eq_ok_iff, exists_const] at h
  obtain ⟨-, as₁, hfirst, as₂, hsecond, hpos, hok⟩ := h
  cases hok
  have hcollected := first_pass_collects hfirst
  exact ⟨as₁.p, hcollected, second_pass_emits hcollected hsecond, hpos⟩

/-- The label that `t` names is defined between the statements `before` and
    `after`. -/
def DefinesLabel (stmts : List stmt_t) (t : tok_t) (before after : List stmt_t) : Prop :=
  ∃ name, tok_ieq t name = true ∧ stmts = before ++ .label name :: after

/-- Every branch and call operand is the index of the first instruction that
    follows the definition of its label. -/
def BranchesResolved (stmts : List stmt_t) (p : dvm_program_t) : Prop :=
  ∀ i ins op, i < p.ninsn.toNat → p.insn.get? i = some ins → dvm_op_t.ofByte ins.op = some op →
    op_fmt op = .F_LBL →
      ∃ t, (stmt_insns stmts)[i]? = some (op, [t]) ∧ (∃ before after, DefinesLabel stmts t before after) ∧
        ∀ before after, DefinesLabel stmts t before after →
          stmt_insns after ≠ [] ∧ (ins.val 0).toNat = (stmt_insns before).length

/-- No branch or call names a label that is defined after the last
    instruction. -/
def NoTrailingTarget (stmts : List stmt_t) : Prop :=
  ∀ op t, (op, [t]) ∈ stmt_insns stmts → op_fmt op = .F_LBL →
    ∀ before after, DefinesLabel stmts t before after → stmt_insns after ≠ []

/-- Where a branch goes: its label is defined in the source, and the operand
    is the number of instructions before it. -/
theorem Emitted.branch (h : Emitted p₀ stmts p) (hcollected : Collected stmts p₀) {i : Nat} (hi : i < p.ninsn.toNat)
    (hget : p.insn.get? i = some ins) (hop : dvm_op_t.ofByte ins.op = some op) (hlbl : op_fmt op = .F_LBL) :
    ∃ t, (stmt_insns stmts)[i]? = some (op, [t]) ∧ (∃ before after, DefinesLabel stmts t before after) ∧
      ∀ before after, DefinesLabel stmts t before after → (ins.val 0).toNat = (stmt_insns before).length := by
  have hlt := hi
  rw [h.ninsn_eq] at hlt
  have hstmt := getElem?_eq_getElem hlt
  obtain ⟨ins', hget', hshape, htarget⟩ := h.insns i _ _ hstmt
  cases hget.symm.trans hget'
  rw [hshape.op_eq, dvm_op_t.ofByte_toByte, Option.some.injEq] at hop
  subst hop
  obtain ⟨t, target, hargs, hfound, hval⟩ := htarget hlbl
  obtain ⟨⟨name, hname, hdef⟩, hunique⟩ := hcollected.label_lookup_some hfound
  refine ⟨t, ?_, ?_, ?_⟩
  · rw [hstmt, ← hargs]
    rfl
  · obtain ⟨before, after, hsplit, -⟩ := mem_label_defs_iff.mp hdef
    exact ⟨before, after, name, hname, hsplit⟩
  · rintro before after ⟨other, hother, hsplit⟩
    have hpc := hunique other _ hother (mem_label_defs_iff.mpr ⟨before, after, hsplit, rfl⟩)
    rw [hval, UInt32.toNat_toUInt64, ← hpc, Nat.zero_add]

/-- When assembling succeeds, the validator accepts the program and every
    branch goes to the instruction after its label, exactly when no branch
    names a label that has no instruction after it. -/
theorem assembled_program_valid_iff {src : List UInt8} {p : dvm_program_t} (h : dvm_assemble (some src) = .ok p) :
    (dvm_program_validate p = .ok () ∧ BranchesResolved (source_stmts src) p) ↔
      NoTrailingTarget (source_stmts src) := by
  obtain ⟨p₀, hcollected, hemitted, hpos⟩ := dvm_assemble_eq_ok h
  constructor
  · rintro ⟨-, hresolved⟩ op t hmem hlbl before after hdef
    obtain ⟨i, hi⟩ := mem_iff_getElem?.mp hmem
    obtain ⟨ins, hget, hshape, -⟩ := hemitted.insns i op [t] hi
    have hlt : i < p.ninsn.toNat := by
      rw [hemitted.ninsn_eq]
      exact (List.getElem?_eq_some_iff.mp hi).1
    have hop : dvm_op_t.ofByte ins.op = some op := by
      rw [hshape.op_eq]
      exact dvm_op_t.ofByte_toByte op
    obtain ⟨t', hstmt, -, hfirst⟩ := hresolved i ins op hlt hget hop hlbl
    cases hi.symm.trans hstmt
    exact (hfirst before after hdef).1
  · intro hnone
    have hresolved : BranchesResolved (source_stmts src) p := by
      intro i ins op hi hget hop hlbl
      obtain ⟨t, hstmt, hdef, hval⟩ := hemitted.branch hcollected hi hget hop hlbl
      exact ⟨t, hstmt, hdef, fun before after hb =>
        ⟨hnone op t (mem_of_getElem? hstmt) hlbl before after hb, hval before after hb⟩⟩
    refine ⟨?_, hresolved⟩
    rw [dvm_program_validate_eq_ok_iff]
    refine hemitted.program_ok hpos hcollected.nlabel_le ?_
    intro i ins op hi hget hop hlbl
    have hop' : dvm_op_t.ofByte ins.op = some op := by
      rw [hop]
      exact dvm_op_t.ofByte_toByte op
    obtain ⟨t, -, ⟨before, after, hdef⟩, hfirst⟩ := hresolved i ins op hi hget hop' hlbl
    obtain ⟨hafter, hval⟩ := hfirst before after hdef
    obtain ⟨name, -, hsplit⟩ := hdef
    have hlen : 0 < (stmt_insns after).length := length_pos_of_ne_nil hafter
    rw [hval, hemitted.ninsn_eq, hsplit, stmt_insns_append, length_append]
    simp only [stmt_insns]
    omega

/-- A loop: `top: nop` and `jmp top`. -/
def loop_source : List UInt8 := bytes_of "top: nop\njmp top"

/-- A branch to the end: `jmp done` and `done:`. -/
def trailing_source : List UInt8 := bytes_of "jmp done\ndone:"

theorem loop_source_valid :
    ∃ p, dvm_assemble (some loop_source) = .ok p ∧ dvm_program_validate p = .ok () ∧
      BranchesResolved (source_stmts loop_source) p := by
  have hisOk : (dvm_assemble (some loop_source)).isOk = true := by decide +kernel
  have hstmts : source_stmts loop_source =
      [.label (bytes_of "top"), .insn .NOP [], .insn .JMP [bytes_of "top"]] := by decide +kernel
  obtain ⟨p, hp⟩ := exists_of_isOk hisOk
  refine ⟨p, hp, (assembled_program_valid_iff hp).mpr ?_⟩
  rw [hstmts]
  rintro op t - - before after ⟨name, -, hsplit⟩
  -- the only label is the first statement
  rcases before with _ | ⟨_, _ | ⟨_, _ | ⟨_, _⟩⟩⟩
  · simp only [nil_append, cons.injEq] at hsplit
    rw [← hsplit.2]
    simp [stmt_insns]
  all_goals simp at hsplit

/-- The assembler accepts a branch to a label at the end of the text, and the
    validator then refuses the program. -/
theorem trailing_source_refused :
    ∃ p, dvm_assemble (some trailing_source) = .ok p ∧ dvm_program_validate p ≠ .ok () := by
  have hboth : (dvm_assemble (some trailing_source) >>= fun p =>
      pure (dvm_program_validate p).isOk : Except dvm_asm_err_t Bool) = .ok false := by decide +kernel
  obtain ⟨p, hp, hrefused⟩ := except_bind_eq_ok_iff.mp hboth
  refine ⟨p, hp, fun hvalid => ?_⟩
  rw [hvalid] at hrefused
  cases hrefused

end fable.dvm
