import FableOs.Dvm.Asm.Collect
import FableOs.Dvm.Validate

namespace fable.dvm

/-- What an operand of the source becomes: a register that exists, or an
    immediate. -/
def ValueSlot (s : slot_t) : Prop := (s.1 = DVM_O_REG ∧ s.2.toNat < DVM_NREGS) ∨ s.1 = DVM_O_IMM

/-- An operand that may be missing. -/
def OptionalSlot (s : slot_t) : Prop := s.1 = DVM_O_NONE ∨ ValueSlot s

/-- What a format has in its first slot, in an image of `nstr` strings. -/
def FirstSlot (nstr : Nat) (fmt : fmt_t) (s : slot_t) : Prop :=
  match fmt with
  | .F_LBL => s.1 = DVM_O_PC
  | .F_STR | .F_STR_OPT_A | .F_RD_STR_A | .F_RD_STR_A_B => s.1 = DVM_O_STR ∧ s.2.toNat < nstr
  | .F_SYS => s.1 = DVM_O_IMM ∧ s.2.toNat < DVM_SYS__COUNT
  | _ => OptionalSlot s

/-- An instruction as the assembler builds it. -/
structure InsnShape (nstr : Nat) (ins : dvm_insn_t) (op : dvm_op_t) : Prop where
  op_eq : ins.op = op.toByte
  dst : ins.dst.toNat < DVM_NREGS ∨ (ins.dst = DVM_NOREG ∧ fmt_wants_dst (op_fmt op) = false)
  first : FirstSlot nstr (op_fmt op) (ins.kind 0, ins.val 0)
  second : OptionalSlot (ins.kind 1, ins.val 1)
  third : OptionalSlot (ins.kind 2, ins.val 2)

theorem reg_digits_lt {v r : Nat} {s} (h : reg_digits v s = .reg r) : r < DVM_NREGS := by
  induction s generalizing v with
  | nil =>
    unfold reg_digits at h
    split at h
    · next hlt =>
      cases h
      exact hlt
    · cases h
  | cons c rest ih =>
    unfold reg_digits at h
    split at h
    · cases h
    · dsimp only at h
      split at h
      · cases h
      · exact ih h

theorem reg_index_lt {t} {r : Nat} (h : reg_index t = .reg r) : r < DVM_NREGS := by
  unfold reg_index at h
  split at h
  · split at h
    · exact reg_digits_lt h
    · cases h
  · cases h

theorem dst_reg_lt {mn : String} {t dst} (h : dst_reg mn t = .ok dst) : dst.toNat < DVM_NREGS := by
  unfold dst_reg at h
  cases hreg : reg_index t with
  | reg r =>
    rw [hreg] at h
    cases h
    have hlt := reg_index_lt hreg
    simp only [UInt8.toNat_ofNat']
    omega
  | missing | not_reg =>
    rw [hreg] at h
    cases h

theorem operand_value {equ} {what : String} {t s} (h : operand equ what t = .ok s) : OptionalSlot s := by
  have himm (v : UInt64) : OptionalSlot (DVM_O_IMM, v) := Or.inr (Or.inr rfl)
  unfold operand at h
  split at h
  · next r hreg =>
    cases h
    have hlt := reg_index_lt hreg
    refine Or.inr (Or.inl ⟨rfl, ?_⟩)
    simp only [UInt64.toNat_ofNat']
    omega
  · cases h
  · split at h
    · cases h
      exact himm _
    · cases h
    · split at h
      · cases h
        exact himm _
      · cases h

theorem addr_operand_value {equ t base disp} (h : addr_operand equ t = .ok (base, disp)) :
    OptionalSlot base ∧ OptionalSlot disp := by
  have bare {what : String} {u : tok_t}
      (hbare : (do let base ← operand equ what u; pure (base, (DVM_O_IMM, 0)) : Except String (slot_t × slot_t)) =
        .ok (base, disp)) : OptionalSlot base ∧ OptionalSlot disp := by
    rw [except_bind_eq_ok_iff] at hbare
    obtain ⟨s, hs, heq⟩ := hbare
    cases heq
    exact ⟨operand_value hs, Or.inr (Or.inr rfl)⟩
  unfold addr_operand at h
  split at h
  · dsimp only at h
    split at h
    · cases h
    · split at h
      · exact bare h
      · split at h
        · cases h
        · simp only [except_bind_eq_ok_iff] at h
          obtain ⟨s, hs, s', hs', heq⟩ := h
          cases heq
          exact ⟨operand_value hs, operand_value hs'⟩
  · exact bare h

theorem sys_number_shape {t s} (h : sys_number t = .ok s) : s.1 = DVM_O_IMM ∧ s.2.toNat < DVM_SYS__COUNT := by
  unfold sys_number at h
  split at h
  · next nr hnr =>
    cases h
    refine ⟨rfl, ?_⟩
    cases nr <;> decide
  · dsimp only at h
    split at h
    · split at h
      · next hlt =>
        cases h
        exact ⟨rfl, hlt⟩
      · cases h
    · cases h

theorem bdf_operand_value {equ t s} (h : bdf_operand equ t = .ok s) : OptionalSlot s := by
  unfold bdf_operand at h
  split at h
  · cases h
    exact Or.inr (Or.inr rfl)
  · exact operand_value h

/-- The string tables: every entry points before the end of the used part,
    which ends in a NUL. -/
structure PoolOk (p : dvm_program_t) : Prop where
  nstr_le : p.nstr.toNat ≤ DVM_MAX_STRINGS
  strused_le : p.strused.toNat ≤ DVM_STRPOOL
  offsets : ∀ i off, i < p.nstr.toNat → p.stroff.get? i = some off → off.toNat < p.strused.toNat
  ended : 0 < p.strused.toNat → p.strpool.get? (p.strused.toNat - 1) = some 0

/-- `p'` has the instructions and labels of `p`. -/
structure SameCode (p p' : dvm_program_t) : Prop where
  insn_eq : p'.insn = p.insn
  ninsn_eq : p'.ninsn = p.ninsn
  label_eq : p'.label = p.label
  nlabel_eq : p'.nlabel = p.nlabel

theorem SameCode.refl (p : dvm_program_t) : SameCode p p := ⟨rfl, rfl, rfl, rfl⟩

/-- The decoded bytes of a string are appended to the pool, and that is all. -/
structure PoolGrown (p p' : dvm_program_t) : Prop extends SameCode p p' where
  nstr_eq : p'.nstr = p.nstr
  stroff_eq : p'.stroff = p.stroff
  used_le : p.strused.toNat ≤ p'.strused.toNat

theorem pool_char_grows {p p' c} (h : pool_char p c = .ok p') : PoolGrown p p' := by
  unfold pool_char at h
  split at h
  · cases h
  · next hroom =>
    cases h
    refine ⟨⟨rfl, rfl, rfl, rfl⟩, rfl, rfl, ?_⟩
    simp only [pool_put]
    rw [u32_toNat_succ DVM_STRPOOL (by omega) (by decide)]
    omega

theorem PoolGrown.trans {p p' p''} (h : PoolGrown p p') (h' : PoolGrown p' p'') : PoolGrown p p'' :=
  ⟨⟨h'.insn_eq.trans h.insn_eq, h'.ninsn_eq.trans h.ninsn_eq, h'.label_eq.trans h.label_eq,
    h'.nlabel_eq.trans h.nlabel_eq⟩, h'.nstr_eq.trans h.nstr_eq, h'.stroff_eq.trans h.stroff_eq,
    h.used_le.trans h'.used_le⟩

theorem intern_chars_grows {p p' s} (h : intern_chars p s = .ok p') : PoolGrown p p' := by
  fun_induction intern_chars p s with
  | case1 =>
    cases h
    exact ⟨SameCode.refl _, rfl, rfl, le_rfl⟩
  | case2 p c => exact pool_char_grows h
  | case3 p e rest hnone => cases h
  | case4 p e rest b hb ih | case5 p c e rest hplain ih =>
    rw [except_bind_eq_ok_iff] at h
    obtain ⟨mid, hput, hrest⟩ := h
    exact (pool_char_grows hput).trans (ih mid hrest)

/-- An interned string is the last of the table and ends in a NUL. -/
theorem intern_string_ok {p p' t s} (hpool : PoolOk p) (h : intern_string p t = .ok (p', s)) :
    PoolOk p' ∧ SameCode p p' ∧ p'.nstr.toNat = p.nstr.toNat + 1 ∧ s.1 = DVM_O_STR ∧ s.2.toNat < p'.nstr.toNat := by
  unfold intern_string at h
  split at h
  · cases h
  split at h
  · cases h
  next hroom =>
  simp only [except_bind_eq_ok_iff] at h
  obtain ⟨mid, hchars, h⟩ := h
  split at h
  · cases h
  next hend =>
  cases h
  have hgrown := intern_chars_grows hchars
  have hstart := hgrown.used_le
  have hnstr : (mid.nstr + 1).toNat = p.nstr.toNat + 1 := by
    rw [hgrown.nstr_eq]
    exact u32_toNat_succ DVM_MAX_STRINGS (by omega) (by decide)
  have hused : (mid.strused + 1).toNat = mid.strused.toNat + 1 :=
    u32_toNat_succ DVM_STRPOOL (by omega) (by decide)
  have hcap : DVM_STRPOOL = 512 := rfl
  refine ⟨⟨?_, ?_, ?_, ?_⟩, ⟨hgrown.insn_eq, hgrown.ninsn_eq, hgrown.label_eq, hgrown.nlabel_eq⟩, hnstr, rfl, ?_⟩
  · simp only [pool_put, hnstr]
    omega
  · simp only [pool_put, hused]
    omega
  · intro i off hi hoff
    simp only [pool_put, hnstr] at hi
    simp only [pool_put, hgrown.nstr_eq, CArray.get?_set] at hoff
    simp only [pool_put, hused]
    split at hoff
    · cases hoff
      rw [UInt32.toNat_toUInt16]
      omega
    · next hne =>
      rw [hgrown.stroff_eq] at hoff
      have hbound := CArray.lt_of_get?_eq_some hoff
      have hold := hpool.offsets i off (by omega) hoff
      omega
  · intro _
    simp only [pool_put, hused, Nat.add_sub_cancel]
    rw [CArray.get?_set, if_pos ⟨rfl, by omega⟩]
  · have hlast := congrArg UInt32.toNat hgrown.nstr_eq
    simp only [pool_put, hnstr, UInt32.toNat_toUInt64]
    omega

/-- A branch goes where the label table of `p` says. -/
def Targets (p : dvm_program_t) (op : dvm_op_t) (args : List tok_t) (ins : dvm_insn_t) : Prop :=
  op_fmt op = .F_LBL → ∃ t target, args = [t] ∧ label_lookup p t = some target ∧ ins.val 0 = target.toUInt64

/-- What assembling the operands of one instruction gives. -/
structure Encoded (p p' : dvm_program_t) (op : dvm_op_t) (ins : dvm_insn_t) (args : List tok_t) : Prop where
  pool : PoolOk p'
  same : SameCode p p'
  nstr_le : p.nstr.toNat ≤ p'.nstr.toNat
  shape : InsnShape p'.nstr.toNat ins op
  targets : Targets p op args ins

section Encoded

variable {p p' : dvm_program_t} {op : dvm_op_t} {fmt : fmt_t} {ins : dvm_insn_t} {args : List tok_t}

theorem Encoded.plain (hpool : PoolOk p) (hfmt : op_fmt op = fmt) (hlbl : fmt ≠ .F_LBL) (hop : ins.op = op.toByte)
    (hdst : ins.dst.toNat < DVM_NREGS ∨ (ins.dst = DVM_NOREG ∧ fmt_wants_dst fmt = false))
    (hfirst : FirstSlot p.nstr.toNat fmt (ins.kind 0, ins.val 0))
    (hsecond : OptionalSlot (ins.kind 1, ins.val 1)) (hthird : OptionalSlot (ins.kind 2, ins.val 2)) :
    Encoded p p op ins args := by
  subst hfmt
  exact ⟨hpool, SameCode.refl p, le_rfl, ⟨hop, hdst, hfirst, hsecond, hthird⟩, fun h => absurd h hlbl⟩

theorem Encoded.string {t s} (hpool : PoolOk p) (hstr : intern_string p t = .ok (p', s)) (hfmt : op_fmt op = fmt)
    (hwants : fmt_wants_str fmt = true) (hop : ins.op = op.toByte)
    (hdst : ins.dst.toNat < DVM_NREGS ∨ (ins.dst = DVM_NOREG ∧ fmt_wants_dst fmt = false))
    (hfirst : (ins.kind 0, ins.val 0) = s) (hsecond : OptionalSlot (ins.kind 1, ins.val 1))
    (hthird : OptionalSlot (ins.kind 2, ins.val 2)) : Encoded p p' op ins args := by
  obtain ⟨hpool', hsame, hnstr, hslot⟩ := intern_string_ok hpool hstr
  subst hfmt hfirst
  refine ⟨hpool', hsame, by omega, ⟨hop, hdst, ?_, hsecond, hthird⟩, ?_⟩
  · cases hcase : op_fmt op <;> rw [hcase] at hwants <;> first | exact hslot | cases hwants
  · intro hlbl
    rw [hlbl] at hwants
    cases hwants

end Encoded

/-- Every format: the operands read are the slots filled, in the ranges the
    validator asks for. A wrong number of operands is an error. -/
theorem assemble_operands_ok {as : as_t} {mn : String} {op} {line : Nat} {args p' ins} (hpool : PoolOk as.p)
    (h : assemble_operands as mn (blank_insn op line) (op_fmt op) args = .ok (p', ins)) :
    Encoded as.p p' op ins args := by
  have none : OptionalSlot (DVM_O_NONE, 0) := Or.inl rfl
  unfold assemble_operands at h
  split at h
  all_goals try simp only [except_bind_eq_ok_iff] at h
  case h_1 hfmt =>
    cases h
    exact .plain hpool hfmt (by decide) rfl (Or.inr ⟨rfl, rfl⟩) none none none
  case h_3 t hfmt =>
    obtain ⟨⟨q, str⟩, hstr, heq⟩ := h
    cases heq
    exact .string hpool hstr hfmt rfl rfl (Or.inr ⟨rfl, rfl⟩) rfl none none
  case h_5 t hfmt =>
    obtain ⟨⟨q, str⟩, hstr, heq⟩ := h
    cases heq
    exact .string hpool hstr hfmt rfl rfl (Or.inr ⟨rfl, rfl⟩) rfl none none
  case h_6 t a hfmt =>
    obtain ⟨⟨q, str⟩, hstr, x, hx, heq⟩ := h
    cases heq
    exact .string hpool hstr hfmt rfl rfl (Or.inr ⟨rfl, rfl⟩) rfl (operand_value hx) none
  case h_8 d a hfmt =>
    obtain ⟨dst, hdst, x, hx, heq⟩ := h
    cases heq
    exact .plain hpool hfmt (by decide) rfl (Or.inl (dst_reg_lt hdst)) (operand_value hx) none none
  case h_10 d b hfmt =>
    obtain ⟨dst, hdst, y, hy, heq⟩ := h
    cases heq
    have hreg : OptionalSlot (DVM_O_REG, dst.toUInt64) := Or.inr (Or.inl ⟨rfl, by simpa using dst_reg_lt hdst⟩)
    exact .plain hpool hfmt (by decide) rfl (Or.inl (dst_reg_lt hdst)) hreg (operand_value hy) none
  case h_11 d a b hfmt =>
    obtain ⟨dst, hdst, x, hx, y, hy, heq⟩ := h
    cases heq
    exact .plain hpool hfmt (by decide) rfl (Or.inl (dst_reg_lt hdst)) (operand_value hx) (operand_value hy) none
  case h_13 a b hfmt =>
    obtain ⟨x, hx, y, hy, heq⟩ := h
    cases heq
    exact .plain hpool hfmt (by decide) rfl (Or.inr ⟨rfl, rfl⟩) (operand_value hx) (operand_value hy) none
  case h_15 a hfmt =>
    obtain ⟨x, hx, heq⟩ := h
    cases heq
    exact .plain hpool hfmt (by decide) rfl (Or.inr ⟨rfl, rfl⟩) (operand_value hx) none none
  case h_17 d hfmt =>
    obtain ⟨dst, hdst, heq⟩ := h
    cases heq
    exact .plain hpool hfmt (by decide) rfl (Or.inl (dst_reg_lt hdst)) none none none
  case h_19 l hfmt =>
    split at h
    · next target hfound =>
      cases h
      refine ⟨hpool, SameCode.refl _, le_rfl, ⟨rfl, Or.inr ⟨rfl, by rw [hfmt]; rfl⟩, ?_, none, none⟩, ?_⟩
      · rw [hfmt]
        rfl
      · exact fun _ => ⟨l, target, rfl, hfound, rfl⟩
    · cases h
  case h_21 port a hfmt =>
    obtain ⟨x, hx, y, hy, heq⟩ := h
    cases heq
    exact .plain hpool hfmt (by decide) rfl (Or.inr ⟨rfl, rfl⟩) (operand_value hx) (operand_value hy) none
  case h_23 d port hfmt =>
    obtain ⟨dst, hdst, x, hx, heq⟩ := h
    cases heq
    exact .plain hpool hfmt (by decide) rfl (Or.inl (dst_reg_lt hdst)) (operand_value hx) none none
  case h_25 d addr hfmt =>
    obtain ⟨dst, hdst, ⟨base, disp⟩, haddr, heq⟩ := h
    cases heq
    obtain ⟨hbase, hdisp⟩ := addr_operand_value haddr
    exact .plain hpool hfmt (by decide) rfl (Or.inl (dst_reg_lt hdst)) hbase hdisp none
  case h_26 d b o hfmt =>
    obtain ⟨dst, hdst, -, -, x, hx, y, hy, heq⟩ := h
    cases heq
    exact .plain hpool hfmt (by decide) rfl (Or.inl (dst_reg_lt hdst)) (operand_value hx) (operand_value hy) none
  case h_28 addr v hfmt =>
    obtain ⟨⟨base, disp⟩, haddr, z, hz, heq⟩ := h
    cases heq
    obtain ⟨hbase, hdisp⟩ := addr_operand_value haddr
    exact .plain hpool hfmt (by decide) rfl (Or.inr ⟨rfl, rfl⟩) hbase hdisp (operand_value hz)
  case h_29 b o v hfmt =>
    obtain ⟨-, -, x, hx, y, hy, z, hz, heq⟩ := h
    cases heq
    exact .plain hpool hfmt (by decide) rfl (Or.inr ⟨rfl, rfl⟩) (operand_value hx)
      (operand_value hy) (operand_value hz)
  case h_31 d a b c hfmt =>
    obtain ⟨dst, hdst, x, hx, y, hy, z, hz, heq⟩ := h
    cases heq
    exact .plain hpool hfmt (by decide) rfl (Or.inl (dst_reg_lt hdst)) (operand_value hx)
      (operand_value hy) (operand_value hz)
  case h_33 a b c hfmt =>
    obtain ⟨x, hx, y, hy, z, hz, heq⟩ := h
    cases heq
    exact .plain hpool hfmt (by decide) rfl (Or.inr ⟨rfl, rfl⟩) (operand_value hx)
      (operand_value hy) (operand_value hz)
  case h_35 d a t hfmt =>
    obtain ⟨dst, hdst, ⟨q, str⟩, hstr, x, hx, heq⟩ := h
    cases heq
    exact .string hpool hstr hfmt rfl rfl (Or.inl (dst_reg_lt hdst)) rfl (operand_value hx) none
  case h_37 d a b t hfmt =>
    obtain ⟨dst, hdst, ⟨q, str⟩, hstr, x, hx, y, hy, heq⟩ := h
    cases heq
    exact .string hpool hstr hfmt rfl rfl (Or.inl (dst_reg_lt hdst)) rfl (operand_value hx) (operand_value hy)
  case h_39 d t hfmt =>
    obtain ⟨dst, hdst, nr, hnr, heq⟩ := h
    cases heq
    exact .plain hpool hfmt (by decide) rfl (Or.inl (dst_reg_lt hdst)) (sys_number_shape hnr) none none
  case h_41 d f o hfmt =>
    obtain ⟨dst, hdst, x, hx, y, hy, heq⟩ := h
    cases heq
    exact .plain hpool hfmt (by decide) rfl (Or.inl (dst_reg_lt hdst)) (bdf_operand_value hx)
      (operand_value hy) none
  all_goals cases h

end fable.dvm
