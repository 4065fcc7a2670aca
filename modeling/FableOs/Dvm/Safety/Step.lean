import FableOs.Dvm.Safety.Service

namespace fable.dvm

open fable.exec Yields Exec

variable {σ A : Type} {env : env_t σ} {steps : Nat}
variable {st : run_t σ} {p : dvm_program_t} {insn : dvm_insn_t} {op : dvm_op_t}

/-- Where an instruction of an accepted image may go, and that it names a
    register when it has a value to write. -/
structure FlowOk (p : dvm_program_t) (insn : dvm_insn_t) (flow : flow_t) : Prop where
  next_le : flow.next ≤ p.ninsn.toNat
  dst_lt : flow.v ≠ none → insn.dst.toNat < DVM_NREGS

theorem Yields.meets {m : M σ A} {Q} (h : Yields env steps m Q) {excuse : Prop} (hst : Sound env steps 0 st) :
    (m st).Meets (fun a st' => Sound env steps 0 st' ∧ Q a) (Stopped env steps excuse) :=
  (h st hst).mono (fun _ _ hq => hq) fun _ _ hr => hr.weaken False.elim

theorem FlowOk.of_next {next : Nat} (hnext : next ≤ p.ninsn.toNat) : FlowOk p insn ⟨next, none⟩ :=
  ⟨hnext, fun hne => (hne rfl).elim⟩

theorem InsnOk.flow_some (h : InsnOk p insn op) {next : Nat} (hnext : next ≤ p.ninsn.toNat)
    (hwants : fmt_wants_dst (op_fmt op) = true) (v : UInt64) : FlowOk p insn ⟨next, some v⟩ :=
  ⟨hnext, fun _ => h.dst_lt hwants⟩

theorem InsnOk.target (h : InsnOk p insn op) (hfmt : op_fmt op = .F_LBL) :
    insn.kind 0 = DVM_O_PC ∧ (insn.val 0).toNat < p.ninsn.toNat :=
  ⟨h.label hfmt, h.pc_lt 0 (h.label hfmt)⟩

/-- Every instruction of an accepted image, under an accepted policy, keeps the
    invariant; the only stop that owes an access is the one without a hook. -/
theorem exec_op_meets (hpol : PolicyOk env.plat env.pol) (hp : ProgramOk env.p) (hinsn : InsnOk env.p insn op)
    (next : Nat) (hnext : next ≤ env.p.ninsn.toNat) (a b c : UInt64) (hst : Sound env steps 0 st) :
    (exec_op env op insn next a b c st).Meets (fun flow st' => Sound env steps 0 st' ∧ FlowOk env.p insn flow)
      (Stopped env steps (unhooked env op st.res.io_ops a b)) := by
  have hnone : FlowOk env.p insn ⟨next, none⟩ := FlowOk.of_next hnext
  have hsome := hinsn.flow_some hnext
  have htarget := hinsn.target
  have hjump : ∀ target, target < env.p.ninsn.toNat → FlowOk env.p insn ⟨target, none⟩ :=
    fun target hlt => FlowOk.of_next (Nat.le_of_lt hlt)
  cases op with
  | HALT => exact meets exec_halt_yields hst
  | ABORT => exact meets (exec_abort_yields hp insn) hst
  | NOP => exact meets (exec_nop_yields hnone) hst
  | MOV | ADD | SUB | MUL | DIV | MOD | AND | OR | XOR | NOT | SHL | SHR =>
    simp only [exec_op]
    exact meets (exec_alu_yields _ a b (hsome rfl)) hst
  | CMP => exact meets (exec_cmp_yields a b hnone) hst
  | TEST => exact meets (exec_test_yields a b hnone) hst
  | JMP | BEQ | BNE | BLT | BLE | BGT | BGE =>
    obtain ⟨hkind, hlt⟩ := htarget rfl
    exact meets (exec_branch_yields _ hkind hlt hnone (hjump _ hlt)) hst
  | CALL =>
    obtain ⟨hkind, hlt⟩ := htarget rfl
    exact meets (exec_call_yields hkind hlt hnext (hjump _ hlt)) hst
  | RET => exact meets (exec_ret_yields fun r hr => FlowOk.of_next hr) hst
  | PUSH => exact meets (exec_push_yields a hnone) hst
  | POP => exact meets (exec_pop_yields (hsome rfl)) hst
  | OUT8 | OUT16 | OUT32 => exact exec_out_meets hnone hst
  | IN8 | IN16 | IN32 => exact exec_in_meets (hsome rfl) hst
  | LD8 => exact exec_ld_meets hpol (Or.inl rfl) (hsome rfl) hst
  | LD16 => exact exec_ld_meets hpol (Or.inr (Or.inl rfl)) (hsome rfl) hst
  | LD32 => exact exec_ld_meets hpol (Or.inr (Or.inr rfl)) (hsome rfl) hst
  | ST8 => exact exec_st_meets hpol (Or.inl rfl) hnone hst
  | ST16 => exact exec_st_meets hpol (Or.inr (Or.inl rfl)) hnone hst
  | ST32 => exact exec_st_meets hpol (Or.inr (Or.inr rfl)) hnone hst
  | PCICFG => exact meets (exec_pcicfg_yields a b (hsome rfl)) hst
  | DELAY => exact meets (exec_delay_yields a hnone) hst
  | PRINT => exact meets (exec_print_yields hp insn hnone) hst
  | MLD8 | MLD16 | MLD32 | MLD64 => exact meets (exec_mld_yields _ a b (hsome rfl)) hst
  | MST8 | MST16 | MST32 | MST64 => exact meets (exec_mst_yields _ a b c hnone) hst
  | MSTR => exact meets (exec_mstr_yields hp insn b (hsome rfl)) hst
  | MCPY => exact meets (exec_mcpy_yields a b c (hsome rfl)) hst
  | MSET => exact meets (exec_mset_yields a b c (hsome rfl)) hst
  | MCMP => exact meets (exec_mcmp_yields a b c hnone) hst
  | MFIND => exact meets (exec_mfind_yields hp insn b c (hsome rfl)) hst
  | MCHR => exact meets (exec_mchr_yields a b c (hsome rfl)) hst
  | MATOI => exact meets (exec_matoi_yields a b c (hsome rfl)) hst
  | MITOA => exact meets (exec_mitoa_yields a b c (hsome rfl)) hst
  | SYS => exact meets (exec_sys_yields (hinsn.sys rfl).2 (hsome rfl)) hst

theorem write_back_quiet {v} (h : v ≠ none → insn.dst.toNat < DVM_NREGS) : Quiet (write_back env insn v) := by
  cases v with
  | none => exact Quiet.pure ()
  | some v =>
    have hlt := h (by simp)
    have hok : ∀ text : String, refuse (DVM_NREGS ≤ insn.dst.toNat) (dvm_status_t.DVM_TRAP_RANGE, text) =
        Except.ok () := fun text => refuse_eq_ok_iff.mpr (by omega)
    intro st
    simp only [write_back, hok, require_of_ok, bind_apply, pure_apply, inBounds_pos hlt,
      modify_apply]
    split
    · exact ⟨(), _, rfl, rfl⟩
    · exact tline_quiet env _ _

theorem ProgramOk.fetch (hp : ProgramOk p) {pc : Nat} (hpc : pc < p.ninsn.toNat) :
    ∃ insn op, p.insn.get? pc = some insn ∧ InsnOk p insn op := by
  have hle := hp.ninsn_le
  obtain ⟨insn, hget⟩ := p.insn.get?_isSome_of_lt (i := pc) (by omega)
  have hmem : insn ∈ p.insn.front p.ninsn.toNat := by
    rw [CArray.mem_front_iff]
    exact ⟨pc, hpc, hget⟩
  obtain ⟨op, hop⟩ := hp.insns insn hmem
  exact ⟨insn, op, hget, hop⟩

/-- The loop is about to execute an access that passes its gate, is charged,
    and has no hook. -/
def stray (env : env_t σ) (st : run_t σ) : Prop :=
  st.res.steps < env.pol.max_steps.toNat ∧ st.pc < env.p.ninsn.toNat ∧
    ∃ insn op, env.p.insn.get? st.pc = some insn ∧ dvm_op_t.ofByte insn.op = some op ∧
      unhooked env op st.res.io_ops (rd st insn 0) (rd st insn 1)

theorem execute_insn_meets (hpol : PolicyOk env.plat env.pol) (hp : ProgramOk env.p) (hst : Sound env steps 0 st)
    (hsteps : steps < env.pol.max_steps.toNat) (hpc : st.pc < env.p.ninsn.toNat) :
    (execute_insn env st).Meets (fun _ st' => Sound env (steps + 1) 0 st')
      (Stopped env (steps + 1) (stray env st)) := by
  obtain ⟨insn, op, hget, hinsn⟩ := hp.fetch hpc
  have hcounted : Sound env (steps + 1) 0
      { st with line := insn.line, res := { st.res with steps := st.res.steps + 1 } } :=
    Inv.count_step hst hsteps
  have hsteps' : st.res.steps = steps := hst.steps_eq
  have hexec := exec_op_meets hpol hp hinsn (st.pc + 1) (by omega) (rd st insn 0) (rd st insn 1)
    (rd st insn 2) hcounted
  apply Outcome.Meets.read_bind
  apply Outcome.Meets.ofOption_bind hget
  apply Outcome.Meets.modify_bind
  refine Outcome.Meets.bind (Q := fun flow st' => Sound env (steps + 1) 0 st' ∧ FlowOk env.p insn flow) ?_ ?_
  · simp only [exec_insn, hinsn.op_eq]
    refine hexec.mono (fun _ _ h => h) fun e st' h => h.weaken fun hunhooked => ?_
    exact ⟨by omega, hpc, insn, op, hget, hinsn.op_eq, hunhooked⟩
  · rintro flow mid ⟨hmid, hflow⟩
    refine Outcome.Meets.bind ((write_back_quiet hflow.dst_lt).meets hmid) ?_
    intro _ st' hst'
    exact { hst' with pc_le := hflow.next_le }

/-- How the loop of a sound run stops, seen from the state at the head of its
    last iteration. -/
structure LoopStopped (env : env_t σ) (excuse : Prop) (e : dvm_status_t) (st : run_t σ) : Prop where
  not_badop : e ≠ .DVM_TRAP_BADOP
  ran_past : e = .DVM_TRAP_PC → st.pc = env.p.ninsn.toNat
  sound : ∃ steps debt, Inv env steps debt st.core ∧ (debt = 0 ∨ debt = 1 ∧ excuse)

theorem execute_body_meets (hpol : PolicyOk env.plat env.pol) (hp : ProgramOk env.p) (hst : Sound env steps 0 st) :
    (execute_body env st).Meets (fun _ st' => steps < env.pol.max_steps.toNat ∧ Sound env (steps + 1) 0 st')
      (LoopStopped env (stray env st)) := by
  have hsteps : st.res.steps = steps := hst.steps_eq
  have hninsn := hp.ninsn_le
  unfold execute_body
  simp only [bind_apply, read_apply]
  by_cases hbudget : env.pol.max_steps.toNat ≤ st.res.steps
  · rw [if_pos hbudget]
    obtain ⟨line, hline⟩ : ∃ line, line_at env.p st.pc = some line := by
      unfold line_at
      split
      · next hpc =>
        obtain ⟨insn, hget⟩ := env.p.insn.get?_isSome_of_lt (i := st.pc) (by omega)
        exact ⟨insn.line, by rw [hget]; rfl⟩
      · exact ⟨0, rfl⟩
    simp only [out_of_steps, bind_apply, read_apply, hline, ofOption_some]
    exact ⟨by decide, (fun h => by cases h), steps, 0, hst, Or.inl rfl⟩
  rw [if_neg hbudget]
  by_cases hpast : env.p.ninsn.toNat ≤ st.pc
  · rw [if_pos hpast]
    have hpos := hp.ninsn_pos
    obtain ⟨insn, hget⟩ := env.p.insn.get?_isSome_of_lt (i := env.p.ninsn.toNat - 1) (by omega)
    have hpc : st.pc ≤ env.p.ninsn.toNat := hst.pc_le
    simp only [ran_past, bind_apply, hget, ofOption_some]
    exact ⟨by decide, fun _ => Nat.le_antisymm hpc hpast, steps, 0, hst, Or.inl rfl⟩
  · rw [if_neg hpast]
    refine (execute_insn_meets hpol hp hst (by omega) (by omega)).mono ?_ ?_
    · exact fun _ _ h => ⟨by omega, h⟩
    · intro e st' hstop
      obtain ⟨debt, hinv, hdebt⟩ := hstop.sound
      exact ⟨hstop.status.1, fun h => (hstop.status.2 h).elim, steps + 1, debt, hinv, hdebt⟩

end fable.dvm
