import FableOs.Dvm.Safety.Budgets

namespace fable.dvm

open fable.exec

variable {σ : Type}

/-- The interpreter state against the tables of its image: the stacks are
    inside their arrays, every return address and the `pc` are at most one past
    the last instruction, and an instruction that is fetched is well formed. -/
structure InArrays (p : dvm_program_t) (st : run_t σ) : Prop where
  dsp_le : st.dsp ≤ DVM_DSTACK
  csp_le : st.csp ≤ DVM_CSTACK
  returns_le : ∀ i next, i < st.csp → st.cstack.get? i = some next → next ≤ p.ninsn.toNat
  pc_le : st.pc ≤ p.ninsn.toNat
  fetch : st.pc < p.ninsn.toNat → ∃ insn op, p.insn.get? st.pc = some insn ∧ InsnOk p insn op

/-- What `exec_insn` is handed for the instruction at `pc`. -/
def exec_at (env : env_t σ) (st : run_t σ) (insn : dvm_insn_t) : Outcome dvm_status_t (run_t σ) flow_t :=
  exec_insn env insn (st.pc + 1) (rd st insn 0) (rd st insn 1) (rd st insn 2)
    { st with line := insn.line, res := { st.res with steps := st.res.steps + 1 } }

theorem AtHead.in_arrays {env} (hp : ProgramOk env.p) {st₀ st : run_t σ} (h : AtHead env st₀ st) :
    InArrays env.p st :=
  ⟨h.sound.dsp_le, h.sound.csp_le, h.sound.returns_le, h.sound.pc_le, fun hpc => hp.fetch hpc⟩

/-- The destination test of the write-back never refuses. -/
theorem AtHead.flow_ok {env} (hpol : PolicyOk env.plat env.pol) (hp : ProgramOk env.p) {st₀ st}
    (h : AtHead env st₀ st) (hsteps : st.res.steps < env.pol.max_steps.toNat) (hpc : st.pc < env.p.ninsn.toNat)
    {insn : dvm_insn_t} (hget : env.p.insn.get? st.pc = some insn) {flow : flow_t} {st' : run_t σ}
    (hexec : exec_at env st insn = .ok flow st') : FlowOk env.p insn flow := by
  obtain ⟨insn', op, hget', hinsn⟩ := hp.fetch hpc
  cases hget.symm.trans hget'
  have hcounted : Sound env (st.res.steps + 1) 0
      { st with line := insn.line, res := { st.res with steps := st.res.steps + 1 } } :=
    Inv.count_step h.sound hsteps
  have hmeets := exec_op_meets hpol hp hinsn (st.pc + 1) (by omega) (rd st insn 0) (rd st insn 1)
    (rd st insn 2) hcounted
  simp only [exec_at, exec_insn, hinsn.op_eq] at hexec
  rw [hexec] at hmeets
  exact hmeets.2

/-- An image the validator accepts keeps the interpreter inside its arrays in
    every run: no access is out of bounds, the stacks and the `pc` stay in
    range, every instruction that is executed is well formed and writes an
    existing register, and of the traps against a malformed image the only one
    left is the one for running past the last instruction. -/
theorem validated_run_stays_in_arrays (plat : platform_t) (bus : dma_bus_t σ) (call : run_call_t σ) (fuel : Nat)
    (m : machine_t σ) (p : dvm_program_t) (hp : call.p = some p) (hvalid : dvm_program_validate p = .ok ()) :
    dvm_run_at plat bus call fuel m ≠ .fault ∧
      (∀ st, dvm_run_at plat bus call fuel m = .running st →
        InArrays p st ∧
        ∀ env, StartedCall plat bus call env → st.res.steps < env.pol.max_steps.toNat → st.pc < p.ninsn.toNat →
          ∀ insn flow st', p.insn.get? st.pc = some insn → exec_at env st insn = .ok flow st' →
            FlowOk p insn flow) ∧
      ∀ status res m' log, dvm_run_at plat bus call fuel m = .returned status res m' log →
        (status = .DVM_TRAP_BADOP → p.ninsn ≤ call.start_pc) ∧
        (status = .DVM_TRAP_PC → res.pc = p.ninsn.toNat) := by
  rcases dvm_run_at_cases plat bus call m with ⟨status, res, heq, hrefused⟩ | ⟨env, hstart, heq⟩
  · rw [heq fuel]
    refine ⟨by simp, (fun st hrunning => by cases hrunning), ?_⟩
    intro status' res' m' log hret
    cases hret
    rcases hrefused.status_why with hmild | ⟨p', hp', hbad⟩ | ⟨hbadop, p', hp', hentry⟩
    · exact ⟨fun h => (hmild.1 h).elim, fun h => (hmild.2 h).elim⟩
    · rw [hp] at hp'
      cases hp'
      exact (hbad hvalid).elim
    · rw [hp] at hp'
      cases hp'
      refine ⟨fun _ => hentry, fun h => ?_⟩
      rw [hbadop] at h
      cases h
  have hp' := hstart.p_eq
  rw [hp] at hp'
  obtain rfl := Option.some.inj hp'
  have hrun := hstart.execute_meets m fuel
  rw [heq fuel]
  refine ⟨(hstart.log_inv m fuel).1, ?_, ?_⟩
  · intro st hrunning
    rw [run_program_running_iff] at hrunning
    rw [hrunning] at hrun
    refine ⟨hrun.in_arrays hstart.program_ok, ?_⟩
    intro env' hstart' hsteps hpc insn flow st' hget hexec
    obtain rfl : env' = env := by
      obtain ⟨hplat, hbus, hp₁, hpol₁, hio₁, -⟩ := hstart
      obtain ⟨hplat', hbus', hp₂, hpol₂, hio₂, -⟩ := hstart'
      cases env
      cases env'
      simp_all
    exact hrun.flow_ok hstart.policy_ok hstart.program_ok hsteps hpc hget hexec
  · intro status res m' log hret
    unfold run_program at hret
    cases hout : execute env fuel (initial_state env call m) with
    | ok u st | fault => rw [hout] at hret; cases hret
    | stop e st =>
      rw [hout] at hret hrun
      cases hret
      exact ⟨fun h => (hrun.not_badop h).elim, fun h => hrun.ran_past h⟩

/-- `mov r0, 3; again: call sub; cmp r0, 0; bne again; halt;
    sub: push r0; mst8 [r0], r0; pop r1; sub r0, r1, 1; ret` -/
def loop_insns : List dvm_insn_t :=
  let kinds (a b c : UInt8) (k : Fin 3) : UInt8 := if k = 0 then a else if k = 1 then b else c
  let vals (a b c : UInt64) (k : Fin 3) : UInt64 := if k = 0 then a else if k = 1 then b else c
  let none := kinds DVM_O_NONE DVM_O_NONE DVM_O_NONE
  let one (kind : UInt8) := kinds kind DVM_O_NONE DVM_O_NONE
  [insn_of .MOV 0 (one DVM_O_IMM) (vals 3 0 0),
    insn_of .CALL DVM_NOREG (one DVM_O_PC) (vals 5 0 0),
    insn_of .CMP DVM_NOREG (kinds DVM_O_REG DVM_O_IMM DVM_O_NONE) (vals 0 0 0),
    insn_of .BNE DVM_NOREG (one DVM_O_PC) (vals 1 0 0),
    insn_of .HALT DVM_NOREG none (vals 0 0 0),
    insn_of .PUSH DVM_NOREG (one DVM_O_REG) (vals 0 0 0),
    insn_of .MST8 DVM_NOREG (kinds DVM_O_REG DVM_O_IMM DVM_O_REG) (vals 0 0 0),
    insn_of .POP 1 none (vals 0 0 0),
    insn_of .SUB 0 (kinds DVM_O_REG DVM_O_IMM DVM_O_NONE) (vals 1 1 0),
    insn_of .RET DVM_NOREG none (vals 0 0 0)]

def loop_call : run_call_t Unit := bare_call loop_insns dvm_policy_init

/-- The first scratch bytes a finished run leaves. -/
def scratch_after (n : Nat) : run_end_t σ → Option (List UInt8)
  | .returned _ _ m _ => some (m.mem.slice 0 n)
  | _ => none

theorem scratch_after_eq_some {n : Nat} {ended : run_end_t σ} {bytes : List UInt8}
    (h : scratch_after n ended = some bytes) :
    ∃ status res m log, ended = .returned status res m log ∧ m.mem.slice 0 n = bytes := by
  cases ended with
  | returned status res m log => exact ⟨status, res, m, log, rfl, Option.some.inj h⟩
  | running st => cases h
  | fault => cases h

/-- After four instructions the subroutine has an address on the one stack and a
    register on the other; in the end the scratch bytes 1 to 3 are written. -/
theorem loop_run_stays_in_arrays :
    (∃ st, dvm_run_at bare_plat bare_bus loop_call 4 bare_machine = .running st ∧
      (st.csp, st.dsp, st.pc) = (1, 1, 7) ∧ InArrays (image_of loop_insns) st) ∧
    (∃ status res m' log, dvm_run_at bare_plat bare_bus loop_call 30 bare_machine = .returned status res m' log ∧
      m'.mem.slice 0 5 = [0, 1, 2, 3, 0] ∧ status ≠ .DVM_TRAP_BADOP) ∧
    ∀ fuel, dvm_run_at bare_plat bare_bus loop_call fuel bare_machine ≠ .fault := by
  have hvalid : dvm_program_validate (image_of loop_insns) = .ok () := rfl
  have hrun fuel := validated_run_stays_in_arrays bare_plat bare_bus loop_call fuel bare_machine _ rfl hvalid
  have hends : scratch_after 5 (dvm_run_at bare_plat bare_bus loop_call 30 bare_machine) = some [0, 1, 2, 3, 0] := by
    decide +kernel
  obtain ⟨status, res, m', log, hret, hscratch⟩ := scratch_after_eq_some hends
  refine ⟨⟨_, rfl, rfl, ((hrun 4).2.1 _ rfl).1⟩, ⟨status, res, m', log, hret, hscratch, fun hbadop => ?_⟩,
    fun fuel => (hrun fuel).1⟩
  exact absurd (((hrun 30).2.2 status res m' log hret).1 hbadop) (by decide)

/-- The one-instruction image `nop` is accepted, and its run ends in the trap
    for a bad `pc`, one past the end. -/
theorem nop_runs_past_the_end :
    dvm_program_validate (image_of [insn_of .NOP DVM_NOREG (fun _ => 0) fun _ => 0]) = .ok () ∧
      ∃ res m' log,
        dvm_run_at bare_plat bare_bus (bare_call [insn_of .NOP DVM_NOREG (fun _ => 0) fun _ => 0] dvm_policy_init) 2
          bare_machine = .returned .DVM_TRAP_PC res m' log ∧ res.pc = 1 :=
  ⟨rfl, _, _, _, rfl, rfl⟩

end fable.dvm
