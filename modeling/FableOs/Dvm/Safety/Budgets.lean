import FableOs.Dvm.Safety.Run

namespace fable.dvm

open fable.exec

variable {σ : Type}

theorem final_result_within {env} {steps debt : Nat} {st : run_t σ} (h : Inv env steps debt st.core)
    (status : dvm_status_t) : WithinBudgets env.pol (final_result env status st) := by
  have hsteps : st.res.steps = steps := h.steps_eq
  have hle := h.steps_le
  exact ⟨by show st.res.steps ≤ _; omega, h.io_le, h.dma_le, h.mem_le, h.sys_le, h.delay_le, h.prints_le⟩

theorem run_program_running_iff {env call} {m : machine_t σ} {fuel : Nat} {st : run_t σ} :
    run_program env call fuel m = .running st ↔ execute env fuel (initial_state env call m) = .ok () st := by
  unfold run_program
  cases execute env fuel (initial_state env call m) <;> simp

/-- A call returns once it is given more turns than its policy has steps, and its
    counters are inside the budgets. -/
theorem dvm_run_at_returns (plat : platform_t) (bus : dma_bus_t σ) (call : run_call_t σ) (m : machine_t σ)
    (pol : dvm_policy_t) (hpol : call.pol = some pol) :
    ∃ status res m' log, (∀ fuel, pol.max_steps.toNat < fuel →
      dvm_run_at plat bus call fuel m = .returned status res m' log) ∧ WithinBudgets pol res := by
  rcases dvm_run_at_cases plat bus call m with ⟨status, res, heq, hrefused⟩ | ⟨env, hstart, heq⟩
  · exact ⟨status, res, m, [], fun fuel _ => heq fuel, hrefused.budgets pol⟩
  obtain rfl : env.pol = pol := Option.some.inj (hstart.pol_eq.symm.trans hpol)
  obtain ⟨e, st, hstop, hfuel⟩ := execute_stops hstart.policy_ok hstart.program_ok (hstart.initial_sound m)
  obtain ⟨steps, debt, hinv, -⟩ := hstop.sound
  refine ⟨e, final_result env e st, ⟨false, st.mem, st.ctx⟩, st.log, fun fuel hlt => ?_, final_result_within hinv e⟩
  rw [heq fuel, run_program, hfuel fuel hlt]

/-- Every call ends, whether its program and policy are accepted or not; its
    counters are inside the budgets, and no device access goes uncharged. The
    hook calls are exactly the charged accesses if and only if no instruction
    of the run is a port or MMIO access that passes its gate and has no hook:
    those two gates charge before the hook is looked for. -/
theorem dvm_run_at_ends_within_budgets (plat : platform_t) (bus : dma_bus_t σ) (call : run_call_t σ)
    (m : machine_t σ) (p : dvm_program_t) (pol : dvm_policy_t) (io : dvm_io_t σ)
    (hp : call.p = some p) (hpol : call.pol = some pol) (hio : call.io = some io) :
    ∃ status res m' log,
      (∀ fuel, pol.max_steps.toNat < fuel → dvm_run_at plat bus call fuel m = .returned status res m' log) ∧
      WithinBudgets pol res ∧ io_calls log ≤ res.io_ops ∧
      (io_calls log = res.io_ops ↔
        ∀ fuel st, dvm_run_at plat bus call fuel m = .running st → ¬ stray ⟨p, pol, io, plat, bus⟩ st) := by
  rcases dvm_run_at_cases plat bus call m with ⟨status, res, heq, hrefused⟩ | ⟨env, hstart, heq⟩
  · refine ⟨status, res, m, [], fun fuel _ => heq fuel, hrefused.budgets pol, Nat.zero_le _, ?_⟩
    rw [hrefused.io_ops_eq]
    refine ⟨fun _ fuel st hrunning => ?_, fun _ => rfl⟩
    cases (heq fuel).symm.trans hrunning
  obtain rfl : env = ⟨p, pol, io, plat, bus⟩ := by
    obtain ⟨hplat, hbus, hp', hpol', hio', -⟩ := hstart
    rw [hp] at hp'
    rw [hpol] at hpol'
    rw [hio] at hio'
    cases env
    simp_all
  have hsound := hstart.initial_sound m
  obtain ⟨e, st, hstop, hfuel⟩ := execute_stops hstart.policy_ok hstart.program_ok hsound
  obtain ⟨steps, debt, hinv, hdebt⟩ := hstop.sound
  have hcharged : st.res.io_ops = io_calls st.log + debt := hinv.charged
  have hbalanced := balanced_iff hstart.policy_ok hstart.program_ok hsound (hfuel _ (Nat.lt_succ_self _))
  refine ⟨e, final_result _ e st, ⟨false, st.mem, st.ctx⟩, st.log, ?_, final_result_within hinv e, ?_, ?_⟩
  · intro fuel hlt
    rw [heq fuel, run_program, hfuel fuel hlt]
  · show io_calls st.log ≤ st.res.io_ops
    omega
  · show io_calls st.log = st.res.io_ops ↔ _
    rw [hbalanced]
    constructor
    · intro hnever fuel mid hrunning hstray
      rw [heq fuel, run_program_running_iff] at hrunning
      exact hnever ⟨mid, ⟨fuel, hrunning⟩, hstray⟩
    · rintro hall ⟨mid, ⟨fuel, hmid⟩, hstray⟩
      refine hall fuel mid ?_ hstray
      rw [heq fuel, run_program_running_iff]
      exact hmid

/-! A machine to try the interpreter on: its backend has no hook at all. -/

def insn_of (op : dvm_op_t) (dst : UInt8) (kind : Fin 3 → UInt8) (val : Fin 3 → UInt64) : dvm_insn_t :=
  ⟨op.toByte, dst, kind, 1, val⟩

/-- An image of the given instructions, with no labels and no strings. -/
def image_of (insns : List dvm_insn_t) : dvm_program_t where
  insn := CArray.ofList _ insns (insn_of .HALT DVM_NOREG (fun _ => DVM_O_NONE) fun _ => 0)
  ninsn := UInt32.ofNat insns.length
  label := CArray.replicate _ ⟨CArray.replicate _ 0, 0⟩
  nlabel := 0
  strpool := CArray.replicate _ 0
  stroff := CArray.replicate _ 0
  nstr := 0
  strused := 0
  src_lines := UInt32.ofNat insns.length

def bare_plat : platform_t := ⟨0x200000, 0x400000⟩

def bare_bus : dma_bus_t Unit := ⟨fun _ _ _ => (0, ()), fun _ _ _ _ => (), fun _ => ()⟩

def bare_io : dvm_io_t Unit := ⟨none, none, none, none, none, none, none⟩

def bare_machine : machine_t Unit := ⟨false, CArray.replicate _ 0, ()⟩

def bare_call (insns : List dvm_insn_t) (pol : dvm_policy_t) : run_call_t Unit :=
  ⟨some (image_of insns), some pol, some bare_io, none, 0, 0, true⟩

/-- The default policy with the ports 0xC000 to 0xC0FF opened. -/
def port_policy : dvm_policy_t :=
  { dvm_policy_init with port := dvm_policy_init.port.set 0 ⟨0xC000, 0xC0FF⟩, nport := 1 }

/-- `out8 0xc000, 1` -/
def out8_insn : dvm_insn_t :=
  insn_of .OUT8 DVM_NOREG (fun k => if k = 2 then DVM_O_NONE else DVM_O_IMM) fun k => if k = 0 then 0xC000 else 1

/-- `out8 0xc000, 1; out8 0xc000, 1; halt` on a backend that has the hook. -/
def hooked_call : run_call_t Unit :=
  { bare_call [out8_insn, out8_insn, insn_of .HALT DVM_NOREG (fun _ => DVM_O_NONE) fun _ => 0] port_policy with
    io := some { bare_io with port_write := some fun _ _ _ _ => () } }

/-- With the hook every charged access is made. -/
theorem hooked_out8_ends_within_budgets :
    ∃ status res m' log,
      (∀ fuel, 100000 < fuel → dvm_run_at bare_plat bare_bus hooked_call fuel bare_machine =
        .returned status res m' log) ∧
      WithinBudgets port_policy res ∧ io_calls log = res.io_ops ∧ res.io_ops = 2 := by
  obtain ⟨status, res, m', log, hends, hbudgets, -, hcalls⟩ := dvm_run_at_ends_within_budgets bare_plat bare_bus
    hooked_call bare_machine _ port_policy _ rfl rfl rfl
  refine ⟨status, res, m', log, hends, hbudgets, hcalls.mpr ?_, ?_⟩
  · rintro fuel st - ⟨-, hpc, insn, op, hget, hop, hunhooked⟩
    have hinsn : op = .OUT8 ∨ op = .HALT := by
      have hpc : st.pc < 3 := hpc
      obtain hpc | hpc | hpc : st.pc = 0 ∨ st.pc = 1 ∨ st.pc = 2 := by omega
      all_goals
        rw [hpc] at hget
        cases hget
        cases hop
        decide
    obtain rfl | rfl := hinsn
    · cases hunhooked.1
    · exact hunhooked
  · have hrun := hends 100001 (by decide)
    have hio : ∀ status res m' log, dvm_run_at bare_plat bare_bus hooked_call 100001 bare_machine =
        .returned status res m' log → res.io_ops = 2 := by
      rintro _ _ _ _ hret
      cases hret
      rfl
    exact hio _ _ _ _ hrun

/-- Without a port hook, one access is charged and none is made. -/
theorem out8_charged_without_a_call :
    dvm_policy_check bare_plat port_policy = .ok () ∧ dvm_program_validate (image_of [out8_insn]) = .ok () ∧
      ∃ res m', dvm_run_at bare_plat bare_bus (bare_call [out8_insn] port_policy) 1 bare_machine =
        .returned .DVM_TRAP_NO_BACKEND res m' [] ∧ res.io_ops = 1 :=
  ⟨rfl, rfl, _, _, rfl, rfl⟩

end fable.dvm
