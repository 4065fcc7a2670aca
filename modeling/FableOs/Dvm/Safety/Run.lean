import FableOs.Dvm.Safety.Loop

namespace fable.dvm

open fable.exec

variable {σ : Type}

/-- The counters of a result against the budgets of a policy. -/
structure WithinBudgets (pol : dvm_policy_t) (res : dvm_result_t) : Prop where
  steps : res.steps ≤ pol.max_steps.toNat
  io_ops : res.io_ops ≤ pol.max_io.toNat
  dma_ops : res.n_dma_rd + res.n_dma_wr ≤ pol.max_dma_ops.toNat
  mem_bytes : res.mem_bytes ≤ pol.max_mem_bytes.toNat
  n_sys : res.n_sys ≤ pol.max_sys.toNat
  delay_us : res.delay_us ≤ pol.max_delay_us.toNat
  prints : res.prints ≤ pol.max_prints.toNat

/-- The call is refused before its program executes an instruction. Only the
    image or the entry point can be refused as malformed. -/
structure RefusedCall (call : run_call_t σ) (status : dvm_status_t) (res : dvm_result_t) : Prop where
  budgets : ∀ pol, WithinBudgets pol res
  io_ops_eq : res.io_ops = 0
  status_why : mild status ∨ (∃ p, call.p = some p ∧ dvm_program_validate p ≠ .ok ()) ∨
    (status = .DVM_TRAP_BADOP ∧ ∃ p, call.p = some p ∧ p.ninsn ≤ call.start_pc)

/-- The call executes its program. -/
structure StartedCall (plat : platform_t) (bus : dma_bus_t σ) (call : run_call_t σ) (env : env_t σ) : Prop where
  plat_eq : env.plat = plat
  bus_eq : env.bus = bus
  p_eq : call.p = some env.p
  pol_eq : call.pol = some env.pol
  io_eq : call.io = some env.io
  policy : dvm_policy_check env.plat env.pol = .ok ()
  program : dvm_program_validate env.p = .ok ()
  entry : call.start_pc.toNat < env.p.ninsn.toNat

theorem refused_budgets (status : dvm_status_t) (line : UInt32) (msg : String) (pol : dvm_policy_t) :
    WithinBudgets pol { dvm_result_t.zero with status, line, msg } := by
  constructor <;> exact Nat.zero_le _

/-- A call is either refused at once or runs its program, whatever the fuel. -/
theorem dvm_run_at_cases (plat : platform_t) (bus : dma_bus_t σ) (call : run_call_t σ) (m : machine_t σ) :
    (∃ status res, (∀ fuel, dvm_run_at plat bus call fuel m = .returned status res m []) ∧
      RefusedCall call status res) ∨
    ∃ env, StartedCall plat bus call env ∧ ∀ fuel, dvm_run_at plat bus call fuel m = run_program env call fuel m := by
  unfold dvm_run_at
  by_cases hres : call.res = true
  swap
  · refine Or.inl ⟨.DVM_TRAP_POLICY, dvm_result_t.zero, fun _ => if_pos hres, ?_, rfl, Or.inl (by decide)⟩
    intro pol
    constructor <;> exact Nat.zero_le _
  simp only [hres, not_true, if_false]
  by_cases hbusy : m.in_run = true
  · simp only [hbusy, if_true]
    exact Or.inl ⟨_, _, fun _ => rfl, refused_budgets _ _ _, rfl, Or.inl (by decide)⟩
  simp only [hbusy]
  cases hp : call.p with
  | none => exact Or.inl ⟨_, _, fun _ => rfl, refused_budgets _ _ _, rfl, Or.inl (by decide)⟩
  | some p =>
    cases hpol : call.pol with
    | none => exact Or.inl ⟨_, _, fun _ => rfl, refused_budgets _ _ _, rfl, Or.inl (by decide)⟩
    | some pol =>
      cases hio : call.io with
      | none => exact Or.inl ⟨_, _, fun _ => rfl, refused_budgets _ _ _, rfl, Or.inl (by decide)⟩
      | some io =>
        unfold run_checked
        simp only
        cases hpolicy : dvm_policy_check plat pol with
        | error why => exact Or.inl ⟨_, _, fun _ => rfl, refused_budgets _ _ _, rfl, Or.inl (by decide)⟩
        | ok u =>
          cases hvalid : dvm_program_validate p with
          | error why =>
            refine Or.inl ⟨_, _, fun _ => rfl, refused_budgets _ _ _, rfl, Or.inr (Or.inl ⟨p, hp, ?_⟩)⟩
            rw [hvalid]
            exact fun h => by cases h
          | ok u' =>
            by_cases hstart : 0 < call.start_pc ∧ p.ninsn ≤ call.start_pc
            · simp only [hstart, and_self, if_true]
              exact Or.inl ⟨_, _, fun _ => rfl, refused_budgets _ _ _, rfl,
                Or.inr (Or.inr ⟨rfl, p, hp, hstart.2⟩)⟩
            · simp only [hstart, if_false]
              have hninsn := ((dvm_program_validate_eq_ok_iff p u').mp hvalid).ninsn_pos
              refine Or.inr ⟨⟨p, pol, io, plat, bus⟩, ⟨rfl, rfl, hp, hpol, hio, hpolicy, hvalid, ?_⟩, fun _ => rfl⟩
              rw [UInt32.lt_iff_toNat_lt, UInt32.le_iff_toNat_le] at hstart
              show call.start_pc.toNat < p.ninsn.toNat
              have hzero : (0 : UInt32).toNat = 0 := rfl
              omega

section Started

variable {plat : platform_t} {bus : dma_bus_t σ} {call : run_call_t σ} {env : env_t σ}

variable (h : StartedCall plat bus call env)
include h

theorem StartedCall.policy_ok : PolicyOk env.plat env.pol :=
  dvm_policy_check_ok h.policy

theorem StartedCall.program_ok : ProgramOk env.p :=
  (dvm_program_validate_eq_ok_iff env.p ()).mp h.program

theorem StartedCall.initial_sound (m : machine_t σ) :
    Sound env (initial_state env call m).res.steps 0 (initial_state env call m) := by
  have hentry := h.entry
  refine ⟨?_, ?_, ?_, ?_, rfl, ?_, ?_, ?_, ?_, ?_, ?_, ?_, ?_, ?_, rfl⟩
  · exact Nat.zero_le _
  · exact Nat.zero_le _
  · intro i next hi
    exact (Nat.not_lt_zero i hi).elim
  · show call.start_pc.toNat ≤ env.p.ninsn.toNat
    omega
  · exact Nat.zero_le _
  · exact Nat.zero_le _
  · exact Nat.zero_le _
  · exact Nat.zero_le _
  · exact Nat.zero_le _
  · exact Nat.zero_le _
  · exact Nat.zero_le _
  · intro e he
    cases he
  · intro e he
    cases he

theorem StartedCall.execute_meets (m : machine_t σ) (fuel : Nat) :
    (execute env fuel (initial_state env call m)).Meets
      (fun _ => AtHead env (initial_state env call m))
      (LoopStopped env (Strays env (initial_state env call m))) :=
  fable.dvm.execute_meets h.policy_ok h.program_ok (h.initial_sound m) fuel

/-- No number of iterations takes a run outside the invariant's log. -/
theorem StartedCall.log_inv (m : machine_t σ) (fuel : Nat) :
    run_program env call fuel m ≠ .fault ∧
      ∃ steps debt c, Inv env steps debt c ∧ (run_program env call fuel m).accesses = c.log := by
  have hrun := h.execute_meets m fuel
  unfold run_program
  cases hout : execute env fuel (initial_state env call m) with
  | ok u st =>
    rw [hout] at hrun
    exact ⟨by simp, _, _, st.core, hrun.sound, rfl⟩
  | stop e st =>
    rw [hout] at hrun
    obtain ⟨steps, debt, hinv, -⟩ := hrun.sound
    exact ⟨by simp, steps, debt, st.core, hinv, rfl⟩
  | fault => rw [hout] at hrun; exact hrun.elim

end Started

/-- Whatever the image, the policy, the arguments, the entry point and the
    answers of the backend: no prefix of a run leaves the language, every
    access it has handed out so far is one its policy permits, and a policy
    that fails its check leads to no access at all. -/
theorem dvm_run_at_accesses_permitted (plat : platform_t) (bus : dma_bus_t σ) (call : run_call_t σ) (fuel : Nat)
    (m : machine_t σ) :
    dvm_run_at plat bus call fuel m ≠ .fault ∧
      (∀ e ∈ (dvm_run_at plat bus call fuel m).accesses, ∃ pol, call.pol = some pol ∧ Permitted plat pol e) ∧
      ∀ pol, call.pol = some pol → dvm_policy_check plat pol ≠ .ok () →
        (dvm_run_at plat bus call fuel m).accesses = [] := by
  rcases dvm_run_at_cases plat bus call m with ⟨status, res, heq, -⟩ | ⟨env, hstart, heq⟩
  · rw [heq fuel]
    refine ⟨by simp, ?_, fun _ _ _ => rfl⟩
    intro e he
    cases he
  · rw [heq fuel]
    obtain ⟨hfault, steps, debt, c, hinv, hlog⟩ := hstart.log_inv m fuel
    refine ⟨hfault, ?_, ?_⟩
    · intro e he
      rw [hlog] at he
      refine ⟨env.pol, hstart.pol_eq, ?_⟩
      rw [← hstart.plat_eq]
      exact hinv.permitted e he
    · intro pol hpol hcheck
      have hsame : pol = env.pol := by
        rw [hstart.pol_eq] at hpol
        exact (Option.some.inj hpol).symm
      rw [hsame, ← hstart.plat_eq] at hcheck
      exact (hcheck hstart.policy).elim

end fable.dvm
