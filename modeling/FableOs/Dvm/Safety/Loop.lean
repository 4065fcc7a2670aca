import FableOs.Dvm.Safety.Step

namespace fable.dvm

open fable.exec Exec

variable {σ : Type} {env : env_t σ} {steps : Nat}

theorem port_gate_eq {a : UInt64} {w : Nat} {what : String} {st}
    (h : port_verdict env.pol st.res.io_ops a w what = .ok ()) :
    port_gate env a w what st = .ok () { st with res := { st.res with io_ops := st.res.io_ops + 1 } } := by
  simp [port_gate, bind_apply, h, require, charge_io]

theorem mmio_gate_eq {addr : UInt64} {w : Nat} {write : Bool} {what : String} {st}
    (h : mmio_verdict env.plat env.pol st.res.io_ops addr w write what = .ok ()) :
    mmio_gate env addr w write what st =
      .ok () { st with res := { st.res with io_ops := st.res.io_ops + 1 } } := by
  simp [mmio_gate, bind_apply, h, require, charge_io]

/-- The run has stopped for want of a hook, and owes one access. -/
def StoppedOwing (st : run_t σ) {A : Type} (out : Outcome dvm_status_t (run_t σ) A) : Prop :=
  ∃ st', out = .stop .DVM_TRAP_NO_BACKEND st' ∧ st'.res.io_ops = st.res.io_ops + 1 ∧ st'.log = st.log

/-- An access that passes its gate and has no hook leaves the charge behind. -/
theorem exec_op_unhooked {op} (insn : dvm_insn_t) (next : Nat) {a b : UInt64} (c : UInt64) {st}
    (h : unhooked env op st.res.io_ops a b) : StoppedOwing st (exec_op env op insn next a b c st) := by
  cases op with
  | OUT8 | OUT16 | OUT32 | IN8 | IN16 | IN32 =>
    obtain ⟨hhook, hok⟩ := h
    simp only [exec_op, exec_out, exec_in, bind_apply, port_gate_eq hok, hhook, sys_hook]
    exact ⟨_, rfl, rfl, rfl⟩
  | LD8 | LD16 | LD32 | ST8 | ST16 | ST32 =>
    obtain ⟨hhook, htouch, hok⟩ := h
    simp only [exec_op, exec_ld, exec_st, htouch, Bool.false_eq_true, if_false, exec_ld_mmio, exec_st_mmio,
      bind_apply, mmio_gate_eq hok, hhook, sys_hook]
    exact ⟨_, rfl, rfl, rfl⟩
  | _ => exact h.elim

theorem execute_body_stray {st} (h : stray env st) : StoppedOwing st (execute_body env st) := by
  obtain ⟨hsteps, hpc, insn, op, hget, hop, hunhooked⟩ := h
  have hstop : StoppedOwing st (exec_op env op insn (st.pc + 1) (rd st insn 0) (rd st insn 1) (rd st insn 2)
      { st with line := insn.line, res := { st.res with steps := st.res.steps + 1 } }) :=
    exec_op_unhooked insn (st.pc + 1) (rd st insn 2) hunhooked
  obtain ⟨st', hout, hio, hlog⟩ := hstop
  refine ⟨st', ?_, hio, hlog⟩
  simp [execute_body, bind_apply, Nat.not_le.mpr hsteps, Nat.not_le.mpr hpc, execute_insn, hget, exec_insn, hop,
    hout]

/-- A state at the head of the loop of a run that began in `st₀`. -/
def Reached (env : env_t σ) (st₀ st : run_t σ) : Prop := ∃ k, execute env k st₀ = .ok () st

/-- Some iteration charges an access that the backend cannot make. -/
def Strays (env : env_t σ) (st₀ : run_t σ) : Prop := ∃ st, Reached env st₀ st ∧ stray env st

/-- What holds at the head of every iteration. -/
structure AtHead (env : env_t σ) (st₀ st : run_t σ) : Prop where
  reached : Reached env st₀ st
  sound : Sound env st.res.steps 0 st

theorem execute_body_keeps (hpol : PolicyOk env.plat env.pol) (hp : ProgramOk env.p) {st₀ st}
    (h : AtHead env st₀ st) :
    (execute_body env st).Meets
      (fun _ st' => AtHead env st₀ st' ∧
        env.pol.max_steps.toNat - st'.res.steps < env.pol.max_steps.toNat - st.res.steps)
      (LoopStopped env (Strays env st₀)) := by
  obtain ⟨k, hk⟩ := h.reached
  have hbody := execute_body_meets hpol hp h.sound
  cases hout : execute_body env st with
  | ok u st' =>
    rw [hout] at hbody
    obtain ⟨hlt, hsound⟩ := hbody
    have hsteps : st'.res.steps = st.res.steps + 1 := hsound.steps_eq
    refine ⟨⟨⟨k + 1, ?_⟩, ?_⟩, by omega⟩
    · exact (loop_succ_of_ok hk).trans hout
    · rw [hsteps]
      exact hsound
  | stop e st' =>
    rw [hout] at hbody
    obtain ⟨steps', debt, hinv, hdebt⟩ := hbody.sound
    refine ⟨hbody.not_badop, hbody.ran_past, steps', debt, hinv, hdebt.imp_right ?_⟩
    exact fun hstray => ⟨hstray.1, st, h.reached, hstray.2⟩
  | fault => rw [hout] at hbody; exact hbody

section Run

variable {st₀ : run_t σ}

theorem AtHead.start (hst : Sound env st₀.res.steps 0 st₀) : AtHead env st₀ st₀ := ⟨⟨0, rfl⟩, hst⟩

variable (hpol : PolicyOk env.plat env.pol) (hp : ProgramOk env.p) (hst : Sound env st₀.res.steps 0 st₀)
include hpol hp hst

/-- Every number of iterations leads to a state of the invariant or to a stop
    that the invariant explains. -/
theorem execute_meets (fuel : Nat) :
    (execute env fuel st₀).Meets (fun _ => AtHead env st₀) (LoopStopped env (Strays env st₀)) := by
  have hloop : Triple (AtHead env st₀) (execute_body env) (fun _ => AtHead env st₀)
      (LoopStopped env (Strays env st₀)) := by
    intro st hhead
    exact (execute_body_keeps hpol hp hhead).mono (fun _ _ h => h.1) fun _ _ h => h
  exact Triple.loop hloop fuel st₀ (AtHead.start hst)

/-- The loop stops, after at most one iteration more than `max_steps`. -/
theorem execute_stops : ∃ e st, LoopStopped env (Strays env st₀) e st ∧
      ∀ fuel, env.pol.max_steps.toNat < fuel → execute env fuel st₀ = .stop e st := by
  obtain ⟨e, st, hstop, hfuel⟩ := loop_stops (fun st : run_t σ => env.pol.max_steps.toNat - st.res.steps)
    (fun _ h => execute_body_keeps hpol hp h) (AtHead.start hst)
  exact ⟨e, st, hstop, fun fuel hlt => hfuel fuel (by omega)⟩

/-- The books balance at the end of a run exactly when it never strays. -/
theorem balanced_iff {fuel : Nat} {e st} (hstop : execute env fuel st₀ = .stop e st) :
    io_calls st.log = st.res.io_ops ↔ ¬ Strays env st₀ := by
  constructor
  · rintro hbalanced ⟨mid, ⟨k, hk⟩, hstray⟩
    have hmid := execute_meets hpol hp hst k
    rw [hk] at hmid
    obtain ⟨st', hout, hio, hlog⟩ := execute_body_stray hstray
    -- the stray iteration is the last one, and `st'` the state it leaves
    have hlast : execute env (k + 1) st₀ = .stop .DVM_TRAP_NO_BACKEND st' :=
      (loop_succ_of_ok hk).trans hout
    have hleft := loop_stop_mono hstop (max fuel (k + 1)) (by omega)
    have hright := loop_stop_mono hlast (max fuel (k + 1)) (by omega)
    cases hleft.symm.trans hright
    have hcharged : mid.res.io_ops = io_calls mid.log + 0 := hmid.sound.charged
    rw [hlog, hio] at hbalanced
    omega
  · intro hnever
    have hend := execute_meets hpol hp hst fuel
    rw [hstop] at hend
    obtain ⟨steps', debt, hinv, hdebt⟩ := hend.sound
    have hcharged : st.res.io_ops = io_calls st.log + debt := hinv.charged
    rcases hdebt with rfl | ⟨-, hstrays⟩
    · omega
    · exact (hnever hstrays).elim

end Run

end fable.dvm
