import FableOs.Dvm.Safety.Memory

namespace fable.dvm

open fable.exec Yields

theorem path_verdict_mild (pol : dvm_policy_t) (out : List UInt8) (what : String) :
    Mild (path_verdict pol out what) := by
  unfold path_verdict
  cases path_ok out with
  | error why => exact Mild.error (by decide)
  | ok u => exact Mild.bind (Mild.refuse (by decide)) (Mild.refuse (by decide))

theorem path_verdict_ok {pol out} {what : String} (h : path_verdict pol out what = .ok ()) : PathChecked pol out := by
  unfold path_verdict at h
  cases hpath : path_ok out with
  | error why => rw [hpath] at h; cases h
  | ok u =>
    rw [hpath] at h
    simp only [except_bind_eq_ok_iff, refuse_eq_ok_iff, exists_const, not_not] at h
    exact ⟨hpath, h.1, h.2⟩

variable {σ : Type} {env : env_t σ} {steps : Nat} {Q : flow_t → Prop} {next : Nat}

/-- A path that `sys_path` builds has passed every check on paths. -/
theorem sys_path_yields (off len : UInt64) (what : String) :
    Yields env steps (sys_path env off len what) (PathChecked env.pol) := by
  refine bind (mem_span_yields _ _ _) fun _ hspan => ?_
  refine bind (mem_charge_yields _ _) fun _ _ => ?_
  refine bind (of_require (Mild.refuse (by decide))) fun _ _ => ?_
  refine Yields.then (mem_read_quiet hspan) fun out => ?_
  refine bind (of_require (path_verdict_mild _ _ _)) fun _ hok => ?_
  exact pure (path_verdict_ok hok)

theorem sys_con_write_yields (sys : dvm_sys_t σ) (off len : UInt64) :
    Yields env steps (sys_con_write env sys off len) fun _ => True := by
  refine bind (mem_span_yields _ _ _) fun _ hspan => ?_
  refine bind (of_require (Mild.refuse (by decide))) fun _ _ => ?_
  refine bind (mem_charge_yields _ _) fun _ _ => ?_
  apply gate
  · exact fun st => Mild.refuse (by decide)
  intro st hst hbudget
  rw [refuse_eq_ok_iff] at hbudget
  -- from the budget test to the call nothing but the arena is read
  cases hhook : sys.con_write with
  | none => exact trap_meets hst (by decide)
  | some con_write =>
    have hread : Quiet (mem_read off.toNat len.toNat : M σ (List UInt8)) := mem_read_quiet hspan
    obtain ⟨bytes, mid, hmid, hcore⟩ := hread st
    refine Outcome.Meets.bind (Q := fun _ st' => st' = st) rfl ?_
    rintro _ _ rfl
    refine Outcome.Meets.bind (Q := fun _ st' => st'.core = mid.core) ?_ ?_
    · rw [hmid]
      exact rfl
    intro bytes' st' hst'
    have hsound : Sound env steps 0 { st' with res := { st'.res with prints := st'.res.prints + 1 } } := by
      have hinv : Inv env steps 0 st'.core := by
        rw [hst', hcore]
        exact hst
      have hprints : st'.core.prints < env.pol.max_prints.toNat := by
        rw [hst', hcore]
        exact Nat.lt_of_not_le hbudget
      exact { hinv with prints_le := hprints }
    refine Outcome.Meets.bind (Q := fun _ st'' => Sound env steps 0 st'') hsound ?_
    intro _ st'' hst''
    exact of_perform (e := .con_write _) rfl trivial (fun path hpath => by cases hpath) st'' hst''

theorem fs_perform_yields {A : Type} {e} {act : σ → A × σ} {path} (hpath : PathChecked env.pol path)
    (he : e.path? = some path) : Yields env steps (perform e act) fun _ => True := by
  refine of_perform ?_ ?_ ?_
  · cases e with
    | fs_read | fs_write | fs_size => rfl
    | _ => cases he
  · cases e with
    | fs_read | fs_write | fs_size => trivial
    | _ => cases he
  · intro path' hpath'
    cases he.symm.trans hpath'
    exact hpath

theorem sys_fs_read_yields (sys : dvm_sys_t σ) (poff plen dst cap : UInt64) :
    Yields env steps (sys_fs_read env sys poff plen dst cap) fun _ => True := by
  refine bind (sys_path_yields _ _ _) fun path hpath => ?_
  refine bind (mem_span_yields _ _ _) fun _ hspan => ?_
  refine bind (mem_charge_yields _ _) fun _ _ => ?_
  refine bind hook fun fs_read _ => ?_
  refine Yields.then (mem_read_quiet hspan) fun old => ?_
  refine bind (fs_perform_yields hpath rfl) fun reply _ => ?_
  refine Yields.then (mem_write_quiet ?_) fun _ => ?_
  · have htake := List.length_take_le cap.toNat reply.bytes
    omega
  refine bind (of_require (Mild.refuse (by decide))) fun _ _ => ?_
  exact Yields.then (raise_hwm_quiet _) fun _ => pure trivial

theorem sys_fs_write_yields (sys : dvm_sys_t σ) (poff plen src len : UInt64) :
    Yields env steps (sys_fs_write env sys poff plen src len) fun _ => True := by
  refine bind (sys_path_yields _ _ _) fun path hpath => ?_
  refine bind (mem_span_yields _ _ _) fun _ hspan => ?_
  refine bind (mem_charge_yields _ _) fun _ _ => ?_
  refine bind hook fun fs_write _ => ?_
  refine Yields.then (mem_read_quiet hspan) fun bytes => ?_
  exact fs_perform_yields hpath rfl

theorem sys_fs_size_yields (sys : dvm_sys_t σ) (poff plen : UInt64) :
    Yields env steps (sys_fs_size env sys poff plen) fun _ => True := by
  refine bind (sys_path_yields _ _ _) fun path hpath => ?_
  refine bind hook fun fs_size _ => ?_
  exact fs_perform_yields hpath rfl

theorem sys_audio_tone_yields (sys : dvm_sys_t σ) (hz ms : UInt64) :
    Yields env steps (sys_audio_tone env sys hz ms) fun _ => True := by
  refine bind (of_require (Mild.refuse (by decide))) fun _ _ => ?_
  refine bind (of_require (Mild.refuse (by decide))) fun _ _ => ?_
  refine bind hook fun audio_tone _ => ?_
  exact of_perform rfl trivial fun path hpath => by cases hpath

theorem sys_time_ms_yields (sys : dvm_sys_t σ) : Yields env steps (sys_time_ms env sys) fun _ => True := by
  refine bind hook fun time_ms _ => ?_
  exact of_perform rfl trivial fun path hpath => by cases hpath

theorem fetch_terminate_quiet {dst cap : Nat} (h : dst + cap ≤ DVM_MEM_SIZE) (rc : Int64) :
    Quiet (fetch_terminate dst cap rc : M σ Unit) := by
  unfold fetch_terminate
  split
  · next hend => exact mem_set_quiet (by omega) 0
  · exact Quiet.pure ()

theorem sys_net_fetch_yields (sys : dvm_sys_t σ) (url_off url_len dst_off dst_cap : UInt64) :
    Yields env steps (sys_net_fetch env sys url_off url_len dst_off dst_cap) fun _ => True := by
  refine bind (mem_span_yields _ _ _) fun _ hurl => ?_
  refine bind (of_require (Mild.refuse (by decide))) fun _ _ => ?_
  refine bind (mem_span_yields _ _ _) fun _ hdst => ?_
  refine bind (mem_charge_yields _ _) fun _ _ => ?_
  refine Yields.then (mem_read_quiet hurl) fun url_buf => ?_
  refine bind hook fun net_fetch _ => ?_
  refine Yields.then (mem_read_quiet hdst) fun old => ?_
  refine bind (of_perform (e := .net_fetch _ _) rfl trivial fun path hpath => by cases hpath)
    fun reply _ => ?_
  refine Yields.then (mem_write_quiet ?_) fun _ => ?_
  · have htake := List.length_take_le dst_cap.toNat reply.bytes
    omega
  exact Yields.then (fetch_terminate_quiet hdst _) fun _ => pure trivial

theorem sys_dispatch_yields (sys : dvm_sys_t σ) (nr : dvm_sys_nr_t) (args : Nat → UInt64) :
    Yields env steps (sys_dispatch env sys nr args) fun _ => True := by
  cases nr with
  | CON_WRITE => exact sys_con_write_yields _ _ _
  | FS_READ => exact sys_fs_read_yields _ _ _ _ _
  | FS_WRITE => exact sys_fs_write_yields _ _ _ _ _
  | FS_SIZE => exact sys_fs_size_yields _ _ _
  | AUDIO_TONE => exact sys_audio_tone_yields _ _ _
  | TIME_MS => exact sys_time_ms_yields _
  | NET_FETCH => exact sys_net_fetch_yields _ _ _ _ _

theorem sys_call_yields (sys : dvm_sys_t σ) (nr : dvm_sys_nr_t) (args : Nat → UInt64) :
    Yields env steps (sys_call env sys nr args) fun _ => True := by
  refine Yields.bind (sys_dispatch_yields _ _ _) fun answer _ => ?_
  by_cases hneg : answer.rc < 0
  · rw [if_pos hneg]
    exact Yields.then (sys_fail_quiet env _ _) fun _ => Yields.pure trivial
  · rw [if_neg hneg]
    exact Yields.pure trivial

theorem sys_verdict_mild (st : run_t σ) (nr : dvm_sys_nr_t) : Mild (sys_verdict env st nr) := by
  exact Mild.bind (Mild.refuse (by decide)) (Mild.refuse (by decide))

/-- No syscall takes more arguments than the VM passes, so of the two tests of
    the argument stack only the first can refuse. -/
theorem sys_stack_verdict_mild (st : run_t σ) (nr : dvm_sys_nr_t) : Mild (sys_stack_verdict st nr) := by
  have harity := dvm_sys_arity_le nr
  refine Mild.bind (Mild.refuse (by decide)) ?_
  rw [show refuse (DVM_SYS_MAXARGS < dvm_sys_arity nr) _ = Except.ok () from refuse_eq_ok_iff.mpr (by omega)]
  exact Mild.ok

theorem pop_args_eq {n : Nat} {st : run_t σ} (hn : n ≤ st.dsp) (hle : st.dsp ≤ DVM_DSTACK) :
    ∃ args, pop_args n st = .ok args { st with dsp := st.dsp - n } := by
  induction n generalizing st with
  | zero => exact ⟨[], rfl⟩
  | succ n ih =>
    obtain ⟨v, hv⟩ := @pop_eq σ st (by omega) hle
    obtain ⟨rest, hrest⟩ := @ih { st with dsp := st.dsp - 1 } (by simp only; omega) (by simp only; omega)
    refine ⟨rest ++ [v], ?_⟩
    have hsub : st.dsp - 1 - n = st.dsp - (n + 1) := by omega
    simp [pop_args, Exec.bind_apply, hv, hrest, hsub]

theorem exec_sys_nr_yields (nr : dvm_sys_nr_t) (hsome : ∀ v, Q ⟨next, some v⟩) :
    Yields env steps (exec_sys_nr env nr next) Q := by
  apply Yields.gate
  · exact fun st => sys_verdict_mild st nr
  intro st hst hok
  simp only [sys_verdict, except_bind_eq_ok_iff, refuse_eq_ok_iff, exists_const] at hok
  cases hhook : env.io.sys with
  | none => exact trap_meets hst (by decide)
  | some sys =>
    refine Outcome.Meets.bind (Q := fun _ st' => st' = st) rfl ?_
    rintro _ _ rfl
    refine Outcome.Meets.bind (require_meets (sys_stack_verdict_mild _ nr) hst) ?_
    rintro _ mid ⟨rfl, hstack⟩
    simp only [sys_stack_verdict, except_bind_eq_ok_iff, refuse_eq_ok_iff, exists_const] at hstack
    have hle : mid.dsp ≤ DVM_DSTACK := hst.dsp_le
    obtain ⟨args, hargs⟩ := pop_args_eq (n := dvm_sys_arity nr) (by omega) hle
    rw [Exec.bind_apply, hargs]
    refine Yields.bind (sys_call_yields _ _ _) (fun out _ => ?_)
      { mid with dsp := mid.dsp - dvm_sys_arity nr, res := { mid.res with n_sys := mid.res.n_sys + 1 } } ?_
    · exact Yields.then (set_flags_quiet _ _) fun _ => traced_yields _ (hsome _)
    · exact { hst with
        dsp_le := by simp only [run_t.core]; omega
        sys_le := by simp only [run_t.core]; omega }

/-- The number of an accepted `sys` instruction is one of the syscalls. -/
theorem exec_sys_yields {insn} (hnr : (insn.val 0).toNat < DVM_SYS__COUNT) (hsome : ∀ v, Q ⟨next, some v⟩) :
    Yields env steps (exec_sys env insn next) Q := by
  have hmod : (insn.val 0).toNat % 2 ^ 32 = (insn.val 0).toNat := by
    have hcount : DVM_SYS__COUNT = 7 := rfl
    omega
  obtain ⟨nr, hsys⟩ := (dvm_sys_nr_t.ofNat?_isSome_iff _).mpr hnr
  unfold exec_sys
  rw [hmod, hsys]
  exact exec_sys_nr_yields nr hsome

theorem exec_print_yields (hp : ProgramOk env.p) (insn : dvm_insn_t) (hnone : Q ⟨next, none⟩) :
    Yields env steps (exec_print env insn next) Q := by
  apply gate
  · exact fun st => Mild.refuse (by decide)
  intro st hst hbudget
  rw [refuse_eq_ok_iff] at hbudget
  refine bind (of_str_at hp _) (fun _ _ => traced_yields _ hnone)
    { st with res := { st.res with prints := st.res.prints + 1 } } ?_
  exact { hst with prints_le := by simp only [run_t.core]; omega }

end fable.dvm
