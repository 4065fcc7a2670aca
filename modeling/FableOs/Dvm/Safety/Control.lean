import FableOs.Dvm.Safety.Gates

namespace fable.dvm

open fable.exec Yields

theorem takeWhile_length_le_pool (p : dvm_program_t) (off : Nat) (f : UInt8 → Bool) :
    ((pool_from p off).takeWhile f).length ≤ DVM_STRPOOL := by
  have htake := (List.takeWhile_sublist f (l := pool_from p off)).length_le
  have hdrop : (pool_from p off).length ≤ (p.strpool.front DVM_STRPOOL).length := by
    simp only [pool_from, List.length_drop]
    omega
  have hpool := p.strpool.length_front_le DVM_STRPOOL
  omega

/-- Every string operand of an accepted image can be read: its index is either
    refused by `str_at` itself or leads to a terminated string of the pool. -/
theorem str_at_some {p} (hp : ProgramOk p) (idx : UInt64) :
    ∃ text, str_at p idx = some text ∧ text.length ≤ DVM_STRPOOL := by
  unfold str_at
  by_cases hidx : p.nstr.toNat ≤ idx.toNat
  · exact ⟨[], if_pos hidx, by simp⟩
  rw [if_neg hidx]
  have hnstr := hp.nstr_le
  obtain ⟨off, hoff⟩ := p.stroff.get?_isSome_of_lt (i := idx.toNat) (by omega)
  rw [hoff]
  by_cases hpool : DVM_STRPOOL ≤ off.toNat
  · exact ⟨[], if_pos hpool, by simp⟩
  have hmem : off ∈ p.stroff.front p.nstr.toNat := by
    rw [CArray.mem_front_iff]
    exact ⟨idx.toNat, by omega, hoff⟩
  have hnul := hp.strings off hmem
  refine ⟨(pool_from p off.toNat).takeWhile (· != 0), ?_, takeWhile_length_le_pool p _ _⟩
  simp [hpool, c_string, hnul]

variable {σ A : Type} {env : env_t σ} {steps : Nat} {Q : flow_t → Prop} {next : Nat}

theorem Yields.of_str_at (hp : ProgramOk env.p) (idx : UInt64) :
    Yields env steps (Exec.ofOption (str_at env.p idx) : M σ (List UInt8))
      fun text => text.length ≤ DVM_STRPOOL := by
  obtain ⟨text, htext, hlen⟩ := str_at_some hp idx
  rw [htext]
  exact pure hlen

theorem require_ok_bind {verdict} (hok : verdict = .ok ()) {f} {st : run_t σ} {P : A → run_t σ → Prop}
    {R : dvm_status_t → run_t σ → Prop} (h : (f () st).Meets P R) : ((require env verdict >>= f) st).Meets P R := by
  rw [require_of_ok hok]
  exact h

theorem traced_yields (level : Int) {flow} (hflow : Q flow) : Yields env steps (do tline env level; pure flow) Q :=
  Yields.then (tline_quiet env level) fun _ => Yields.pure hflow

theorem exec_halt_yields : Yields env steps (exec_halt : M σ flow_t) Q :=
  fun _ hst => ⟨by decide, 0, hst, Or.inl rfl⟩

theorem exec_abort_yields (hp : ProgramOk env.p) (insn : dvm_insn_t) :
    Yields env steps (exec_abort env insn) Q :=
  bind (of_str_at hp _) fun _ _ => of_trap (by decide)

theorem exec_nop_yields (hnone : Q ⟨next, none⟩) : Yields env steps (exec_nop env next) Q :=
  traced_yields _ hnone

theorem exec_alu_yields (op : dvm_op_t) (a b : UInt64) (hsome : ∀ v, Q ⟨next, some v⟩) :
    Yields env steps (exec_alu env op a b next) Q := by
  unfold exec_alu
  cases alu op a b with
  | none => exact of_trap (by decide)
  | some v => exact pure (hsome v)

theorem exec_cmp_yields (a b : UInt64) (hnone : Q ⟨next, none⟩) :
    Yields env steps (exec_cmp env a b next) Q :=
  Yields.then (set_flags_quiet _ _) fun _ => traced_yields _ hnone

theorem exec_test_yields (a b : UInt64) (hnone : Q ⟨next, none⟩) :
    Yields env steps (exec_test env a b next) Q :=
  Yields.then (set_flags_quiet _ _) fun _ => traced_yields _ hnone

/-- A branch of an accepted image goes to an instruction. -/
theorem exec_branch_yields {insn : dvm_insn_t} (op : dvm_op_t) (hkind : insn.kind 0 = DVM_O_PC)
    (htarget : (insn.val 0).toNat < env.p.ninsn.toNat) (hnone : Q ⟨next, none⟩)
    (htaken : Q ⟨(insn.val 0).toNat, none⟩) : Yields env steps (exec_branch env op insn next) Q := by
  intro st hst
  apply Outcome.Meets.read_bind
  refine require_ok_bind (refuse_eq_ok_iff.mpr ?_) ?_
  · rintro ⟨-, hbad⟩
    rcases hbad with hne | hge
    · exact hne hkind
    · omega
  · refine traced_yields _ ?_ _ hst
    split
    · exact htaken
    · exact hnone

theorem exec_call_yields {insn : dvm_insn_t} (hkind : insn.kind 0 = DVM_O_PC)
    (htarget : (insn.val 0).toNat < env.p.ninsn.toNat) (hnext : next ≤ env.p.ninsn.toNat)
    (htaken : Q ⟨(insn.val 0).toNat, none⟩) : Yields env steps (exec_call env insn next) Q := by
  apply gate
  · exact fun st => Mild.refuse (by decide)
  intro st hst hdepth
  rw [refuse_eq_ok_iff] at hdepth
  have hlt : st.csp < DVM_CSTACK := by omega
  refine require_ok_bind (refuse_eq_ok_iff.mpr ?_) ?_
  · rintro (hne | hge)
    · exact hne hkind
    · omega
  · apply Outcome.Meets.inBounds_bind hlt
    exact traced_yields _ htaken _ (Inv.push_return hst hlt hnext)

theorem exec_ret_yields (hreturn : ∀ r, r ≤ env.p.ninsn.toNat → Q ⟨r, none⟩) :
    Yields env steps (exec_ret env) Q := by
  apply gate
  · exact fun st => Mild.refuse (by decide)
  intro st hst hdepth
  rw [refuse_eq_ok_iff] at hdepth
  have hle : st.csp ≤ DVM_CSTACK := hst.csp_le
  obtain ⟨r, hr⟩ := st.cstack.get?_isSome_of_lt (i := st.csp - 1) (by omega)
  have hrle : r ≤ env.p.ninsn.toNat := hst.returns_le (st.csp - 1) r (by show _ < st.csp; omega) hr
  apply Outcome.Meets.ofOption_bind hr
  apply Outcome.Meets.modify_bind
  apply require_ok_bind (refuse_eq_ok_iff.mpr (by omega))
  exact traced_yields _ (hreturn _ hrle) _ (Inv.pop_return hst)

theorem exec_push_yields (a : UInt64) (hnone : Q ⟨next, none⟩) :
    Yields env steps (exec_push env a next) Q := by
  apply gate
  · exact fun st => Mild.refuse (by decide)
  intro st hst hdepth
  rw [refuse_eq_ok_iff] at hdepth
  have hlt : st.dsp < DVM_DSTACK := by omega
  apply Outcome.Meets.inBounds_bind hlt
  exact traced_yields _ hnone _ { hst with dsp_le := hlt }

theorem pop_eq {st : run_t σ} (hpos : 0 < st.dsp) (hle : st.dsp ≤ DVM_DSTACK) :
    ∃ v, pop st = .ok v { st with dsp := st.dsp - 1 } := by
  obtain ⟨v, hv⟩ := st.dstack.get?_isSome_of_lt (i := st.dsp - 1) (by omega)
  refine ⟨v, ?_⟩
  simp [pop, Exec.bind_apply, Exec.inBounds_pos hpos, hv]

theorem exec_pop_yields (hsome : ∀ v, Q ⟨next, some v⟩) : Yields env steps (exec_pop env next) Q := by
  apply gate
  · exact fun st => Mild.refuse (by decide)
  intro st hst hdepth
  rw [refuse_eq_ok_iff] at hdepth
  have hle : st.dsp ≤ DVM_DSTACK := hst.dsp_le
  obtain ⟨v, hv⟩ := pop_eq (by omega) hle
  rw [Exec.bind_apply, hv]
  exact ⟨{ hst with dsp_le := by simp only [run_t.core]; omega }, hsome v⟩

end fable.dvm
