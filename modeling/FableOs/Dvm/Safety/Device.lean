import FableOs.Dvm.Safety.Control

namespace fable.dvm

open fable.exec Yields

/-- The next access passes its gate, and the backend has no hook for it. -/
def unhooked {σ : Type} (env : env_t σ) (op : dvm_op_t) (io_ops : Nat) (a b : UInt64) : Prop :=
  match op with
  | .OUT8 | .OUT16 | .OUT32 =>
    env.io.port_write = none ∧ port_verdict env.pol io_ops a (op_width op) (dvm_op_name op) = .ok ()
  | .IN8 | .IN16 | .IN32 =>
    env.io.port_read = none ∧ port_verdict env.pol io_ops a (op_width op) (dvm_op_name op) = .ok ()
  | .LD8 | .LD16 | .LD32 =>
    env.io.mmio_read = none ∧ dma_touches env.pol (a + b) (op_width op) = false ∧
      mmio_verdict env.plat env.pol io_ops (a + b) (op_width op) false (dvm_op_name op) = .ok ()
  | .ST8 | .ST16 | .ST32 =>
    env.io.mmio_write = none ∧ dma_touches env.pol (a + b) (op_width op) = false ∧
      mmio_verdict env.plat env.pol io_ops (a + b) (op_width op) true (dvm_op_name op) = .ok ()
  | _ => False

variable {σ A : Type} {env : env_t σ} {steps : Nat} {Q : flow_t → Prop} {next : Nat}
variable {st : run_t σ} {a b : UInt64} {op : dvm_op_t}

/-- An access that has been charged: with a hook it is made and the books
    balance, without one the run stops owing it. -/
theorem charged_access_meets {H : Type} {hook} {text : String} {e} {act : H → σ → A × σ} {rest : A → M σ flow_t}
    {excuse : Prop} (hst : Sound env steps 1 st) (hio : e.is_io = true) (hpermitted : Permitted env.plat env.pol e)
    (hexcuse : hook = none → excuse) (hrest : ∀ v, Yields env steps (rest v) Q) :
    ((do let h ← sys_hook env hook text; let v ← perform e (act h); rest v) st).Meets
      (fun flow st' => Sound env steps 0 st' ∧ Q flow) (Stopped env steps excuse) := by
  cases hook with
  | none => exact ⟨by decide, 1, hst, Or.inr ⟨rfl, hexcuse rfl⟩⟩
  | some h =>
    have hmade : Sound env steps 0
        { st with ctx := (act h st.ctx).2, log := e :: st.log } := Inv.make_io hst hio hpermitted
    refine (hrest (act h st.ctx).1 _ hmade).mono (fun _ _ hq => hq) ?_
    intro s st' hstop
    exact hstop.weaken False.elim

theorem port_toNat (h : a.toNat ≤ 0xFFFF) : a.toUInt16.toNat = a.toNat := by
  rw [UInt64.toNat_toUInt16]
  exact Nat.mod_eq_of_lt (by omega)

theorem exec_out_meets (hnone : Q ⟨next, none⟩) (hst : Sound env steps 0 st) :
    (exec_out env op a b next st).Meets (fun flow st' => Sound env steps 0 st' ∧ Q flow)
      (Stopped env steps (env.io.port_write = none ∧
        port_verdict env.pol st.res.io_ops a (op_width op) (dvm_op_name op) = .ok ())) := by
  refine Outcome.Meets.bind (port_gate_meets hst) ?_
  rintro _ mid ⟨hmid, hok⟩
  obtain ⟨hrange, hpermitted, -⟩ := port_verdict_ok hok
  refine charged_access_meets hmid rfl ?_ (fun hhook => ⟨hhook, hok⟩) fun v => ?_
  · show port_permitted env.pol a.toUInt16.toNat (op_width op)
    rw [port_toNat hrange]
    exact hpermitted
  · exact Yields.then (Quiet.modify fun _ => rfl) fun _ => traced_yields _ hnone

theorem exec_in_meets (hsome : ∀ v, Q ⟨next, some v⟩) (hst : Sound env steps 0 st) :
    (exec_in env op a next st).Meets (fun flow st' => Sound env steps 0 st' ∧ Q flow)
      (Stopped env steps (env.io.port_read = none ∧
        port_verdict env.pol st.res.io_ops a (op_width op) (dvm_op_name op) = .ok ())) := by
  refine Outcome.Meets.bind (port_gate_meets hst) ?_
  rintro _ mid ⟨hmid, hok⟩
  obtain ⟨hrange, hpermitted, -⟩ := port_verdict_ok hok
  refine charged_access_meets hmid rfl ?_ (fun hhook => ⟨hhook, hok⟩) fun v => ?_
  · show port_permitted env.pol a.toUInt16.toNat (op_width op)
    rw [port_toNat hrange]
    exact hpermitted
  · exact Yields.then (Quiet.modify fun _ => rfl) fun _ => traced_yields _ (hsome _)

/-- The part of a DMA access after its gate: the counter that grows is one of
    the two whose sum `max_dma_ops` bounds. -/
theorem dma_access_meets (hpol : PolicyOk env.plat env.pol) {addr : UInt64} {w : Nat} {what : String}
    (hw : DeviceWidth w) (htouch : dma_touches env.pol addr w = true) {e act}
    (he : Permitted env.plat env.pol e ↔ dma_permitted env.plat env.pol addr.toNat w) (hio : e.is_io = false)
    (hpath : e.path? = none) {f : dvm_result_t → dvm_result_t}
    (hf : ∀ st : run_t σ, ({ st with res := f st.res } : run_t σ).core = { st.core with dma_ops := st.core.dma_ops + 1 })
    {rest : A → M σ flow_t} (hrest : ∀ v, Yields env steps (rest v) Q) :
    Yields env steps (do
      dma_gate env addr w what
      let v ← perform e act
      count f
      rest v) Q := by
  intro st hst
  refine Outcome.Meets.bind (Q := fun _ st' => st' = st ∧
    dma_verdict env.pol (st.res.n_dma_rd + st.res.n_dma_wr) addr w what = .ok ()) ?_ ?_
  · exact require_meets (dma_verdict_mild _ _ _ _ _) hst
  rintro _ _ ⟨rfl, hok⟩
  obtain ⟨hpermitted, hbudget⟩ := dma_verdict_ok hpol hw htouch hok
  refine Outcome.Meets.bind (Q := fun _ st' => Sound env steps 0 st' ∧
    st'.core.dma_ops < env.pol.max_dma_ops.toNat) ?_ ?_
  · refine ⟨Inv.make_free hst hio (he.mpr hpermitted) ?_, hbudget⟩
    intro path hsome
    cases hpath.symm.trans hsome
  · rintro v mid ⟨hmid, hlt⟩
    refine hrest v { mid with res := f mid.res } ?_
    show Inv env steps 0 _
    rw [hf mid]
    exact { hmid with dma_le := hlt }

theorem exec_ld_meets (hpol : PolicyOk env.plat env.pol) (hw : DeviceWidth (op_width op))
    (hsome : ∀ v, Q ⟨next, some v⟩) (hst : Sound env steps 0 st) :
    (exec_ld env op a b next st).Meets (fun flow st' => Sound env steps 0 st' ∧ Q flow)
      (Stopped env steps (env.io.mmio_read = none ∧ dma_touches env.pol (a + b) (op_width op) = false ∧
        mmio_verdict env.plat env.pol st.res.io_ops (a + b) (op_width op) false (dvm_op_name op) = .ok ())) := by
  unfold exec_ld
  by_cases htouch : dma_touches env.pol (a + b) (op_width op) = true
  · rw [if_pos htouch]
    refine (dma_access_meets hpol hw htouch Iff.rfl rfl rfl (fun st => ?_) (fun v => ?_) st hst).mono
      (fun _ _ h => h) fun _ _ h => h.weaken False.elim
    · simp only [run_t.core, core_t.mk.injEq, true_and, and_true]
      omega
    · exact traced_yields _ (hsome _)
  · rw [if_neg htouch]
    refine Outcome.Meets.bind (mmio_gate_meets hpol hw hst) ?_
    rintro _ mid ⟨hmid, hok⟩
    have hpermitted := (mmio_verdict_ok hpol hw hok).1
    refine charged_access_meets hmid rfl hpermitted (fun hhook => ⟨hhook, by simpa using htouch, hok⟩) fun v => ?_
    exact Yields.then (Quiet.modify fun _ => rfl) fun _ => traced_yields _ (hsome _)

theorem exec_st_meets (hpol : PolicyOk env.plat env.pol) {c : UInt64} (hw : DeviceWidth (op_width op))
    (hnone : Q ⟨next, none⟩) (hst : Sound env steps 0 st) :
    (exec_st env op a b c next st).Meets (fun flow st' => Sound env steps 0 st' ∧ Q flow)
      (Stopped env steps (env.io.mmio_write = none ∧ dma_touches env.pol (a + b) (op_width op) = false ∧
        mmio_verdict env.plat env.pol st.res.io_ops (a + b) (op_width op) true (dvm_op_name op) = .ok ())) := by
  unfold exec_st
  by_cases htouch : dma_touches env.pol (a + b) (op_width op) = true
  · rw [if_pos htouch]
    refine (dma_access_meets hpol hw htouch Iff.rfl rfl rfl (fun st => ?_) (fun v => ?_) st hst).mono
      (fun _ _ h => h) fun _ _ h => h.weaken False.elim
    · simp only [run_t.core, core_t.mk.injEq, true_and, and_true]
      omega
    · exact traced_yields _ hnone
  · rw [if_neg htouch]
    refine Outcome.Meets.bind (mmio_gate_meets hpol hw hst) ?_
    rintro _ mid ⟨hmid, hok⟩
    have hpermitted := (mmio_verdict_ok hpol hw hok).1
    refine charged_access_meets hmid rfl hpermitted (fun hhook => ⟨hhook, by simpa using htouch, hok⟩) fun v => ?_
    exact Yields.then (Quiet.modify fun _ => rfl) fun _ => traced_yields _ hnone

theorem pci_verdict_mild (pol : dvm_policy_t) (io_ops : Nat) (a b : UInt64) (bus dev fn : UInt8) :
    Mild (pci_verdict pol io_ops a b bus dev fn) := by
  refine Mild.bind (Mild.refuse (by decide)) (Mild.bind (Mild.refuse (by decide)) ?_)
  refine Mild.bind (Mild.refuse (by decide)) (Mild.bind (Mild.refuse (by decide)) ?_)
  exact Mild.refuse (by decide)

theorem pci_verdict_ok {pol} {io_ops : Nat} {bus dev fn} (h : pci_verdict pol io_ops a b bus dev fn = .ok ()) :
    pci_permitted pol bus dev fn ∧ io_ops < pol.max_io.toNat := by
  unfold pci_verdict at h
  simp only [except_bind_eq_ok_iff, refuse_eq_ok_iff, exists_const] at h
  obtain ⟨-, -, hlisted, -, hbudget⟩ := h
  simp only [List.any_eq_true, Bool.and_eq_true, decide_eq_true_eq, not_not] at hlisted
  obtain ⟨f, hf, ⟨hbus, hdev⟩, hfn⟩ := hlisted
  exact ⟨⟨f, hf, hbus, hdev, hfn⟩, by omega⟩

/-- The PCI read looks for its hook before it charges, so it never owes. -/
theorem exec_pcicfg_yields (a b : UInt64) (hsome : ∀ v, Q ⟨next, some v⟩) :
    Yields env steps (exec_pcicfg env a b next) Q := by
  apply gate
  · exact fun st => pci_verdict_mild _ _ _ _ _ _ _
  intro st hst hok
  obtain ⟨hpermitted, hbudget⟩ := pci_verdict_ok hok
  cases hhook : env.io.pci_read32 with
  | none => exact trap_meets hst (by decide)
  | some h =>
    have hcharged := Inv.charge_io hst hbudget
    have hmade : Sound env steps 0 { st with
        res := { st.res with io_ops := st.res.io_ops + 1 }
        ctx := (h st.ctx ((a >>> 8) &&& 0xFF).toUInt8 ((a >>> 3) &&& 0x1F).toUInt8 (a &&& 7).toUInt8 b.toUInt8).2
        log := .pci_read32 ((a >>> 8) &&& 0xFF).toUInt8 ((a >>> 3) &&& 0x1F).toUInt8 (a &&& 7).toUInt8
          b.toUInt8 :: st.log } :=
      Inv.make_io hcharged rfl hpermitted
    exact Yields.then (Quiet.modify fun _ => rfl) (fun _ => traced_yields _ (hsome _)) _ hmade

theorem delay_verdict_mild (pol : dvm_policy_t) (delay_us : Nat) (a : UInt64) :
    Mild (delay_verdict pol delay_us a) := by
  exact Mild.bind (Mild.refuse (by decide)) (Mild.refuse (by decide))

theorem exec_delay_yields (a : UInt64) (hnone : Q ⟨next, none⟩) :
    Yields env steps (exec_delay env a next) Q := by
  apply gate
  · exact fun st => delay_verdict_mild _ _ _
  intro st hst hok
  unfold delay_verdict at hok
  simp only [except_bind_eq_ok_iff, refuse_eq_ok_iff, exists_const] at hok
  cases hhook : env.io.delay_us with
  | none => exact trap_meets hst (by decide)
  | some h =>
    refine Outcome.Meets.bind (Q := fun _ st' => st' = st) rfl ?_
    rintro _ _ rfl
    refine Outcome.Meets.bind (Q := fun _ st' => Sound env steps 0 st') ?_ ?_
    · exact { hst with delay_le := by simp only [run_t.core]; omega }
    intro _ mid hmid
    refine bind (of_perform (e := .delay_us a.toUInt32) rfl trivial ?_)
      (fun _ _ => traced_yields _ hnone) mid hmid
    intro path hpath
    cases hpath

end fable.dvm
