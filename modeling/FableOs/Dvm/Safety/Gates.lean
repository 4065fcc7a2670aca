import FableOs.Dvm.Safety.Rules

namespace fable.dvm

open fable.exec

variable {w : Nat} {addr : UInt64} {pol : dvm_policy_t} {what : String}

/-- The widths of a device access. -/
def DeviceWidth (w : Nat) : Prop := w = 1 ∨ w = 2 ∨ w = 4

theorem DeviceWidth.toNat_ofNat (hw : DeviceWidth w) : (UInt64.ofNat w).toNat = w := by
  rcases hw with rfl | rfl | rfl <;> rfl

theorem aligned_of_mod_eq_zero (hw : DeviceWidth w) (h : addr % UInt64.ofNat w = 0) : addr.toNat % w = 0 := by
  have hmod := congrArg UInt64.toNat h
  rwa [UInt64.toNat_mod, hw.toNat_ofNat] at hmod

theorem port_verdict_mild (pol : dvm_policy_t) (io_ops : Nat) (a : UInt64) (w : Nat) (what : String) :
    Mild (port_verdict pol io_ops a w what) := by
  refine Mild.bind (Mild.refuse (by decide)) (Mild.bind (Mild.refuse (by decide)) ?_)
  exact Mild.bind (Mild.refuse (by decide)) (Mild.refuse (by decide))

/-- A port access that passes its gate is a permitted one inside the port
    space, and the budget has room for it. -/
theorem port_verdict_ok {io_ops : Nat} {a : UInt64} (h : port_verdict pol io_ops a w what = .ok ()) :
    a.toNat ≤ 0xFFFF ∧ port_permitted pol a.toNat w ∧ io_ops < pol.max_io.toNat := by
  unfold port_verdict at h
  simp only [except_bind_eq_ok_iff, refuse_eq_ok_iff, exists_const] at h
  obtain ⟨hrange, hdenied, hallowed, hbudget⟩ := h
  refine ⟨by omega, ⟨?_, ?_⟩, by omega⟩
  · simp only [port_allowed, List.any_eq_true, decide_eq_true_eq, not_not] at hallowed
    obtain ⟨r, hr, hlo, hhi⟩ := hallowed
    exact ⟨r, hr, hlo, by omega⟩
  · intro d hd
    simp only [port_denied_why, ne_eq, Option.map_eq_none_iff, not_not, List.find?_eq_none,
      decide_eq_true_eq] at hdenied
    have hout := hdenied d hd
    omega

theorem mmio_verdict_mild (plat : platform_t) (pol : dvm_policy_t) (io_ops : Nat) (addr : UInt64) (w : Nat)
    (write : Bool) (what : String) : Mild (mmio_verdict plat pol io_ops addr w write what) := by
  refine Mild.bind (Mild.refuse (by decide)) (Mild.bind (Mild.refuse (by decide)) ?_)
  refine Mild.bind (Mild.refuse (by decide)) ?_
  cases mmio_window pol addr w with
  | none => exact Mild.error (by decide)
  | some win =>
    refine Mild.bind (Mild.refuse (by decide)) (Mild.bind (Mild.refuse (by decide)) ?_)
    exact Mild.bind (Mild.refuse (by decide)) (Mild.refuse (by decide))

/-- The flag a window needs for a direction. -/
def direction_flag (write : Bool) : UInt32 := if write then DVM_MMIO_W else DVM_MMIO_R

theorem mmio_verdict_ok {plat} (hpol : PolicyOk plat pol) {io_ops : Nat} {write : Bool} (hw : DeviceWidth w)
    (h : mmio_verdict plat pol io_ops addr w write what = .ok ()) :
    mmio_permitted plat pol addr.toNat w (direction_flag write) ∧ io_ops < pol.max_io.toNat := by
  unfold mmio_verdict at h
  simp only [except_bind_eq_ok_iff, refuse_eq_ok_iff, exists_const] at h
  obtain ⟨hrange, hkernel, hplatform, hwindow⟩ := h
  have hwidth := hw.toNat_ofNat
  have hfour : w ≤ 4 := by rcases hw with rfl | rfl | rfl <;> omega
  -- the end of the access does not wrap, so its 64-bit sum is the real one
  have hfits : addr.toNat + (UInt64.ofNat w).toNat < 2 ^ 64 := by
    push Not at hrange
    have hwrap := hrange.1
    rw [UInt64.lt_iff_toNat_lt, UInt64.toNat_add] at hwrap
    omega
  have hsum := u64_toNat_add_of_fits hfits
  rw [hwidth] at hsum
  push Not at hrange
  have htop := hrange.2
  have hmmio : MMIO_TOP.toNat = 2 ^ 32 := by decide
  have hlo : DVM_PLATFORM_LO.toNat = 0xFEC00000 := by decide
  have hhi : DVM_PLATFORM_HI.toNat = 0xFEF00000 := by decide
  rw [UInt64.lt_iff_toNat_lt, hsum, hmmio] at htop
  rw [UInt64.lt_iff_toNat_lt] at hkernel
  rw [UInt64.lt_iff_toNat_lt, UInt64.lt_iff_toNat_lt, hsum, hlo, hhi] at hplatform
  cases hfind : mmio_window pol addr w with
  | none => rw [hfind] at hwindow; cases hwindow
  | some win =>
    rw [hfind] at hwindow
    simp only [except_bind_eq_ok_iff, refuse_eq_ok_iff, exists_const] at hwindow
    obtain ⟨hwrite, hread, halign, hbudget⟩ := hwindow
    have hmem : win ∈ pol.mmios := List.mem_of_find?_eq_some hfind
    have hcover := List.find?_some hfind
    simp only [decide_eq_true_eq] at hcover
    obtain ⟨hbase, hend⟩ := hcover
    rw [UInt64.le_iff_toNat_le] at hbase hend
    rw [hsum, u64_toNat_add_of_fits (hpol.mmio_fits win hmem)] at hend
    refine ⟨⟨aligned_of_mod_eq_zero hw (not_not.mp halign), ⟨win, hmem, ?_, hbase, hend⟩,
      by omega, by omega, by omega⟩, by omega⟩
    cases write with
    | true => exact fun hzero => hwrite ⟨rfl, hzero⟩
    | false => exact fun hzero => hread ⟨by decide, hzero⟩

theorem dma_verdict_mild (pol : dvm_policy_t) (ops : Nat) (addr : UInt64) (w : Nat) (what : String) :
    Mild (dma_verdict pol ops addr w what) := by
  refine Mild.bind (Mild.refuse (by decide)) (Mild.bind (Mild.refuse (by decide)) ?_)
  exact Mild.refuse (by decide)

/-- A DMA access that touches the buffer and passes its gate lies inside it;
    the routing test is what rules out an address near the top of the space. -/
theorem dma_verdict_ok {plat} (hpol : PolicyOk plat pol) {ops : Nat} (hw : DeviceWidth w)
    (htouch : dma_touches pol addr w = true) (h : dma_verdict pol ops addr w what = .ok ()) :
    dma_permitted plat pol addr.toNat w ∧ ops < pol.max_dma_ops.toNat := by
  unfold dma_verdict at h
  simp only [except_bind_eq_ok_iff, refuse_eq_ok_iff, exists_const] at h
  obtain ⟨hrange, halign, hbudget⟩ := h
  simp only [dma_touches, Bool.and_eq_true, decide_eq_true_eq] at htouch
  obtain ⟨hsize, hbelow, -⟩ := htouch
  obtain ⟨harena, hinside, htop⟩ := hpol.dma_inside hsize
  have hgrant := u64_toNat_add_of_fits (a := pol.dma_base) (b := pol.dma_size) (by omega)
  rw [UInt64.lt_iff_toNat_lt, hgrant] at hbelow
  have hfour : w ≤ 4 := by rcases hw with rfl | rfl | rfl <;> omega
  have hsum := u64_toNat_add_of_fits (a := addr) (b := UInt64.ofNat w) (by rw [hw.toNat_ofNat]; omega)
  rw [UInt64.lt_iff_toNat_lt, UInt64.lt_iff_toNat_lt, hsum, hgrant, hw.toNat_ofNat] at hrange
  exact ⟨⟨by omega, by omega, harena, hinside⟩, by omega⟩

variable {σ : Type} {env : env_t σ} {steps : Nat}

/-- A device access that has been charged: the state it leaves owes one call. -/
theorem port_gate_meets {a : UInt64} {st} {excuse : Prop} (hst : Sound env steps 0 st) :
    (port_gate env a w what st).Meets
      (fun _ st' => Sound env steps 1 st' ∧ port_verdict env.pol st.res.io_ops a w what = .ok ())
      (Stopped env steps excuse) := by
  refine Outcome.Meets.bind (m := require env (port_verdict env.pol st.res.io_ops a w what))
    (require_meets (port_verdict_mild _ _ _ _ _) hst) ?_
  rintro _ _ ⟨rfl, hok⟩
  exact ⟨Inv.charge_io hst (port_verdict_ok hok).2.2, hok⟩

theorem mmio_gate_meets (hpol : PolicyOk env.plat env.pol) {write : Bool} (hw : DeviceWidth w) {st} {excuse : Prop}
    (hst : Sound env steps 0 st) :
    (mmio_gate env addr w write what st).Meets
      (fun _ st' => Sound env steps 1 st' ∧
        mmio_verdict env.plat env.pol st.res.io_ops addr w write what = .ok ())
      (Stopped env steps excuse) := by
  refine Outcome.Meets.bind (m := require env (mmio_verdict env.plat env.pol st.res.io_ops addr w write what))
    (require_meets (mmio_verdict_mild _ _ _ _ _ _ _) hst) ?_
  rintro _ _ ⟨rfl, hok⟩
  exact ⟨Inv.charge_io hst (mmio_verdict_ok hpol hw hok).2, hok⟩

theorem mem_span_yields (off len : UInt64) (what : String) :
    Yields env steps (mem_span env off len what) fun _ => off.toNat + len.toNat ≤ DVM_MEM_SIZE := by
  intro st hst
  refine (require_meets (Mild.refuse (by decide)) hst).mono ?_ fun _ _ h => h
  rintro _ _ ⟨rfl, hok⟩
  rw [refuse_eq_ok_iff] at hok
  exact ⟨hst, by omega⟩

/-- A charge that is accepted has not wrapped and stays inside the budget. -/
theorem mem_charge_yields (n : UInt64) (what : String) :
    Yields env steps (mem_charge env n what) fun _ => True := by
  apply Yields.gate
  · exact fun st => Mild.refuse (by decide)
  · intro st hst hok
    rw [refuse_eq_ok_iff] at hok
    refine ⟨?_, trivial⟩
    exact { hst with mem_le := by simp only [run_t.core]; omega }

end fable.dvm
