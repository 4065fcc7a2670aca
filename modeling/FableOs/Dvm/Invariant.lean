import FableOs.Dvm.PolicyCheck
import FableOs.Dvm.Run

namespace fable.dvm

open fable.exec List

/-- A port access lies in one allowed range and off every denied port. -/
def port_permitted (pol : dvm_policy_t) (port width : Nat) : Prop :=
  (∃ r ∈ pol.ports, r.lo.toNat ≤ port ∧ port + width ≤ r.hi.toNat + 1) ∧
    ∀ d ∈ port_deny, port + width ≤ d.lo.toNat ∨ d.hi.toNat < port

/-- An MMIO access is naturally aligned, lies in one window with the flag of
    its direction, and keeps to device memory. -/
def mmio_permitted (plat : platform_t) (pol : dvm_policy_t) (addr width : Nat) (flag : UInt32) : Prop :=
  addr % width = 0 ∧
    (∃ w ∈ pol.mmios, w.flags &&& flag ≠ 0 ∧ w.base.toNat ≤ addr ∧
      addr + width ≤ w.base.toNat + w.size.toNat) ∧
    (kernel_top plat).toNat ≤ addr ∧ addr + width ≤ 2 ^ 32 ∧
    (addr + width ≤ 0xFEC00000 ∨ 0xFEF00000 ≤ addr)

def pci_permitted (pol : dvm_policy_t) (bus dev fn : UInt8) : Prop :=
  ∃ f ∈ pol.pcis, f.bus = bus ∧ f.dev = dev ∧ f.fn = fn

/-- A DMA access lies in the granted part of the arena. -/
def dma_permitted (plat : platform_t) (pol : dvm_policy_t) (addr width : Nat) : Prop :=
  pol.dma_base.toNat ≤ addr ∧ addr + width ≤ pol.dma_base.toNat + pol.dma_size.toNat ∧
    plat.dma_arena.toNat ≤ pol.dma_base.toNat ∧
    pol.dma_base.toNat + pol.dma_size.toNat ≤ plat.dma_arena.toNat + DVM_DMA_SIZE

/-- The device accesses a policy permits. The service calls are not device
    accesses. -/
def Permitted (plat : platform_t) (pol : dvm_policy_t) : access_t → Prop
  | .port_write port width _ => port_permitted pol port.toNat width
  | .port_read port width => port_permitted pol port.toNat width
  | .mmio_write addr width _ => mmio_permitted plat pol addr.toNat width DVM_MMIO_W
  | .mmio_read addr width => mmio_permitted plat pol addr.toNat width DVM_MMIO_R
  | .pci_read32 bus dev fn _ => pci_permitted pol bus dev fn
  | .dma_load addr width => dma_permitted plat pol addr.toNat width
  | .dma_store addr width _ => dma_permitted plat pol addr.toNat width
  | _ => True

/-- The path an access hands to the filesystem. -/
def access_t.path? : access_t → Option (List UInt8)
  | .fs_read path _ => some path
  | .fs_write path _ => some path
  | .fs_size path => some path
  | _ => none

/-- A path that the checks of `sys_path` let through. -/
structure PathChecked (pol : dvm_policy_t) (path : List UInt8) : Prop where
  path_ok_eq : path_ok path = .ok ()
  root_ne : cstring pol.fs_root ≠ []
  under : path_under (cstring pol.fs_root) path = true

/-- The accesses that `max_io` budgets: port, MMIO and PCI hook calls. -/
def access_t.is_io : access_t → Bool
  | .port_write .. | .port_read .. | .mmio_write .. | .mmio_read .. | .pci_read32 .. => true
  | _ => false

def io_calls (log : List access_t) : Nat := log.countP access_t.is_io

/-- The part of the run state that the budgets and the bounds speak about. -/
structure core_t where
  dsp : Nat
  cstack : CArray Nat DVM_CSTACK
  csp : Nat
  pc : Nat
  steps : Nat
  io_ops : Nat
  dma_ops : Nat
  mem_bytes : Nat
  n_sys : Nat
  delay_us : Nat
  prints : Nat
  log : List access_t

variable {σ A B : Type}

def run_t.core (st : run_t σ) : core_t where
  dsp := st.dsp
  cstack := st.cstack
  csp := st.csp
  pc := st.pc
  steps := st.res.steps
  io_ops := st.res.io_ops
  dma_ops := st.res.n_dma_rd + st.res.n_dma_wr
  mem_bytes := st.res.mem_bytes
  n_sys := st.res.n_sys
  delay_us := st.res.delay_us
  prints := st.res.prints
  log := st.log

/-- The invariant of a run that has executed `steps` instructions and has
    charged `debt` device accesses that it has not made. -/
structure Inv (env : env_t σ) (steps debt : Nat) (c : core_t) : Prop where
  dsp_le : c.dsp ≤ DVM_DSTACK
  csp_le : c.csp ≤ DVM_CSTACK
  returns_le : ∀ i next, i < c.csp → c.cstack.get? i = some next → next ≤ env.p.ninsn.toNat
  pc_le : c.pc ≤ env.p.ninsn.toNat
  steps_eq : c.steps = steps
  steps_le : steps ≤ env.pol.max_steps.toNat
  io_le : c.io_ops ≤ env.pol.max_io.toNat
  dma_le : c.dma_ops ≤ env.pol.max_dma_ops.toNat
  mem_le : c.mem_bytes ≤ env.pol.max_mem_bytes.toNat
  sys_le : c.n_sys ≤ env.pol.max_sys.toNat
  delay_le : c.delay_us ≤ env.pol.max_delay_us.toNat
  prints_le : c.prints ≤ env.pol.max_prints.toNat
  permitted : ∀ e ∈ c.log, Permitted env.plat env.pol e
  checked : ∀ e ∈ c.log, ∀ path, e.path? = some path → PathChecked env.pol path
  charged : c.io_ops = io_calls c.log + debt

section Steps

variable {env : env_t σ} {steps debt : Nat} {c : core_t}

theorem Inv.charge_io (h : Inv env steps debt c) (hlt : c.io_ops < env.pol.max_io.toNat) :
    Inv env steps (debt + 1) { c with io_ops := c.io_ops + 1 } := by
  have hcharged := h.charged
  exact { h with io_le := hlt, charged := by simp only; omega }

/-- An access that has been charged is made. -/
theorem Inv.make_io (h : Inv env steps (debt + 1) c) {e} (hio : e.is_io = true)
    (hpermitted : Permitted env.plat env.pol e) : Inv env steps debt { c with log := e :: c.log } := by
  have hcharged := h.charged
  have hpath : e.path? = none := by cases e <;> first | rfl | cases hio
  refine { h with permitted := ?_, checked := ?_, charged := ?_ }
  · intro e' he'
    rcases mem_cons.mp he' with rfl | hin
    · exact hpermitted
    · exact h.permitted e' hin
  · intro e' he' path heq
    rcases mem_cons.mp he' with rfl | hin
    · cases hpath.symm.trans heq
    · exact h.checked e' hin path heq
  · simp only [io_calls, countP_cons_of_pos hio] at hcharged ⊢
    omega

theorem Inv.make_free (h : Inv env steps debt c) {e} (hio : e.is_io = false)
    (hpermitted : Permitted env.plat env.pol e) (hchecked : ∀ path, e.path? = some path → PathChecked env.pol path) :
    Inv env steps debt { c with log := e :: c.log } := by
  have hcharged := h.charged
  refine { h with permitted := ?_, checked := ?_, charged := ?_ }
  · intro e' he'
    rcases mem_cons.mp he' with rfl | hin
    · exact hpermitted
    · exact h.permitted e' hin
  · intro e' he' path heq
    rcases mem_cons.mp he' with rfl | hin
    · exact hchecked path heq
    · exact h.checked e' hin path heq
  · simp only [io_calls] at hcharged ⊢
    rw [countP_cons_of_neg (by simp [hio])]
    exact hcharged

theorem Inv.push_return (h : Inv env steps debt c) (hlt : c.csp < DVM_CSTACK) {next : Nat}
    (hnext : next ≤ env.p.ninsn.toNat) :
    Inv env steps debt { c with cstack := c.cstack.set c.csp next, csp := c.csp + 1 } := by
  refine { h with csp_le := hlt, returns_le := ?_ }
  intro i r hi hget
  simp only [CArray.get?_set] at hget
  by_cases htop : i = c.csp ∧ i < DVM_CSTACK
  · cases (if_pos htop).symm.trans hget
    exact hnext
  · rw [if_neg htop] at hget
    have hbelow : i < c.csp := by
      have hi' : i < c.csp + 1 := hi
      have hne : i ≠ c.csp := fun heq => htop ⟨heq, by omega⟩
      omega
    exact h.returns_le i r hbelow hget

theorem Inv.pop_return (h : Inv env steps debt c) : Inv env steps debt { c with csp := c.csp - 1 } := by
  have hle := h.csp_le
  refine { h with csp_le := by simp only; omega, returns_le := ?_ }
  intro i r hi hget
  exact h.returns_le i r (by have hi' : i < c.csp - 1 := hi; omega) hget

theorem Inv.count_step (h : Inv env steps debt c) (hlt : steps < env.pol.max_steps.toNat) :
    Inv env (steps + 1) debt { c with steps := c.steps + 1 } := by
  have heq := h.steps_eq
  exact { h with steps_eq := by simp only; omega, steps_le := hlt }

end Steps

end fable.dvm
