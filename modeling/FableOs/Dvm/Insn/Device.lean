import FableOs.Dvm.Insn.Control

namespace fable.dvm

open fable.exec

variable {σ : Type}

/-- The bytes an I/O opcode moves. -/
def op_width : dvm_op_t → Nat
  | .OUT8 | .IN8 | .LD8 | .ST8 | .MLD8 | .MST8 => 1
  | .OUT16 | .IN16 | .LD16 | .ST16 | .MLD16 | .MST16 => 2
  | .MLD64 | .MST64 => 8
  | _ => 4

def store_val (width : Nat) (v : UInt64) : UInt32 :=
  (if width = 1 then v &&& 0xFF else if width = 2 then v &&& 0xFFFF else v &&& 0xFFFFFFFF).toUInt32

def load_val (width : Nat) (v : UInt32) : UInt64 :=
  if width = 1 then v.toUInt64 &&& 0xFF else if width = 2 then v.toUInt64 &&& 0xFFFF else v.toUInt64

/-- `res->n_...++` for the counter the update names. -/
def count (f : dvm_result_t → dvm_result_t) : M σ Unit := Exec.modify fun st => { st with res := f st.res }

def exec_out (env : env_t σ) (op : dvm_op_t) (a b : UInt64) (next : Nat) : M σ flow_t := do
  port_gate env a (op_width op) (dvm_op_name op)
  let port_write ← sys_hook env env.io.port_write s!"{dvm_op_name op}: this VM has no port I/O backend"
  let val := store_val (op_width op) b
  perform (.port_write a.toUInt16 (op_width op) val) fun ctx =>
    ((), port_write ctx a.toUInt16 (op_width op) val)
  count fun res => { res with n_port_wr := res.n_port_wr + 1 }
  tline env DVM_TRACE_IO
  pure ⟨next, none⟩

def exec_in (env : env_t σ) (op : dvm_op_t) (a : UInt64) (next : Nat) : M σ flow_t := do
  port_gate env a (op_width op) (dvm_op_name op)
  let port_read ← sys_hook env env.io.port_read s!"{dvm_op_name op}: this VM has no port I/O backend"
  let v ← perform (.port_read a.toUInt16 (op_width op)) fun ctx => port_read ctx a.toUInt16 (op_width op)
  count fun res => { res with n_port_rd := res.n_port_rd + 1 }
  tline env DVM_TRACE_IO
  pure ⟨next, some (load_val (op_width op) v)⟩

def exec_ld_dma (env : env_t σ) (op : dvm_op_t) (addr : UInt64) (next : Nat) : M σ flow_t := do
  dma_gate env addr (op_width op) (dvm_op_name op)
  let v ← dma_load env addr (op_width op)
  count fun res => { res with n_dma_rd := res.n_dma_rd + 1 }
  tline env DVM_TRACE_ALL
  pure ⟨next, some (load_val (op_width op) v)⟩

def exec_ld_mmio (env : env_t σ) (op : dvm_op_t) (addr : UInt64) (next : Nat) : M σ flow_t := do
  mmio_gate env addr (op_width op) false (dvm_op_name op)
  let mmio_read ← sys_hook env env.io.mmio_read s!"{dvm_op_name op}: this VM has no MMIO backend"
  let v ← perform (.mmio_read addr (op_width op)) fun ctx => mmio_read ctx addr (op_width op)
  count fun res => { res with n_mmio_rd := res.n_mmio_rd + 1 }
  tline env DVM_TRACE_IO
  pure ⟨next, some (load_val (op_width op) v)⟩

def exec_ld (env : env_t σ) (op : dvm_op_t) (a b : UInt64) (next : Nat) : M σ flow_t :=
  if dma_touches env.pol (a + b) (op_width op) then exec_ld_dma env op (a + b) next
  else exec_ld_mmio env op (a + b) next

def exec_st_dma (env : env_t σ) (op : dvm_op_t) (addr : UInt64) (val : UInt32) (next : Nat) : M σ flow_t := do
  dma_gate env addr (op_width op) (dvm_op_name op)
  dma_store env addr (op_width op) val
  count fun res => { res with n_dma_wr := res.n_dma_wr + 1 }
  tline env DVM_TRACE_ALL
  pure ⟨next, none⟩

def exec_st_mmio (env : env_t σ) (op : dvm_op_t) (addr : UInt64) (val : UInt32) (next : Nat) : M σ flow_t := do
  mmio_gate env addr (op_width op) true (dvm_op_name op)
  let mmio_write ← sys_hook env env.io.mmio_write s!"{dvm_op_name op}: this VM has no MMIO backend"
  perform (.mmio_write addr (op_width op) val) fun ctx => ((), mmio_write ctx addr (op_width op) val)
  count fun res => { res with n_mmio_wr := res.n_mmio_wr + 1 }
  tline env DVM_TRACE_IO
  pure ⟨next, none⟩

def exec_st (env : env_t σ) (op : dvm_op_t) (a b c : UInt64) (next : Nat) : M σ flow_t :=
  if dma_touches env.pol (a + b) (op_width op) then
    exec_st_dma env op (a + b) (store_val (op_width op) c) next
  else exec_st_mmio env op (a + b) (store_val (op_width op) c) next

def pci_verdict (pol : dvm_policy_t) (io_ops : Nat) (a b : UInt64) (bus dev fn : UInt8) :
    Except (dvm_status_t × String) Unit := do
  refuse (0xFFFF < a.toNat)
    (.DVM_TRAP_RANGE, s!"pcicfg: bdf 0x{hex a.toNat} is out of range (bus<<8 | dev<<3 | fn)")
  refuse (0xFF < b.toNat)
    (.DVM_TRAP_RANGE, s!"pcicfg: offset 0x{hex b.toNat} is outside the 256-byte config space")
  refuse (¬ pol.pcis.any fun f => f.bus = bus && f.dev = dev && f.fn = fn)
    (.DVM_TRAP_PCI_DENIED,
      s!"pcicfg: {hexPad 2 bus.toNat}:{hexPad 2 dev.toNat}.{hex fn.toNat} is not one of the {pol.npci} function(s) this program may read")
  refuse (b &&& 3 ≠ 0)
    (.DVM_TRAP_ALIGN,
      s!"pcicfg: offset 0x{hexPad 2 b.toNat} must be 4-byte aligned; config space is read a dword at a time")
  refuse (pol.max_io.toNat ≤ io_ops)
    (.DVM_TRAP_IO_BUDGET, s!"device access budget of {pol.max_io.toNat} reached at pcicfg")

def exec_pcicfg (env : env_t σ) (a b : UInt64) (next : Nat) : M σ flow_t := do
  let bus := ((a >>> 8) &&& 0xFF).toUInt8
  let dev := ((a >>> 3) &&& 0x1F).toUInt8
  let fn := (a &&& 7).toUInt8
  let st ← Exec.read
  require env (pci_verdict env.pol st.res.io_ops a b bus dev fn)
  let pci_read32 ← sys_hook env env.io.pci_read32 "pcicfg: this VM has no PCI backend"
  charge_io
  let v ← perform (.pci_read32 bus dev fn b.toUInt8) fun ctx => pci_read32 ctx bus dev fn b.toUInt8
  count fun res => { res with n_pci_rd := res.n_pci_rd + 1 }
  tline env DVM_TRACE_IO
  pure ⟨next, some v.toUInt64⟩

def delay_verdict (pol : dvm_policy_t) (delay_us : Nat) (a : UInt64) : Except (dvm_status_t × String) Unit := do
  refuse (pol.max_single_delay_us.toNat < a.toNat)
    (.DVM_TRAP_DELAY_BUDGET,
      s!"delay of {a.toNat} us exceeds the {pol.max_single_delay_us.toNat} us single-delay limit")
  refuse (pol.max_delay_us.toNat < delay_us + a.toNat)
    (.DVM_TRAP_DELAY_BUDGET,
      s!"delay budget exhausted: {delay_us} us already spent, {a.toNat} us requested, {pol.max_delay_us.toNat} us allowed")

def exec_delay (env : env_t σ) (a : UInt64) (next : Nat) : M σ flow_t := do
  let st ← Exec.read
  require env (delay_verdict env.pol st.res.delay_us a)
  let delay_us ← sys_hook env env.io.delay_us "delay: this VM has no timer backend"
  count fun res => { res with delay_us := res.delay_us + a.toNat }
  perform (.delay_us a.toUInt32) fun ctx => ((), delay_us ctx a.toUInt32)
  tline env DVM_TRACE_IO
  pure ⟨next, none⟩

end fable.dvm
