import FableOs.Lib.Exec
import FableOs.Dvm.Policy

namespace fable.dvm

open fable.exec

/-- What a syscall hook hands back: a signed code and its `err` text. -/
structure sys_answer_t where
  rc : Int64
  err : String

/-- What a hook that fills a buffer hands back, with the bytes it has stored
    from the front of the buffer on. -/
structure fill_answer_t where
  answer : sys_answer_t
  bytes : List UInt8

/-- The kernel-call backend over a world `σ`. A hook that fills a buffer is
    given its old bytes; their number is the capacity. -/
structure dvm_sys_t (σ : Type) where
  con_write : Option (σ → List UInt8 → sys_answer_t × σ)
  fs_read : Option (σ → List UInt8 → List UInt8 → fill_answer_t × σ)
  fs_write : Option (σ → List UInt8 → List UInt8 → sys_answer_t × σ)
  fs_size : Option (σ → List UInt8 → sys_answer_t × σ)
  audio_tone : Option (σ → UInt32 → UInt32 → sys_answer_t × σ)
  time_ms : Option (σ → sys_answer_t × σ)
  net_fetch : Option (σ → List UInt8 → List UInt8 → fill_answer_t × σ)

structure dvm_io_t (σ : Type) where
  port_write : Option (σ → UInt16 → Nat → UInt32 → σ)
  port_read : Option (σ → UInt16 → Nat → UInt32 × σ)
  mmio_write : Option (σ → UInt64 → Nat → UInt32 → σ)
  mmio_read : Option (σ → UInt64 → Nat → UInt32 × σ)
  pci_read32 : Option (σ → UInt8 → UInt8 → UInt8 → UInt8 → UInt32 × σ)
  delay_us : Option (σ → UInt32 → σ)
  sys : Option (dvm_sys_t σ)

/-- The memory of the DMA arena. Devices master into it between two accesses,
    so it is part of the world and a load answers as the world pleases. -/
structure dma_bus_t (σ : Type) where
  load : σ → UInt64 → Nat → UInt32 × σ
  store : σ → UInt64 → Nat → UInt32 → σ
  guard_arm : σ → σ

/-- What a run can do to the world outside the interpreter. -/
inductive access_t where
  | port_write (port : UInt16) (width : Nat) (val : UInt32)
  | port_read (port : UInt16) (width : Nat)
  | mmio_write (addr : UInt64) (width : Nat) (val : UInt32)
  | mmio_read (addr : UInt64) (width : Nat)
  | pci_read32 (bus dev fn off : UInt8)
  | delay_us (us : UInt32)
  | dma_load (addr : UInt64) (width : Nat)
  | dma_store (addr : UInt64) (width : Nat) (val : UInt32)
  | con_write (text : List UInt8)
  | fs_read (path : List UInt8) (cap : Nat)
  | fs_write (path : List UInt8) (src : List UInt8)
  | fs_size (path : List UInt8)
  | audio_tone (hz ms : UInt32)
  | time_ms
  | net_fetch (url : List UInt8) (cap : Nat)
  deriving DecidableEq, Repr

/-- What one run is given and never changes. -/
structure env_t (σ : Type) where
  p : dvm_program_t
  pol : dvm_policy_t
  io : dvm_io_t σ
  plat : platform_t
  bus : dma_bus_t σ

/-- `run_t`, with the scratch arena `dvm_mem` and the world of the hooks. The
    log lists the accesses made so far, newest first; no code reads it. -/
structure run_t (σ : Type) where
  reg : CArray UInt64 DVM_NREGS
  dstack : CArray UInt64 DVM_DSTACK
  dsp : Nat
  cstack : CArray Nat DVM_CSTACK
  csp : Nat
  pc : Nat
  line : UInt32
  zero : Bool
  below : Bool
  quiet : Bool
  res : dvm_result_t
  mem : CArray UInt8 DVM_MEM_SIZE
  ctx : σ
  log : List access_t

abbrev M (σ A : Type) := Exec dvm_status_t (run_t σ) A

variable {σ A : Type}

/-! Trace. The lines themselves go to the console; the counters are what a
    caller reads. -/

def trace_budget (env : env_t σ) : M σ Unit :=
  Exec.modify fun st =>
    if st.quiet ∨ env.pol.max_trace.toNat ≤ st.res.trace_lines then
      { st with
        quiet := true
        res := { st.res with
          trace_lines := if st.quiet then st.res.trace_lines else st.res.trace_lines + 1
          trace_dropped := st.res.trace_dropped + 1 } }
    else { st with res := { st.res with trace_lines := st.res.trace_lines + 1 } }

/-- `if (tracing(st, level)) tline(st, ...)` -/
def tline (env : env_t σ) (level : Int) : M σ Unit :=
  if level ≤ env.pol.trace then trace_budget env else pure ()

def trap (env : env_t σ) (s : dvm_status_t) (text : String) : M σ A := do
  Exec.modify fun st => { st with res := { st.res with
    status := s
    pc := st.pc
    line := st.line
    msg := copy_printable DVM_MSG_MAX (snprintf DVM_MSG_MAX text)
    trace_lines := if env.pol.trace ≠ DVM_TRACE_OFF then st.res.trace_lines + 1 else st.res.trace_lines } }
  Exec.stop s

/-- A verdict of one of the checks below: a refusal traps. -/
def require (env : env_t σ) (verdict : Except (dvm_status_t × String) Unit) : M σ Unit :=
  match verdict with
  | .ok _ => pure ()
  | .error (s, text) => trap env s text

/-- A call of the world: it may change, and it answers. -/
def perform (access : access_t) (act : σ → A × σ) : M σ A := fun st =>
  .ok (act st.ctx).1 { st with ctx := (act st.ctx).2, log := access :: st.log }

def rd (st : run_t σ) (insn : dvm_insn_t) (k : Fin 3) : UInt64 :=
  if insn.kind k = DVM_O_REG then
    st.reg.elems ⟨(insn.val k).toNat % DVM_NREGS, Nat.mod_lt _ (by decide)⟩
  else if insn.kind k = DVM_O_IMM ∨ insn.kind k = DVM_O_PC ∨ insn.kind k = DVM_O_STR then insn.val k
  else 0

/-! Ports. -/

def port_denied_why (port width : Nat) : Option String :=
  (port_deny.find? fun d => port ≤ d.hi.toNat ∧ d.lo.toNat ≤ port + width - 1).map port_deny_t.why

def port_allowed (pol : dvm_policy_t) (port width : Nat) : Bool :=
  pol.ports.any fun r => r.lo.toNat ≤ port ∧ port + width - 1 ≤ r.hi.toNat

abbrev PORT_GRANTS_CAP : Nat := DVM_MAX_PORT_RANGES * 14 + 1
abbrev MMIO_GRANTS_CAP : Nat := DVM_MAX_MMIO_WINS * 26 + 1

def grants (cap : Nat) (items : List String) : String :=
  if items = [] then "none" else snprintf cap (String.intercalate "," items)

def put_port_grants (pol : dvm_policy_t) : String :=
  grants PORT_GRANTS_CAP (pol.ports.map fun r => s!"0x{hexPad 4 r.lo.toNat}-0x{hexPad 4 r.hi.toNat}")

def put_mmio_grants (pol : dvm_policy_t) : String :=
  grants MMIO_GRANTS_CAP (pol.mmios.map fun w =>
    s!"0x{hex w.base.toNat}+0x{hex w.size.toNat}" ++
      (if w.flags &&& DVM_MMIO_R ≠ 0 then "r" else "") ++ (if w.flags &&& DVM_MMIO_W ≠ 0 then "w" else ""))

/-- The verdict of `port_gate` for a run that has made `io_ops` accesses. -/
def port_verdict (pol : dvm_policy_t) (io_ops : Nat) (rawport : UInt64) (width : Nat) (what : String) :
    Except (dvm_status_t × String) Unit := do
  refuse (0xFFFF < rawport.toNat ∨ 0xFFFF < rawport.toNat + width - 1)
    (.DVM_TRAP_RANGE, s!"{what}: port 0x{hex rawport.toNat} is outside the 0x0000-0xffff I/O space")
  let why := port_denied_why rawport.toNat width
  refuse (why ≠ none)
    (.DVM_TRAP_PORT_DENIED,
      s!"{what}: port 0x{hexPad 4 rawport.toNat} is never accessible from a driver program ({why.getD default})")
  refuse (¬ port_allowed pol rawport.toNat width)
    (.DVM_TRAP_PORT_DENIED,
      s!"{what}: port 0x{hexPad 4 rawport.toNat} is not in this program's allowed ranges ({put_port_grants pol})")
  refuse (pol.max_io.toNat ≤ io_ops)
    (.DVM_TRAP_IO_BUDGET, s!"device access budget of {pol.max_io.toNat} reached at {what}")

/-- `st->res->io_ops++` -/
def charge_io : M σ Unit :=
  Exec.modify fun st => { st with res := { st.res with io_ops := st.res.io_ops + 1 } }

def port_gate (env : env_t σ) (rawport : UInt64) (width : Nat) (what : String) : M σ Unit := do
  let st ← Exec.read
  require env (port_verdict env.pol st.res.io_ops rawport width what)
  charge_io

/-! The DMA buffer. -/

def dma_touches (pol : dvm_policy_t) (addr : UInt64) (width : Nat) : Bool :=
  pol.dma_size ≠ 0 && (addr < pol.dma_base + pol.dma_size && pol.dma_base < addr + UInt64.ofNat width)

def dma_verdict (pol : dvm_policy_t) (ops : Nat) (addr : UInt64) (width : Nat) (what : String) :
    Except (dvm_status_t × String) Unit := do
  refuse (addr < pol.dma_base ∨ pol.dma_base + pol.dma_size < addr + UInt64.ofNat width)
    (.DVM_TRAP_MMIO_DENIED,
      s!"{what}: 0x{hex addr.toNat}+{width} runs off the end of the dma buffer (0x{hex pol.dma_base.toNat}+0x{hex pol.dma_size.toNat}); an access must be wholly inside it")
  refuse (addr % UInt64.ofNat width ≠ 0)
    (.DVM_TRAP_ALIGN,
      s!"{what}: address 0x{hex addr.toNat} is not {width}-byte aligned; the dma buffer is accessed at natural alignment, like a device register")
  refuse (pol.max_dma_ops.toNat ≤ ops)
    (.DVM_TRAP_DMA_BUDGET,
      s!"dma buffer access budget of {pol.max_dma_ops.toNat} reached at {what}; fill the buffer with wider stores or write less of it")

def dma_gate (env : env_t σ) (addr : UInt64) (width : Nat) (what : String) : M σ Unit := do
  let st ← Exec.read
  require env (dma_verdict env.pol (st.res.n_dma_rd + st.res.n_dma_wr) addr width what)

def dma_load (env : env_t σ) (addr : UInt64) (width : Nat) : M σ UInt32 :=
  perform (.dma_load addr width) fun ctx => env.bus.load ctx addr width

def dma_store (env : env_t σ) (addr : UInt64) (width : Nat) (val : UInt32) : M σ Unit :=
  perform (.dma_store addr width val) fun ctx => ((), env.bus.store ctx addr width val)

/-! MMIO. -/

def mmio_window (pol : dvm_policy_t) (addr : UInt64) (width : Nat) : Option dvm_mmio_win_t :=
  pol.mmios.find? fun c => c.base ≤ addr ∧ addr + UInt64.ofNat width ≤ c.base + c.size

def mmio_verdict (plat : platform_t) (pol : dvm_policy_t) (io_ops : Nat) (addr : UInt64) (width : Nat)
    (write : Bool) (what : String) : Except (dvm_status_t × String) Unit := do
  refuse (addr + UInt64.ofNat width < addr ∨ MMIO_TOP < addr + UInt64.ofNat width)
    (.DVM_TRAP_RANGE, s!"{what}: address 0x{hex addr.toNat} is above the mapped 4 GiB of physical space")
  refuse (addr < kernel_top plat)
    (.DVM_TRAP_MMIO_DENIED,
      s!"{what}: address 0x{hex addr.toNat} is kernel memory (below 0x{hex (kernel_top plat).toNat}: the VGA text buffer, the kernel image and the heap live there)")
  refuse (DVM_PLATFORM_LO < addr + UInt64.ofNat width ∧ addr < DVM_PLATFORM_HI)
    (.DVM_TRAP_MMIO_DENIED,
      s!"{what}: address 0x{hex addr.toNat} is in the platform block (0x{hex DVM_PLATFORM_LO.toNat}-0x{hex (DVM_PLATFORM_HI.toNat - 1)}: IOAPIC, HPET and the local APIC). Interrupt routing is not reachable from a driver program")
  match mmio_window pol addr width with
  | none => .error (.DVM_TRAP_MMIO_DENIED,
      s!"{what}: address 0x{hex addr.toNat}+{width} is not inside any allowed window ({put_mmio_grants pol})")
  | some w => do
    refuse (write ∧ w.flags &&& DVM_MMIO_W = 0)
      (.DVM_TRAP_MMIO_DENIED, s!"{what}: window 0x{hex w.base.toNat}+0x{hex w.size.toNat} is read-only")
    refuse (¬ write ∧ w.flags &&& DVM_MMIO_R = 0)
      (.DVM_TRAP_MMIO_DENIED, s!"{what}: window 0x{hex w.base.toNat}+0x{hex w.size.toNat} is write-only")
    refuse (addr % UInt64.ofNat width ≠ 0)
      (.DVM_TRAP_ALIGN,
        s!"{what}: address 0x{hex addr.toNat} is not {width}-byte aligned; device registers require a naturally aligned access")
    refuse (pol.max_io.toNat ≤ io_ops)
      (.DVM_TRAP_IO_BUDGET, s!"device access budget of {pol.max_io.toNat} reached at {what}")

def mmio_gate (env : env_t σ) (addr : UInt64) (width : Nat) (write : Bool) (what : String) : M σ Unit := do
  let st ← Exec.read
  require env (mmio_verdict env.plat env.pol st.res.io_ops addr width write what)
  charge_io

/-! The scratch arena. -/

def mem_span (env : env_t σ) (off len : UInt64) (what : String) : M σ Unit :=
  require env (refuse (DVM_MEM_SIZE < off.toNat ∨ DVM_MEM_SIZE - off.toNat < len.toNat)
    (.DVM_TRAP_MEM,
      s!"{what}: scratch offset 0x{hex off.toNat}+{len.toNat} runs outside the {DVM_MEM_SIZE}-byte arena (valid offsets are 0-{DVM_MEM_SIZE - 1})"))

/-- The sum is a 64-bit one, which is why the source tests it for a wrap. -/
def mem_charge (env : env_t σ) (n : UInt64) (what : String) : M σ Unit := do
  let st ← Exec.read
  let sum := (st.res.mem_bytes + n.toNat) % 2 ^ 64
  require env (refuse (sum < st.res.mem_bytes ∨ env.pol.max_mem_bytes.toNat < sum)
    (.DVM_TRAP_MEM_BUDGET,
      s!"{what}: the {env.pol.max_mem_bytes.toNat}-byte scratch memory budget is spent ({st.res.mem_bytes} used). Copy less, or search a shorter span"))
  Exec.modify fun st => { st with res := { st.res with mem_bytes := sum } }

/-- `dvm_mem[off]` -/
def mem_get (off : Nat) : M σ UInt8 := do
  let st ← Exec.read
  Exec.ofOption (st.mem.get? off)

/-- `dvm_mem[off] = b` -/
def mem_set (off : Nat) (b : UInt8) : M σ Unit := do
  Exec.inBounds (off < DVM_MEM_SIZE)
  Exec.modify fun st => { st with mem := st.mem.set off b }

/-- The bytes of a span, read in order. -/
def mem_read (off : Nat) : Nat → M σ (List UInt8)
  | 0 => pure []
  | n + 1 => do
    let b ← mem_get off
    let rest ← mem_read (off + 1) n
    pure (b :: rest)

/-- Bytes stored one after the other from an offset on. -/
def mem_write (off : Nat) : List UInt8 → M σ Unit
  | [] => pure ()
  | b :: rest => do
    mem_set off b
    mem_write (off + 1) rest

/-- `if (end > res->mem_hwm) res->mem_hwm = end` -/
def raise_hwm (stop : Nat) : M σ Unit :=
  Exec.modify fun st => { st with res := { st.res with mem_hwm := max st.res.mem_hwm stop } }

def mem_load (off : UInt64) (width : Nat) : M σ UInt64 := do
  let bytes ← mem_read off.toNat width
  pure (bytes.foldr (fun b v => v <<< 8 ||| b.toUInt64) 0)

def mem_store (off : UInt64) (width : Nat) (val : UInt64) : M σ Unit := do
  mem_write off.toNat ((List.range width).map fun i => (val >>> UInt64.ofNat (i * 8)).toUInt8)
  raise_hwm (off.toNat + width)

end fable.dvm
