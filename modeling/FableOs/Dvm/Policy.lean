import FableOs.Dvm.OpTable

namespace fable.dvm

abbrev CEIL_STEPS : Nat := 5000000
abbrev CEIL_IO : Nat := 1000000
abbrev CEIL_DELAY_US : Nat := 2000000
abbrev CEIL_SINGLE_US : Nat := 1000000
abbrev CEIL_PRINTS : Nat := 4096
abbrev CEIL_TRACE : Nat := 100000
abbrev CEIL_DMA_OPS : Nat := DVM_DMA_SIZE
abbrev CEIL_MEM_BYTES : Nat := 0x4000000
abbrev CEIL_SYS : Nat := 4096

abbrev MMIO_TOP : UInt64 := 0x100000000
abbrev DVM_PLATFORM_LO : UInt64 := 0xFEC00000
abbrev DVM_PLATFORM_HI : UInt64 := 0xFEF00000

structure port_deny_t where
  lo : UInt16
  hi : UInt16
  why : String

def port_deny : List port_deny_t :=
  [⟨0x0020, 0x0021, "master PIC"⟩,
    ⟨0x0040, 0x0043, "PIT: millis() and mdelay() are calibrated against it"⟩,
    ⟨0x0060, 0x0064, "PS/2 controller: 0x64 can pulse the CPU reset line"⟩,
    ⟨0x0070, 0x0071, "CMOS/NMI"⟩,
    ⟨0x0092, 0x0092, "fast A20 / system reset"⟩,
    ⟨0x00A0, 0x00A1, "slave PIC"⟩,
    ⟨0x02F8, 0x02FF, "COM2"⟩,
    ⟨0x03F8, 0x03FF, "COM1: the console this trace is printed on"⟩,
    ⟨0x0CF8, 0x0CFF, "PCI config space: use pcicfg, which is read-only"⟩,
    ⟨0x0000, 0x000F, "ISA DMA controller 1: it bus-masters into RAM"⟩,
    ⟨0x0080, 0x008F, "ISA DMA page registers"⟩,
    ⟨0x00C0, 0x00DF, "ISA DMA controller 2: it bus-masters into RAM"⟩,
    ⟨0x0170, 0x0177, "secondary ATA task file: it can write the disk"⟩,
    ⟨0x01F0, 0x01F7, "primary ATA task file: it can write the disk"⟩,
    ⟨0x03B0, 0x03DF, "legacy VGA registers: the operator's console at its fixed address, the same asset as 0xb8000"⟩,
    ⟨0x03F0, 0x03F7, "floppy controller"⟩]

/-- The two addresses the linker decides: the end of the kernel's `.bss` and
    the start of the DMA arena inside it. -/
structure platform_t where
  bss_end : UInt64
  dma_arena : UInt64

def kernel_top (plat : platform_t) : UInt64 :=
  let e := (plat.bss_end + 0x1FFFFF) &&& ~~~(0x1FFFFF : UInt64)
  if e < 0x1000000 then 0x1000000 else e

def dvm_dma_region (plat : platform_t) : UInt64 × UInt64 :=
  (plat.dma_arena, UInt64.ofNat DVM_DMA_SIZE)

abbrev SLASH : UInt8 := 0x2F
abbrev DOT : UInt8 := 0x2E

/-- The component walk of `path_ok`. Every turn of the loop consumes at least
    one byte, so the length of the path is fuel enough. -/
def path_walk : Nat → List UInt8 → Except String Unit
  | 0, _ => .ok ()
  | fuel + 1, s =>
    if s = [] then .ok ()
    else
      let s := s.dropWhile (· == SLASH)
      let component := s.takeWhile (· != SLASH)
      if component = [DOT] ∨ component = [DOT, DOT] then
        .error s!"the path contains a \"{text_of component}\" component; write the whole path out instead"
      else path_walk fuel (s.dropWhile (· != SLASH))

def path_ok (s : List UInt8) : Except String Unit := do
  refuse (s = []) "the path is empty"
  refuse (DVM_PATH_MAX ≤ s.length)
    s!"the path is {s.length} bytes; the limit is {DVM_PATH_MAX - 1}"
  refuse (s.head? ≠ some SLASH) "the path must be absolute (start with '/')"
  checkFrom (fun i c => refuse (¬ is_printable c)
    s!"byte {i} of the path is 0x{hexPad 2 c.toNat}, which is not printable ASCII") 0 s
  path_walk s.length s

/-- The bytes of a character array up to its first NUL. The array is not
    terminated when that is all of them. -/
def cstring {n : Nat} (a : CArray UInt8 n) : List UInt8 := (a.front n).takeWhile (· != 0)

def dvm_policy_init : dvm_policy_t where
  port := CArray.replicate _ ⟨0, 0⟩
  nport := 0
  mmio := CArray.replicate _ ⟨0, 0, 0⟩
  nmmio := 0
  pci := CArray.replicate _ ⟨0, 0, 0⟩
  npci := 0
  dma_base := 0
  dma_size := 0
  sys_allow := 0
  fs_root := CArray.replicate _ 0
  max_steps := 100000
  max_io := 4096
  max_dma_ops := UInt64.ofNat (DVM_DMA_SIZE / 2)
  max_mem_bytes := UInt64.ofNat (64 * DVM_MEM_SIZE)
  max_sys := 64
  max_delay_us := 200000
  max_single_delay_us := 50000
  max_prints := 64
  max_trace := 512
  trace := DVM_TRACE_IO

def dvm_policy_allow_sys (p : dvm_policy_t) (nr : dvm_sys_nr_t) : dvm_policy_t :=
  { p with sys_allow := p.sys_allow ||| UInt32.ofNat (2 ^ nr.toNat) }

def dvm_policy_set_fs_root (p : dvm_policy_t) (root : List UInt8) : Option dvm_policy_t :=
  let s := root.takeWhile (· != 0)
  match path_ok s with
  | .ok _ => some { p with fs_root := CArray.ofList DVM_PATH_MAX s 0 }
  | .error _ => none

/-! `dvm_policy_check`, one definition per block of the C function. -/

def check_port_range (i : Nat) (r : dvm_port_range_t) : Except String Unit := do
  refuse (r.hi < r.lo) s!"port range {i} is inverted (0x{hexPad 4 r.lo.toNat} > 0x{hexPad 4 r.hi.toNat})"
  checkFrom (fun _ d => refuse (r.lo ≤ d.hi ∧ d.lo ≤ r.hi)
    s!"port range 0x{hexPad 4 r.lo.toNat}-0x{hexPad 4 r.hi.toNat} overlaps 0x{hexPad 4 d.lo.toNat}-0x{hexPad 4 d.hi.toNat}, which is never allowed: {d.why}") 0 port_deny

def check_dma_grant (plat : platform_t) (p : dvm_policy_t) : Except String Unit := do
  let (abase, asize) := dvm_dma_region plat
  refuse (p.dma_size = 0 ∨ p.dma_base + p.dma_size < p.dma_base ∨
      p.dma_base < abase ∨ abase + asize < p.dma_base + p.dma_size)
    s!"dma window 0x{hex p.dma_base.toNat}+0x{hex p.dma_size.toNat} is not inside the VM's scratch arena (0x{hex abase.toNat}+0x{hex asize.toNat}); a program's only memory is that arena"
  refuse (MMIO_TOP < abase + asize)
    s!"the dma scratch arena is at 0x{hex abase.toNat}+0x{hex asize.toNat}, above the 4 GiB a 32-bit bus master can address; no device could reach it"
  checkFrom (fun _ w => refuse (w.base < p.dma_base + p.dma_size ∧ p.dma_base < w.base + w.size)
    s!"mmio window 0x{hex w.base.toNat}+0x{hex w.size.toNat} overlaps the dma scratch buffer 0x{hex p.dma_base.toNat}+0x{hex p.dma_size.toNat}; the two may not alias") 0 p.mmios

def check_dma (plat : platform_t) (p : dvm_policy_t) : Except String Unit :=
  if p.dma_base ≠ 0 ∨ p.dma_size ≠ 0 then check_dma_grant plat p else .ok ()

def check_mmio_win (plat : platform_t) (i : Nat) (w : dvm_mmio_win_t) : Except String Unit := do
  refuse (w.size = 0 ∨ w.base + w.size < w.base)
    s!"mmio window {i} (0x{hex w.base.toNat}+0x{hex w.size.toNat}) is empty or wraps"
  refuse (w.flags &&& DVM_MMIO_RW = 0 ∨ w.flags &&& ~~~DVM_MMIO_RW ≠ 0)
    s!"mmio window {i} has no valid access flags (0x{hex w.flags.toNat})"
  refuse (w.base < kernel_top plat)
    s!"mmio window 0x{hex w.base.toNat}+0x{hex w.size.toNat} reaches below 0x{hex (kernel_top plat).toNat}, which is kernel memory (the VGA text buffer at 0xb8000, the kernel image and the heap all live there)"
  refuse (MMIO_TOP < w.base + w.size)
    s!"mmio window 0x{hex w.base.toNat}+0x{hex w.size.toNat} runs past 0x100000000; only the low 4 GiB is mapped"
  refuse (DVM_PLATFORM_LO < w.base + w.size ∧ w.base < DVM_PLATFORM_HI)
    s!"mmio window 0x{hex w.base.toNat}+0x{hex w.size.toNat} overlaps the platform block (0x{hex DVM_PLATFORM_LO.toNat}-0x{hex (DVM_PLATFORM_HI.toNat - 1)}: IOAPIC, HPET, local APIC), which is never allowed"

def check_pci_fn (i : Nat) (f : dvm_pci_fn_t) : Except String Unit :=
  refuse (31 < f.dev ∨ 7 < f.fn)
    s!"pci entry {i} ({hexPad 2 f.bus.toNat}:{hexPad 2 f.dev.toNat}.{hex f.fn.toNat}) is not a valid address"

def check_budgets (p : dvm_policy_t) : Except String Unit := do
  refuse (p.max_steps = 0 ∨ CEIL_STEPS < p.max_steps.toNat)
    s!"max_steps {p.max_steps.toNat} is outside 1-{CEIL_STEPS}"
  refuse (p.max_io.toNat > CEIL_IO) s!"max_io {p.max_io.toNat} exceeds { CEIL_IO}"
  refuse (CEIL_DMA_OPS < p.max_dma_ops.toNat)
    s!"max_dma_ops {p.max_dma_ops.toNat} exceeds {CEIL_DMA_OPS}, which is one access per byte of the scratch buffer"
  refuse (CEIL_MEM_BYTES < p.max_mem_bytes.toNat)
    s!"max_mem_bytes {p.max_mem_bytes.toNat} exceeds {CEIL_MEM_BYTES}"
  refuse (CEIL_SYS < p.max_sys.toNat) s!"max_sys {p.max_sys.toNat} exceeds {CEIL_SYS}"

def check_syscalls (p : dvm_policy_t) : Except String Unit := do
  refuse (p.sys_allow.toNat / 2 ^ DVM_SYS__COUNT ≠ 0)
    s!"sys_allow 0x{hex p.sys_allow.toNat} has bits above the {DVM_SYS__COUNT} syscalls this VM has"
  let root := cstring p.fs_root
  refuse (DVM_PATH_MAX ≤ root.length) s!"fs_root is not terminated inside its {DVM_PATH_MAX}-byte field"
  if root ≠ [] then
    match path_ok root with
    | .ok _ => .ok ()
    | .error why => .error s!"fs_root \"{text_of root}\" is not usable: {snprintf DVM_MSG_MAX why}"
  else
    refuse (dvm_sys_nr_t.all.any fun nr => sys_granted p.sys_allow nr && sys_is_fs nr)
      "a filesystem syscall is allowed but fs_root is empty; a program may not name a file until a caller has said which subtree it may name one in"

def check_pacing (p : dvm_policy_t) : Except String Unit := do
  refuse (CEIL_DELAY_US < p.max_delay_us.toNat) s!"max_delay_us {p.max_delay_us.toNat} exceeds {CEIL_DELAY_US}"
  refuse (CEIL_SINGLE_US < p.max_single_delay_us.toNat)
    s!"max_single_delay_us {p.max_single_delay_us.toNat} exceeds {CEIL_SINGLE_US}"
  refuse (CEIL_PRINTS < p.max_prints.toNat) s!"max_prints {p.max_prints.toNat} exceeds {CEIL_PRINTS}"
  refuse (CEIL_TRACE < p.max_trace.toNat) s!"max_trace {p.max_trace.toNat} exceeds {CEIL_TRACE}"
  refuse (p.trace < DVM_TRACE_OFF ∨ DVM_TRACE_ALL < p.trace) s!"trace level {p.trace} is not 0, 1 or 2"

/-- `dvm_policy_check`: `ok` is `DVM_OK`, an error is `DVM_TRAP_POLICY` with
    its reason before the caller's buffer clips it. -/
def dvm_policy_check (plat : platform_t) (p : dvm_policy_t) : Except String Unit := do
  refuse (p.nport < 0 ∨ (DVM_MAX_PORT_RANGES : Int) < p.nport ∨ p.nmmio < 0 ∨
      (DVM_MAX_MMIO_WINS : Int) < p.nmmio ∨ p.npci < 0 ∨ (DVM_MAX_PCI_FNS : Int) < p.npci)
    "policy table counts are out of range"
  checkFrom check_port_range 0 p.ports
  check_dma plat p
  checkFrom (check_mmio_win plat) 0 p.mmios
  checkFrom check_pci_fn 0 p.pcis
  check_budgets p
  check_syscalls p
  check_pacing p

end fable.dvm
