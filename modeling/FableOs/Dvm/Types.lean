import FableOs.Lib.CArray

set_option linter.style.nameCheck false

namespace fable.dvm

abbrev DVM_NREGS : Nat := 16
abbrev DVM_MAX_INSNS : Nat := 256
abbrev DVM_MAX_LABELS : Nat := 64
abbrev DVM_LABEL_MAX : Nat := 24
abbrev DVM_MAX_STRINGS : Nat := 32
abbrev DVM_STRPOOL : Nat := 512
abbrev DVM_MAX_EQU : Nat := 32
abbrev DVM_SRC_MAX : Nat := 16384
abbrev DVM_LINE_MAX : Nat := 256
abbrev DVM_DSTACK : Nat := 32
abbrev DVM_CSTACK : Nat := 16
abbrev DVM_MSG_MAX : Nat := 192
abbrev DVM_DMA_SIZE : Nat := 0x40000
abbrev DVM_MEM_SIZE : Nat := 0x10000
abbrev DVM_PATH_MAX : Nat := 96
abbrev DVM_SAY_MAX : Nat := 160
abbrev DVM_MAX_PORT_RANGES : Nat := 8
abbrev DVM_MAX_MMIO_WINS : Nat := 8
abbrev DVM_MAX_PCI_FNS : Nat := 8
abbrev DVM_SYS_MAXARGS : Nat := 4
abbrev FETCH_URL_MAX : Nat := 2048

/-- The verdict of a run. `DVM_TRAP_NO_BACKEND` is the code the C header calls
    `NOIO`: the backend has no hook for this access class. -/
inductive dvm_status_t where
  | DVM_OK | DVM_TRAP_ABORT | DVM_TRAP_STEPS | DVM_TRAP_IO_BUDGET | DVM_TRAP_DELAY_BUDGET
  | DVM_TRAP_PRINT_BUDGET | DVM_TRAP_PORT_DENIED | DVM_TRAP_MMIO_DENIED | DVM_TRAP_PCI_DENIED
  | DVM_TRAP_ALIGN | DVM_TRAP_RANGE | DVM_TRAP_PC | DVM_TRAP_STACK | DVM_TRAP_DIV0 | DVM_TRAP_BADOP
  | DVM_TRAP_NO_BACKEND | DVM_TRAP_POLICY | DVM_TRAP_DMA_BUDGET | DVM_TRAP_MEM | DVM_TRAP_MEM_BUDGET
  | DVM_TRAP_SYS_DENIED | DVM_TRAP_SYS_BUDGET | DVM_TRAP_REENTRY
  deriving DecidableEq, Repr

inductive dvm_op_t where
  | HALT | ABORT | NOP
  | MOV
  | ADD | SUB | MUL | DIV | MOD
  | AND | OR | XOR | NOT | SHL | SHR
  | CMP | TEST
  | JMP | BEQ | BNE | BLT | BLE | BGT | BGE
  | CALL | RET | PUSH | POP
  | OUT8 | OUT16 | OUT32
  | IN8 | IN16 | IN32
  | LD8 | LD16 | LD32
  | ST8 | ST16 | ST32
  | PCICFG
  | DELAY
  | PRINT
  | MLD8 | MLD16 | MLD32 | MLD64
  | MST8 | MST16 | MST32 | MST64
  | MSTR | MCPY | MSET | MCMP
  | MFIND | MCHR | MATOI | MITOA
  | SYS
  deriving DecidableEq, Repr

/-- The opcodes in the order of their numbers. -/
def dvm_op_t.all : List dvm_op_t :=
  [.HALT, .ABORT, .NOP, .MOV, .ADD, .SUB, .MUL, .DIV, .MOD, .AND, .OR, .XOR, .NOT, .SHL, .SHR,
    .CMP, .TEST, .JMP, .BEQ, .BNE, .BLT, .BLE, .BGT, .BGE, .CALL, .RET, .PUSH, .POP,
    .OUT8, .OUT16, .OUT32, .IN8, .IN16, .IN32, .LD8, .LD16, .LD32, .ST8, .ST16, .ST32,
    .PCICFG, .DELAY, .PRINT, .MLD8, .MLD16, .MLD32, .MLD64, .MST8, .MST16, .MST32, .MST64,
    .MSTR, .MCPY, .MSET, .MCMP, .MFIND, .MCHR, .MATOI, .MITOA, .SYS]


/-- The opcode a byte of a program image stands for, if it is one. -/
def dvm_op_t.ofByte (b : UInt8) : Option dvm_op_t := dvm_op_t.all[b.toNat]?

def dvm_op_t.toByte (op : dvm_op_t) : UInt8 := UInt8.ofNat (dvm_op_t.all.idxOf op)

theorem dvm_op_t.ofByte_toByte (op : dvm_op_t) : dvm_op_t.ofByte op.toByte = some op := by
  cases op <;> rfl

inductive dvm_sys_nr_t where
  | CON_WRITE | FS_READ | FS_WRITE | FS_SIZE | AUDIO_TONE | TIME_MS | NET_FETCH
  deriving DecidableEq, Repr

def dvm_sys_nr_t.all : List dvm_sys_nr_t :=
  [.CON_WRITE, .FS_READ, .FS_WRITE, .FS_SIZE, .AUDIO_TONE, .TIME_MS, .NET_FETCH]

abbrev DVM_SYS__COUNT : Nat := 7

def dvm_sys_nr_t.ofNat? (n : Nat) : Option dvm_sys_nr_t := dvm_sys_nr_t.all[n]?

def dvm_sys_nr_t.toNat (nr : dvm_sys_nr_t) : Nat := dvm_sys_nr_t.all.idxOf nr

theorem dvm_sys_nr_t.ofNat?_isSome_iff (n : Nat) :
    (∃ nr, dvm_sys_nr_t.ofNat? n = some nr) ↔ n < DVM_SYS__COUNT := by
  rw [← Option.isSome_iff_exists, dvm_sys_nr_t.ofNat?]
  simp [dvm_sys_nr_t.all]

abbrev DVM_O_NONE : UInt8 := 0
abbrev DVM_O_REG : UInt8 := 1
abbrev DVM_O_IMM : UInt8 := 2
abbrev DVM_O_PC : UInt8 := 3
abbrev DVM_O_STR : UInt8 := 4

abbrev DVM_NOREG : UInt8 := 0xFF

/-- The literals of `Fin 3`, the positions of the operands, rest on it. -/
instance neZero_three : NeZero 3 := ⟨by decide⟩

/-- One decoded instruction, as raw as the image stores it: nothing in the
    type keeps an opcode, an operand kind or a register number in range. -/
structure dvm_insn_t where
  op : UInt8
  dst : UInt8
  kind : Fin 3 → UInt8
  line : UInt32
  val : Fin 3 → UInt64
  deriving DecidableEq

structure dvm_label_t where
  name : CArray UInt8 DVM_LABEL_MAX
  pc : UInt32
  deriving DecidableEq

structure dvm_program_t where
  insn : CArray dvm_insn_t DVM_MAX_INSNS
  ninsn : UInt32
  label : CArray dvm_label_t DVM_MAX_LABELS
  nlabel : UInt32
  strpool : CArray UInt8 DVM_STRPOOL
  stroff : CArray UInt16 DVM_MAX_STRINGS
  nstr : UInt32
  strused : UInt32
  src_lines : UInt32
  deriving DecidableEq

structure dvm_asm_err_t where
  line : UInt32
  msg : String
  deriving DecidableEq, Repr

structure dvm_port_range_t where
  lo : UInt16
  hi : UInt16
  deriving DecidableEq, Repr

abbrev DVM_MMIO_R : UInt32 := 0x1
abbrev DVM_MMIO_W : UInt32 := 0x2
abbrev DVM_MMIO_RW : UInt32 := 0x3

structure dvm_mmio_win_t where
  base : UInt64
  size : UInt64
  flags : UInt32
  deriving DecidableEq, Repr

structure dvm_pci_fn_t where
  bus : UInt8
  dev : UInt8
  fn : UInt8
  deriving DecidableEq, Repr

abbrev DVM_TRACE_OFF : Int := 0
abbrev DVM_TRACE_IO : Int := 1
abbrev DVM_TRACE_ALL : Int := 2

/-- A policy as a caller may hand it over: the counts and the trace level are
    C integers of any value, and no field has been compared with another. -/
structure dvm_policy_t where
  port : CArray dvm_port_range_t DVM_MAX_PORT_RANGES
  nport : Int
  mmio : CArray dvm_mmio_win_t DVM_MAX_MMIO_WINS
  nmmio : Int
  pci : CArray dvm_pci_fn_t DVM_MAX_PCI_FNS
  npci : Int
  dma_base : UInt64
  dma_size : UInt64
  sys_allow : UInt32
  fs_root : CArray UInt8 DVM_PATH_MAX
  max_steps : UInt64
  max_io : UInt64
  max_dma_ops : UInt64
  max_mem_bytes : UInt64
  max_sys : UInt32
  max_delay_us : UInt64
  max_single_delay_us : UInt32
  max_prints : UInt32
  max_trace : UInt32
  trace : Int
  deriving DecidableEq

def dvm_policy_t.ports (p : dvm_policy_t) : List dvm_port_range_t := p.port.front p.nport.toNat
def dvm_policy_t.mmios (p : dvm_policy_t) : List dvm_mmio_win_t := p.mmio.front p.nmmio.toNat
def dvm_policy_t.pcis (p : dvm_policy_t) : List dvm_pci_fn_t := p.pci.front p.npci.toNat

/-- The counters of `dvm_result_t` are natural numbers here. Each one is
    compared with a budget before it grows, or grows at most once per
    instruction, so inside one run none of them reaches its C width. -/
structure dvm_result_t where
  status : dvm_status_t
  pc : Nat
  line : UInt32
  steps : Nat
  io_ops : Nat
  delay_us : Nat
  prints : Nat
  n_port_rd : Nat
  n_port_wr : Nat
  n_mmio_rd : Nat
  n_mmio_wr : Nat
  n_pci_rd : Nat
  n_dma_rd : Nat
  n_dma_wr : Nat
  n_mem_rd : Nat
  n_mem_wr : Nat
  mem_bytes : Nat
  mem_hwm : Nat
  n_sys : Nat
  trace_lines : Nat
  trace_dropped : Nat
  reg : CArray UInt64 DVM_NREGS
  msg : String
  sys_msg : String

/-- `dz(res, sizeof *res)` -/
def dvm_result_t.zero : dvm_result_t where
  status := .DVM_OK
  pc := 0
  line := 0
  steps := 0
  io_ops := 0
  delay_us := 0
  prints := 0
  n_port_rd := 0
  n_port_wr := 0
  n_mmio_rd := 0
  n_mmio_wr := 0
  n_pci_rd := 0
  n_dma_rd := 0
  n_dma_wr := 0
  n_mem_rd := 0
  n_mem_wr := 0
  mem_bytes := 0
  mem_hwm := 0
  n_sys := 0
  trace_lines := 0
  trace_dropped := 0
  reg := CArray.replicate DVM_NREGS 0
  msg := ""
  sys_msg := ""

end fable.dvm
