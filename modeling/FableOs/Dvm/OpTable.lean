import FableOs.Dvm.Types

namespace fable.dvm

/-- What `%lx` prints. -/
def hex (n : Nat) : String := String.ofList (Nat.toDigits 16 n)

/-- What `%0<width>lx` prints. -/
def hexPad (width n : Nat) : String :=
  String.ofList (List.leftpad width '0' (Nat.toDigits 16 n))

/-- `snprintf(buf, cap, "%s", text)` -/
def snprintf (cap : Nat) (text : String) : String := String.ofList (text.toList.take (cap - 1))

/-- Bytes as the characters a C string of them prints. -/
def text_of (bytes : List UInt8) : String := String.ofList (bytes.map fun b => Char.ofNat b.toNat)

def dlower (c : UInt8) : UInt8 := if 0x41 ≤ c ∧ c ≤ 0x5A then c + 32 else c

def is_printable (c : UInt8) : Bool := 0x20 ≤ c && c < 0x7F

def copy_printable (cap : Nat) (src : String) : String :=
  String.ofList ((src.toList.take (cap - 1)).map fun c => if ' ' ≤ c ∧ c ≤ '~' then c else '?')

inductive fmt_t where
  | F_NONE | F_STR | F_STR_OPT_A | F_RD_A | F_RD_A_B | F_A_B | F_A | F_RD | F_LBL | F_PORT_A
  | F_RD_PORT | F_RD_ADDR | F_ADDR_A | F_RD_BDF_OFF | F_RD_A_B_C | F_A_B_C | F_RD_STR_A
  | F_RD_STR_A_B | F_SYS
  deriving DecidableEq, Repr

def dvm_op_name : dvm_op_t → String
  | .HALT => "halt" | .ABORT => "abort" | .NOP => "nop" | .MOV => "mov"
  | .ADD => "add" | .SUB => "sub" | .MUL => "mul" | .DIV => "div" | .MOD => "mod"
  | .AND => "and" | .OR => "or" | .XOR => "xor" | .NOT => "not" | .SHL => "shl" | .SHR => "shr"
  | .CMP => "cmp" | .TEST => "test" | .JMP => "jmp" | .BEQ => "beq" | .BNE => "bne"
  | .BLT => "blt" | .BLE => "ble" | .BGT => "bgt" | .BGE => "bge" | .CALL => "call" | .RET => "ret"
  | .PUSH => "push" | .POP => "pop" | .OUT8 => "out8" | .OUT16 => "out16" | .OUT32 => "out32"
  | .IN8 => "in8" | .IN16 => "in16" | .IN32 => "in32" | .LD8 => "ld8" | .LD16 => "ld16"
  | .LD32 => "ld32" | .ST8 => "st8" | .ST16 => "st16" | .ST32 => "st32" | .PCICFG => "pcicfg"
  | .DELAY => "delay" | .PRINT => "print" | .MLD8 => "mld8" | .MLD16 => "mld16" | .MLD32 => "mld32"
  | .MLD64 => "mld64" | .MST8 => "mst8" | .MST16 => "mst16" | .MST32 => "mst32" | .MST64 => "mst64"
  | .MSTR => "mstr" | .MCPY => "mcpy" | .MSET => "mset" | .MCMP => "mcmp" | .MFIND => "mfind"
  | .MCHR => "mchr" | .MATOI => "matoi" | .MITOA => "mitoa" | .SYS => "sys"

/-- The `fmt` column of `op_info`. -/
def op_fmt : dvm_op_t → fmt_t
  | .HALT | .NOP | .RET => .F_NONE
  | .ABORT => .F_STR
  | .PRINT => .F_STR_OPT_A
  | .MOV | .NOT => .F_RD_A
  | .ADD | .SUB | .MUL | .DIV | .MOD | .AND | .OR | .XOR | .SHL | .SHR => .F_RD_A_B
  | .CMP | .TEST => .F_A_B
  | .PUSH | .DELAY => .F_A
  | .POP => .F_RD
  | .JMP | .BEQ | .BNE | .BLT | .BLE | .BGT | .BGE | .CALL => .F_LBL
  | .OUT8 | .OUT16 | .OUT32 => .F_PORT_A
  | .IN8 | .IN16 | .IN32 => .F_RD_PORT
  | .LD8 | .LD16 | .LD32 | .MLD8 | .MLD16 | .MLD32 | .MLD64 => .F_RD_ADDR
  | .ST8 | .ST16 | .ST32 | .MST8 | .MST16 | .MST32 | .MST64 => .F_ADDR_A
  | .PCICFG => .F_RD_BDF_OFF
  | .MCPY | .MSET | .MCHR | .MATOI | .MITOA => .F_RD_A_B_C
  | .MCMP => .F_A_B_C
  | .MSTR => .F_RD_STR_A
  | .MFIND => .F_RD_STR_A_B
  | .SYS => .F_SYS

def dvm_sys_name : dvm_sys_nr_t → String
  | .CON_WRITE => "con.write"
  | .FS_READ => "fs.read"
  | .FS_WRITE => "fs.write"
  | .FS_SIZE => "fs.size"
  | .AUDIO_TONE => "audio.tone"
  | .TIME_MS => "time.ms"
  | .NET_FETCH => "net.fetch"

def dvm_sys_arity : dvm_sys_nr_t → Nat
  | .CON_WRITE => 2
  | .FS_READ => 4
  | .FS_WRITE => 4
  | .FS_SIZE => 2
  | .AUDIO_TONE => 2
  | .TIME_MS => 0
  | .NET_FETCH => 4

theorem dvm_sys_arity_le (nr : dvm_sys_nr_t) : dvm_sys_arity nr ≤ DVM_SYS_MAXARGS := by
  cases nr <;> decide

def sys_is_fs (nr : dvm_sys_nr_t) : Bool := nr = .FS_READ || nr = .FS_WRITE || nr = .FS_SIZE

/-- `sys_allow & (1u << nr)` -/
def sys_granted (sys_allow : UInt32) (nr : dvm_sys_nr_t) : Bool := sys_allow.toNat.testBit nr.toNat

end fable.dvm
