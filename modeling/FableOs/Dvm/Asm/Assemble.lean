import FableOs.Dvm.Asm.Operand

namespace fable.dvm

/-- The names the assembler accepts, the canonical one first. -/
def mnemonic : List (String × dvm_op_t) :=
  [("halt", .HALT), ("hlt", .HALT), ("stop", .HALT), ("end", .HALT), ("abort", .ABORT),
    ("fail", .ABORT), ("nop", .NOP), ("mov", .MOV), ("li", .MOV), ("set", .MOV), ("add", .ADD),
    ("sub", .SUB), ("mul", .MUL), ("div", .DIV), ("mod", .MOD), ("rem", .MOD), ("and", .AND),
    ("or", .OR), ("xor", .XOR), ("not", .NOT), ("shl", .SHL), ("lsl", .SHL), ("shr", .SHR),
    ("lsr", .SHR), ("cmp", .CMP), ("test", .TEST), ("tst", .TEST), ("jmp", .JMP), ("j", .JMP),
    ("b", .JMP), ("beq", .BEQ), ("je", .BEQ), ("jz", .BEQ), ("bz", .BEQ), ("bne", .BNE), ("jne", .BNE),
    ("jnz", .BNE), ("bnz", .BNE), ("blt", .BLT), ("jb", .BLT), ("jl", .BLT), ("ble", .BLE),
    ("jbe", .BLE), ("jle", .BLE), ("bgt", .BGT), ("ja", .BGT), ("jg", .BGT), ("bge", .BGE),
    ("jae", .BGE), ("jge", .BGE), ("call", .CALL), ("ret", .RET), ("push", .PUSH), ("pop", .POP),
    ("out8", .OUT8), ("outb", .OUT8), ("out16", .OUT16), ("outw", .OUT16), ("out32", .OUT32),
    ("outl", .OUT32), ("outd", .OUT32), ("in8", .IN8), ("inb", .IN8), ("in16", .IN16), ("inw", .IN16),
    ("in32", .IN32), ("inl", .IN32), ("ind", .IN32), ("ld8", .LD8), ("mr8", .LD8), ("ld16", .LD16),
    ("mr16", .LD16), ("ld32", .LD32), ("mr32", .LD32), ("st8", .ST8), ("mw8", .ST8), ("st16", .ST16),
    ("mw16", .ST16), ("st32", .ST32), ("mw32", .ST32), ("pcicfg", .PCICFG), ("pciread", .PCICFG),
    ("pcird", .PCICFG), ("delay", .DELAY), ("udelay", .DELAY), ("usleep", .DELAY), ("print", .PRINT),
    ("log", .PRINT), ("mld8", .MLD8), ("mld16", .MLD16), ("mld32", .MLD32), ("mld64", .MLD64),
    ("mst8", .MST8), ("mst16", .MST16), ("mst32", .MST32), ("mst64", .MST64), ("mstr", .MSTR),
    ("mcpy", .MCPY), ("mmove", .MCPY), ("mset", .MSET), ("mfill", .MSET), ("mcmp", .MCMP),
    ("mfind", .MFIND), ("mchr", .MCHR), ("matoi", .MATOI), ("atoi", .MATOI), ("mitoa", .MITOA),
    ("itoa", .MITOA), ("sys", .SYS), ("syscall", .SYS)]

def find_mnemonic (t : tok_t) : Option dvm_op_t :=
  (mnemonic.find? fun m => tok_ieq t (bytes_of m.1)).map Prod.snd

def near : List (String × String) :=
  [("ou", " (did you mean out8, out16 or out32?)"),
    ("in", " (did you mean in8, in16 or in32?)"),
    ("ld", " (did you mean ld8, ld16 or ld32? scratch memory is mld8/mld16/mld32/mld64)"),
    ("mr", " (did you mean ld8, ld16 or ld32?)"),
    ("st", " (did you mean st8, st16 or st32? scratch memory is mst8/mst16/mst32/mst64)"),
    ("mw", " (did you mean st8, st16 or st32?)"),
    ("ml", " (did you mean mld8, mld16, mld32 or mld64?)"),
    ("pc", " (did you mean pcicfg?)")]

def near_hint (t : tok_t) : String :=
  ((near.find? fun n => (t.take 2).map dlower = bytes_of n.1).map Prod.snd).getD ""

/-- The name an error calls the instruction by. -/
def shown_mnemonic (t : tok_t) : String := text_of ((t.take 15).map dlower)

def dvm_insn_t.put (ins : dvm_insn_t) (k : Fin 3) (slot : slot_t) : dvm_insn_t :=
  { ins with kind := fun j => if j = k then slot.1 else ins.kind j,
             val := fun j => if j = k then slot.2 else ins.val j }

def blank_insn (op : dvm_op_t) (line : Nat) : dvm_insn_t :=
  ⟨op.toByte, DVM_NOREG, fun _ => DVM_O_NONE, UInt32.ofNat line, fun _ => 0⟩

/-- The syscall a token names, by its spelling or by its number. -/
def sys_number (t : tok_t) : Except String slot_t :=
  match dvm_sys_nr_t.all.find? fun nr => tok_ieq t (bytes_of (dvm_sys_name nr)) with
  | some nr => .ok (DVM_O_IMM, UInt64.ofNat nr.toNat)
  | none =>
    let names := String.intercalate " " (dvm_sys_nr_t.all.map dvm_sys_name)
    let unknown := s!"sys: \"{text_of t}\" is not a syscall on this machine; it has {names}"
    match parse_num t with
    | .num v => if v.toNat < DVM_SYS__COUNT then .ok (DVM_O_IMM, v) else .error unknown
    | _ => .error unknown

def bdf_operand (equ : List equ_t) (t : tok_t) : Except String slot_t :=
  match parse_bdf t with
  | some bdf => .ok (DVM_O_IMM, bdf)
  | none => operand equ "bdf" t

/-- Both forms of an address at once. -/
def both_forms (mn : String) : String := s!"{mn}: give either [base+disp] or two plain operands, not both"

/-- The operand formats of `assemble_insn`: the instruction, and the image
    with the strings it has interned. -/
def assemble_operands (as : as_t) (mn : String) (ins : dvm_insn_t) (fmt : fmt_t) (t : List tok_t) :
    Except String (dvm_program_t × dvm_insn_t) :=
  let p := as.p
  match fmt, t with
  | .F_NONE, [] => .ok (p, ins)
  | .F_NONE, _ => .error (need_operands mn t.length 0)
  | .F_STR, [s] => do
    let (p, str) ← intern_string p s
    pure (p, ins.put 0 str)
  | .F_STR, _ => .error (need_operands mn t.length 1)
  | .F_STR_OPT_A, [s] => do
    let (p, str) ← intern_string p s
    pure (p, ins.put 0 str)
  | .F_STR_OPT_A, [s, a] => do
    let (p, str) ← intern_string p s
    let x ← operand as.equ mn a
    pure (p, (ins.put 0 str).put 1 x)
  | .F_STR_OPT_A, _ =>
    let s := if t.length = 1 then "" else "s"
    .error s!"{mn} takes a string and an optional value, got {t.length} operand{s}"
  | .F_RD_A, [d, a] => do
    let dst ← dst_reg mn d
    let x ← operand as.equ mn a
    pure (p, { ins with dst := dst }.put 0 x)
  | .F_RD_A, _ => .error (need_operands mn t.length 2)
  | .F_RD_A_B, [d, b] => do
    -- "add r1, 4" is "add r1, r1, 4"
    let dst ← dst_reg mn d
    let y ← operand as.equ mn b
    pure (p, ({ ins with dst := dst }.put 0 (DVM_O_REG, dst.toUInt64)).put 1 y)
  | .F_RD_A_B, [d, a, b] => do
    let dst ← dst_reg mn d
    let x ← operand as.equ mn a
    let y ← operand as.equ mn b
    pure (p, ({ ins with dst := dst }.put 0 x).put 1 y)
  | .F_RD_A_B, _ =>
    .error s!"{mn} takes 2 or 3 operands (\"{mn} rd, a, b\" or the shorthand \"{mn} rd, b\"), got {t.length}"
  | .F_A_B, [a, b] => do
    let x ← operand as.equ mn a
    let y ← operand as.equ mn b
    pure (p, (ins.put 0 x).put 1 y)
  | .F_A_B, _ => .error (need_operands mn t.length 2)
  | .F_A, [a] => do
    let x ← operand as.equ mn a
    pure (p, ins.put 0 x)
  | .F_A, _ => .error (need_operands mn t.length 1)
  | .F_RD, [d] => do
    let dst ← dst_reg mn d
    pure (p, { ins with dst := dst })
  | .F_RD, _ => .error (need_operands mn t.length 1)
  | .F_LBL, [l] =>
    match label_lookup p l with
    | some target => .ok (p, ins.put 0 (DVM_O_PC, target.toUInt64))
    | none => .error s!"{mn}: no label named \"{text_of l}\" in this program"
  | .F_LBL, _ => .error (need_operands mn t.length 1)
  | .F_PORT_A, [port, a] => do
    let x ← operand as.equ "port" (port_token port)
    let y ← operand as.equ mn a
    pure (p, (ins.put 0 x).put 1 y)
  | .F_PORT_A, _ => .error (need_operands mn t.length 2)
  | .F_RD_PORT, [d, port] => do
    let dst ← dst_reg mn d
    let x ← operand as.equ "port" (port_token port)
    pure (p, { ins with dst := dst }.put 0 x)
  | .F_RD_PORT, _ => .error (need_operands mn t.length 2)
  | .F_RD_ADDR, [d, addr] => do
    let dst ← dst_reg mn d
    let (base, disp) ← addr_operand as.equ addr
    pure (p, ({ ins with dst := dst }.put 0 base).put 1 disp)
  | .F_RD_ADDR, [d, b, o] => do
    let dst ← dst_reg mn d
    refuse (is_bracketed b) (both_forms mn)
    let base ← operand as.equ "address base" b
    let disp ← operand as.equ "address displacement" o
    pure (p, ({ ins with dst := dst }.put 0 base).put 1 disp)
  | .F_RD_ADDR, _ =>
    .error s!"{mn} takes a destination register and an address (\"{mn} rd, [base+disp]\" or \"{mn} rd, base, disp\"), got {t.length} operands"
  | .F_ADDR_A, [addr, v] => do
    let (base, disp) ← addr_operand as.equ addr
    let value ← operand as.equ "value" v
    pure (p, ((ins.put 0 base).put 1 disp).put 2 value)
  | .F_ADDR_A, [b, o, v] => do
    refuse (is_bracketed b) (both_forms mn)
    let base ← operand as.equ "address base" b
    let disp ← operand as.equ "address displacement" o
    let value ← operand as.equ "value" v
    pure (p, ((ins.put 0 base).put 1 disp).put 2 value)
  | .F_ADDR_A, _ =>
    .error s!"{mn} takes an address and a value (\"{mn} [base+disp], value\" or \"{mn} base, disp, value\"), got {t.length} operands"
  | .F_RD_A_B_C, [d, a, b, c] => do
    let dst ← dst_reg mn d
    let x ← operand as.equ mn a
    let y ← operand as.equ mn b
    let z ← operand as.equ mn c
    pure (p, (({ ins with dst := dst }.put 0 x).put 1 y).put 2 z)
  | .F_RD_A_B_C, _ => .error (need_operands mn t.length 4)
  | .F_A_B_C, [a, b, c] => do
    let x ← operand as.equ mn a
    let y ← operand as.equ mn b
    let z ← operand as.equ mn c
    pure (p, ((ins.put 0 x).put 1 y).put 2 z)
  | .F_A_B_C, _ => .error (need_operands mn t.length 3)
  | .F_RD_STR_A, [d, a, s] => do
    let dst ← dst_reg mn d
    let (p, str) ← intern_string p s
    let x ← operand as.equ mn a
    pure (p, ({ ins with dst := dst }.put 0 str).put 1 x)
  | .F_RD_STR_A, _ => .error (need_operands mn t.length 3)
  | .F_RD_STR_A_B, [d, a, b, s] => do
    let dst ← dst_reg mn d
    let (p, str) ← intern_string p s
    let x ← operand as.equ mn a
    let y ← operand as.equ mn b
    pure (p, (({ ins with dst := dst }.put 0 str).put 1 x).put 2 y)
  | .F_RD_STR_A_B, _ => .error (need_operands mn t.length 4)
  | .F_SYS, [d, s] => do
    let dst ← dst_reg mn d
    let nr ← sys_number s
    pure (p, { ins with dst := dst }.put 0 nr)
  | .F_SYS, _ => .error (need_operands mn t.length 2)
  | .F_RD_BDF_OFF, [d, f, o] => do
    let dst ← dst_reg mn d
    let bdf ← bdf_operand as.equ f
    let off ← operand as.equ "config offset" o
    pure (p, ({ ins with dst := dst }.put 0 bdf).put 1 off)
  | .F_RD_BDF_OFF, _ => .error (need_operands mn t.length 3)

def too_long : String := s!"program too long (max {DVM_MAX_INSNS} instructions)"

def assemble_insn (as : as_t) (line : Nat) (op : dvm_op_t) (t : List tok_t) (mn : String) :
    Except String dvm_program_t :=
  if DVM_MAX_INSNS ≤ as.p.ninsn.toNat then .error too_long
  else do
    let (p, ins) ← assemble_operands as mn (blank_insn op line) (op_fmt op) t
    pure { p with insn := p.insn.set p.ninsn.toNat ins, ninsn := p.ninsn + 1 }

end fable.dvm
