import Mathlib

namespace x64

/-! A subset of the x86-64 instruction set: registers, status flags, byte
memory, and what each instruction does. A flag that an instruction leaves
undefined has no value, and a condition that reads one has no outcome. -/

inductive Reg where
  | rax | rcx | rdx | rbx | rsp | rbp | rsi | rdi | r8 | r9 | r10 | r11 | r12 | r13 | r14 | r15
  deriving DecidableEq

inductive Width where
  | w8 | w16 | w32 | w64
  deriving DecidableEq

namespace Width

def bytes : Width → Nat
  | w8 => 1
  | w16 => 2
  | w32 => 4
  | w64 => 8

def bits (w : Width) : Nat := 8 * w.bytes

/-- The low bits of a value, extended with zeros. -/
def zext (w : Width) (v : BitVec 64) : BitVec 64 := (v.setWidth w.bits).setWidth 64

/-- The low bits of a value, extended with their sign. -/
def sext (w : Width) (v : BitVec 64) : BitVec 64 := (v.setWidth w.bits).signExtend 64

end Width

/-- A register, or the memory at a base register and a displacement. -/
inductive RM where
  | reg (r : Reg)
  | mem (base : Reg) (disp : BitVec 64)
  deriving DecidableEq

inductive Alu where
  | add | or | and | sub | xor | cmp
  deriving DecidableEq

inductive Shift where
  | shl | shr | sar
  deriving DecidableEq

inductive Cond where
  | b | e | ne | be | s | l | le
  deriving DecidableEq

inductive Instr where
  | push (r : Reg)
  | pop (r : Reg)
  | movImm (w : Width) (r : Reg) (imm : BitVec 64)
  | lea (r base : Reg) (disp : BitVec 64)
  | mov (w : Width) (dst src : RM)
  | movImmRM (w : Width) (dst : RM) (imm : BitVec 64)
  | movx (signed : Bool) (src_width w : Width) (dst : Reg) (src : RM)
  | alu (op : Alu) (w : Width) (dst src : RM)
  | aluImm (op : Alu) (w : Width) (dst : RM) (imm : BitVec 64)
  | test (w : Width) (dst : RM) (src : Reg)
  | imul (w : Width) (dst : Reg) (src : RM)
  | cdq (w : Width)
  | div (signed : Bool) (w : Width) (src : RM)
  | not (w : Width) (dst : RM)
  | shift (op : Shift) (w : Width) (dst : RM)
  | setcc (c : Cond) (dst : RM)
  | inc (w : Width) (dst : RM)
  | dec (w : Width) (dst : RM)
  | jcc (c : Cond) (rel : BitVec 64)
  | jmp (rel : BitVec 64)
  | call (rel : BitVec 64)
  | callRM (target : RM)
  | ret
  deriving DecidableEq

structure Flags where
  zf : Option Bool
  sf : Option Bool
  cf : Option Bool
  ovf : Option Bool
  deriving DecidableEq

abbrev Mem := BitVec 64 → UInt8

structure Machine where
  regs : Reg → BitVec 64
  flags : Flags
  mem : Mem
  rip : BitVec 64

section Memory

/-- The little-endian number in the `n` bytes at an address. -/
def load (m : Mem) (a : BitVec 64) : Nat → Nat
  | 0 => 0
  | n + 1 => (m a).toNat + 256 * load m (a + 1) n

def read (m : Mem) (a : BitVec 64) (w : Width) : BitVec 64 := BitVec.ofNat 64 (load m a w.bytes)

def write (m : Mem) (a : BitVec 64) (w : Width) (v : BitVec 64) : Mem := fun x =>
  if (x - a).toNat < w.bytes then UInt8.ofNat (v.toNat / 256 ^ (x - a).toNat) else m x

end Memory

namespace Machine

def setReg (s : Machine) (r : Reg) (v : BitVec 64) : Machine := { s with regs := Function.update s.regs r v }

/-- A write to the low part of a register. A 32-bit write clears the upper
    half, a narrower one keeps the rest. -/
def writeReg (s : Machine) (w : Width) (r : Reg) (v : BitVec 64) : Machine :=
  match w with
  | .w64 => s.setReg r v
  | .w32 => s.setReg r (Width.w32.zext v)
  | .w16 => s.setReg r (s.regs r - Width.w16.zext (s.regs r) + Width.w16.zext v)
  | .w8 => s.setReg r (s.regs r - Width.w8.zext (s.regs r) + Width.w8.zext v)

def getRM (s : Machine) (w : Width) : RM → BitVec 64
  | .reg r => w.zext (s.regs r)
  | .mem base disp => read s.mem (s.regs base + disp) w

def setRM (s : Machine) (w : Width) (v : BitVec 64) : RM → Machine
  | .reg r => s.writeReg w r v
  | .mem base disp => { s with mem := write s.mem (s.regs base + disp) w v }

def setFlags (s : Machine) (f : Flags) : Machine := { s with flags := f }

def goto (s : Machine) (a : BitVec 64) : Machine := { s with rip := a }

def pushWord (s : Machine) (v : BitVec 64) : Machine :=
  { s with
    regs := Function.update s.regs .rsp (s.regs .rsp - 8),
    mem := write s.mem (s.regs .rsp - 8) .w64 v }

end Machine

/-- The flags of a result whose carry and overflow are given. -/
def flagsOf {n : Nat} (r : BitVec n) (cf ovf : Bool) : Flags := ⟨some (r = 0), some r.msb, some cf, some ovf⟩

def undefinedFlags : Flags := ⟨none, none, none, none⟩

/-- The result of an operation on two values of a width, and its flags. -/
def aluOp {n : Nat} (op : Alu) (a b : BitVec n) : BitVec n × Flags :=
  match op with
  | .add => (a + b, flagsOf (a + b) (a.uaddOverflow b) (a.saddOverflow b))
  | .or => (a ||| b, flagsOf (a ||| b) false false)
  | .and => (a &&& b, flagsOf (a &&& b) false false)
  | .sub | .cmp => (a - b, flagsOf (a - b) (a.usubOverflow b) (a.ssubOverflow b))
  | .xor => (a ^^^ b, flagsOf (a ^^^ b) false false)

def aluExec (s : Machine) (op : Alu) (w : Width) (dst : RM) (b : BitVec 64) : Machine :=
  let r := aluOp op ((s.getRM w dst).setWidth w.bits) (b.setWidth w.bits)
  if op = .cmp then s.setFlags r.2 else (s.setRM w (r.1.setWidth 64) dst).setFlags r.2

/-- Whether a condition holds, if the flags it reads have values. -/
def Cond.holds (c : Cond) (f : Flags) : Option Bool :=
  match c with
  | .b => f.cf
  | .e => f.zf
  | .ne => f.zf.map (!·)
  | .be => do return (← f.cf) || (← f.zf)
  | .s => f.sf
  | .l => do return (← f.sf) != (← f.ovf)
  | .le => do return (← f.zf) || ((← f.sf) != (← f.ovf))

/-- The double-width dividend in rdx:rax. -/
def dividend (s : Machine) (w : Width) : Nat :=
  (w.zext (s.regs .rdx)).toNat * 2 ^ w.bits + (w.zext (s.regs .rax)).toNat

/-- Division; a zero divisor or a quotient that does not fit is a fault. -/
def divExec (s : Machine) (signed : Bool) (w : Width) (d : BitVec 64) : Option Machine :=
  if d = 0 then none
  else if signed then
    let n := (dividend s w : Int).bmod (2 ^ (2 * w.bits))
    let q := n.tdiv (w.sext d).toInt
    let r := n.tmod (w.sext d).toInt
    if q < -2 ^ (w.bits - 1) ∨ 2 ^ (w.bits - 1) ≤ q then none
    else some (((s.writeReg w .rax (BitVec.ofInt 64 q)).writeReg w .rdx (BitVec.ofInt 64 r)).setFlags undefinedFlags)
  else
    let q := dividend s w / d.toNat
    let r := dividend s w % d.toNat
    if 2 ^ w.bits ≤ q then none
    else some (((s.writeReg w .rax (BitVec.ofNat 64 q)).writeReg w .rdx (BitVec.ofNat 64 r)).setFlags undefinedFlags)

/-- A shift by cl, whose count is taken modulo 32, or 64 for a 64-bit operand.
    The flags depend on the count and are not modelled. -/
def shiftOp {n : Nat} (op : Shift) (a : BitVec n) (count : Nat) : BitVec n :=
  match op with
  | .shl => a <<< count
  | .shr => a >>> count
  | .sar => a.sshiftRight count

def shiftCount (w : Width) (cl : BitVec 64) : Nat := if w = .w64 then cl.toNat % 64 else cl.toNat % 32

/-- One instruction. `next` is the address of the instruction behind it. -/
def exec (s : Machine) (next : BitVec 64) : Instr → Option Machine
  | .push r => some ((s.pushWord (s.regs r)).goto next)
  | .pop r =>
    let v := read s.mem (s.regs .rsp) .w64
    some (((s.setReg .rsp (s.regs .rsp + 8)).setReg r v).goto next)
  | .movImm w r imm => some ((s.writeReg w r imm).goto next)
  | .lea r base disp => some ((s.setReg r (s.regs base + disp)).goto next)
  | .mov w dst src => some ((s.setRM w (s.getRM w src) dst).goto next)
  | .movImmRM w dst imm => some ((s.setRM w imm dst).goto next)
  | .movx signed src_width w dst src =>
    let v := s.getRM src_width src
    some ((s.writeReg w dst (if signed then src_width.sext v else v)).goto next)
  | .alu op w dst src => some ((aluExec s op w dst (s.getRM w src)).goto next)
  | .aluImm op w dst imm => some ((aluExec s op w dst imm).goto next)
  | .test w dst src =>
    let r := (s.getRM w dst).setWidth w.bits &&& (s.regs src).setWidth w.bits
    some ((s.setFlags (flagsOf r false false)).goto next)
  | .imul w dst src =>
    let r := (s.regs dst).setWidth w.bits * (s.getRM w src).setWidth w.bits
    some (((s.writeReg w dst (r.setWidth 64)).setFlags undefinedFlags).goto next)
  | .cdq w =>
    let v : BitVec 64 := if ((s.regs .rax).setWidth w.bits).msb then -1 else 0
    some ((s.writeReg w .rdx v).goto next)
  | .div signed w src => (divExec s signed w (s.getRM w src)).map (·.goto next)
  | .not w dst => some ((s.setRM w (~~~(s.getRM w dst)) dst).goto next)
  | .shift op w dst =>
    let r := shiftOp op ((s.getRM w dst).setWidth w.bits) (shiftCount w (s.regs .rcx))
    some (((s.setRM w (r.setWidth 64) dst).setFlags undefinedFlags).goto next)
  | .setcc c dst => (c.holds s.flags).map fun b => (s.setRM .w8 (if b then 1 else 0) dst).goto next
  | .inc w dst =>
    let a := (s.getRM w dst).setWidth w.bits
    let f := flagsOf (a + 1) false (a.saddOverflow 1)
    some (((s.setRM w ((a + 1).setWidth 64) dst).setFlags { f with cf := s.flags.cf }).goto next)
  | .dec w dst =>
    let a := (s.getRM w dst).setWidth w.bits
    let f := flagsOf (a - 1) false (a.ssubOverflow 1)
    some (((s.setRM w ((a - 1).setWidth 64) dst).setFlags { f with cf := s.flags.cf }).goto next)
  | .jcc c rel => (c.holds s.flags).map fun b => s.goto (if b then next + rel else next)
  | .jmp rel => some (s.goto (next + rel))
  | .call rel => some ((s.pushWord next).goto (next + rel))
  | .callRM target => some ((s.pushWord next).goto (s.getRM .w64 target))
  | .ret => some ((s.setReg .rsp (s.regs .rsp + 8)).goto (read s.mem (s.regs .rsp) .w64))

end x64
