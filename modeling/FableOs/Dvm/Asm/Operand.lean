import FableOs.Dvm.Asm.Lex
import FableOs.Dvm.Policy

namespace fable.dvm

structure equ_t where
  name : List UInt8
  val : UInt64
  deriving DecidableEq

/-- The assembler: the image it fills and its constants. -/
structure as_t where
  p : dvm_program_t
  equ : List equ_t
  deriving DecidableEq

def equ_lookup (equ : List equ_t) (t : tok_t) : Option UInt64 :=
  (equ.find? fun e => tok_ieq t e.name).map equ_t.val

def label_lookup (p : dvm_program_t) (t : tok_t) : Option UInt32 :=
  ((p.label.front p.nlabel.toNat).find? fun l => tok_ieq t (cstring l.name)).map dvm_label_t.pc

/-- The contents of one operand slot: its kind and its value. -/
abbrev slot_t := UInt8 × UInt64

def no_register (what : String) (t : tok_t) : String :=
  s!"{what}: register \"{text_of t}\" does not exist (this machine has r0-r{DVM_NREGS - 1})"

/-- A register, a number or a constant. Never a label. -/
def operand (equ : List equ_t) (what : String) (t : tok_t) : Except String slot_t :=
  match reg_index t with
  | .reg r => .ok (DVM_O_REG, UInt64.ofNat r)
  | .missing => .error (no_register what t)
  | .not_reg =>
    match parse_num t with
    | .num v => .ok (DVM_O_IMM, v)
    | .overflow => .error s!"{what}: number \"{text_of t}\" does not fit in 64 bits"
    | .not_num =>
      match equ_lookup equ t with
      | some v => .ok (DVM_O_IMM, v)
      | none => .error
          s!"{what}: expected a register (r0-r{DVM_NREGS - 1}), a number, or a .equ name, got \"{text_of t}\""

def is_bracketed (t : tok_t) : Bool := 2 ≤ t.length && t.head? = some OPEN_BRACKET

/-- A token without its first and its last byte. -/
def tok_inner (t : tok_t) : tok_t := t.tail.dropLast

/-- `t` without the separators at its end. -/
def trim_end (t : tok_t) : tok_t := (t.reverse.dropWhile is_space).reverse

/-- "[base+disp]", "[base]" or a bare base. -/
def addr_operand (equ : List equ_t) (t : tok_t) : Except String (slot_t × slot_t) :=
  if is_bracketed t then
    let inner := trim_end ((tok_inner t).dropWhile is_space)
    if inner = [] then .error "empty address []"
    else
      match inner.dropWhile (· != 0x2B) with
      | [] => do
        let base ← operand equ "address" inner
        pure (base, (DVM_O_IMM, 0))
      | _ :: after =>
        let b := trim_end (inner.takeWhile (· != 0x2B))
        let d := after.dropWhile is_space
        if b = [] ∨ d = [] then
          .error s!"malformed address \"{text_of t}\"; expected [base+displacement]"
        else do
          let base ← operand equ "address base" b
          let disp ← operand equ "address displacement" d
          pure (base, disp)
  else do
    let base ← operand equ "address" t
    pure (base, (DVM_O_IMM, 0))

/-- A port may be written with or without brackets. -/
def port_token (t : tok_t) : tok_t := if is_bracketed t then tok_inner t else t

def pool_full : String := s!"string pool full ({DVM_STRPOOL} bytes total across the program)"

/-- `p->strpool[p->strused++] = c` -/
def pool_put (p : dvm_program_t) (c : UInt8) : dvm_program_t :=
  { p with strpool := p.strpool.set p.strused.toNat c, strused := p.strused + 1 }

def pool_char (p : dvm_program_t) (c : UInt8) : Except String dvm_program_t :=
  if DVM_STRPOOL ≤ p.strused.toNat + 1 then .error pool_full else .ok (pool_put p c)

def string_escape (c : UInt8) : Option UInt8 :=
  if c = 0x6E then some 0x0A
  else if c = 0x74 then some 0x09
  else if c = 0x72 then some 0x0D
  else if c = 0x30 then some 0
  else if c = BACKSLASH then some BACKSLASH
  else if c = QUOTE then some QUOTE
  else none

/-- The bytes between the quotes, decoded into the pool. -/
def intern_chars (p : dvm_program_t) : List UInt8 → Except String dvm_program_t
  | [] => .ok p
  | [c] => pool_char p c
  | c :: e :: rest =>
    if c = BACKSLASH then
      match string_escape e with
      | none => .error ("unknown escape \"\\" ++ text_of [e] ++ "\" in a string literal")
      | some b => do
        let p ← pool_char p b
        intern_chars p rest
    else do
      let p ← pool_char p c
      intern_chars p (e :: rest)

/-- The image with the string interned, and the slot that refers to it. -/
def intern_string (p : dvm_program_t) (t : tok_t) : Except String (dvm_program_t × slot_t) :=
  if t.length < 2 ∨ t.head? ≠ some QUOTE ∨ t.getLast? ≠ some QUOTE then
    .error s!"expected a quoted string, got \"{text_of t}\""
  else if DVM_MAX_STRINGS ≤ p.nstr.toNat then .error s!"too many strings (max {DVM_MAX_STRINGS})"
  else do
    let start := p.strused
    let p ← intern_chars p (tok_inner t)
    if DVM_STRPOOL < p.strused.toNat + 1 then .error pool_full
    else
      let p := pool_put p 0
      pure ({ p with stroff := p.stroff.set p.nstr.toNat start.toUInt16, nstr := p.nstr + 1 },
        (DVM_O_STR, p.nstr.toUInt64))

def dst_reg (mn : String) (t : tok_t) : Except String UInt8 :=
  match reg_index t with
  | .reg r => .ok (UInt8.ofNat r)
  | .missing => .error (no_register mn t)
  | .not_reg => .error s!"{mn}: destination must be a register (r0-r{DVM_NREGS - 1}), got \"{text_of t}\""

/-- The text of `need_operands` for a wrong number of operands. -/
def need_operands (mn : String) (got want : Nat) : String :=
  let s := if want = 1 then "" else "s"
  s!"{mn} takes {want} operand{s}, got {got}"

end fable.dvm
