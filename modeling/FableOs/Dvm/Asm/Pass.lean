import FableOs.Dvm.Asm.Assemble

namespace fable.dvm

/-- The value of a constant: a number, or a constant defined before it. -/
def equ_value (equ : List equ_t) (name value : tok_t) : Except String UInt64 :=
  match parse_num value with
  | .num v => .ok v
  | .overflow => .error s!".equ {text_of name}: number \"{text_of value}\" does not fit in 64 bits"
  | .not_num =>
    match equ_lookup equ value with
    | some v => .ok v
    | none => .error s!".equ {text_of name}: expected a number, got \"{text_of value}\""

def do_equ (as : as_t) (t : List tok_t) : Except String as_t :=
  match t with
  | [name, value] => do
    refuse (DVM_MAX_EQU ≤ as.equ.length) s!"too many .equ constants (max {DVM_MAX_EQU})"
    refuse (name = [] ∨ DVM_LABEL_MAX ≤ name.length)
      s!"constant name \"{text_of name}\" is too long (max {DVM_LABEL_MAX - 1} characters)"
    refuse (¬ name.head?.all is_ident_start)
      s!"constant name \"{text_of name}\" must start with a letter or '_'"
    refuse (¬ name.all is_ident_char) s!"constant name \"{text_of name}\" contains an illegal character"
    refuse (reg_index name ≠ .not_reg) s!"\"{text_of name}\" is a register name and cannot be a constant"
    refuse ((equ_lookup as.equ name).isSome) s!"constant \"{text_of name}\" is already defined"
    refuse ((label_lookup as.p name).isSome) s!"\"{text_of name}\" is already a label"
    let v ← equ_value as.equ name value
    pure { as with equ := as.equ ++ [⟨name, v⟩] }
  | _ => .error ".equ takes a name and a value, e.g. \".equ NAM_BAR 0x10\""

def add_label (as : as_t) (name : tok_t) : Except String as_t := do
  let p := as.p
  refuse (name = [] ∨ DVM_LABEL_MAX ≤ name.length)
    s!"label \"{text_of name}\" is too long (max {DVM_LABEL_MAX - 1} characters)"
  refuse (¬ name.head?.all is_ident_start)
    s!"label \"{text_of name}\" must start with a letter, '_' or '.'"
  refuse (¬ name.all is_ident_char) s!"label \"{text_of name}\" contains an illegal character"
  refuse (reg_index name ≠ .not_reg) s!"\"{text_of name}\" is a register name and cannot be a label"
  refuse ((find_mnemonic name).isSome) s!"\"{text_of name}\" is an instruction name and cannot be a label"
  refuse ((label_lookup p name).isSome) s!"label \"{text_of name}\" is already defined"
  refuse ((equ_lookup as.equ name).isSome) s!"\"{text_of name}\" is already a .equ constant"
  refuse (DVM_MAX_LABELS ≤ p.nlabel.toNat) s!"too many labels (max {DVM_MAX_LABELS})"
  pure { as with p := { p with
    label := p.label.set p.nlabel.toNat ⟨CArray.ofList _ name 0, p.ninsn⟩, nlabel := p.nlabel + 1 } }

/-- Pass 1 collects labels and constants and counts instructions, pass 2 emits. -/
inductive pass_t where
  | first
  | second
  deriving DecidableEq, Repr

/-- The label in front of a line, and what follows it. -/
def split_label : List tok_t → Option tok_t × List tok_t
  | [] => (none, [])
  | t :: rest => if 1 < t.length ∧ t.getLast? = some 0x3A then (some t.dropLast, rest) else (none, t :: rest)

def is_equ (t : tok_t) : Bool :=
  tok_ieq t (bytes_of ".equ") || tok_ieq t (bytes_of ".def") || tok_ieq t (bytes_of ".set")

def define_label (pass : pass_t) (as : as_t) : Option tok_t → Except String as_t
  | none => .ok as
  | some name => if pass = .first then add_label as name else .ok as

/-- One instruction of the source: counted by pass 1, emitted by pass 2. -/
def assemble_stmt (pass : pass_t) (as : as_t) (line : Nat) (op : dvm_op_t) (args : List tok_t) (mn : String) :
    Except String as_t :=
  match pass with
  | .first =>
    if DVM_MAX_INSNS ≤ as.p.ninsn.toNat then .error too_long
    else .ok { as with p := { as.p with ninsn := as.p.ninsn + 1 } }
  | .second => do
    let p ← assemble_insn as line op args mn
    pure { as with p := p }

/-- A line after its label. -/
def assemble_body (pass : pass_t) (as : as_t) (line : Nat) : List tok_t → Except String as_t
  | [] => .ok as
  | t :: args =>
    if t.head? = some 0x2E then
      if is_equ t then if pass = .first then do_equ as args else .ok as
      else .error s!"unknown directive \"{text_of t}\" (only .equ is supported)"
    else
      match find_mnemonic t with
      | none => .error s!"unknown instruction \"{text_of t}\"{near_hint t}"
      | some op => assemble_stmt pass as line op args (shown_mnemonic t)

def assemble_line (pass : pass_t) (as : as_t) (line : Nat) (raw : List UInt8) : Except String as_t := do
  let t ← line_tokens raw
  let as ← define_label pass as (split_label t).1
  assemble_body pass as line (split_label t).2

/-- The lines from number `line` on, up to the first error. -/
def assemble_lines (pass : pass_t) (as : as_t) (line : Nat) : List (List UInt8) → Except dvm_asm_err_t as_t
  | [] => .ok as
  | raw :: rest =>
    match assemble_line pass as line raw with
    | .error msg => .error ⟨UInt32.ofNat line, snprintf DVM_MSG_MAX msg⟩
    | .ok as => assemble_lines pass as (line + 1) rest

def assemble_pass (pass : pass_t) (as : as_t) (src : List UInt8) : Except dvm_asm_err_t as_t := do
  let lines := source_lines src
  let as ← assemble_lines pass { as with p := { as.p with ninsn := 0 } } 1 lines
  pure { as with p := { as.p with src_lines := UInt32.ofNat lines.length } }

/-- An image of zeros. -/
def zero_program : dvm_program_t where
  insn := CArray.replicate _ ⟨0, 0, fun _ => 0, 0, fun _ => 0⟩
  ninsn := 0
  label := CArray.replicate _ ⟨CArray.replicate _ 0, 0⟩
  nlabel := 0
  strpool := CArray.replicate _ 0
  stroff := CArray.replicate _ 0
  nstr := 0
  strused := 0
  src_lines := 0

/-- `dvm_assemble`; the text is absent when the source pointer is NULL and the
    length is not zero. -/
def dvm_assemble (src : Option (List UInt8)) : Except dvm_asm_err_t dvm_program_t :=
  match src with
  | none => .error ⟨0, "no program text"⟩
  | some src => do
    refuse (DVM_SRC_MAX < src.length) ⟨0, s!"program is {src.length} bytes; the limit is {DVM_SRC_MAX}"⟩
    let as ← assemble_pass .first ⟨zero_program, []⟩ src
    let as ← assemble_pass .second as src
    refuse (as.p.ninsn = 0) ⟨0, "the program contains no instructions"⟩
    pure as.p

end fable.dvm
