import FableOs.Dvm.Syscall
import FableOs.Dvm.Validate

namespace fable.dvm

open fable.exec

variable {σ : Type}

/-- The bytes of a C string at the front of a buffer, if it ends inside it. -/
def c_string (bytes : List UInt8) : Option (List UInt8) :=
  if 0 ∈ bytes then some (bytes.takeWhile (· != 0)) else none

/-- `str_at`; absent where the source would read outside a table. -/
def str_at (p : dvm_program_t) (idx : UInt64) : Option (List UInt8) :=
  if p.nstr.toNat ≤ idx.toNat then some []
  else
    match p.stroff.get? idx.toNat with
    | none => none
    | some off => if DVM_STRPOOL ≤ off.toNat then some [] else c_string (pool_from p off.toNat)

/-- How an instruction leaves the loop body: the next `pc`, and the value of
    `v` when `is_alu` is set. -/
structure flow_t where
  next : Nat
  v : Option UInt64

def exec_halt : M σ flow_t := do
  Exec.modify fun st => { st with res := { st.res with status := .DVM_OK, pc := st.pc, msg := "" } }
  Exec.stop .DVM_OK

def exec_abort (env : env_t σ) (insn : dvm_insn_t) : M σ flow_t := do
  let msg ← Exec.ofOption (str_at env.p (insn.val 0))
  trap env .DVM_TRAP_ABORT (copy_printable DVM_MSG_MAX (text_of msg))

/-- The value of an arithmetic opcode; absent for a division by zero. -/
def alu (op : dvm_op_t) (a b : UInt64) : Option UInt64 :=
  match op with
  | .MOV => some a
  | .ADD => some (a + b)
  | .SUB => some (a - b)
  | .MUL => some (a * b)
  | .DIV => if b = 0 then none else some (a / b)
  | .MOD => if b = 0 then none else some (a % b)
  | .AND => some (a &&& b)
  | .OR => some (a ||| b)
  | .XOR => some (a ^^^ b)
  | .NOT => some (~~~a)
  | .SHL => some (a <<< (b &&& 63))
  | .SHR => some (a >>> (b &&& 63))
  | _ => none

def exec_alu (env : env_t σ) (op : dvm_op_t) (a b : UInt64) (next : Nat) : M σ flow_t :=
  match alu op a b with
  | some v => pure ⟨next, some v⟩
  | none => trap env .DVM_TRAP_DIV0 s!"{dvm_op_name op} by zero"

def set_flags (zero below : Bool) : M σ Unit := Exec.modify fun st => { st with zero, below }

def exec_cmp (env : env_t σ) (a b : UInt64) (next : Nat) : M σ flow_t := do
  set_flags (a = b) (a < b)
  tline env DVM_TRACE_ALL
  pure ⟨next, none⟩

def exec_test (env : env_t σ) (a b : UInt64) (next : Nat) : M σ flow_t := do
  set_flags (a &&& b = 0) false
  tline env DVM_TRACE_ALL
  pure ⟨next, none⟩

def branch_taken (op : dvm_op_t) (zero below : Bool) : Bool :=
  match op with
  | .JMP => true
  | .BEQ => zero
  | .BNE => !zero
  | .BLT => below
  | .BLE => below || zero
  | .BGT => !below && !zero
  | .BGE => !below
  | _ => false

def exec_branch (env : env_t σ) (op : dvm_op_t) (insn : dvm_insn_t) (next : Nat) : M σ flow_t := do
  let st ← Exec.read
  let take := branch_taken op st.zero st.below
  require env (refuse (take ∧ (insn.kind 0 ≠ DVM_O_PC ∨ env.p.ninsn.toNat ≤ (insn.val 0).toNat))
    (.DVM_TRAP_PC,
      s!"{dvm_op_name op}: branch target {(insn.val 0).toNat} is outside the program (0-{env.p.ninsn.toNat - 1})"))
  tline env DVM_TRACE_ALL
  pure ⟨if take then (insn.val 0).toNat else next, none⟩

def exec_call (env : env_t σ) (insn : dvm_insn_t) (next : Nat) : M σ flow_t := do
  let st ← Exec.read
  require env (refuse (DVM_CSTACK ≤ st.csp)
    (.DVM_TRAP_STACK, s!"call stack overflow (depth {DVM_CSTACK}); recursion is bounded"))
  require env (refuse (insn.kind 0 ≠ DVM_O_PC ∨ env.p.ninsn.toNat ≤ (insn.val 0).toNat)
    (.DVM_TRAP_PC, s!"call: target {(insn.val 0).toNat} is outside the program"))
  Exec.inBounds (st.csp < DVM_CSTACK)
  Exec.modify fun st => { st with cstack := st.cstack.set st.csp next, csp := st.csp + 1 }
  tline env DVM_TRACE_ALL
  pure ⟨(insn.val 0).toNat, none⟩

def exec_ret (env : env_t σ) : M σ flow_t := do
  let st ← Exec.read
  require env (refuse (st.csp = 0) (.DVM_TRAP_STACK, "ret with an empty call stack"))
  let next ← Exec.ofOption (st.cstack.get? (st.csp - 1))
  Exec.modify fun st => { st with csp := st.csp - 1 }
  require env (refuse (env.p.ninsn.toNat < next)
    (.DVM_TRAP_PC, s!"ret: return address {next} is outside the program"))
  tline env DVM_TRACE_ALL
  pure ⟨next, none⟩

def exec_push (env : env_t σ) (a : UInt64) (next : Nat) : M σ flow_t := do
  let st ← Exec.read
  require env (refuse (DVM_DSTACK ≤ st.dsp) (.DVM_TRAP_STACK, s!"data stack overflow (depth {DVM_DSTACK})"))
  Exec.inBounds (st.dsp < DVM_DSTACK)
  Exec.modify fun st => { st with dstack := st.dstack.set st.dsp a, dsp := st.dsp + 1 }
  tline env DVM_TRACE_ALL
  pure ⟨next, none⟩

/-- `st->dstack[--st->dsp]` -/
def pop : M σ UInt64 := do
  let st ← Exec.read
  Exec.inBounds (0 < st.dsp)
  let v ← Exec.ofOption (st.dstack.get? (st.dsp - 1))
  Exec.modify fun st => { st with dsp := st.dsp - 1 }
  pure v

def exec_pop (env : env_t σ) (next : Nat) : M σ flow_t := do
  let st ← Exec.read
  require env (refuse (st.dsp = 0) (.DVM_TRAP_STACK, "pop from an empty data stack"))
  let v ← pop
  pure ⟨next, some v⟩

end fable.dvm
