import FableOs.Dvm.Insn.Memory

namespace fable.dvm

open fable.exec

variable {σ : Type}

/-- `for (i = arity - 1; i >= 0; i--) sargs[i] = st->dstack[--st->dsp]` -/
def pop_args : Nat → M σ (List UInt64)
  | 0 => pure []
  | n + 1 => do
    let v ← pop
    let rest ← pop_args n
    pure (rest ++ [v])

def put_sys_grants (pol : dvm_policy_t) : String :=
  grants 128 ((dvm_sys_nr_t.all.filter (sys_granted pol.sys_allow)).map dvm_sys_name)

def sys_verdict (env : env_t σ) (st : run_t σ) (nr : dvm_sys_nr_t) : Except (dvm_status_t × String) Unit := do
  refuse (¬ sys_granted env.pol.sys_allow nr)
    (.DVM_TRAP_SYS_DENIED,
      s!"sys {dvm_sys_name nr}: this program was not granted that syscall (it has {put_sys_grants env.pol})")
  refuse (env.pol.max_sys.toNat ≤ st.res.n_sys)
    (.DVM_TRAP_SYS_BUDGET, s!"syscall budget of {env.pol.max_sys.toNat} reached at sys {dvm_sys_name nr}")

def sys_stack_verdict (st : run_t σ) (nr : dvm_sys_nr_t) : Except (dvm_status_t × String) Unit := do
  refuse (st.dsp < dvm_sys_arity nr)
    (.DVM_TRAP_STACK,
      s!"sys {dvm_sys_name nr} takes {dvm_sys_arity nr} argument(s) pushed onto the data stack, and only {st.dsp} are on it")
  refuse (DVM_SYS_MAXARGS < dvm_sys_arity nr)
    (.DVM_TRAP_BADOP,
      s!"sys {dvm_sys_name nr}: its arity of {dvm_sys_arity nr} is past this VM's {DVM_SYS_MAXARGS}-argument limit, which is a kernel bug")

def exec_sys_nr (env : env_t σ) (nr : dvm_sys_nr_t) (next : Nat) : M σ flow_t := do
  let st ← Exec.read
  require env (sys_verdict env st nr)
  let sys ← sys_hook env env.io.sys s!"sys {dvm_sys_name nr}: this VM has no kernel backend"
  require env (sys_stack_verdict st nr)
  let sargs ← pop_args (dvm_sys_arity nr)
  count fun res => { res with n_sys := res.n_sys + 1 }
  let out ← sys_call env sys nr fun i => sargs.getD i 0
  set_flags out.2 false
  tline env DVM_TRACE_IO
  pure ⟨next, some out.1⟩

def exec_sys (env : env_t σ) (insn : dvm_insn_t) (next : Nat) : M σ flow_t :=
  match dvm_sys_nr_t.ofNat? ((insn.val 0).toNat % 2 ^ 32) with
  | none => trap env .DVM_TRAP_BADOP s!"sys: {(insn.val 0).toNat} is not a syscall"
  | some nr => exec_sys_nr env nr next

def exec_print (env : env_t σ) (insn : dvm_insn_t) (next : Nat) : M σ flow_t := do
  let st ← Exec.read
  require env (refuse (env.pol.max_prints.toNat ≤ st.res.prints)
    (.DVM_TRAP_PRINT_BUDGET, s!"print budget of {env.pol.max_prints.toNat} lines reached"))
  count fun res => { res with prints := res.prints + 1 }
  let _text ← Exec.ofOption (str_at env.p (insn.val 0))
  tline env DVM_TRACE_IO
  pure ⟨next, none⟩

def exec_nop (env : env_t σ) (next : Nat) : M σ flow_t := do
  tline env DVM_TRACE_ALL
  pure ⟨next, none⟩

/-- The switch of `execute`. -/
def exec_op (env : env_t σ) (op : dvm_op_t) (insn : dvm_insn_t) (next : Nat) (a b c : UInt64) : M σ flow_t :=
  match op with
  | .HALT => exec_halt
  | .ABORT => exec_abort env insn
  | .NOP => exec_nop env next
  | .MOV | .ADD | .SUB | .MUL | .DIV | .MOD | .AND | .OR | .XOR | .NOT | .SHL | .SHR =>
    exec_alu env op a b next
  | .CMP => exec_cmp env a b next
  | .TEST => exec_test env a b next
  | .JMP | .BEQ | .BNE | .BLT | .BLE | .BGT | .BGE => exec_branch env op insn next
  | .CALL => exec_call env insn next
  | .RET => exec_ret env
  | .PUSH => exec_push env a next
  | .POP => exec_pop env next
  | .OUT8 | .OUT16 | .OUT32 => exec_out env op a b next
  | .IN8 | .IN16 | .IN32 => exec_in env op a next
  | .LD8 | .LD16 | .LD32 => exec_ld env op a b next
  | .ST8 | .ST16 | .ST32 => exec_st env op a b c next
  | .PCICFG => exec_pcicfg env a b next
  | .MLD8 | .MLD16 | .MLD32 | .MLD64 => exec_mld env op a b next
  | .MST8 | .MST16 | .MST32 | .MST64 => exec_mst env op a b c next
  | .MSTR => exec_mstr env insn b next
  | .MCPY => exec_mcpy env a b c next
  | .MSET => exec_mset env a b c next
  | .MCMP => exec_mcmp env a b c next
  | .MFIND => exec_mfind env insn b c next
  | .MCHR => exec_mchr env a b c next
  | .MATOI => exec_matoi env a b c next
  | .MITOA => exec_mitoa env a b c next
  | .SYS => exec_sys env insn next
  | .DELAY => exec_delay env a next
  | .PRINT => exec_print env insn next

def exec_insn (env : env_t σ) (insn : dvm_insn_t) (next : Nat) (a b c : UInt64) : M σ flow_t :=
  match dvm_op_t.ofByte insn.op with
  | none => trap env .DVM_TRAP_BADOP s!"opcode {insn.op.toNat} is not implemented"
  | some op => exec_op env op insn next a b c

def traced_itself (op : dvm_op_t) : Bool :=
  match op with
  | .IN8 | .IN16 | .IN32 | .LD8 | .LD16 | .LD32 | .MLD8 | .MLD16 | .MLD32 | .MLD64
  | .MATOI | .SYS | .PCICFG => true
  | _ => false

/-- `if (is_alu) ...` -/
def write_back (env : env_t σ) (insn : dvm_insn_t) (v : Option UInt64) : M σ Unit :=
  match v with
  | none => pure ()
  | some v => do
    let op := dvm_op_t.ofByte insn.op
    let name := (op.map dvm_op_name).getD "?"
    require env (refuse (DVM_NREGS ≤ insn.dst.toNat)
      (.DVM_TRAP_RANGE, s!"{name}: destination register r{insn.dst.toNat} does not exist"))
    Exec.inBounds (insn.dst.toNat < DVM_NREGS)
    Exec.modify fun st => { st with reg := st.reg.set insn.dst.toNat v }
    if op.any traced_itself then pure () else tline env DVM_TRACE_ALL

/-- The instruction at `pc`, which the loop has tested to be one. -/
def execute_insn (env : env_t σ) : M σ Unit := do
  let st ← Exec.read
  let insn ← Exec.ofOption (env.p.insn.get? st.pc)
  Exec.modify fun st => { st with line := insn.line, res := { st.res with steps := st.res.steps + 1 } }
  let flow ← exec_insn env insn (st.pc + 1) (rd st insn 0) (rd st insn 1) (rd st insn 2)
  write_back env insn flow.v
  Exec.modify fun st => { st with pc := flow.next }

def set_line (line : UInt32) : M σ Unit := Exec.modify fun st => { st with line }

/-- `(st->pc < p->ninsn) ? p->insn[st->pc].line : 0` -/
def line_at (p : dvm_program_t) (pc : Nat) : Option UInt32 :=
  if pc < p.ninsn.toNat then (p.insn.get? pc).map dvm_insn_t.line else some 0

def out_of_steps (env : env_t σ) : M σ Unit := do
  let st ← Exec.read
  let line ← Exec.ofOption (line_at env.p st.pc)
  set_line line
  trap env .DVM_TRAP_STEPS
    s!"instruction budget of {env.pol.max_steps.toNat} exhausted; the program did not reach halt (an unterminated loop?)"

def ran_past (env : env_t σ) : M σ Unit := do
  let insn ← Exec.ofOption (env.p.insn.get? (env.p.ninsn.toNat - 1))
  set_line insn.line
  trap env .DVM_TRAP_PC "ran past the last instruction; every path must end in halt or abort"

/-- The body of the `for (;;)` of `execute`. -/
def execute_body (env : env_t σ) : M σ Unit := do
  let st ← Exec.read
  if env.pol.max_steps.toNat ≤ st.res.steps then out_of_steps env
  else if env.p.ninsn.toNat ≤ st.pc then ran_past env
  else execute_insn env

def execute (env : env_t σ) (fuel : Nat) : M σ Unit := Exec.loop (execute_body env) fuel

end fable.dvm
