import FableOs.Dvm.Execute

namespace fable.dvm

open fable.exec

variable {σ : Type}

/-- The arguments of `dvm_run_at`; a pointer that may be NULL is an option,
    and `res` says whether a result buffer was given. -/
structure run_call_t (σ : Type) where
  p : Option dvm_program_t
  pol : Option dvm_policy_t
  io : Option (dvm_io_t σ)
  args : Option (Nat → UInt64)
  nargs : Int
  start_pc : UInt32
  res : Bool

/-- What outlives a run: the flag `in_run`, the scratch arena `dvm_mem` and
    the world the hooks act on. -/
structure machine_t (σ : Type) where
  in_run : Bool
  mem : CArray UInt8 DVM_MEM_SIZE
  ctx : σ

/-- How a call ends within a number of loop iterations: it has returned, its
    program is still running, or it has left the C language. The log lists the
    accesses the call has made, newest first. -/
inductive run_end_t (σ : Type) where
  | returned (status : dvm_status_t) (res : dvm_result_t) (m : machine_t σ) (log : List access_t)
  | running (st : run_t σ)
  | fault

def run_end_t.accesses : run_end_t σ → List access_t
  | .returned _ _ _ log => log
  | .running st => st.log
  | .fault => []

/-- A call that is refused before it has touched anything. -/
def refused (m : machine_t σ) (status : dvm_status_t) (line : UInt32) (msg : String) : run_end_t σ :=
  .returned status { dvm_result_t.zero with status, line, msg } m []

/-- `for (i = 0; i < nargs && args; i++) st.reg[i] = args[i]`, with `nargs`
    clamped to the register file. -/
def initial_regs (args : Option (Nat → UInt64)) (nargs : Int) : CArray UInt64 DVM_NREGS :=
  ⟨fun i => match args with
    | some args => if (i.val : Int) < nargs then args i.val else 0
    | none => 0⟩

/-- The state in which `execute` starts. Tracing states the sandbox first, in
    six lines. -/
def initial_state (env : env_t σ) (call : run_call_t σ) (m : machine_t σ) : run_t σ where
  reg := initial_regs call.args call.nargs
  dstack := CArray.replicate _ 0
  dsp := 0
  cstack := CArray.replicate _ 0
  csp := 0
  pc := call.start_pc.toNat
  line := 0
  zero := false
  below := false
  quiet := false
  res := { dvm_result_t.zero with trace_lines := if env.pol.trace ≠ DVM_TRACE_OFF then 6 else 0 }
  mem := CArray.replicate _ 0
  ctx := if env.pol.dma_size ≠ 0 then env.bus.guard_arm m.ctx else m.ctx
  log := []

/-- The result buffer after `execute` has stopped with a status. -/
def final_result (env : env_t σ) (status : dvm_status_t) (st : run_t σ) : dvm_result_t :=
  { st.res with
    reg := st.reg
    status
    pc := st.pc
    line := st.line
    trace_lines := if env.pol.trace ≠ DVM_TRACE_OFF then st.res.trace_lines + 1 else st.res.trace_lines }

def run_program (env : env_t σ) (call : run_call_t σ) (fuel : Nat) (m : machine_t σ) : run_end_t σ :=
  match execute env fuel (initial_state env call m) with
  | .ok _ st => .running st
  | .stop status st => .returned status (final_result env status st) ⟨false, st.mem, st.ctx⟩ st.log
  | .fault => .fault

/-- The checks of `dvm_run_at` once the three pointers are known to be good. -/
def run_checked (env : env_t σ) (call : run_call_t σ) (fuel : Nat) (m : machine_t σ) : run_end_t σ :=
  match dvm_policy_check env.plat env.pol with
  | .error why => refused m .DVM_TRAP_POLICY 0 (copy_printable DVM_MSG_MAX (snprintf DVM_MSG_MAX why))
  | .ok _ =>
    match dvm_program_validate env.p with
    | .error (status, verr) => refused m status verr.line (copy_printable DVM_MSG_MAX verr.msg)
    | .ok _ =>
      if 0 < call.start_pc ∧ env.p.ninsn ≤ call.start_pc then
        refused m .DVM_TRAP_BADOP 0 (snprintf DVM_MSG_MAX
          s!"dvm_run_at: start_pc {call.start_pc.toNat} is past the end of the program ({env.p.ninsn.toNat} insns)")
      else run_program env call fuel m

def REENTRY_TEXT : String :=
  "one driver program at a time: a second run would reset the scratch memory and DMA guard bands under the first. Ask for this after the run finishes, not inside it"

def dvm_run_at (plat : platform_t) (bus : dma_bus_t σ) (call : run_call_t σ) (fuel : Nat) (m : machine_t σ) :
    run_end_t σ :=
  if ¬ call.res then .returned .DVM_TRAP_POLICY dvm_result_t.zero m []
  else if m.in_run then refused m .DVM_TRAP_REENTRY 0 (copy_printable DVM_MSG_MAX REENTRY_TEXT)
  else
    match call.p, call.pol, call.io with
    | none, _, _ => refused m .DVM_TRAP_POLICY 0 "no program supplied"
    | some _, none, _ => refused m .DVM_TRAP_POLICY 0 "no policy supplied"
    | some _, some _, none => refused m .DVM_TRAP_POLICY 0 "no I/O backend supplied"
    | some p, some pol, some io => run_checked ⟨p, pol, io, plat, bus⟩ call fuel m

def dvm_run (plat : platform_t) (bus : dma_bus_t σ) (call : run_call_t σ) (fuel : Nat) (m : machine_t σ) :
    run_end_t σ :=
  dvm_run_at plat bus { call with start_pc := 0 } fuel m

end fable.dvm
