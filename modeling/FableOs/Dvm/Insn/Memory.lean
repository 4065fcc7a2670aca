import FableOs.Dvm.Insn.Device

namespace fable.dvm

open fable.exec

variable {σ : Type}

/-- The operand sum of a scratch access, refused when it wraps. -/
def scratch_verdict (a b : UInt64) (what : String) : Except (dvm_status_t × String) Unit :=
  refuse (a + b < a) (.DVM_TRAP_MEM, s!"{what}: the address 0x{hex a.toNat}+0x{hex b.toNat} wraps past 2^64")

def exec_mld (env : env_t σ) (op : dvm_op_t) (a b : UInt64) (next : Nat) : M σ flow_t := do
  require env (scratch_verdict a b (dvm_op_name op))
  mem_span env (a + b) (UInt64.ofNat (op_width op)) (dvm_op_name op)
  mem_charge env (UInt64.ofNat (op_width op)) (dvm_op_name op)
  let v ← mem_load (a + b) (op_width op)
  count fun res => { res with n_mem_rd := res.n_mem_rd + 1 }
  tline env DVM_TRACE_ALL
  pure ⟨next, some v⟩

def exec_mst (env : env_t σ) (op : dvm_op_t) (a b c : UInt64) (next : Nat) : M σ flow_t := do
  require env (scratch_verdict a b (dvm_op_name op))
  mem_span env (a + b) (UInt64.ofNat (op_width op)) (dvm_op_name op)
  mem_charge env (UInt64.ofNat (op_width op)) (dvm_op_name op)
  mem_store (a + b) (op_width op) c
  count fun res => { res with n_mem_wr := res.n_mem_wr + 1 }
  tline env DVM_TRACE_ALL
  pure ⟨next, none⟩

def exec_mstr (env : env_t σ) (insn : dvm_insn_t) (dst : UInt64) (next : Nat) : M σ flow_t := do
  let text ← Exec.ofOption (str_at env.p (insn.val 0))
  let n := UInt64.ofNat text.length
  mem_span env dst n "mstr"
  mem_charge env n "mstr"
  mem_write dst.toNat text
  raise_hwm (dst.toNat + text.length)
  count fun res => { res with n_mem_wr := res.n_mem_wr + 1 }
  pure ⟨next, some (dst + n)⟩

/-- `dvm_mem[dst + i] = dvm_mem[src + i]` -/
def copy_byte (dst src i : Nat) : M σ Unit := do
  let b ← mem_get (src + i)
  mem_set (dst + i) b

/-- Upwards when the destination is below the source and downwards otherwise,
    so that an overlap is read before it is written. -/
def copy_span (dst src n : Nat) : M σ Unit :=
  if dst < src then Exec.forUp (copy_byte dst src) n else Exec.forDown (copy_byte dst src) n

def exec_mcpy (env : env_t σ) (dst src n : UInt64) (next : Nat) : M σ flow_t := do
  mem_span env dst n "mcpy"
  mem_span env src n "mcpy"
  mem_charge env (n * 2) "mcpy"
  copy_span dst.toNat src.toNat n.toNat
  raise_hwm (dst.toNat + n.toNat)
  count fun res => { res with n_mem_rd := res.n_mem_rd + 1, n_mem_wr := res.n_mem_wr + 1 }
  pure ⟨next, some (dst + n)⟩

def exec_mset (env : env_t σ) (dst b n : UInt64) (next : Nat) : M σ flow_t := do
  mem_span env dst n "mset"
  mem_charge env n "mset"
  mem_write dst.toNat (List.replicate n.toNat b.toUInt8)
  raise_hwm (dst.toNat + n.toNat)
  count fun res => { res with n_mem_wr := res.n_mem_wr + 1 }
  pure ⟨next, some (dst + n)⟩

/-- The flags of `mcmp`: equal, and below at the first difference. -/
def compare_spans : List UInt8 → List UInt8 → Bool × Bool
  | u :: us, w :: ws => if u ≠ w then (false, u < w) else compare_spans us ws
  | _, _ => (true, false)

def exec_mcmp (env : env_t σ) (x y n : UInt64) (next : Nat) : M σ flow_t := do
  mem_span env x n "mcmp"
  mem_span env y n "mcmp"
  mem_charge env (n * 2) "mcmp"
  let us ← mem_read x.toNat n.toNat
  let ws ← mem_read y.toNat n.toNat
  set_flags (compare_spans us ws).1 (compare_spans us ws).2
  count fun res => { res with n_mem_rd := res.n_mem_rd + 1 }
  tline env DVM_TRACE_ALL
  pure ⟨next, none⟩

def set_zero (zero : Bool) : M σ Unit := Exec.modify fun st => { st with zero }

/-- How many further bytes of the needle match from an offset on. -/
def match_len (off : Nat) : List UInt8 → M σ Nat
  | [] => pure 0
  | c :: rest => do
    let b ← mem_get off
    if b = c then do
      let k ← match_len (off + 1) rest
      pure (k + 1)
    else pure 0

/-- The loop of `mfind` from offset `i` of the span on, `turns` of it: the
    offset of the first match. The needle is `first :: more`. -/
def find_from (env : env_t σ) (hay : Nat) (first : UInt8) (more : List UInt8) : Nat → Nat → M σ (Option Nat)
  | 0, _ => pure none
  | turns + 1, i => do
    mem_charge env 1 "mfind"
    let b ← mem_get (hay + i)
    if b ≠ first then find_from env hay first more turns (i + 1)
    else do
      let k ← match_len (hay + i + 1) more
      mem_charge env (UInt64.ofNat k) "mfind"
      if k = more.length then pure (some i) else find_from env hay first more turns (i + 1)

/-- The search itself: an empty needle matches at the start, and one longer
    than the span is not looked for. -/
def find_span (env : env_t σ) (hay n : Nat) : List UInt8 → M σ (Option Nat)
  | [] => pure (some 0)
  | first :: more =>
    if more.length + 1 ≤ n then find_from env hay first more (n - more.length) 0 else pure none

def exec_mfind (env : env_t σ) (insn : dvm_insn_t) (hay n : UInt64) (next : Nat) : M σ flow_t := do
  let needle ← Exec.ofOption (str_at env.p (insn.val 0))
  mem_span env hay n "mfind"
  set_zero false
  let found ← find_span env hay.toNat n.toNat needle
  set_zero found.isSome
  count fun res => { res with n_mem_rd := res.n_mem_rd + 1 }
  pure ⟨next, some (hay + UInt64.ofNat (found.getD n.toNat))⟩

def exec_mchr (env : env_t σ) (hay n c : UInt64) (next : Nat) : M σ flow_t := do
  mem_span env hay n "mchr"
  mem_charge env n "mchr"
  let bytes ← mem_read hay.toNat n.toNat
  let found := bytes.findIdx? fun b => b = c.toUInt8
  set_zero found.isSome
  count fun res => { res with n_mem_rd := res.n_mem_rd + 1 }
  pure ⟨next, some (hay + UInt64.ofNat (found.getD n.toNat))⟩

def base_verdict (base : UInt64) (what : String) : Except (dvm_status_t × String) Unit :=
  refuse (base < 2 ∨ 16 < base) (.DVM_TRAP_RANGE, s!"{what}: base {base.toNat} is outside 2-16")

/-- The value of a hexadecimal digit. -/
def digit_of (c : UInt8) : Option UInt64 :=
  let ch := dlower c
  if 0x30 ≤ ch ∧ ch ≤ 0x39 then some (ch - 0x30).toUInt64
  else if 0x61 ≤ ch ∧ ch ≤ 0x66 then some (ch - 0x61 + 10).toUInt64
  else none

/-- The digit loop of `matoi`: the value, the digits consumed, and whether one
    of them did not fit. -/
def atoi_scan (base : UInt64) : List UInt8 → UInt64 → Nat → UInt64 × Nat × Bool
  | [], acc, digits => (acc, digits, false)
  | c :: rest, acc, digits =>
    match digit_of c with
    | none => (acc, digits, false)
    | some d =>
      if base ≤ d then (acc, digits, false)
      else if (0xFFFFFFFFFFFFFFFF - d) / base < acc then (acc, digits, true)
      else atoi_scan base rest (acc * base + d) (digits + 1)

def exec_matoi (env : env_t σ) (off n base : UInt64) (next : Nat) : M σ flow_t := do
  require env (base_verdict base "matoi")
  mem_span env off n "matoi"
  mem_charge env n "matoi"
  let bytes ← mem_read off.toNat n.toNat
  let scan := atoi_scan base bytes 0 0
  let ok := 0 < scan.2.1 && !scan.2.2
  set_flags ok false
  tline env DVM_TRACE_ALL
  pure ⟨next, some (if ok then scan.1 else 0)⟩

/-- The digits of `mitoa`, least significant first: `do ... while (val && n < 64)`. -/
def itoa_digits (base : UInt64) : Nat → UInt64 → List UInt8
  | 0, _ => []
  | room + 1, val =>
    let d := (val % base).toUInt8
    let ch := if d < 10 then 0x30 + d else 0x61 + d - 10
    ch :: if val / base = 0 then [] else itoa_digits base room (val / base)

def exec_mitoa (env : env_t σ) (dst val base : UInt64) (next : Nat) : M σ flow_t := do
  require env (base_verdict base "mitoa")
  let digits := itoa_digits base 64 val
  let n := UInt64.ofNat digits.length
  mem_span env dst n "mitoa"
  mem_charge env n "mitoa"
  mem_write dst.toNat digits.reverse
  raise_hwm (dst.toNat + digits.length)
  count fun res => { res with n_mem_wr := res.n_mem_wr + 1 }
  pure ⟨next, some (dst + n)⟩

end fable.dvm
