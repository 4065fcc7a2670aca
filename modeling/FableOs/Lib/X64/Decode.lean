import FableOs.Lib.X64.Machine

namespace x64

/-! Decoding: an optional operand-size byte, an optional REX byte, the opcode,
and what the opcode asks for. Encodings outside the subset do not decode. -/

def Reg.ofCode (n : Nat) : Reg :=
  match n with
  | 0 => .rax
  | 1 => .rcx
  | 2 => .rdx
  | 3 => .rbx
  | 4 => .rsp
  | 5 => .rbp
  | 6 => .rsi
  | 7 => .rdi
  | 8 => .r8
  | 9 => .r9
  | 10 => .r10
  | 11 => .r11
  | 12 => .r12
  | 13 => .r13
  | 14 => .r14
  | _ => .r15

/-- A little-endian number of `n` bytes, and the bytes behind it. -/
def takeLE : Nat → List UInt8 → Option (Nat × List UInt8)
  | 0, bs => some (0, bs)
  | _ + 1, [] => none
  | n + 1, b :: bs => (takeLE n bs).map fun r => (b.toNat + 256 * r.1, r.2)

/-- A signed immediate of `n` bytes. -/
def takeImm (n : Nat) (bs : List UInt8) : Option (BitVec 64 × List UInt8) :=
  (takeLE n bs).map fun r => ((BitVec.ofNat (8 * n) r.1).signExtend 64, r.2)

/-- The bits of a REX byte. -/
structure Rex where
  present : Bool
  w : Bool
  r : Bool
  b : Bool

def Rex.none : Rex := ⟨false, false, false, false⟩

def Rex.ofByte (b : Nat) : Rex := ⟨true, b / 8 % 2 == 1, b / 4 % 2 == 1, b % 2 == 1⟩

def extend (bit : Bool) (n : Nat) : Nat := if bit then n + 8 else n

/-- A ModRM byte: the register field, the operand, and the bytes behind. Index
    bytes and rip-relative addresses are outside the subset. -/
def takeModRM (rex : Rex) : List UInt8 → Option (Nat × RM × List UInt8)
  | [] => none
  | m :: bs =>
    let mod := m.toNat / 64
    let reg := m.toNat / 8 % 8
    let rm := m.toNat % 8
    let base := Reg.ofCode (extend rex.b rm)
    if mod = 3 then some (reg, .reg base, bs)
    else if rm = 4 then none
    else if mod = 0 then if rm = 5 then none else some (reg, .mem base 0, bs)
    else (takeImm (if mod = 1 then 1 else 4) bs).map fun r => (reg, .mem base r.1, r.2)

/-- An 8-bit register operand; the old high-byte registers are outside the
    subset. -/
def byteReg (rex : Rex) (n : Nat) : Option Reg :=
  if 4 ≤ n ∧ n < 8 ∧ !rex.present then none else some (Reg.ofCode n)

def byteRM (rex : Rex) : RM → Option RM
  | .reg r => if (r = .rsp ∨ r = .rbp ∨ r = .rsi ∨ r = .rdi) ∧ !rex.present then none else some (.reg r)
  | rm => some rm

def Alu.ofCode (n : Nat) : Option Alu :=
  match n with
  | 0 => some .add
  | 1 => some .or
  | 4 => some .and
  | 5 => some .sub
  | 6 => some .xor
  | 7 => some .cmp
  | _ => none

def Cond.ofCode (n : Nat) : Option Cond :=
  match n with
  | 2 => some .b
  | 4 => some .e
  | 5 => some .ne
  | 6 => some .be
  | 8 => some .s
  | 12 => some .l
  | 14 => some .le
  | _ => none

/-- The two-byte opcodes. -/
def decode0F (w : Width) (rex : Rex) : List UInt8 → Option (Instr × List UInt8)
  | [] => none
  | op :: bs =>
    if op.toNat / 16 = 8 then do
      let c ← Cond.ofCode (op.toNat % 16)
      let (rel, bs) ← takeImm 4 bs
      return (.jcc c rel, bs)
    else if op.toNat / 16 = 9 then do
      let c ← Cond.ofCode (op.toNat % 16)
      let (_, rm, bs) ← takeModRM rex bs
      let rm ← byteRM rex rm
      return (.setcc c rm, bs)
    else do
      let (reg, rm, bs) ← takeModRM rex bs
      let r := Reg.ofCode (extend rex.r reg)
      match op.toNat with
      | 0xAF => return (.imul w r rm, bs)
      | 0xB6 => do
        let rm ← byteRM rex rm
        return (.movx false .w8 w r rm, bs)
      | 0xB7 => return (.movx false .w16 w r rm, bs)
      | 0xBE => do
        let rm ← byteRM rex rm
        return (.movx true .w8 w r rm, bs)
      | 0xBF => return (.movx true .w16 w r rm, bs)
      | _ => none

/-- The one-byte opcodes with a ModRM byte. -/
def decodeRM (op : Nat) (w : Width) (rex : Rex) (reg : Nat) (rm : RM) (bs : List UInt8) :
    Option (Instr × List UInt8) :=
  let r := Reg.ofCode (extend rex.r reg)
  match op with
  | 0x01 => some (.alu .add w rm (.reg r), bs)
  | 0x09 => some (.alu .or w rm (.reg r), bs)
  | 0x21 => some (.alu .and w rm (.reg r), bs)
  | 0x29 => some (.alu .sub w rm (.reg r), bs)
  | 0x31 => some (.alu .xor w rm (.reg r), bs)
  | 0x39 => some (.alu .cmp w rm (.reg r), bs)
  | 0x3B => some (.alu .cmp w (.reg r) rm, bs)
  | 0x63 => if w = .w64 then some (.movx true .w32 w r rm, bs) else none
  | 0x81 => do
    let op ← Alu.ofCode reg
    let (imm, bs) ← takeImm 4 bs
    return (.aluImm op w rm imm, bs)
  | 0x83 => do
    let op ← Alu.ofCode reg
    let (imm, bs) ← takeImm 1 bs
    return (.aluImm op w rm imm, bs)
  | 0x85 => some (.test w rm r, bs)
  | 0x88 => do
    let r ← byteReg rex (extend rex.r reg)
    let rm ← byteRM rex rm
    return (.mov .w8 rm (.reg r), bs)
  | 0x89 => some (.mov w rm (.reg r), bs)
  | 0x8B => some (.mov w (.reg r) rm, bs)
  | 0x8D =>
    match rm with
    | .mem base disp => if w = .w64 then some (.lea r base disp, bs) else none
    | .reg _ => none
  | 0xC6 =>
    if reg = 0 then do
      let rm ← byteRM rex rm
      let (imm, bs) ← takeImm 1 bs
      return (.movImmRM .w8 rm imm, bs)
    else none
  | 0xC7 =>
    if reg = 0 then do
      let (imm, bs) ← takeImm (if w = .w16 then 2 else 4) bs
      return (.movImmRM w rm imm, bs)
    else none
  | 0xD3 =>
    match reg with
    | 4 => some (.shift .shl w rm, bs)
    | 5 => some (.shift .shr w rm, bs)
    | 7 => some (.shift .sar w rm, bs)
    | _ => none
  | 0xF7 =>
    match reg with
    | 2 => some (.not w rm, bs)
    | 6 => some (.div false w rm, bs)
    | 7 => some (.div true w rm, bs)
    | _ => none
  | 0xFF =>
    match reg with
    | 0 => some (.inc w rm, bs)
    | 1 => some (.dec w rm, bs)
    | 2 => some (.callRM rm, bs)
    | _ => none
  | _ => none

/-- An instruction behind its prefixes. -/
def decodeOp (o16 : Bool) (rex : Rex) : List UInt8 → Option (Instr × List UInt8)
  | [] => none
  | b :: bs =>
    let op := b.toNat
    let w : Width := if rex.w then .w64 else if o16 then .w16 else .w32
    if op / 8 = 0x50 / 8 then some (.push (Reg.ofCode (extend rex.b (op % 8))), bs)
    else if op / 8 = 0x58 / 8 then some (.pop (Reg.ofCode (extend rex.b (op % 8))), bs)
    else if op / 8 = 0xB8 / 8 then
      if w = .w16 then none
      else (takeLE w.bytes bs).map fun r => (.movImm w (Reg.ofCode (extend rex.b (op % 8))) (BitVec.ofNat 64 r.1), r.2)
    else
      match op with
      | 0x05 => do
        let (imm, bs) ← takeImm 4 bs
        return (.aluImm .add w (.reg .rax) imm, bs)
      | 0x0F => decode0F w rex bs
      | 0x99 => some (.cdq w, bs)
      | 0xC3 => some (.ret, bs)
      | 0xE8 => (takeImm 4 bs).map fun r => (.call r.1, r.2)
      | 0xE9 => (takeImm 4 bs).map fun r => (.jmp r.1, r.2)
      | 0xEB => (takeImm 1 bs).map fun r => (.jmp r.1, r.2)
      | _ => do
        let (reg, rm, bs) ← takeModRM rex bs
        decodeRM op w rex reg rm bs

/-- An instruction from its REX byte on. -/
def decodeRex (o16 : Bool) : List UInt8 → Option (Instr × List UInt8)
  | [] => none
  | b :: bs => if b.toNat / 16 = 4 then decodeOp o16 (Rex.ofByte b.toNat) bs else decodeOp o16 .none (b :: bs)

/-- The first instruction of some bytes, and the bytes behind it. -/
def decode : List UInt8 → Option (Instr × List UInt8)
  | [] => none
  | b :: bs => if b = 0x66 then decodeRex true bs else decodeRex false (b :: bs)

/-- The bytes at an address; no instruction is longer than fifteen. -/
def fetch (m : Mem) (a : BitVec 64) : List UInt8 := (List.range 15).map fun i => m (a + BitVec.ofNat 64 i)

/-- One step of the machine: nothing when the bytes do not decode, or when the
    instruction faults. -/
def step (s : Machine) : Option Machine := do
  let (i, rest) ← decode (fetch s.mem s.rip)
  exec s (s.rip + BitVec.ofNat 64 (15 - rest.length)) i

/-- Some steps of the machine. -/
def steps : Nat → Machine → Option Machine
  | 0, s => some s
  | n + 1, s => (step s).bind (steps n)

/-- The machine gets from one state to the other. -/
def Runs (s t : Machine) : Prop := ∃ n, steps n s = some t

/-- Steps compose. -/
theorem steps_add (m n : Nat) (s : Machine) : steps (m + n) s = (steps m s).bind (steps n) := by
  induction m generalizing s with
  | zero => simp [steps]
  | succ m ih =>
    rw [Nat.succ_add, steps, steps]
    cases step s with
    | none => rfl
    | some t => exact ih t

theorem Runs.refl (s : Machine) : Runs s s := ⟨0, rfl⟩

theorem Runs.trans {s t u} (hst : Runs s t) (htu : Runs t u) : Runs s u := by
  obtain ⟨m, hm⟩ := hst
  obtain ⟨n, hn⟩ := htu
  refine ⟨m + n, ?_⟩
  rw [steps_add, hm]
  exact hn

theorem Runs.of_step {s t} (h : step s = some t) : Runs s t := by
  refine ⟨1, ?_⟩
  simp [steps, h]

/-- The bytes stand in memory at an address. -/
def BytesAt (m : Mem) (a : BitVec 64) (bs : List UInt8) : Prop :=
  ∀ i, ∀ h : i < bs.length, m (a + BitVec.ofNat 64 i) = bs[i]

/-- Bytes at the instruction pointer are fetched, with what follows them. -/
theorem fetch_eq {m : Mem} {a bs} (h : BytesAt m a bs) (hlen : bs.length ≤ 15) :
    ∃ rest, fetch m a = bs ++ rest ∧ rest.length = 15 - bs.length := by
  refine ⟨(fetch m a).drop bs.length, ?_, by simp [fetch]⟩
  have htake : (fetch m a).take bs.length = bs := by
    refine List.ext_getElem (by simp [fetch, hlen]) fun i h₁ h₂ => ?_
    rw [List.getElem_take]
    simp only [fetch, List.getElem_map, List.getElem_range]
    exact h i h₂
  have hsplit := List.take_append_drop bs.length (fetch m a)
  rw [htake] at hsplit
  exact hsplit.symm

/-- The bytes are an instruction, whatever follows them. -/
structure Encodes (bs : List UInt8) (i : Instr) : Prop where
  short : bs.length ≤ 15
  decodes : ∀ rest, decode (bs ++ rest) = some (i, rest)

/-- The bytes of an instruction at the instruction pointer execute it. -/
theorem step_of_bytesAt {s bs i} (h : BytesAt s.mem s.rip bs) (hcode : Encodes bs i) :
    step s = exec s (s.rip + BitVec.ofNat 64 bs.length) i := by
  have hshort := hcode.short
  obtain ⟨rest, hfetch, hrest⟩ := fetch_eq h hshort
  unfold step
  rw [hfetch, hcode.decodes, Option.bind_eq_bind, Option.bind_some]
  have hn : 15 - rest.length = bs.length := by omega
  simp only [hn]

end x64
