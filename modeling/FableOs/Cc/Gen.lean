import FableOs.Cc.Emit

namespace fable.cc

/-! The code generator: a stack machine in rax. -/

/-- `rax = *rax`, extended to 64 bits as the type asks. -/
def load (ty : cc_type) : GenM Unit :=
  match ty with
  | .array _ _ | .aggregate _ _ _ => pure ()
  | _ =>
    if ty.size = 1 then if ty.is_unsigned then EMIT [0x48, 0x0F, 0xB6, 0x00] else EMIT [0x48, 0x0F, 0xBE, 0x00]
    else if ty.size = 2 then if ty.is_unsigned then EMIT [0x48, 0x0F, 0xB7, 0x00] else EMIT [0x48, 0x0F, 0xBF, 0x00]
    else if ty.size = 4 then if ty.is_unsigned then EMIT [0x8B, 0x00] else EMIT [0x48, 0x63, 0x00]
    else EMIT [0x48, 0x8B, 0x00]

/-- `*rdi = rax`. -/
def store (size : Int) : GenM Unit :=
  if size = 1 then EMIT [0x88, 0x07]
  else if size = 2 then EMIT [0x66, 0x89, 0x07]
  else if size = 4 then EMIT [0x89, 0x07]
  else EMIT [0x48, 0x89, 0x07]

/-- Extend rax to 64 bits again after an operation at a narrower width. -/
def normalise (ty : cc_type) : GenM Unit :=
  if ty.size = 1 then if ty.is_unsigned then EMIT [0x48, 0x0F, 0xB6, 0xC0] else EMIT [0x48, 0x0F, 0xBE, 0xC0]
  else if ty.size = 2 then if ty.is_unsigned then EMIT [0x48, 0x0F, 0xB7, 0xC0] else EMIT [0x48, 0x0F, 0xBF, 0xC0]
  else if ty.size = 4 then if ty.is_unsigned then EMIT [0x89, 0xC0] else EMIT [0x48, 0x63, 0xC0]
  else pure ()

/-- The displacement byte `k` of an unrolled copy. -/
def disp8 (k : Nat) : UInt8 := UInt8.ofNat k

/-- Instructions one after the other. -/
def EMITS : List (List UInt8) → GenM Unit
  | [] => pure ()
  | bytes :: rest => do
    EMIT bytes
    EMITS rest

/-- The pieces an unrolled copy is made in: the offset of each and its width. -/
def pieces (size : Nat) : List (Nat × Nat) :=
  let words := size / 8
  let k := 8 * words
  let k₄ := if 4 ≤ size - k then k + 4 else k
  let k₂ := if 2 ≤ size - k₄ then k₄ + 2 else k₄
  (List.range words).map (fun i => (8 * i, 8)) ++ (if 4 ≤ size - k then [(k, 4)] else []) ++
    (if 2 ≤ size - k₄ then [(k₄, 2)] else []) ++ (List.range (size - k₂)).map fun i => (k₂ + i, 1)

/-- One piece from rax to rdi, through r11. -/
def copy_piece (p : Nat × Nat) : List (List UInt8) :=
  match p.2 with
  | 8 => [[0x4C, 0x8B, 0x58, disp8 p.1], [0x4C, 0x89, 0x5F, disp8 p.1]]
  | 4 => [[0x44, 0x8B, 0x58, disp8 p.1], [0x44, 0x89, 0x5F, disp8 p.1]]
  | 2 => [[0x66, 0x44, 0x8B, 0x58, disp8 p.1], [0x66, 0x44, 0x89, 0x5F, disp8 p.1]]
  | _ => [[0x44, 0x0F, 0xB6, 0x58, disp8 p.1], [0x44, 0x88, 0x5F, disp8 p.1]]

/-- Copy bytes from rax to rdi, eight at a time and then the rest. -/
def copy_bytes (size : Int) : GenM Unit := EMITS ((pieces size.toNat).flatMap copy_piece)

/-- Zero one piece at rax. -/
def zero_piece (p : Nat × Nat) : List UInt8 :=
  match p.2 with
  | 8 => [0x48, 0xC7, 0x40, disp8 p.1] ++ e32 0
  | 4 => [0xC7, 0x40, disp8 p.1] ++ e32 0
  | 2 => [0x66, 0xC7, 0x40, disp8 p.1, 0, 0]
  | _ => [0xC6, 0x40, disp8 p.1, 0]

/-- Zero bytes at rax: unrolled up to 64, else a loop that counts rcx down. -/
def zero_bytes (size : Int) : GenM Unit :=
  if size ≤ 64 then EMITS ((pieces size.toNat).map zero_piece)
  else do
    let top ← label_new
    EMIT ([0x48, 0xB9] ++ e64 (BitVec.ofInt 64 size))
    label_here top
    EMIT [0xC6, 0x00, 0x00]
    EMIT [0x48, 0xFF, 0xC0]
    EMIT [0x48, 0xFF, 0xC9]
    jne_to top

/-- The instruction of a width. -/
def by_width (w64 : Bool) (bytes : List UInt8) : GenM Unit := if w64 then EMIT (0x48 :: bytes) else EMIT bytes

/-- A division of rax by rdi. -/
def gen_div (w64 uns : Bool) : GenM Unit :=
  if uns then do
    EMIT [0x31, 0xD2]
    by_width w64 [0xF7, 0xF7]
  else do
    by_width w64 [0x99]
    by_width w64 [0xF7, 0xFF]

/-- The instructions of an operator, left side in rax and right side in rdi. -/
def gen_op (kind : binop_kind) (w64 uns : Bool) : GenM Unit :=
  match kind with
  | .ND_ADD => by_width w64 [0x01, 0xF8]
  | .ND_SUB => by_width w64 [0x29, 0xF8]
  | .ND_MUL => by_width w64 [0x0F, 0xAF, 0xC7]
  | .ND_DIV => gen_div w64 uns
  | .ND_MOD => do
    gen_div w64 uns
    by_width w64 [0x89, 0xD0]
  | .ND_BITAND => by_width w64 [0x21, 0xF8]
  | .ND_BITOR => by_width w64 [0x09, 0xF8]
  | .ND_BITXOR => by_width w64 [0x31, 0xF8]
  | .ND_SHL => do
    EMIT [0x48, 0x89, 0xF9]
    by_width w64 [0xD3, 0xE0]
  | .ND_SHR => do
    EMIT [0x48, 0x89, 0xF9]
    by_width w64 (if uns then [0xD3, 0xE8] else [0xD3, 0xF8])

def gen_binop (kind : binop_kind) (ty : cc_type) : GenM Unit := do
  gen_op kind (ty.size == 8 || ty.cc_is_pointerish) (ty.is_unsigned || ty.cc_is_pointerish)
  normalise ty

/-- The instruction that sets al by a comparison. -/
def gen_setcc (kind : compare_kind) (uns : Bool) : GenM Unit :=
  match kind with
  | .ND_EQ => EMIT [0x0F, 0x94, 0xC0]
  | .ND_NE => EMIT [0x0F, 0x95, 0xC0]
  | .ND_LT => if uns then EMIT [0x0F, 0x92, 0xC0] else EMIT [0x0F, 0x9C, 0xC0]
  | .ND_LE => if uns then EMIT [0x0F, 0x96, 0xC0] else EMIT [0x0F, 0x9E, 0xC0]

def gen_compare (kind : compare_kind) (ot : cc_type) : GenM Unit := do
  by_width (ot.size == 8 || ot.cc_is_pointerish) [0x39, 0xF8]
  gen_setcc kind (ot.is_unsigned || ot.cc_is_pointerish)
  EMIT [0x0F, 0xB6, 0xC0]

def pop_arg (i : Nat) : GenM Unit := do
  match i with
  | 0 => EMIT [0x5F]
  | 1 => EMIT [0x5E]
  | 2 => EMIT [0x5A]
  | 3 => EMIT [0x59]
  | 4 => EMIT [0x41, 0x58]
  | _ => EMIT [0x41, 0x59]
  Output.modify fun E => { E with depth := E.depth - 1 }

def mov_rax_from_arg (i : Nat) : GenM Unit :=
  match i with
  | 0 => EMIT [0x48, 0x89, 0xF8]
  | 1 => EMIT [0x48, 0x89, 0xF0]
  | 2 => EMIT [0x48, 0x89, 0xD0]
  | 3 => EMIT [0x48, 0x89, 0xC8]
  | 4 => EMIT [0x4C, 0x89, 0xC0]
  | _ => EMIT [0x4C, 0x89, 0xC8]

/-- The call itself, once its arguments are in their registers. -/
def gen_callee (callee : cc_sym) : GenM Unit := do
  match callee with
  | .func index =>
    let E ← Output.get
    match if index < 0 then none else E.fn_label[index.toNat]? with
    | none => Output.fail .no_body
    | some l => call_to l
  | .extern_ addr =>
    mov_r11_imm addr
    EMIT [0x41, 0xFF, 0xD3]
  | _ =>
    mov_r11_imm 0
    EMIT [0x41, 0xFF, 0xD3]

/-- The arguments into their registers, the last one first. -/
def pop_args : Nat → GenM Unit
  | 0 => pure ()
  | n + 1 => do
    pop_arg n
    pop_args n

/-- `gen_call` after the arguments have been pushed. -/
def gen_call_pushed (type : cc_type) (callee : cc_sym) (nargs : Nat) : GenM Unit := do
  pop_args nargs
  let E ← Output.get
  let pad := E.depth % 2 ≠ 0
  if pad then EMIT [0x48, 0x83, 0xEC, 0x08]
  fuel_check
  gen_callee callee
  if pad then EMIT [0x48, 0x83, 0xC4, 0x08]
  if type ≠ .void then normalise type

/-- The address of a variable. -/
def gen_sym_addr (env : gen_env) (sym : cc_sym) : GenM Unit :=
  match sym with
  | .local offset => EMIT ([0x48, 0x8D, 0x85] ++ e32 offset)
  | .global offset => mov_rax_imm (env.data + BitVec.ofInt 64 offset)
  | _ => Output.fail .no_address

/-- `test rax, rax`. -/
def test_rax : GenM Unit := EMIT [0x48, 0x85, 0xC0]

mutual

/-- The address and the value of a node; `gen_addr` and `gen_expr` call each
    other on the same node, so both are built along the tree at once. -/
def gen_both (env : gen_env) : cc_node → GenM Unit × GenM Unit
  | .num _ val => (Output.fail .no_address, mov_rax_imm val)
  | .var type sym =>
    (gen_sym_addr env sym,
      match sym with
      | .enumconst val => mov_rax_imm val
      | _ => do
        gen_sym_addr env sym
        load type)
  | .str _ data_off =>
    (mov_rax_imm (env.data + BitVec.ofInt 64 data_off), mov_rax_imm (env.data + BitVec.ofInt 64 data_off))
  | .member type lhs offset =>
    let addr := do
      (gen_both env lhs).1
      if offset ≠ 0 then EMIT ([0x48, 0x05] ++ e32 offset)
    (addr, do
      addr
      load type)
  | .deref type lhs =>
    ((gen_both env lhs).2, do
      (gen_both env lhs).2
      load type)
  | .addr _ lhs => (Output.fail .no_address, (gen_both env lhs).1)
  | .assign type lhs rhs =>
    (Output.fail .no_address, do
      (gen_both env lhs).1
      push_rax
      (gen_both env rhs).2
      pop_rdi
      store type.size)
  | .copy type lhs rhs =>
    (Output.fail .no_address,
      if 128 < type.size then Output.fail .struct_too_large
      else do
        (gen_both env lhs).1
        push_rax
        (gen_both env rhs).1
        pop_rdi
        copy_bytes type.size
        EMIT [0x48, 0x89, 0xF8])
  | .cast type lhs =>
    (Output.fail .no_address, do
      (gen_both env lhs).2
      if type ≠ .void then normalise type)
  | .binop kind type lhs rhs =>
    (Output.fail .no_address, do
      (gen_both env rhs).2
      push_rax
      (gen_both env lhs).2
      pop_rdi
      gen_binop kind type)
  | .compare kind _ lhs rhs =>
    (Output.fail .no_address, do
      (gen_both env rhs).2
      push_rax
      (gen_both env lhs).2
      pop_rdi
      gen_compare kind lhs.type)
  | .not _ lhs =>
    (Output.fail .no_address, do
      (gen_both env lhs).2
      test_rax
      EMIT [0x0F, 0x94, 0xC0]
      EMIT [0x0F, 0xB6, 0xC0])
  | .bitnot type lhs =>
    (Output.fail .no_address, do
      (gen_both env lhs).2
      by_width (type.size == 8) [0xF7, 0xD0]
      normalise type)
  | .logand _ lhs rhs =>
    (Output.fail .no_address, do
      let lfalse ← label_new
      let lend ← label_new
      (gen_both env lhs).2
      test_rax
      je_to lfalse
      (gen_both env rhs).2
      test_rax
      je_to lfalse
      EMIT ([0xB8] ++ e32 1)
      jmp_to lend
      label_here lfalse
      EMIT [0x31, 0xC0]
      label_here lend)
  | .logor _ lhs rhs =>
    (Output.fail .no_address, do
      let ltrue ← label_new
      let lend ← label_new
      (gen_both env lhs).2
      test_rax
      jne_to ltrue
      (gen_both env rhs).2
      test_rax
      jne_to ltrue
      EMIT [0x31, 0xC0]
      jmp_to lend
      label_here ltrue
      EMIT ([0xB8] ++ e32 1)
      label_here lend)
  | .cond _ c t e =>
    (Output.fail .no_address, do
      let lelse ← label_new
      let lend ← label_new
      (gen_both env c).2
      test_rax
      je_to lelse
      (gen_both env t).2
      jmp_to lend
      label_here lelse
      (gen_both env e).2
      label_here lend)
  | .comma _ lhs rhs =>
    (do
      (gen_both env lhs).2
      (gen_both env rhs).1, do
      (gen_both env lhs).2
      (gen_both env rhs).2)
  | .call type callee args =>
    (Output.fail .no_address, do
      let nargs ← gen_args env args
      gen_call_pushed type callee nargs)

/-- The arguments of a call, each pushed. -/
def gen_args (env : gen_env) : cc_args → GenM Nat
  | .nil => pure 0
  | .cons arg next => do
    (gen_both env arg).2
    push_rax
    let n ← gen_args env next
    pure (n + 1)

end

def gen_addr (env : gen_env) (n : cc_node) : GenM Unit := (gen_both env n).1

def gen_expr (env : gen_env) (n : cc_node) : GenM Unit := (gen_both env n).2

/-- The labels of a switch's cases and of its default. -/
def gen_case_labels : List (Nat × BitVec 64) → GenM Unit
  | [] => pure ()
  | c :: cases => do
    let l ← label_new
    Output.modify fun E => { E with case_label := (c.1, l) :: E.case_label }
    gen_case_labels cases

def label_of (id : Nat) : GenM Nat := do
  let E ← Output.get
  match E.case_label.lookup id with
  | some l => pure l
  | none => Output.fail .buried_case

/-- The compare chain of a switch. -/
def gen_cases : List (Nat × BitVec 64) → GenM Unit
  | [] => pure ()
  | c :: cases => do
    mov_r11_imm c.2
    EMIT [0x49, 0x3B, 0xC3]
    je_to (← label_of c.1)
    gen_cases cases

/-- A loop's test, which leaves the loop on zero. -/
def gen_test (env : gen_env) (cond : Option cc_node) (lend : Nat) : GenM Unit :=
  match cond with
  | none => pure ()
  | some cond => do
    gen_expr env cond
    test_rax
    je_to lend

mutual

def gen_stmt (env : gen_env) : cc_stmt → GenM Unit
  | .nop => pure ()
  | .block body => gen_stmts env body
  | .expr_stmt lhs => gen_expr env lhs
  | .memzero type sym => do
    gen_sym_addr env sym
    zero_bytes type.size
  | .ret lhs => do
    match lhs with
    | some lhs => gen_expr env lhs
    | none => pure ()
    jmp_to (← Output.get).epilogue
  | .if_then cond then_ => do
    let _ ← label_new
    let lend ← label_new
    gen_expr env cond
    test_rax
    je_to lend
    gen_stmt env then_
    label_here lend
  | .if_else cond then_ els => do
    let lelse ← label_new
    let lend ← label_new
    gen_expr env cond
    test_rax
    je_to lelse
    gen_stmt env then_
    jmp_to lend
    label_here lelse
    gen_stmt env els
    label_here lend
  | .loop test_first init cond post body => do
    let ltop ← label_new
    let lcont ← label_new
    let lend ← label_new
    let E ← Output.get
    if CC_MAX_BLOCK_DEPTH * 2 ≤ E.brk.length ∨ CC_MAX_BLOCK_DEPTH * 2 ≤ E.cont.length then
      Output.fail .loops_too_deep
    else
      Output.modify fun E => { E with brk := lend :: E.brk, cont := lcont :: E.cont }
      gen_stmt env init
      label_here ltop
      if test_first then gen_test env cond lend
      gen_stmt env body
      label_here lcont
      gen_stmt env post
      if !test_first then gen_test env cond lend
      fuel_check
      jmp_to ltop
      label_here lend
      Output.modify fun E => { E with brk := E.brk.tail, cont := E.cont.tail }
  | .break_ => do
    let E ← Output.get
    match E.brk with
    | [] => Output.fail .nothing_to_leave
    | l :: _ => jmp_to l
  | .continue_ => do
    let E ← Output.get
    match E.cont with
    | [] => Output.fail .no_loop
    | l :: _ => jmp_to l
  | .case_ id body => do
    label_here (← label_of id)
    gen_stmt env body
  | .switch cond cases default_case body => do
    let lend ← label_new
    let E ← Output.get
    if CC_MAX_BLOCK_DEPTH * 2 ≤ E.brk.length then Output.fail .switches_too_deep
    else
      gen_case_labels cases
      match default_case with
      | none => pure ()
      | some id => do
        let l ← label_new
        Output.modify fun E => { E with case_label := (id, l) :: E.case_label }
      gen_expr env cond
      gen_cases cases
      match default_case with
      | none => jmp_to lend
      | some id => jmp_to (← label_of id)
      Output.modify fun E => { E with brk := lend :: E.brk }
      gen_stmt env body
      Output.modify fun E => { E with brk := E.brk.tail }
      label_here lend

def gen_stmts (env : gen_env) : cc_stmts → GenM Unit
  | .nil => pure ()
  | .cons stmt next => do
    gen_stmt env stmt
    gen_stmts env next

end

/-- The parameters into their frame slots, in ascending order. -/
def gen_params : Nat → List (Int × Int) → GenM Unit
  | _, [] => pure ()
  | i, p :: params => do
    mov_rax_from_arg i
    EMIT ([0x48, 0x8D, 0xBD] ++ e32 p.1)
    store p.2
    gen_params (i + 1) params

def gen_func (env : gen_env) (f : cc_func) (entry : Nat) : GenM Unit := do
  label_here entry
  let epilogue ← label_new
  Output.modify fun E => { E with depth := 0, epilogue := epilogue, brk := [], cont := [] }
  EMIT [0x55]
  EMIT [0x48, 0x89, 0xE5]
  if 0 < f.frame_bytes then EMIT ([0x48, 0x81, 0xEC] ++ e32 f.frame_bytes)
  fuel_check
  stack_check
  gen_params 0 f.param
  gen_stmt env f.body
  EMIT [0x31, 0xC0]
  label_here epilogue
  EMIT [0x48, 0x89, 0xEC]
  EMIT [0x5D]
  EMIT [0xC3]

/-- A label for every function. -/
def gen_fn_labels : List cc_func → GenM Unit
  | [] => pure ()
  | _ :: funcs => do
    let l ← label_new
    Output.modify fun E => { E with fn_label := E.fn_label ++ [l] }
    gen_fn_labels funcs

/-- The last function called main. -/
def find_main : List cc_func → Nat → Option Nat
  | [], _ => none
  | f :: funcs, i =>
    match find_main funcs (i + 1) with
    | some j => some j
    | none => if f.is_main then some i else none

def gen_funcs (env : gen_env) : List cc_func → Nat → GenM Unit
  | [], _ => pure ()
  | f :: funcs, i => do
    let E ← Output.get
    gen_func env f (E.fn_label.getD i 0)
    gen_funcs env funcs (i + 1)

/-- The entry trampoline, at offset 0. -/
def gen_trampoline (env : gen_env) (entry ldone : Nat) : GenM Unit := do
  EMIT [0x55]
  EMIT [0x41, 0x57]
  EMIT [0x53]
  EMIT ([0x49, 0xBF] ++ e64 env.cc_rt)
  EMIT [0x49, 0x89, 0x67, 0x10]
  EMIT [0x49, 0x8B, 0x67, 0x18]
  call_to entry
  label_here ldone
  EMIT [0x49, 0x8B, 0x67, 0x10]
  EMIT [0x5B]
  EMIT [0x41, 0x5F]
  EMIT [0x5D]
  EMIT [0xC3]

/-- An abort stub: the code it leaves in the runtime block. -/
def gen_abort (label code ldone : Nat) : GenM Unit := do
  label_here label
  EMIT ([0x41, 0xC7, 0x47, 0x20] ++ e32 code)
  EMIT [0x31, 0xC0]
  jmp_to ldone

def gen_unit (env : gen_env) (funcs : List cc_func) : GenM Unit := do
  gen_fn_labels funcs
  match find_main funcs 0 with
  | none => Output.fail .no_main
  | some entry => do
    let abort_fuel ← label_new
    let abort_stack ← label_new
    Output.modify fun E => { E with abort_fuel := abort_fuel, abort_stack := abort_stack }
    let ldone ← label_new
    let E ← Output.get
    gen_trampoline env (E.fn_label.getD entry 0) ldone
    gen_funcs env funcs 0
    gen_abort abort_fuel 1 ldone
    gen_abort abort_stack 2 ldone

/-- The emitter before anything is emitted. -/
def emit_start : emit_t := ⟨0, 0, [], 0, 0, 0, [], [], []⟩

/-- The image of a unit. -/
def cc_codegen (env : gen_env) (funcs : List cc_func) (cap : Nat) : Except emit_error (List UInt8) := do
  let (_, items, _) ← gen_unit env funcs emit_start
  if cap < code_size items ∨ MAX_FIXUPS < count_jumps items then .error .overflow
  else
    match resolve_items (fun l => label_off l 0 items) 0 items with
    | none => .error .target_not_placed
    | some image => .ok image

end fable.cc
