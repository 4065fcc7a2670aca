import FableOs.Cc.Tree
import FableOs.Lib.Output

namespace fable.cc

/-! The emitter: instruction bytes, jumps to labels that are filled in at the
end, and the places of the labels. -/

open Output

abbrev MAX_LABELS : Nat := 2048
abbrev MAX_FIXUPS : Nat := 4096
abbrev CC_CODE_MAX : Nat := 32768

/-- What is emitted: the bytes of an instruction, an opcode with a rel32 field
    for a label, or the place of a label. -/
inductive item_t where
  | ins (bytes : List UInt8)
  | jump (opcode : List UInt8) (label : Nat)
  | label (label : Nat)
  deriving DecidableEq

/-- The emitter's refusals. -/
inductive emit_error where
  | overflow
  | no_address
  | not_an_operator
  | struct_too_large
  | no_body
  | loops_too_deep
  | switches_too_deep
  | nothing_to_leave
  | no_loop
  | buried_case
  | no_main
  | target_not_placed
  deriving DecidableEq

/-- The emitter's state beside the code itself. -/
structure emit_t where
  nlabel : Nat
  depth : Int
  fn_label : List Nat
  epilogue : Nat
  abort_fuel : Nat
  abort_stack : Nat
  brk : List Nat
  cont : List Nat
  case_label : List (Nat × Nat)

/-- Where the unit's data image and the runtime block are. -/
structure gen_env where
  data : BitVec 64
  cc_rt : BitVec 64

abbrev GenM := Output emit_t item_t emit_error

/-- The `n` bytes of a number, the lowest first. -/
def le_bytes : Nat → Nat → List UInt8
  | 0, _ => []
  | n + 1, v => UInt8.ofNat v :: le_bytes n (v / 256)

def e32 (v : Int) : List UInt8 := le_bytes 4 (BitVec.ofInt 32 v).toNat

def e64 (v : BitVec 64) : List UInt8 := le_bytes 8 v.toNat

/-- One instruction. -/
def EMIT (bytes : List UInt8) : GenM Unit := Output.tell (.ins bytes)

def label_new : GenM Nat := do
  let E ← Output.get
  if MAX_LABELS ≤ E.nlabel then Output.fail .overflow
  else
    Output.modify fun E => { E with nlabel := E.nlabel + 1 }
    pure E.nlabel

/-- A new label is the next number. -/
theorem gives_label_new {A : Type} {f E E'} {a : A} {T} (h : (label_new >>= f).Gives E a T E') :
    (f E.nlabel).Gives { E with nlabel := E.nlabel + 1 } a T E' := by
  obtain ⟨_, _, _, _, hnew, hrest, rfl⟩ := gives_bind.mp h
  replace hnew := gives_of_get_bind hnew
  split at hnew
  · exact (gives_fail.mp hnew).elim
  · replace hnew := gives_of_modify_bind hnew
    obtain ⟨rfl, rfl, rfl⟩ := gives_pure.mp hnew
    exact hrest

def label_here (l : Nat) : GenM Unit := Output.tell (.label l)

def jmp_to (l : Nat) : GenM Unit := Output.tell (.jump [0xE9] l)
def je_to (l : Nat) : GenM Unit := Output.tell (.jump [0x0F, 0x84] l)
def jne_to (l : Nat) : GenM Unit := Output.tell (.jump [0x0F, 0x85] l)
def js_to (l : Nat) : GenM Unit := Output.tell (.jump [0x0F, 0x88] l)
def jb_to (l : Nat) : GenM Unit := Output.tell (.jump [0x0F, 0x82] l)
def call_to (l : Nat) : GenM Unit := Output.tell (.jump [0xE8] l)

def push_rax : GenM Unit := do
  EMIT [0x50]
  Output.modify fun E => { E with depth := E.depth + 1 }

def pop_rdi : GenM Unit := do
  EMIT [0x5F]
  Output.modify fun E => { E with depth := E.depth - 1 }

def mov_rax_imm (v : BitVec 64) : GenM Unit := EMIT ([0x48, 0xB8] ++ e64 v)

def mov_r11_imm (v : BitVec 64) : GenM Unit := EMIT ([0x49, 0xBB] ++ e64 v)

/-- `dec qword [r15]; js abort_fuel`. -/
def fuel_check : GenM Unit := do
  EMIT [0x49, 0xFF, 0x0F]
  js_to (← Output.get).abort_fuel

/-- `cmp rsp, [r15+8]; jb abort_stack`. -/
def stack_check : GenM Unit := do
  EMIT [0x49, 0x3B, 0x67, 0x08]
  jb_to (← Output.get).abort_stack

namespace item_t

def size : item_t → Nat
  | ins bytes => bytes.length
  | jump opcode _ => opcode.length + 4
  | label _ => 0

end item_t

def code_size (items : List item_t) : Nat := (items.map item_t.size).sum

@[simp] theorem code_size_nil : code_size [] = 0 := rfl

@[simp] theorem code_size_cons (item : item_t) (items : List item_t) :
    code_size (item :: items) = item.size + code_size items := rfl

@[simp] theorem code_size_append (items items' : List item_t) :
    code_size (items ++ items') = code_size items + code_size items' := by
  simp [code_size]

/-- Where a label is in code that starts at an offset. The last place counts. -/
def label_off (l : Nat) : Nat → List item_t → Option Nat
  | _, [] => none
  | at_, item :: items =>
    match label_off l (at_ + item.size) items with
    | some off => some off
    | none => if item = .label l then some at_ else none

/-- The bytes of code that starts at an offset, with every rel32 filled in. -/
def resolve_items (place : Nat → Option Nat) : Nat → List item_t → Option (List UInt8)
  | _, [] => some []
  | at_, .ins bytes :: items => (resolve_items place (at_ + bytes.length) items).map (bytes ++ ·)
  | at_, .jump opcode l :: items =>
    match place l with
    | none => none
    | some off =>
      (resolve_items place (at_ + (opcode.length + 4)) items).map
        (opcode ++ e32 (off - (at_ + (opcode.length + 4))) ++ ·)
  | at_, .label _ :: items => resolve_items place at_ items

def count_jumps (items : List item_t) : Nat :=
  items.countP fun item =>
    match item with
    | .jump _ _ => true
    | _ => false

end fable.cc
