import FableOs.Cc.Tree
import FableOs.Lib.X64.Machine

namespace fable.cc

open x64 (Width)

/-! What a tree computes: every value is held in 64 bits, extended from the
width of its type, and each operator works at the width of its node. -/

/-- Where the variables are, and which bytes of memory an access may touch. -/
structure frame_t where
  rbp : BitVec 64
  data : BitVec 64
  valid : BitVec 64 → Bool

/-- Whether a node's operation is made in 64 bits. -/
def is_w64 (ty : cc_type) : Bool := ty.size == 8 || ty.cc_is_pointerish

def is_uns (ty : cc_type) : Bool := ty.is_unsigned || ty.cc_is_pointerish

/-- An operation on values of one width; a division that faults has no value. -/
def binop_at {n : Nat} (kind : binop_kind) (uns : Bool) (a b : BitVec n) : Option (BitVec n) :=
  match kind with
  | .ND_ADD => some (a + b)
  | .ND_SUB => some (a - b)
  | .ND_MUL => some (a * b)
  | .ND_DIV =>
    if b = 0 then none
    else if uns then some (a / b)
    else if a = BitVec.intMin n ∧ b = -1 then none
    else some (a.sdiv b)
  | .ND_MOD =>
    if b = 0 then none
    else if uns then some (a % b)
    else if a = BitVec.intMin n ∧ b = -1 then none
    else some (a.srem b)
  | .ND_SHL => some (a <<< (b.toNat % n))
  | .ND_SHR => some (if uns then a >>> (b.toNat % n) else a.sshiftRight (b.toNat % n))
  | .ND_BITAND => some (a &&& b)
  | .ND_BITOR => some (a ||| b)
  | .ND_BITXOR => some (a ^^^ b)

def binop_value (kind : binop_kind) (ty : cc_type) (a b : BitVec 64) : Option (BitVec 64) :=
  if is_w64 ty then (binop_at kind (is_uns ty) a b).map (as_type ty)
  else (binop_at kind (is_uns ty) (a.setWidth 32) (b.setWidth 32)).map fun v => as_type ty (v.setWidth 64)

def compare_at {n : Nat} (kind : compare_kind) (uns : Bool) (a b : BitVec n) : Bool :=
  match kind with
  | .ND_EQ => a = b
  | .ND_NE => a ≠ b
  | .ND_LT => if uns then a < b else a.slt b
  | .ND_LE => if uns then a ≤ b else a.sle b

def truth (b : Bool) : BitVec 64 := if b then 1 else 0

def compare_value (kind : compare_kind) (ot : cc_type) (a b : BitVec 64) : BitVec 64 :=
  truth (if is_w64 ot then compare_at kind (is_uns ot) a b
    else compare_at kind (is_uns ot) (a.setWidth 32) (b.setWidth 32))

def bitnot_value (ty : cc_type) (a : BitVec 64) : BitVec 64 :=
  as_type ty (if ty.size = 8 then ~~~a else (~~~(a.setWidth 32)).setWidth 64)

/-- The width of an access to an object of a size. -/
def width_of (size : Int) : Width :=
  if size = 1 then .w8 else if size = 2 then .w16 else if size = 4 then .w32 else .w64

def frame_t.allows (F : frame_t) (a : BitVec 64) (n : Nat) : Bool :=
  (List.range n).all fun i => F.valid (a + BitVec.ofNat 64 i)

/-- An evaluation: a value and the memory after it. -/
abbrev Eval := x64.Mem → Option (BitVec 64 × x64.Mem)

/-- The object at an address; an array or a struct is its address. -/
def load_value (F : frame_t) (ty : cc_type) (a : BitVec 64) (m : x64.Mem) : Option (BitVec 64 × x64.Mem) :=
  match ty with
  | .array _ _ | .aggregate _ _ _ => some (a, m)
  | _ =>
    if F.allows a (width_of ty.size).bytes then some (as_type ty (x64.read m a (width_of ty.size)), m) else none

def store_value (F : frame_t) (size : Int) (a v : BitVec 64) (m : x64.Mem) : Option (BitVec 64 × x64.Mem) :=
  if F.allows a (width_of size).bytes then some (v, x64.write m a (width_of size) v) else none

def sym_addr (F : frame_t) : cc_sym → Option (BitVec 64)
  | .local offset => some (F.rbp + (BitVec.ofInt 32 offset).signExtend 64)
  | .global offset => some (F.data + BitVec.ofInt 64 offset)
  | _ => none

/-- The address and the value of a node, in the order the code evaluates. Calls
    and struct copies are outside. -/
def eval_both (F : frame_t) : cc_node → Eval × Eval
  | .num _ val => (fun _ => none, fun m => some (val, m))
  | .var type sym =>
    (fun m => (sym_addr F sym).map (·, m),
      match sym with
      | .enumconst val => fun m => some (val, m)
      | _ => fun m => (sym_addr F sym).bind fun a => load_value F type a m)
  | .str _ off =>
    (fun m => some (F.data + BitVec.ofInt 64 off, m), fun m => some (F.data + BitVec.ofInt 64 off, m))
  | .member type lhs offset =>
    let addr : Eval := fun m => do
      let (a, m) ← (eval_both F lhs).1 m
      return (if offset = 0 then a else a + (BitVec.ofInt 32 offset).signExtend 64, m)
    (addr, fun m => do
      let (a, m) ← addr m
      load_value F type a m)
  | .deref type lhs =>
    ((eval_both F lhs).2, fun m => do
      let (a, m) ← (eval_both F lhs).2 m
      load_value F type a m)
  | .addr _ lhs => (fun _ => none, (eval_both F lhs).1)
  | .assign type lhs rhs =>
    (fun _ => none, fun m => do
      let (a, m) ← (eval_both F lhs).1 m
      let (v, m) ← (eval_both F rhs).2 m
      store_value F type.size a v m)
  | .copy _ _ _ => (fun _ => none, fun _ => none)
  | .cast type lhs =>
    (fun _ => none, fun m => do
      let (v, m) ← (eval_both F lhs).2 m
      return (if type = .void then v else as_type type v, m))
  | .binop kind type lhs rhs =>
    (fun _ => none, fun m => do
      let (b, m) ← (eval_both F rhs).2 m
      let (a, m) ← (eval_both F lhs).2 m
      let v ← binop_value kind type a b
      return (v, m))
  | .compare kind _ lhs rhs =>
    (fun _ => none, fun m => do
      let (b, m) ← (eval_both F rhs).2 m
      let (a, m) ← (eval_both F lhs).2 m
      return (compare_value kind lhs.type a b, m))
  | .not _ lhs =>
    (fun _ => none, fun m => do
      let (v, m) ← (eval_both F lhs).2 m
      return (truth (v = 0), m))
  | .bitnot type lhs =>
    (fun _ => none, fun m => do
      let (v, m) ← (eval_both F lhs).2 m
      return (bitnot_value type v, m))
  | .logand _ lhs rhs =>
    (fun _ => none, fun m => do
      let (a, m) ← (eval_both F lhs).2 m
      if a = 0 then return (0, m)
      else
        let (b, m) ← (eval_both F rhs).2 m
        return (truth (b ≠ 0), m))
  | .logor _ lhs rhs =>
    (fun _ => none, fun m => do
      let (a, m) ← (eval_both F lhs).2 m
      if a ≠ 0 then return (1, m)
      else
        let (b, m) ← (eval_both F rhs).2 m
        return (truth (b ≠ 0), m))
  | .cond _ c t e =>
    (fun _ => none, fun m => do
      let (v, m) ← (eval_both F c).2 m
      if v ≠ 0 then (eval_both F t).2 m else (eval_both F e).2 m)
  | .comma _ lhs rhs =>
    (fun m => do
      let (_, m) ← (eval_both F lhs).2 m
      (eval_both F rhs).1 m, fun m => do
      let (_, m) ← (eval_both F lhs).2 m
      (eval_both F rhs).2 m)
  | .call _ _ _ => (fun _ => none, fun _ => none)

def eval_addr (F : frame_t) (n : cc_node) : Eval := (eval_both F n).1

def eval_expr (F : frame_t) (n : cc_node) : Eval := (eval_both F n).2

end fable.cc
