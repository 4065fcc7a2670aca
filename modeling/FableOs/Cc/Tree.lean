import Mathlib

namespace fable.cc

/-! The compiler's types and its typed tree. -/

abbrev CC_MAX_PARAMS : Nat := 6
abbrev CC_MAX_BLOCK_DEPTH : Nat := 32
abbrev CC_TEMP_SLOTS : Nat := 16

/-- What the parser and the code generator read of a type. A struct or union
    carries its size rather than its members. -/
inductive cc_type where
  | void
  | char (is_unsigned : Bool)
  | short (is_unsigned : Bool)
  | int (is_unsigned : Bool)
  | long (is_unsigned : Bool)
  | ptr (base : cc_type)
  | array (base : cc_type) (array_len : Int)
  | aggregate (is_union : Bool) (tag : Option (List UInt8)) (size : Int)
  | func (base : cc_type)
  deriving DecidableEq

namespace cc_type

def size : cc_type → Int
  | void => 1
  | char _ => 1
  | short _ => 2
  | int _ => 4
  | long _ => 8
  | ptr _ => 8
  | array base len => if len < 0 then 0 else base.size * len
  | aggregate _ _ size => size
  | func _ => 0

def is_unsigned : cc_type → Bool
  | char u | short u | int u | long u => u
  | ptr _ => true
  | _ => false

def cc_is_integer : cc_type → Bool
  | char _ | short _ | int _ | long _ => true
  | _ => false

def cc_is_pointerish : cc_type → Bool
  | ptr _ | array _ _ => true
  | _ => false

def is_aggregate : cc_type → Bool
  | aggregate _ _ _ => true
  | _ => false

def is_ptr : cc_type → Bool
  | ptr _ => true
  | _ => false

end cc_type

abbrev cc_ty_int : cc_type := .int false
abbrev cc_ty_long : cc_type := .long false
abbrev cc_ty_ulong : cc_type := .long true

/-- What a name stands for. A local's offset is relative to rbp, a global's to
    the unit's data image. -/
inductive cc_sym where
  | local (offset : Int)
  | global (offset : Int)
  | func (func_index : Int)
  | extern_ (addr : BitVec 64)
  | enumconst (val : BitVec 64)
  | typedef_
  deriving DecidableEq

inductive binop_kind where
  | ND_ADD | ND_SUB | ND_MUL | ND_DIV | ND_MOD | ND_SHL | ND_SHR | ND_BITAND | ND_BITOR | ND_BITXOR
  deriving DecidableEq

inductive compare_kind where
  | ND_EQ | ND_NE | ND_LT | ND_LE
  deriving DecidableEq

mutual

/-- The expression nodes. -/
inductive cc_node where
  | num (type : cc_type) (val : BitVec 64)
  | var (type : cc_type) (sym : cc_sym)
  | str (type : cc_type) (data_off : Int)
  | member (type : cc_type) (lhs : cc_node) (offset : Int)
  | deref (type : cc_type) (lhs : cc_node)
  | addr (type : cc_type) (lhs : cc_node)
  | assign (type : cc_type) (lhs rhs : cc_node)
  | copy (type : cc_type) (lhs rhs : cc_node)
  | cast (type : cc_type) (lhs : cc_node)
  | binop (kind : binop_kind) (type : cc_type) (lhs rhs : cc_node)
  | compare (kind : compare_kind) (type : cc_type) (lhs rhs : cc_node)
  | not (type : cc_type) (lhs : cc_node)
  | bitnot (type : cc_type) (lhs : cc_node)
  | logand (type : cc_type) (lhs rhs : cc_node)
  | logor (type : cc_type) (lhs rhs : cc_node)
  | cond (type : cc_type) (cond then_ els : cc_node)
  | comma (type : cc_type) (lhs rhs : cc_node)
  | call (type : cc_type) (callee : cc_sym) (args : cc_args)

/-- The arguments of a call, in order. -/
inductive cc_args where
  | nil
  | cons (arg : cc_node) (next : cc_args)

end

namespace cc_node

def type : cc_node → cc_type
  | num t _ | var t _ | str t _ | member t _ _ | deref t _ | addr t _ | assign t _ _ | copy t _ _ | cast t _
  | binop _ t _ _ | compare _ t _ _ | not t _ | bitnot t _ | logand t _ _ | logor t _ _ | cond t _ _ _
  | comma t _ _ | call t _ _ => t

/-- The literal 0, the only number that is a pointer. -/
def is_null : cc_node → Bool
  | num _ val => val = 0
  | _ => false

def is_lvalue : cc_node → Bool
  | var _ (.func _) => false
  | var _ (.enumconst _) => false
  | var _ _ => true
  | deref _ _ => true
  | member _ _ _ => true
  | _ => false

end cc_node

mutual

/-- The statement nodes. A loop without a first or a repeated statement has
    `nop` there. A case is known to its switch by a number. -/
inductive cc_stmt where
  | nop
  | block (body : cc_stmts)
  | expr_stmt (lhs : cc_node)
  | memzero (type : cc_type) (sym : cc_sym)
  | ret (lhs : Option cc_node)
  | if_then (cond : cc_node) (then_ : cc_stmt)
  | if_else (cond : cc_node) (then_ els : cc_stmt)
  | loop (test_first : Bool) (init : cc_stmt) (cond : Option cc_node) (post body : cc_stmt)
  | break_
  | continue_
  | case_ (id : Nat) (body : cc_stmt)
  | switch (cond : cc_node) (cases : List (Nat × BitVec 64)) (default_case : Option Nat) (body : cc_stmt)

inductive cc_stmts where
  | nil
  | cons (stmt : cc_stmt) (next : cc_stmts)

end

/-- One function to emit. Its parameters are given by frame offset and size. -/
structure cc_func where
  is_main : Bool
  param : List (Int × Int)
  body : cc_stmt
  frame_bytes : Int

/-- How a value of a type is held in a register: sign- or zero-extended from
    the type's width to 64 bits. -/
def as_type (t : cc_type) (v : BitVec 64) : BitVec 64 :=
  if t.size = 1 then if t.is_unsigned then (v.setWidth 8).setWidth 64 else (v.setWidth 8).signExtend 64
  else if t.size = 2 then if t.is_unsigned then (v.setWidth 16).setWidth 64 else (v.setWidth 16).signExtend 64
  else if t.size = 4 then if t.is_unsigned then (v.setWidth 32).setWidth 64 else (v.setWidth 32).signExtend 64
  else v

end fable.cc
