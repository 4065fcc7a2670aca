import FableOs.Cc.Tree

namespace fable.cc

/-! The node constructors of the parser: where a conversion is made, it is a
cast node of the tree. -/

/-- The place a diagnostic names. -/
inductive role_t where
  | operand
  | shift_count
  | condition
  | assignment
  | compound_assignment
  | argument (number : Nat)
  | an_argument
  | initialiser
  | returned_value
  deriving DecidableEq

/-- The refusals of the node constructors. -/
inductive cc_error where
  | aggregate_value (role : role_t)
  | void_value (role : role_t)
  | function_value (role : role_t)
  | pointer_operand
  | two_pointers_added
  | no_size
  | pointers_differ
  | number_minus_pointer
  | compared_with_pointer
  | not_assignable (role : role_t)
  | not_an_lvalue
  | array_assigned
  | aggregate_compound
  | outside_function
  | too_many_temporaries
  | pointer_negated
  | pointer_complemented
  | pointer_shifted
  | no_common_type
  | aggregate_conditional
  | aggregate_cast
  | array_cast
  | void_cast
  | array_initialised
  | returns_void
  deriving DecidableEq

/-- What the constructors read and change of the function being parsed. -/
structure build_ctx where
  in_function : Bool
  ntemp : Nat
  temp_peak : Nat

def node_cast (e : cc_node) (ty : cc_type) : cc_node := if e.type = ty then e else .cast ty e

def decay (e : cc_node) : cc_node :=
  match e.type with
  | .array base _ => .addr (.ptr base) e
  | _ => e

def common_type (a b : cc_type) : cc_type :=
  let a := if a.size < 4 then cc_ty_int else a
  let b := if b.size < 4 then cc_ty_int else b
  if a.size ≠ b.size then (if b.size < a.size then a else b)
  else if b.is_unsigned then b
  else a

/-- Whether a value can be stored without a cast. -/
def assignable (dst : cc_type) (src : cc_node) : Bool :=
  match dst, src.type with
  | .void, _ => false
  | .aggregate u (some tag) _, .aggregate u' (some tag') _ => u == u' && tag == tag'
  | .aggregate _ _ _, _ => false
  | _, .aggregate _ _ _ => false
  | .ptr d, .ptr s =>
    d == .void || s == .void ||
      match d, s with
      | .aggregate u (some tag) size, .aggregate u' (some tag') size' => u == u' && size == size' && tag == tag'
      | .aggregate _ _ _, _ => false
      | .char u, .char u' | .short u, .short u' | .int u, .int u' | .long u, .long u' => u == u'
      | .ptr _, .ptr _ => true
      | .array b l, .array b' l' => cc_type.size (.array b l) == cc_type.size (.array b' l')
      | .func _, .func _ => true
      | _, _ => false
  | d, s =>
    if d.cc_is_integer && s.cc_is_integer then true
    else if d.is_ptr && s.cc_is_integer then src.is_null
    else false

def coerce (e : cc_node) (want : cc_type) (role : role_t) : Except cc_error cc_node :=
  let e := decay e
  if assignable want e then
    if want.is_aggregate then .ok e else .ok (node_cast e want)
  else .error (.not_assignable role)

def want_scalar (e : cc_node) (role : role_t) : Except cc_error cc_node :=
  let e := decay e
  match e.type with
  | .aggregate _ _ _ => .error (.aggregate_value role)
  | .void => .error (.void_value role)
  | .func _ => .error (.function_value role)
  | _ => .ok e

/-- Arithmetic on two integers: both become the common type. -/
def arith (kind : binop_kind) (l r : cc_node) : Except cc_error cc_node := do
  let l ← want_scalar l .operand
  let r ← want_scalar r .operand
  if l.type.is_ptr || r.type.is_ptr then .error .pointer_operand
  else
    let ct := common_type l.type r.type
    .ok (.binop kind ct (node_cast l ct) (node_cast r ct))

/-- An index, in bytes. -/
def scaled (r : cc_node) (base : cc_type) : cc_node :=
  .binop .ND_MUL cc_ty_long (node_cast r cc_ty_long) (.num cc_ty_long (BitVec.ofInt 64 base.size))

def new_add (l r : cc_node) : Except cc_error cc_node := do
  let l ← want_scalar l .operand
  let r ← want_scalar r .operand
  match l.type, r.type with
  | .ptr _, .ptr _ => .error .two_pointers_added
  | .ptr base, _ => if base.size ≤ 0 then .error .no_size else .ok (.binop .ND_ADD l.type l (scaled r base))
  | _, .ptr base => if base.size ≤ 0 then .error .no_size else .ok (.binop .ND_ADD r.type r (scaled l base))
  | _, _ => arith .ND_ADD l r

def new_sub (l r : cc_node) : Except cc_error cc_node := do
  let l ← want_scalar l .operand
  let r ← want_scalar r .operand
  match l.type, r.type with
  | .ptr base, .ptr base' =>
    if base.size ≠ base'.size then .error .pointers_differ
    else
      .ok (.binop .ND_DIV cc_ty_long (.binop .ND_SUB cc_ty_long l r) (.num cc_ty_long (BitVec.ofInt 64 base.size)))
  | _, .ptr _ => .error .number_minus_pointer
  | .ptr base, _ => .ok (.binop .ND_SUB l.type l (scaled r base))
  | _, _ => arith .ND_SUB l r

/-- A comparison: both sides become the common type and the result is an int. -/
def compare (kind : compare_kind) (l r : cc_node) : Except cc_error cc_node := do
  let l ← want_scalar l .operand
  let r ← want_scalar r .operand
  if l.type.is_ptr || r.type.is_ptr then
    if l.type.is_ptr && !r.type.is_ptr && !r.is_null then .error .compared_with_pointer
    else if !l.type.is_ptr && r.type.is_ptr && !l.is_null then .error .compared_with_pointer
    else .ok (.compare kind cc_ty_int (node_cast l cc_ty_ulong) (node_cast r cc_ty_ulong))
  else
    let ct := common_type l.type r.type
    .ok (.compare kind cc_ty_int (node_cast l ct) (node_cast r ct))

/-- A hidden temporary, from the fixed region at the top of the frame. -/
def new_temp (ctx : build_ctx) : Except cc_error (cc_sym × build_ctx) :=
  if !ctx.in_function then .error .outside_function
  else if CC_TEMP_SLOTS ≤ ctx.ntemp then .error .too_many_temporaries
  else
    .ok (.local (-8 * (ctx.ntemp + 1)),
      { ctx with ntemp := ctx.ntemp + 1, temp_peak := max (ctx.ntemp + 1) ctx.temp_peak })

/-- The value a compound assignment stores, before it is converted. A shift is
    made at the width of the left side itself. -/
def compound_value (kind : binop_kind) (d rhs : cc_node) : Except cc_error cc_node :=
  match kind with
  | .ND_ADD => new_add d rhs
  | .ND_SUB => new_sub d rhs
  | .ND_SHL | .ND_SHR => do
    let r ← want_scalar rhs .shift_count
    .ok (.binop kind d.type d (node_cast r cc_ty_int))
  | _ => arith kind d rhs

/-- `lhs op= rhs` becomes `(tmp = &lhs, *tmp = *tmp op rhs)`. -/
def compound_assign (ctx : build_ctx) (lhs rhs : cc_node) (kind : binop_kind) :
    Except cc_error (cc_node × build_ctx) := do
  if !lhs.is_lvalue then .error .not_an_lvalue
  else
    match lhs.type with
    | .array _ _ => .error .array_assigned
    | .aggregate _ _ _ => .error .aggregate_compound
    | ty =>
      let (tmp, ctx) ← new_temp ctx
      let tv := .var (.ptr ty) tmp
      let set := .assign (.ptr ty) tv (.addr (.ptr ty) lhs)
      let d := .deref ty tv
      let val ← compound_value kind d rhs
      let store ← coerce val ty .compound_assignment
      .ok (.comma ty set (.assign ty d store), ctx)

/-- `x++` and `x--`: `(x += 1) - 1` and `(x -= 1) + 1`. -/
def postfix_step (ctx : build_ctx) (n : cc_node) (plus : Bool) : Except cc_error (cc_node × build_ctx) := do
  let (inc, ctx) ← compound_assign ctx n (.num cc_ty_int 1) (if plus then .ND_ADD else .ND_SUB)
  let back := .num cc_ty_int 1
  let res ← if plus then new_sub inc back else new_add inc back
  .ok (res, ctx)

def unary_plus (e : cc_node) : Except cc_error cc_node := want_scalar e .operand

def unary_minus (e : cc_node) : Except cc_error cc_node := do
  let e ← want_scalar e .operand
  if e.type.is_ptr then .error .pointer_negated
  else
    let ct := common_type e.type cc_ty_int
    new_sub (.num ct 0) (node_cast e ct)

def unary_not (e : cc_node) : Except cc_error cc_node := do
  let e ← want_scalar e .operand
  .ok (.not cc_ty_int e)

def unary_bitnot (e : cc_node) : Except cc_error cc_node := do
  let e ← want_scalar e .operand
  if e.type.is_ptr then .error .pointer_complemented
  else
    let ct := common_type e.type cc_ty_int
    .ok (.bitnot ct (node_cast e ct))

/-- A cast that is written out; it is a node even to the value's own type. -/
def cast_to (ty : cc_type) (e : cc_node) : Except cc_error cc_node :=
  let e := decay e
  match ty with
  | .void => .ok (node_cast e .void)
  | _ =>
    if ty.is_aggregate || e.type.is_aggregate then .error .aggregate_cast
    else
      match ty, e.type with
      | .array _ _, _ => .error .array_cast
      | _, .void => .error .void_cast
      | _, _ => .ok (.cast ty e)

/-- A shift has the type of its promoted left side. -/
def shift (kind : binop_kind) (n r : cc_node) : Except cc_error cc_node := do
  let n ← want_scalar n .operand
  let r ← want_scalar r .shift_count
  if n.type.is_ptr || r.type.is_ptr then .error .pointer_shifted
  else
    let lt := if n.type.size < 4 then cc_ty_int else n.type
    .ok (.binop kind lt (node_cast n lt) (node_cast r cc_ty_int))

def logand (n r : cc_node) : Except cc_error cc_node := do
  let n ← want_scalar n .operand
  let r ← want_scalar r .operand
  .ok (.logand cc_ty_int n r)

def logor (n r : cc_node) : Except cc_error cc_node := do
  let n ← want_scalar n .operand
  let r ← want_scalar r .operand
  .ok (.logor cc_ty_int n r)

def conditional (c a b : cc_node) : Except cc_error cc_node := do
  let c ← want_scalar c .condition
  let a := decay a
  let b := decay b
  if a.type = .void ∨ b.type = .void then .ok (.cond .void c a b)
  else if a.type.is_aggregate || b.type.is_aggregate then .error .aggregate_conditional
  else if a.type.is_ptr || b.type.is_ptr then
    if a.type.is_ptr && assignable a.type b then .ok (.cond a.type c a (node_cast b a.type))
    else if b.type.is_ptr && assignable b.type a then .ok (.cond b.type c (node_cast a b.type) b)
    else .error .no_common_type
  else
    let ct := common_type a.type b.type
    .ok (.cond ct c (node_cast a ct) (node_cast b ct))

def assign (n r : cc_node) : Except cc_error cc_node :=
  if !n.is_lvalue then .error .not_an_lvalue
  else
    match n.type with
    | .array _ _ => .error .array_assigned
    | ty => do
      let v ← coerce r ty .assignment
      .ok (if ty.is_aggregate then .copy ty n v else .assign ty n v)

def comma (n r : cc_node) : cc_node := .comma r.type n r

end fable.cc
