import FableOs.Cc.Ints
import FableOs.Lib.C11.Expr
import FableOs.Lib.CArray

namespace fable.cc

open c11 (Ty Expr convert promote usual)

/-! What the parser builds for an expression over integer variables. -/

/-- Variables: their types and what their names stand for. -/
structure vars_t (X : Type) where
  decl : X → Ty
  sym : X → cc_sym

section Build

variable {X : Type} (V : vars_t X)

def var_node (x : X) : cc_node := .var (of_ty (V.decl x)) (V.sym x)

/-- The node of a binary operator. -/
def build_bin (op : c11.BinOp) (l r : cc_node) : Except cc_error cc_node :=
  match op with
  | .arith .add => new_add l r
  | .arith .sub => new_sub l r
  | .arith op => arith (kind_of (.arith op)) l r
  | .shift left => shift (kind_of (.shift left)) l r

/-- The node of a comparison; `>` and `>=` change the sides. -/
def build_cmp (rel : c11.Rel) (l r : cc_node) : Except cc_error cc_node :=
  if (compare_of rel).2 then compare (compare_of rel).1 r l else compare (compare_of rel).1 l r

/-- The type that a cast names. -/
def cast_type : Option Ty → cc_type
  | none => .void
  | some t => of_ty t

/-- The parser's actions on an expression, in the order it makes them. -/
def build : Expr X → build_ctx → Except cc_error (cc_node × build_ctx)
  | .const t v, ctx => .ok (.num (of_ty t) (BitVec.ofInt 64 v), ctx)
  | .var x, ctx => .ok (var_node V x, ctx)
  | .post plus x, ctx => postfix_step ctx (var_node V x) plus
  | .pos e, ctx => do
    let (n, ctx) ← build e ctx
    return (← unary_plus n, ctx)
  | .neg e, ctx => do
    let (n, ctx) ← build e ctx
    return (← unary_minus n, ctx)
  | .bitnot e, ctx => do
    let (n, ctx) ← build e ctx
    return (← unary_bitnot n, ctx)
  | .not e, ctx => do
    let (n, ctx) ← build e ctx
    return (← unary_not n, ctx)
  | .cast t e, ctx => do
    let (n, ctx) ← build e ctx
    return (← cast_to (cast_type t) n, ctx)
  | .bin op l r, ctx => do
    let (l, ctx) ← build l ctx
    let (r, ctx) ← build r ctx
    return (← build_bin op l r, ctx)
  | .cmp rel l r, ctx => do
    let (l, ctx) ← build l ctx
    let (r, ctx) ← build r ctx
    return (← build_cmp rel l r, ctx)
  | .and l r, ctx => do
    let (l, ctx) ← build l ctx
    let (r, ctx) ← build r ctx
    return (← logand l r, ctx)
  | .or l r, ctx => do
    let (l, ctx) ← build l ctx
    let (r, ctx) ← build r ctx
    return (← logor l r, ctx)
  | .cond c t e, ctx => do
    let (c, ctx) ← build c ctx
    let (t, ctx) ← build t ctx
    let (e, ctx) ← build e ctx
    return (← conditional c t e, ctx)
  | .comma l r, ctx => do
    let (l, ctx) ← build l ctx
    let (r, ctx) ← build r ctx
    return (comma l r, ctx)
  | .assign x e, ctx => do
    let (r, ctx) ← build e ctx
    return (← assign (var_node V x) r, ctx)
  | .assignOp op x e, ctx => do
    let (r, ctx) ← build e ctx
    compound_assign ctx (var_node V x) r (kind_of op)

/-- `x++` and `x--` are built as `(x += 1) - 1` and `(x -= 1) + 1`. -/
theorem build_post (plus : Bool) (x : X) (ctx : build_ctx) :
    build V (.post plus x) ctx =
      build V (.bin (c11.stepOp !plus) (.assignOp (c11.stepOp plus) x (.const .int 1)) (.const .int 1)) ctx := by
  cases plus <;> rfl

end Build

section Nodes

variable {n l r : cc_node} {t u : Ty} {role : role_t}

/-- The tree's type of an expression of a C type or of void: the same, or one
    that has the same promoted type, as the operand of a unary plus is not
    promoted. -/
def Typed (n : cc_node) : Option Ty → Prop
  | none => n.type = .void
  | some t => ∃ t', n.type = of_ty t' ∧ promote t' = promote t

/-- An integer expression does not decay. -/
theorem decay_int (h : n.type = of_ty t) : decay n = n := by
  unfold decay
  obtain ⟨rank, unsigned⟩ := t
  cases rank <;> simp [h, of_ty]

/-- An integer will do where a scalar is wanted. -/
theorem want_scalar_int (h : n.type = of_ty t) : want_scalar n role = .ok n := by
  unfold want_scalar
  rw [decay_int h]
  obtain ⟨rank, unsigned⟩ := t
  cases rank <;> simp [h, of_ty]

theorem want_scalar_void (h : n.type = .void) : want_scalar n role = .error (.void_value role) := by
  unfold want_scalar decay
  simp [h]

@[simp] theorem is_ptr_of_ty (t : Ty) : (of_ty t).is_ptr = false := by
  obtain ⟨rank, _⟩ := t
  cases rank <;> rfl

/-- Both operands of an arithmetic operator are converted to their common type. -/
theorem arith_int (hl : l.type = of_ty t) (hr : r.type = of_ty u) (kind : binop_kind) :
    arith kind l r = .ok (.binop kind (of_ty (usual t u)) (node_cast l (of_ty (usual t u)))
      (node_cast r (of_ty (usual t u)))) := by
  unfold arith
  simp [want_scalar_int hl, want_scalar_int hr, hl, hr, common_type_of_ty, bind, Except.bind]

/-- Between integers `+` is plain arithmetic, without scaling. -/
theorem new_add_int (hl : l.type = of_ty t) (hr : r.type = of_ty u) : new_add l r = arith .ND_ADD l r := by
  unfold new_add
  simp only [want_scalar_int hl, want_scalar_int hr, bind, Except.bind]
  obtain ⟨rank, unsigned⟩ := t
  obtain ⟨rank', unsigned'⟩ := u
  cases rank <;> cases rank' <;> simp [hl, hr, of_ty]

/-- Between integers `-` is plain arithmetic, without scaling. -/
theorem new_sub_int (hl : l.type = of_ty t) (hr : r.type = of_ty u) : new_sub l r = arith .ND_SUB l r := by
  unfold new_sub
  simp only [want_scalar_int hl, want_scalar_int hr, bind, Except.bind]
  obtain ⟨rank, unsigned⟩ := t
  obtain ⟨rank', unsigned'⟩ := u
  cases rank <;> cases rank' <;> simp [hl, hr, of_ty]

/-- The common type depends on the promoted types only. -/
theorem usual_congr {t' u' : Ty} (ht : promote t' = promote t) (hu : promote u' = promote u) :
    usual t' u' = usual t u := by
  unfold usual
  rw [ht, hu]

@[simp] theorem promote_promote (t : Ty) : promote (promote t) = promote t := promote_of_wide (wide_promote t)

@[simp] theorem usual_int (t : Ty) : usual t .int = promote t := by
  obtain ⟨rank, unsigned⟩ := t
  cases rank <;> cases unsigned <;> rfl

@[simp] theorem usual_promote (t : Ty) : usual (promote t) (promote t) = promote t := by
  unfold usual
  simp

@[simp] theorem type_node_cast (n : cc_node) (ty : cc_type) : (node_cast n ty).type = ty := by
  unfold node_cast
  split
  · assumption
  · rfl

theorem node_cast_same {ty} (h : n.type = ty) : node_cast n ty = n := if_pos h

/-- With an `int` the common type is the promoted type. -/
theorem common_type_int (t : Ty) : common_type (of_ty t) cc_ty_int = of_ty (promote t) := by
  rw [← usual_int, ← common_type_of_ty]
  rfl

/-- A minus sign is a subtraction from zero in the promoted type. -/
theorem unary_minus_int (h : n.type = of_ty t) :
    unary_minus n = .ok (.binop .ND_SUB (of_ty (promote t)) (.num (of_ty (promote t)) 0)
      (node_cast n (of_ty (promote t)))) := by
  unfold unary_minus
  simp only [want_scalar_int h, h, is_ptr_of_ty, common_type_int, bind, Except.bind, Bool.false_eq_true, if_false]
  have hzero : node_cast (.num (of_ty (promote t)) 0) (of_ty (promote t)) = .num (of_ty (promote t)) 0 :=
    node_cast_same rfl
  rw [new_sub_int (t := promote t) (u := promote t) rfl (type_node_cast _ _),
    arith_int (t := promote t) (u := promote t) rfl (type_node_cast _ _), usual_promote,
    node_cast_same (type_node_cast _ _), hzero]

theorem unary_bitnot_int (h : n.type = of_ty t) :
    unary_bitnot n = .ok (.bitnot (of_ty (promote t)) (node_cast n (of_ty (promote t)))) := by
  unfold unary_bitnot
  simp [want_scalar_int h, h, common_type_int, bind, Except.bind]

/-- The left operand of a shift is promoted, the right one becomes an `int`. -/
theorem shift_int (hl : l.type = of_ty t) (hr : r.type = of_ty u) (kind : binop_kind) :
    shift kind l r = .ok (.binop kind (of_ty (promote t)) (node_cast l (of_ty (promote t))) (node_cast r cc_ty_int)) := by
  unfold shift
  simp [want_scalar_int hl, want_scalar_int hr, hl, hr, promoted_of_ty, bind, Except.bind]

/-- A comparison of two integers is made in their common type and is an `int`. -/
theorem compare_int (hl : l.type = of_ty t) (hr : r.type = of_ty u) (kind : compare_kind) :
    compare kind l r = .ok (.compare kind cc_ty_int (node_cast l (of_ty (usual t u)))
      (node_cast r (of_ty (usual t u)))) := by
  unfold compare
  simp [want_scalar_int hl, want_scalar_int hr, hl, hr, common_type_of_ty, bind, Except.bind]

/-- For each operator of the language the node is the one its rules ask for. -/
theorem build_bin_int (hl : l.type = of_ty t) (hr : r.type = of_ty u) (op : c11.BinOp) :
    build_bin op l r = .ok (.binop (kind_of op) (of_ty (op.ty t u)) (node_cast l (of_ty (op.ty t u)))
      (node_cast r (match op with | .arith _ => of_ty (usual t u) | .shift _ => cc_ty_int))) := by
  cases op with
  | shift left => exact shift_int hl hr _
  | arith op =>
    cases op with
    | add => exact (new_add_int hl hr).trans (arith_int hl hr _)
    | sub => exact (new_sub_int hl hr).trans (arith_int hl hr _)
    | _ => exact arith_int hl hr _

@[simp] theorem is_aggregate_of_ty (t : Ty) : (of_ty t).is_aggregate = false := by
  obtain ⟨rank, _⟩ := t
  cases rank <;> rfl

theorem of_ty_ne_void (t : Ty) : of_ty t ≠ .void := by
  obtain ⟨rank, _⟩ := t
  cases rank <;> simp [of_ty]

theorem scalar_of_ty (t : Ty) : (of_ty t).is_aggregate = false ∧ ∀ base len, of_ty t ≠ .array base len := by
  obtain ⟨rank, _⟩ := t
  cases rank <;> simp [of_ty, cc_type.is_aggregate]

theorem decay_void (h : n.type = .void) : decay n = n := by
  unfold decay
  rw [h]

/-- A cast between integer types is always built. -/
theorem cast_to_int (h : n.type = of_ty t) (u : Ty) : cast_to (of_ty u) n = .ok (.cast (of_ty u) n) := by
  unfold cast_to
  rw [decay_int h]
  obtain ⟨rank, unsigned⟩ := t
  obtain ⟨rank', unsigned'⟩ := u
  cases rank <;> cases rank' <;> simp [h, of_ty, cc_type.is_aggregate]

theorem cast_to_of_void (h : n.type = .void) (u : Ty) : cast_to (of_ty u) n = .error .void_cast := by
  unfold cast_to
  rw [decay_void h]
  obtain ⟨rank, unsigned⟩ := u
  cases rank <;> simp [h, of_ty, cc_type.is_aggregate]

/-- The branches of a conditional are converted to their common type. -/
theorem conditional_int {c} {w : Ty} (hc : c.type = of_ty w) (hl : l.type = of_ty t) (hr : r.type = of_ty u) :
    conditional c l r = .ok (.cond (of_ty (usual t u)) c (node_cast l (of_ty (usual t u)))
      (node_cast r (of_ty (usual t u)))) := by
  unfold conditional
  simp [want_scalar_int hc, decay_int hl, decay_int hr, hl, hr, of_ty_ne_void, common_type_of_ty, bind, Except.bind]

/-- A conditional with one void branch is void. -/
theorem conditional_void {c} {w : Ty} (hc : c.type = of_ty w) (hl : decay l = l) (hr : decay r = r)
    (hvoid : l.type = .void ∨ r.type = .void) : conditional c l r = .ok (.cond .void c l r) := by
  unfold conditional
  simp [want_scalar_int hc, hl, hr, hvoid, bind, Except.bind]

/-- One integer type is coerced to another by a cast, if they differ. -/
theorem coerce_int (h : n.type = of_ty t) (u : Ty) (role : role_t) :
    coerce n (of_ty u) role = .ok (node_cast n (of_ty u)) := by
  unfold coerce
  have hok : assignable (of_ty u) n = true := by
    obtain ⟨rank, unsigned⟩ := t
    obtain ⟨rank', unsigned'⟩ := u
    cases rank <;> cases rank' <;> simp [assignable, h, of_ty, cc_type.cc_is_integer]
  simp [decay_int h, hok]

end Nodes

section Compound

variable {ctx ctx' : build_ctx} {lhs rhs n : cc_node} {ty : cc_type} {t u : Ty}

/-- The temporary that a compound assignment keeps its address in. -/
def temp_node (ty : cc_type) (ctx : build_ctx) : cc_node := .var (.ptr ty) (.local (-8 * (ctx.ntemp + 1)))

/-- What the temporary points to. -/
def target_node (ty : cc_type) (ctx : build_ctx) : cc_node := .deref ty (temp_node ty ctx)

/-- A compound assignment that is accepted takes one more temporary, for the address
    of its target, and stores the value of the operator through it. -/
theorem compound_assign_ok {kind} (hty : lhs.type = ty) (hscalar : ty.is_aggregate = false ∧ ∀ b l, ty ≠ .array b l)
    (h : compound_assign ctx lhs rhs kind = .ok (n, ctx')) :
    lhs.is_lvalue = true ∧ ctx.ntemp < CC_TEMP_SLOTS ∧ ctx'.ntemp = ctx.ntemp + 1 ∧
      ∃ val store, compound_value kind (target_node ty ctx) rhs = .ok val ∧
        coerce val ty .compound_assignment = .ok store ∧
        n = .comma ty (.assign (.ptr ty) (temp_node ty ctx) (.addr (.ptr ty) lhs))
          (.assign ty (target_node ty ctx) store) := by
  subst hty
  unfold compound_assign at h
  split at h
  · cases h
  next hlvalue =>
  split at h
  · next heq => exact absurd heq (hscalar.2 _ _)
  · next heq =>
    rw [heq] at hscalar
    cases hscalar.1
  · obtain ⟨⟨tmp, ctx₁⟩, htemp, hrest⟩ := except_bind_eq_ok_iff.mp h
    obtain ⟨val, hval, hrest⟩ := except_bind_eq_ok_iff.mp hrest
    obtain ⟨store, hstore, hok⟩ := except_bind_eq_ok_iff.mp hrest
    unfold new_temp at htemp
    split at htemp
    · cases htemp
    split at htemp
    · cases htemp
    next hroom =>
    cases htemp
    cases hok
    exact ⟨by simpa using hlvalue, Nat.not_le.mp hroom, rfl, val, store, hval, hstore, rfl⟩

/-- The value of a compound assignment is the one of its operator. -/
theorem compound_value_int (hrhs : rhs.type = of_ty u) (op : c11.BinOp) :
    compound_value (kind_of op) (target_node (of_ty t) ctx) rhs =
      .ok (match op with
        | .arith _ => .binop (kind_of op) (of_ty (usual t u)) (node_cast (target_node (of_ty t) ctx) (of_ty (usual t u)))
          (node_cast rhs (of_ty (usual t u)))
        | .shift _ => .binop (kind_of op) (of_ty t) (target_node (of_ty t) ctx) (node_cast rhs cc_ty_int)) := by
  have htarget : (target_node (of_ty t) ctx).type = of_ty t := rfl
  cases op with
  | shift left =>
    cases left <;> simp only [kind_of, compound_value, want_scalar_int hrhs, bind, Except.bind] <;> rfl
  | arith op =>
    have hbuild : compound_value (kind_of (.arith op)) (target_node (of_ty t) ctx) rhs =
        build_bin (.arith op) (target_node (of_ty t) ctx) rhs := by
      cases op <;> rfl
    exact hbuild.trans (build_bin_int htarget hrhs _)

end Compound

end fable.cc
