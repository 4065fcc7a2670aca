import FableOs.Cc.Const
import FableOs.Lib.CArray

namespace fable.cc

/-! The conversions that the parser makes without a cast, and which pointers they
mix up. -/

section Places

/-- One turn of the loop of `funcall`: by the prototype if there is one for the
    argument. -/
def argument (params : Option (List cc_type)) (nargs : Nat) (a : cc_node) : Except cc_error cc_node :=
  match params.bind fun params => params[nargs]? with
  | some want => coerce a want (.argument (nargs + 1))
  | none => do
    let a ← want_scalar a .an_argument
    .ok (node_cast a cc_ty_long)

/-- `init_into` with an expression. -/
def init_into (dst e : cc_node) : Except cc_error cc_node :=
  match dst.type with
  | .array _ _ => .error .array_initialised
  | ty => do
    let v ← coerce e ty .initialiser
    .ok (if ty.is_aggregate then .copy ty dst v else .assign ty dst v)

/-- The value of a return statement, in a function that returns `want`. -/
def return_value (want : cc_type) (e : cc_node) : Except cc_error cc_node :=
  if want = .void then .error .returns_void else coerce e want .returned_value

/-- `global_init` with an expression, as the value that it writes. A string is the
    address of its bytes in the data image; everything else is evaluated, and its
    type is not looked at. -/
def global_init (data : BitVec 64) (ty : cc_type) (e : cc_node) : Option (BitVec 64) :=
  match ty, e with
  | .ptr (.char _), .str _ data_off => some (data + BitVec.ofInt 64 data_off)
  | .array _ _, _ | .aggregate _ _ _, _ => none
  | _, _ => (eval_const e).toOption

/-- The type of a function as one declaration gives it, without parameters if it
    has no prototype. -/
structure func_type where
  base : cc_type
  params : Option (List cc_type)

def same_kind : cc_type → cc_type → Bool
  | .void, .void | .char _, .char _ | .short _, .short _ | .int _, .int _ | .long _, .long _ | .ptr _, .ptr _
  | .array _ _, .array _ _ | .func _, .func _ => true
  | .aggregate u _ _, .aggregate u' _ _ => u == u'
  | _, _ => false

/-- Whether two declarations of a function agree. -/
def same_func_type (a b : func_type) : Bool :=
  same_kind a.base b.base && a.base.size == b.base.size &&
    match a.params, b.params with
    | some ps, some qs => ps.length == qs.length && (ps.zip qs).all fun pq => same_kind pq.1 pq.2 && pq.1.size == pq.2.size
    | _, _ => true

/-- Where a value is taken for one of another type without a cast. -/
inductive place_t where
  | coerced
  | unprototyped
  | redeclared
  | string_at_file_scope
  | constant_at_file_scope

/-- The parser has accepted the expression where the type is needed. -/
inductive Converted : place_t → cc_node → cc_type → Prop
  | assigned {n r a : cc_node} (h : assign n r = .ok a) : Converted .coerced r n.type
  | passed {params : List cc_type} {nargs : Nat} {want : cc_type} {a v : cc_node} (hwant : params[nargs]? = some want)
      (h : argument (some params) nargs a = .ok v) : Converted .coerced a want
  | initialised {dst e a : cc_node} (h : init_into dst e = .ok a) : Converted .coerced e dst.type
  | returned {want : cc_type} {e v : cc_node} (h : return_value want e = .ok v) : Converted .coerced e want
  | unprototyped {nargs : Nat} {a v : cc_node} (h : argument none nargs a = .ok v) :
      Converted .unprototyped a cc_ty_long
  -- the argument has the type of the declaration that the call has seen, which is no
  -- array, and the definition reads it as one of its own
  | redeclared {decl defn : func_type} {i : Nat} {a : cc_node} {want : cc_type} (h : same_func_type decl defn = true)
      (hdecl : decl.params.bind (·[i]?) = some a.type) (hdefn : defn.params.bind (·[i]?) = some want)
      (harray : decay a = a) : Converted .redeclared a want
  -- and the call takes what it returns for one of the declaration's
  | redeclared_value {decl defn : func_type} {a : cc_node} (h : same_func_type decl defn = true)
      (hdefn : a.type = defn.base) (harray : decay a = a) : Converted .redeclared a decl.base
  | string {data v : BitVec 64} {len data_off : Int} {want : cc_type}
      (h : global_init data want (.str (.array (.char false) len) data_off) = some v) :
      Converted .string_at_file_scope (.str (.array (.char false) len) data_off) want
  | constant {data v : BitVec 64} {e : cc_node} {want : cc_type} (htype : e.type.cc_is_integer ∨ e.type.is_ptr)
      (h : global_init data want e = some v) : Converted .constant_at_file_scope e want

end Places

section Pointers

variable {e : cc_node} {want : cc_type} {role : role_t}

theorem assignable_of_coerce {v} (h : coerce e want role = .ok v) : assignable want (decay e) = true := by
  by_contra hno
  simp [coerce, hno] at h

/-- Every place with a type to convert to asks the same question. -/
theorem Converted.assignable (h : Converted .coerced e want) : assignable want (decay e) = true := by
  cases h with
  | assigned h =>
    rw [assign] at h
    split at h
    · cases h
    split at h
    · cases h
    · obtain ⟨v, hv, -⟩ := except_bind_eq_ok_iff.mp h
      exact assignable_of_coerce hv
  | passed hwant h =>
    rw [argument, Option.bind_some, hwant] at h
    exact assignable_of_coerce h
  | initialised h =>
    rw [init_into] at h
    split at h
    · cases h
    · obtain ⟨v, hv, -⟩ := except_bind_eq_ok_iff.mp h
      exact assignable_of_coerce hv
  | returned h =>
    rw [return_value] at h
    split at h
    · cases h
    · exact assignable_of_coerce h

/-- A type as it was declared. Behind the same tag there may be two declarations. -/
inductive ctype where
  | void
  | char (is_unsigned : Bool)
  | short (is_unsigned : Bool)
  | int (is_unsigned : Bool)
  | long (is_unsigned : Bool)
  | ptr (base : ctype)
  | array (base : ctype) (array_len : Int)
  | aggregate (declaration : Nat) (is_union : Bool) (tag : Option (List UInt8)) (size : Int)
  | func (base : ctype)

/-- What the parser reads of it. -/
def ctype.read : ctype → cc_type
  | void => .void
  | char u => .char u
  | short u => .short u
  | int u => .int u
  | long u => .long u
  | ptr base => .ptr base.read
  | array base len => .array base.read len
  | aggregate _ u tag size => .aggregate u tag size
  | func base => .func base.read

variable {D S T W : ctype}

/-- What is converted to a pointer is one to the same type at every level, or one
    of the two is a pointer to void, or it is a constant zero; and a pointer is
    converted to nothing else. -/
def Exact (e : cc_node) (T W : ctype) : Prop :=
  match W with
  | .ptr D => T = .ptr D ∨ (∃ S, T = .ptr S ∧ (D = .void ∨ S = .void)) ∨ e.type.cc_is_integer ∧ eval_const e = .ok 0
  | _ => T.read.is_ptr = false

/-- Two types that `assignable` does not tell apart behind a pointer, though they
    differ: it looks at the kind, the size, the sign and the tag only. -/
def Lookalike : ctype → ctype → Prop
  | .ptr D, .ptr S => D ≠ S
  | .array B l, .array B' l' => cc_type.size (.array B.read l) = cc_type.size (.array B'.read l') ∧ ¬ (B = B' ∧ l = l')
  | .aggregate n u (some tag) size, .aggregate n' u' (some tag') size' => u = u' ∧ tag = tag' ∧ size = size' ∧ n ≠ n'
  | .func R, .func R' => R ≠ R'
  | _, _ => False

theorem Lookalike.ne (h : Lookalike D S) : D ≠ S ∧ D ≠ .void ∧ S ≠ .void := by
  cases D <;> cases S <;> simp_all [Lookalike]
  rename_i tag _ _ _ tag' _
  cases tag <;> cases tag' <;> simp_all

/-- What has to be ruled out at each place. Where the types are compared, that is
    pointers to what merely looks alike; a pointer without a prototype; a parameter
    or a result that is declared as two pointers; a string for `unsigned char *`; and at file
    scope a number other than zero for a pointer, or a pointer by a cast. -/
def Sound (e : cc_node) (T W : ctype) : place_t → Prop
  | .coerced => ∀ D S, W = .ptr D → T = .ptr S → ¬ Lookalike D S
  | .unprototyped => ∀ S, T ≠ .ptr S
  | .redeclared => ∀ D S, W = .ptr D → T = .ptr S → D = S ∨ D = .void ∨ S = .void
  | .string_at_file_scope => W ≠ .ptr (.char true)
  | .constant_at_file_scope =>
    (∀ D, W = .ptr D → e.type.cc_is_integer → eval_const e = .ok 0) ∧
      ∀ S, T = .ptr S → ∃ D, W = .ptr D ∧ (D = S ∨ D = .void ∨ S = .void)

end Pointers

end fable.cc
