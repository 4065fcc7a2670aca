import FableOs.Cc.Build
import Mathlib.Tactic

namespace fable.cc

/-! The constant evaluator, a walk over the tree in 64-bit arithmetic. -/

/-- How an evaluation ends without a value: in a diagnostic, or in a division
    that C does not define for the compiler itself. -/
inductive const_stop where
  | not_constant
  | division_by_zero
  | undefined
  deriving DecidableEq

/-- The quotient or remainder of two 64-bit values, unless C leaves it
    undefined. -/
def signed_div (op : BitVec 64 → BitVec 64 → BitVec 64) (a b : BitVec 64) : Except const_stop (BitVec 64) :=
  if a = BitVec.intMin 64 ∧ b = -1 then .error .undefined else .ok (op a b)

def const_binop (kind : binop_kind) (uns : Bool) (a b : BitVec 64) : Except const_stop (BitVec 64) :=
  match kind with
  | .ND_ADD => .ok (a + b)
  | .ND_SUB => .ok (a - b)
  | .ND_MUL => .ok (a * b)
  | .ND_DIV =>
    if b = 0 then .error .division_by_zero
    else if uns then .ok (a / b)
    else signed_div BitVec.sdiv a b
  | .ND_MOD =>
    if b = 0 then .error .division_by_zero
    else if uns then .ok (a % b)
    else signed_div BitVec.srem a b
  | .ND_SHL => .ok (a <<< (b &&& 63).toNat)
  | .ND_SHR => .ok (if uns then a >>> (b &&& 63).toNat else a.sshiftRight (b &&& 63).toNat)
  | .ND_BITAND => .ok (a &&& b)
  | .ND_BITOR => .ok (a ||| b)
  | .ND_BITXOR => .ok (a ^^^ b)

/-- A zero_or_one value. -/
def of_bool (b : Bool) : BitVec 64 := if b then 1 else 0

def const_compare (kind : compare_kind) (uns : Bool) (a b : BitVec 64) : BitVec 64 :=
  match kind with
  | .ND_EQ => of_bool (a = b)
  | .ND_NE => of_bool (a ≠ b)
  | .ND_LT => of_bool (if uns then a < b else a.slt b)
  | .ND_LE => of_bool (if uns then a ≤ b else a.sle b)

/-- `eval_const`. Both sides of a binary node are evaluated, those of `&&` and
    `||` too. -/
def eval_const : cc_node → Except const_stop (BitVec 64)
  | .num _ val => .ok val
  | .cast type lhs => do
    let v ← eval_const lhs
    .ok (as_type type v)
  | .var _ (.enumconst val) => .ok val
  | .binop kind type lhs rhs => do
    let a ← eval_const lhs
    let b ← eval_const rhs
    const_binop kind type.is_unsigned a b
  | .compare kind type lhs rhs => do
    let a ← eval_const lhs
    let b ← eval_const rhs
    .ok (const_compare kind type.is_unsigned a b)
  | .logand _ lhs rhs => do
    let a ← eval_const lhs
    let b ← eval_const rhs
    .ok (of_bool (a ≠ 0 ∧ b ≠ 0))
  | .logor _ lhs rhs => do
    let a ← eval_const lhs
    let b ← eval_const rhs
    .ok (of_bool (a ≠ 0 ∨ b ≠ 0))
  | .comma _ lhs rhs => do
    let _ ← eval_const lhs
    eval_const rhs
  | .not _ lhs => do
    let v ← eval_const lhs
    .ok (of_bool (v = 0))
  | .bitnot _ lhs => do
    let v ← eval_const lhs
    .ok (~~~v)
  | .cond _ c t e => do
    let v ← eval_const c
    if v ≠ 0 then eval_const t else eval_const e
  | _ => .error .not_constant

/-! What a constant expression means: an integer, reduced to the range of 64-bit
two's complement after every operation. -/

def wrap (x : ℤ) : ℤ := x.bmod (2 ^ 64)

/-- An integer of that range, read without a sign. -/
def unsigned (x : ℤ) : ℕ := (x % 2 ^ 64).toNat

/-- An integer reduced to a number of bits. -/
def narrow (bits : ℕ) (uns : Bool) (x : ℤ) : ℤ := if uns then (unsigned x % 2 ^ bits : ℕ) else x.bmod (2 ^ bits)

def cast_meaning (type : cc_type) (x : ℤ) : ℤ :=
  if type.size = 1 then narrow 8 type.is_unsigned x
  else if type.size = 2 then narrow 16 type.is_unsigned x
  else if type.size = 4 then narrow 32 type.is_unsigned x
  else x

def binop_meaning (kind : binop_kind) (uns : Bool) (x y : ℤ) : Option ℤ :=
  match kind with
  | .ND_ADD => some (wrap (x + y))
  | .ND_SUB => some (wrap (x - y))
  | .ND_MUL => some (wrap (x * y))
  | .ND_DIV => if y = 0 then none else some (wrap (if uns then (unsigned x / unsigned y : ℕ) else x.tdiv y))
  | .ND_MOD => if y = 0 then none else some (wrap (if uns then (unsigned x % unsigned y : ℕ) else x.tmod y))
  | .ND_SHL => some (wrap (unsigned x * 2 ^ (unsigned y % 64) : ℕ))
  | .ND_SHR => some (wrap (if uns then (unsigned x / 2 ^ (unsigned y % 64) : ℕ) else x / 2 ^ (unsigned y % 64)))
  | .ND_BITAND => some (wrap (unsigned x &&& unsigned y : ℕ))
  | .ND_BITOR => some (wrap (unsigned x ||| unsigned y : ℕ))
  | .ND_BITXOR => some (wrap (unsigned x ^^^ unsigned y : ℕ))

def zero_or_one (p : Prop) [Decidable p] : ℤ := if p then 1 else 0

def compare_meaning (kind : compare_kind) (uns : Bool) (x y : ℤ) : ℤ :=
  match kind with
  | .ND_EQ => zero_or_one (x = y)
  | .ND_NE => zero_or_one (x ≠ y)
  | .ND_LT => if uns then zero_or_one (unsigned x < unsigned y) else zero_or_one (x < y)
  | .ND_LE => if uns then zero_or_one (unsigned x ≤ unsigned y) else zero_or_one (x ≤ y)

/-- The integer that a tree means, if it is constant and divides by no zero. -/
def meaning : cc_node → Option ℤ
  | .num _ val => some val.toInt
  | .cast type lhs => (meaning lhs).map (cast_meaning type)
  | .var _ (.enumconst val) => some val.toInt
  | .binop kind type lhs rhs =>
    (meaning lhs).bind fun x => (meaning rhs).bind fun y => binop_meaning kind type.is_unsigned x y
  | .compare kind type lhs rhs =>
    (meaning lhs).bind fun x => (meaning rhs).map fun y => compare_meaning kind type.is_unsigned x y
  | .logand _ lhs rhs => (meaning lhs).bind fun x => (meaning rhs).map fun y => zero_or_one (x ≠ 0 ∧ y ≠ 0)
  | .logor _ lhs rhs => (meaning lhs).bind fun x => (meaning rhs).map fun y => zero_or_one (x ≠ 0 ∨ y ≠ 0)
  | .comma _ lhs rhs => (meaning lhs).bind fun _ => meaning rhs
  | .not _ lhs => (meaning lhs).map fun x => zero_or_one (x = 0)
  | .bitnot _ lhs => (meaning lhs).map fun x => wrap (-x - 1)
  | .cond _ c t e => (meaning c).bind fun x => if x ≠ 0 then meaning t else meaning e
  | _ => none

/-- A quotient that is out of range: the tree, or a part of it that its meaning
    depends on, divides the least integer of 64 bits by minus one. What stands
    behind a part without a meaning does not matter, nor does the arm of a
    conditional that is not chosen. -/
def Overflows : cc_node → Prop
  | .cast _ lhs | .not _ lhs | .bitnot _ lhs => Overflows lhs
  | .binop kind type lhs rhs =>
    Overflows lhs ∨ ∃ x, meaning lhs = some x ∧ (Overflows rhs ∨ ∃ y, meaning rhs = some y ∧
      (kind = .ND_DIV ∨ kind = .ND_MOD) ∧ type.is_unsigned = false ∧ x = -2 ^ 63 ∧ y = -1)
  | .compare _ _ lhs rhs | .logand _ lhs rhs | .logor _ lhs rhs | .comma _ lhs rhs =>
    Overflows lhs ∨ ∃ x, meaning lhs = some x ∧ Overflows rhs
  | .cond _ c t e => Overflows c ∨ ∃ x, meaning c = some x ∧ if x ≠ 0 then Overflows t else Overflows e
  | _ => False

section Meaning

variable {a b v : BitVec 64}

theorem unsigned_toInt (v : BitVec 64) : unsigned v.toInt = v.toNat := by
  have htoNat : (BitVec.ofInt 64 v.toInt).toNat = unsigned v.toInt := BitVec.toNat_ofInt v.toInt
  rw [BitVec.ofInt_toInt] at htoNat
  exact htoNat.symm

theorem wrap_toNat (v : BitVec 64) : wrap v.toNat = v.toInt := (BitVec.toInt_eq_toNat_bmod v).symm

theorem wrap_toInt (v : BitVec 64) : wrap v.toInt = v.toInt := by
  rw [BitVec.toInt_eq_toNat_bmod, wrap]
  exact Int.bmod_bmod

theorem toInt_complement (v : BitVec 64) : (~~~v).toInt = wrap (-v.toInt - 1) := by
  have hnot : ~~~v = -v - 1 := by bv_omega
  rw [hnot, BitVec.toInt_sub, BitVec.toInt_neg]
  exact Int.bmod_sub_bmod

theorem toInt_of_bool (p : Prop) [Decidable p] : (of_bool p).toInt = zero_or_one p := by
  unfold of_bool zero_or_one
  by_cases h : p <;> simp [h]

theorem wrap_ofNat {n : ℕ} (h : n = v.toNat) : wrap n = v.toInt := by
  rw [h, wrap_toNat]

theorem narrow_toInt {bits : ℕ} (hbits : bits < 64) (uns : Bool) :
    narrow bits uns v.toInt =
      (if uns then (v.setWidth bits).setWidth 64 else (v.setWidth bits).signExtend 64 : BitVec 64).toInt := by
  cases uns with
  | true =>
    have hlt : v.toNat % 2 ^ bits < 2 ^ 63 :=
      (Nat.mod_lt _ (by positivity)).trans_le (Nat.pow_le_pow_right (by norm_num) (by omega))
    have hnat : ((v.setWidth bits).setWidth 64).toNat = v.toNat % 2 ^ bits := by
      rw [BitVec.toNat_setWidth, BitVec.toNat_setWidth]
      exact Nat.mod_eq_of_lt (hlt.trans (by norm_num))
    rw [narrow, if_pos rfl, if_pos rfl, unsigned_toInt, BitVec.toInt_eq_toNat_of_lt (by omega), hnat]
  | false =>
    rw [narrow, if_neg Bool.false_ne_true, if_neg Bool.false_ne_true,
      BitVec.toInt_signExtend_of_le hbits.le, BitVec.toInt_setWidth, BitVec.toInt_eq_toNat_bmod v]
    exact Int.bmod_bmod_of_dvd (by exact_mod_cast Nat.pow_dvd_pow 2 hbits.le)

theorem cast_meaning_toInt (type : cc_type) : cast_meaning type v.toInt = (as_type type v).toInt := by
  unfold cast_meaning as_type
  split
  · exact narrow_toInt (by norm_num) _
  split
  · exact narrow_toInt (by norm_num) _
  split
  · exact narrow_toInt (by norm_num) _
  · rfl

theorem compare_meaning_toInt (kind : compare_kind) (uns : Bool) :
    compare_meaning kind uns a.toInt b.toInt = (const_compare kind uns a b).toInt := by
  cases kind with
  | ND_EQ => simp only [compare_meaning, const_compare, toInt_of_bool, BitVec.toInt_inj]
  | ND_NE => simp only [compare_meaning, const_compare, toInt_of_bool, BitVec.toInt_inj, ne_eq]
  | ND_LT =>
    cases uns <;> simp [compare_meaning, const_compare, of_bool, zero_or_one, unsigned_toInt, BitVec.lt_def,
      BitVec.slt_iff_toInt_lt, apply_ite]
  | ND_LE =>
    cases uns <;> simp [compare_meaning, const_compare, of_bool, zero_or_one, unsigned_toInt, BitVec.le_def,
      BitVec.sle_iff_toInt_le, apply_ite]

theorem toInt_eq_zero : a.toInt = 0 ↔ a = 0 := by
  rw [← BitVec.toInt_zero, BitVec.toInt_inj]
  rfl

theorem and_sixty_three : (b &&& 63).toNat = b.toNat % 64 := by
  rw [BitVec.toNat_and]
  exact Nat.and_two_pow_sub_one_eq_mod b.toNat 6

/-- A quotient or remainder that is defined has a divisor, and is the signed or the
    unsigned one. -/
theorem division_of_ok {op : BitVec 64 → BitVec 64 → BitVec 64} {w : BitVec 64} {uns : Bool}
    (h : (if b = 0 then .error .division_by_zero else if uns then .ok w else signed_div op a b) = .ok v) :
    b.toInt ≠ 0 ∧ v = if uns then w else op a b := by
  rw [signed_div] at h
  split_ifs at h with hb
  all_goals
    cases h
    exact ⟨mt toInt_eq_zero.mp hb, by simp [*]⟩

theorem binop_meaning_of_ok {kind} {uns : Bool} (h : const_binop kind uns a b = .ok v) :
    binop_meaning kind uns a.toInt b.toInt = some v.toInt := by
  cases kind with
  | ND_ADD =>
    cases h
    exact congrArg some (BitVec.toInt_add a b).symm
  | ND_SUB =>
    cases h
    exact congrArg some (BitVec.toInt_sub).symm
  | ND_MUL =>
    cases h
    exact congrArg some (BitVec.toInt_mul a b).symm
  | ND_DIV =>
    obtain ⟨hb, rfl⟩ := division_of_ok h
    rw [binop_meaning, if_neg hb, unsigned_toInt, unsigned_toInt]
    cases uns with
    | true => exact congrArg some (wrap_ofNat BitVec.toNat_udiv.symm)
    | false => exact congrArg some (BitVec.toInt_sdiv a b).symm
  | ND_MOD =>
    obtain ⟨hb, rfl⟩ := division_of_ok h
    rw [binop_meaning, if_neg hb, unsigned_toInt, unsigned_toInt]
    cases uns with
    | true => exact congrArg some (wrap_ofNat BitVec.toNat_umod.symm)
    | false =>
      change some (wrap (a.toInt.tmod b.toInt)) = some (a.srem b).toInt
      rw [← BitVec.toInt_srem, wrap_toInt]
  | ND_SHL =>
    cases h
    rw [binop_meaning, unsigned_toInt, unsigned_toInt, ← and_sixty_three, ← Nat.shiftLeft_eq]
    exact congrArg some BitVec.toInt_shiftLeft.symm
  | ND_SHR =>
    cases h
    rw [binop_meaning, unsigned_toInt, unsigned_toInt, ← and_sixty_three]
    cases uns with
    | true => exact congrArg some (wrap_ofNat (by rw [if_pos rfl, BitVec.toNat_ushiftRight, Nat.shiftRight_eq_div_pow]))
    | false =>
      rw [if_neg Bool.false_ne_true, if_neg Bool.false_ne_true, ← wrap_toInt (a.sshiftRight _),
        BitVec.toInt_sshiftRight, Int.shiftRight_eq_div_pow]
      norm_cast
  | ND_BITAND =>
    cases h
    rw [binop_meaning, unsigned_toInt, unsigned_toInt, wrap_ofNat (BitVec.toNat_and a b).symm]
  | ND_BITOR =>
    cases h
    rw [binop_meaning, unsigned_toInt, unsigned_toInt, wrap_ofNat (BitVec.toNat_or a b).symm]
  | ND_BITXOR =>
    cases h
    rw [binop_meaning, unsigned_toInt, unsigned_toInt, wrap_ofNat (BitVec.toNat_xor a b).symm]

theorem binop_meaning_of_error {kind} {uns : Bool} {e : const_stop} (h : const_binop kind uns a b = .error e)
    (he : e ≠ .undefined) : binop_meaning kind uns a.toInt b.toInt = none := by
  have hdivision (op : BitVec 64 → BitVec 64 → BitVec 64) (w : BitVec 64)
      (h : (if b = 0 then .error .division_by_zero else if uns then .ok w else signed_div op a b) =
        (.error e : Except const_stop (BitVec 64))) : b.toInt = 0 := by
    by_contra hb
    rw [if_neg (mt toInt_eq_zero.mpr hb), signed_div] at h
    split_ifs at h
    exact he (Except.error.inj h).symm
  cases kind with
  | ND_DIV => exact if_pos (hdivision BitVec.sdiv (a / b) h)
  | ND_MOD => exact if_pos (hdivision BitVec.srem (a % b) h)
  | _ => cases h

end Meaning

section Undefined

variable {n lhs rhs : cc_node} {a b : BitVec 64}

theorem signed_div_undefined {op} : signed_div op a b = .error .undefined ↔ a = BitVec.intMin 64 ∧ b = -1 := by
  unfold signed_div
  split <;> simp_all

theorem const_binop_undefined {kind} {uns : Bool} :
    const_binop kind uns a b = .error .undefined ↔
      (kind = .ND_DIV ∨ kind = .ND_MOD) ∧ uns = false ∧ a = BitVec.intMin 64 ∧ b = -1 := by
  have hdivision (op : BitVec 64 → BitVec 64 → BitVec 64) (v : BitVec 64) :
      (if b = 0 then .error .division_by_zero else if uns then .ok v else signed_div op a b) =
        (.error .undefined : Except const_stop (BitVec 64)) ↔ uns = false ∧ a = BitVec.intMin 64 ∧ b = -1 := by
    by_cases hb : b = 0
    · subst hb
      simp
    · rw [if_neg hb]
      cases uns <;> simp [signed_div_undefined]
  cases kind with
  | ND_DIV => simpa [const_binop] using hdivision BitVec.sdiv (a / b)
  | ND_MOD => simpa [const_binop] using hdivision BitVec.srem (a % b)
  | _ => simp [const_binop]

/-- How an evaluation ends, against an integer meaning: it is undefined just if a
    quotient is out of range, and has a value just if there is a meaning. -/
inductive Ends : Prop → Option ℤ → Except const_stop (BitVec 64) → Prop
  | undefined {spoilt : Prop} {m : Option ℤ} (hspoilt : spoilt) : Ends spoilt m (.error .undefined)
  | value {spoilt : Prop} (v : BitVec 64) (hspoilt : ¬ spoilt) : Ends spoilt (some v.toInt) (.ok v)
  | refused {spoilt : Prop} {e : const_stop} (hspoilt : ¬ spoilt) (hne : e ≠ .undefined) : Ends spoilt none (.error e)

variable {spoilt : Prop} {m : Option ℤ} {r : Except const_stop (BitVec 64)}

/-- What is computed from one part ends as the part does. -/
theorem Ends.map {f : ℤ → ℤ} {g : BitVec 64 → BitVec 64} (h : Ends spoilt m r) (hfg : ∀ v, f v.toInt = (g v).toInt) :
    Ends spoilt (m.map f) (r.bind fun v => .ok (g v)) := by
  cases h with
  | undefined hspoilt => exact .undefined hspoilt
  | value v hspoilt =>
    rw [Option.map_some, hfg]
    exact .value (g v) hspoilt
  | refused hspoilt hne => exact .refused hspoilt hne

/-- What goes on from the value of a first part ends with that part, or as the
    rest does. -/
theorem Ends.bind {f : ℤ → Option ℤ} {g : BitVec 64 → Except const_stop (BitVec 64)} {rest : ℤ → Prop}
    (h : Ends spoilt m r) (hrest : ∀ v, Ends (rest v.toInt) (f v.toInt) (g v)) :
    Ends (spoilt ∨ ∃ x, m = some x ∧ rest x) (m.bind f) (r.bind g) := by
  cases h with
  | undefined hspoilt => exact .undefined (.inl hspoilt)
  | refused hspoilt hne => exact .refused (by simpa using hspoilt) hne
  | value v hspoilt =>
    have hiff : (spoilt ∨ ∃ x, some v.toInt = some x ∧ rest x) ↔ rest v.toInt := by simp [hspoilt]
    rw [hiff]
    exact hrest v

theorem toInt_eq_least : a.toInt = -2 ^ 63 ↔ a = BitVec.intMin 64 := by
  rw [← BitVec.toInt_inj]
  exact Iff.rfl

theorem toInt_eq_minus_one : b.toInt = -1 ↔ b = -1 := by
  rw [← BitVec.toInt_inj]
  exact Iff.rfl

theorem const_binop_ends (kind : binop_kind) (uns : Bool) :
    Ends ((kind = .ND_DIV ∨ kind = .ND_MOD) ∧ uns = false ∧ a.toInt = -2 ^ 63 ∧ b.toInt = -1)
      (binop_meaning kind uns a.toInt b.toInt) (const_binop kind uns a b) := by
  rw [toInt_eq_least, toInt_eq_minus_one, ← const_binop_undefined]
  cases hop : const_binop kind uns a b with
  | ok v =>
    rw [binop_meaning_of_ok hop]
    exact .value v nofun
  | error e =>
    by_cases he : e = .undefined
    · subst he
      exact .undefined rfl
    · rw [binop_meaning_of_error hop he]
      exact .refused (fun h => he (Except.error.inj h)) he

/-- A tree ends by what it means: induction on the tree, one rule for each way in
    which a node computes from its parts. -/
theorem eval_const_ends (n : cc_node) : Ends (Overflows n) (meaning n) (eval_const n) := by
  cases n with
  | num _ val =>
    simp only [Overflows, meaning, eval_const]
    exact .value val not_false
  | var _ sym =>
    cases sym with
    | enumconst val =>
      simp only [Overflows, meaning, eval_const]
      exact .value val not_false
    | _ =>
      simp only [Overflows, meaning, eval_const]
      exact .refused not_false nofun
  | cast type lhs =>
    rw [Overflows, meaning, eval_const]
    exact (eval_const_ends lhs).map fun v => cast_meaning_toInt type
  | not _ lhs =>
    rw [Overflows, meaning, eval_const]
    refine (eval_const_ends lhs).map fun v => ?_
    simp only [toInt_of_bool, zero_or_one, toInt_eq_zero]
  | bitnot _ lhs =>
    rw [Overflows, meaning, eval_const]
    exact (eval_const_ends lhs).map fun v => (toInt_complement v).symm
  | binop kind type lhs rhs =>
    rw [Overflows, meaning, eval_const]
    exact (eval_const_ends lhs).bind fun _ => (eval_const_ends rhs).bind fun _ => const_binop_ends kind type.is_unsigned
  | compare kind type lhs rhs =>
    rw [Overflows, meaning, eval_const]
    exact (eval_const_ends lhs).bind fun _ =>
      (eval_const_ends rhs).map fun _ => compare_meaning_toInt kind type.is_unsigned
  | logand _ lhs rhs | logor _ lhs rhs =>
    rw [Overflows, meaning, eval_const]
    refine (eval_const_ends lhs).bind fun _ => (eval_const_ends rhs).map fun _ => ?_
    simp only [toInt_of_bool, zero_or_one, ne_eq, toInt_eq_zero]
  | comma _ lhs rhs =>
    rw [Overflows, meaning, eval_const]
    exact (eval_const_ends lhs).bind fun _ => eval_const_ends rhs
  | cond _ c t e =>
    rw [Overflows, meaning, eval_const]
    refine (eval_const_ends c).bind fun v => ?_
    simp only [ne_eq, toInt_eq_zero]
    by_cases hv : v = 0
    · simpa only [hv, not_true, if_false] using eval_const_ends e
    · simpa only [hv, not_false_iff, if_true] using eval_const_ends t
  | _ =>
    simp only [Overflows, meaning, eval_const]
    exact .refused not_false nofun

/-- The evaluator makes no undefined division exactly if the expression has no
    quotient that is out of range: the guard only looks for a zero. -/
theorem eval_const_defined_iff (n : cc_node) : eval_const n ≠ .error .undefined ↔ ¬ Overflows n := by
  have hends := eval_const_ends n
  generalize eval_const n = r, meaning n = m at hends ⊢
  cases hends with
  | undefined hspoilt => exact iff_of_false (not_not_intro rfl) (not_not_intro hspoilt)
  | value v hspoilt => exact iff_of_true nofun hspoilt
  | refused hspoilt hne => exact iff_of_true (fun h => hne (Except.error.inj h)) hspoilt

/-- The tree of `(1 << 63) / -1`, as the parser builds it. -/
def least_over_minus_one : Except cc_error cc_node := do
  let l ← shift .ND_SHL (.num cc_ty_int 1) (.num cc_ty_int 63)
  let r ← unary_minus (.num cc_ty_int 1)
  arith .ND_DIV l r

theorem eval_const_undefined :
    least_over_minus_one.toOption.map eval_const = some (.error .undefined) := by
  decide +kernel

end Undefined

end fable.cc
