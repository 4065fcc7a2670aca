import FableOs.Cc.Build
import FableOs.Cc.Value
import FableOs.Lib.C11.Arith
import FableOs.Lib.X64.Facts

namespace fable.cc

open Option

open c11 (Ty Rank convert promote usual)
open x64 (setWidth_ofInt_of_le)

/-! The integers that the 64-bit values of the tree stand for. -/

/-- The compiler's type of a C type. -/
def of_ty (t : Ty) : cc_type :=
  match t.rank with
  | .char => .char t.unsigned
  | .short => .short t.unsigned
  | .int => .int t.unsigned
  | .long => .long t.unsigned

@[simp] theorem of_ty_inj {t u : Ty} : of_ty t = of_ty u ↔ t = u := by
  obtain ⟨rank, unsigned⟩ := t
  obtain ⟨rank', unsigned'⟩ := u
  cases rank <;> cases rank' <;> simp [of_ty]

/-- The compiler finds the common type of C. -/
theorem common_type_of_ty (t u : Ty) : common_type (of_ty t) (of_ty u) = of_ty (usual t u) := by
  obtain ⟨rank, unsigned⟩ := t
  obtain ⟨rank', unsigned'⟩ := u
  cases rank <;> cases unsigned <;> cases rank' <;> cases unsigned' <;> rfl

theorem promoted_of_ty (t : Ty) : (if (of_ty t).size < 4 then cc_ty_int else of_ty t) = of_ty (promote t) := by
  obtain ⟨rank, unsigned⟩ := t
  cases rank <;> cases unsigned <;> rfl

section Patterns

theorem width_le (t : Ty) : t.width ≤ 64 := by
  obtain ⟨rank, _⟩ := t
  cases rank <;> simp [Ty.width, Rank.width]

theorem extended (t : Ty) (b : BitVec t.width) :
    (if t.unsigned then b.setWidth 64 else b.signExtend 64) = BitVec.ofInt 64 (t.ofBits b) := by
  unfold Ty.ofBits
  split
  · rw [BitVec.ofInt_natCast, BitVec.ofNat_toNat]
  · apply BitVec.eq_of_toInt_eq
    have hle := width_le t
    rw [BitVec.toInt_signExtend_of_le hle, BitVec.toInt_ofInt]
    have hlo := BitVec.le_toInt b
    have hhi := BitVec.toInt_lt (x := b)
    have hpow : (2 : Int) ^ (t.width - 1) ≤ 2 ^ 63 := pow_le_pow_right₀ (by decide) (by omega)
    rw [Int.bmod_eq_of_le] <;> push_cast at * <;> omega

/-- Reading a register as a type is reading its lowest bits. -/
theorem as_type_eq (t : Ty) (v : BitVec 64) : as_type (of_ty t) v = BitVec.ofInt 64 (t.ofBits (v.setWidth t.width)) := by
  rw [← extended]
  obtain ⟨rank, unsigned⟩ := t
  cases rank <;> cases unsigned <;> simp [as_type, of_ty, cc_type.size, cc_type.is_unsigned, Ty.width, Rank.width]

theorem ofBits_ofInt (t : Ty) (v : Int) : t.ofBits (BitVec.ofInt t.width v) = convert t v := by
  unfold Ty.ofBits convert
  split
  · rw [BitVec.toNat_ofInt, Int.toNat_of_nonneg (Int.emod_nonneg _ (by positivity))]
    push_cast
    rfl
  · rw [BitVec.toInt_ofInt]

/-- A conversion to a type is the conversion of C. -/
theorem as_type_ofInt (t : Ty) (v : Int) : as_type (of_ty t) (BitVec.ofInt 64 v) = BitVec.ofInt 64 (convert t v) := by
  rw [as_type_eq, setWidth_ofInt_of_le (width_le t), ofBits_ofInt]

end Patterns

section Operators

variable {t : Ty} {a b r : Int}
variable {left : Bool}

/-- The types that operations are made in. -/
def Wide (t : Ty) : Prop := t.rank = .int ∨ t.rank = .long

theorem wide_promote (t : Ty) : Wide (promote t) := by
  obtain ⟨rank, unsigned⟩ := t
  cases rank <;> cases unsigned <;> simp [Wide, promote, Ty.fits, Ty.width, Rank.width, Rank.num]

theorem wide_usual (t u : Ty) : Wide (usual t u) := by
  obtain ⟨rank, unsigned⟩ := t
  obtain ⟨rank', unsigned'⟩ := u
  unfold Wide
  cases rank <;> cases unsigned <;> cases rank' <;> cases unsigned' <;> decide

/-- The node of an operator of C. -/
def kind_of : c11.BinOp → binop_kind
  | .arith .add => .ND_ADD
  | .arith .sub => .ND_SUB
  | .arith .mul => .ND_MUL
  | .arith .div => .ND_DIV
  | .arith .mod => .ND_MOD
  | .arith .and => .ND_BITAND
  | .arith .or => .ND_BITOR
  | .arith .xor => .ND_BITXOR
  | .shift true => .ND_SHL
  | .shift false => .ND_SHR

theorem as_type_setWidth (t : Ty) (b : BitVec t.width) :
    as_type (of_ty t) (b.setWidth 64) = BitVec.ofInt 64 (t.ofBits b) := by
  rw [as_type_eq, BitVec.setWidth_setWidth_of_le _ (width_le t), BitVec.setWidth_eq]

theorem binop_value_of_ty (hwide : Wide t) (kind : binop_kind) (x y : BitVec 64) :
    binop_value kind (of_ty t) x y =
      (binop_at kind t.unsigned (x.setWidth t.width) (y.setWidth t.width)).map
        fun v => BitVec.ofInt 64 (t.ofBits v) := by
  simp only [← as_type_setWidth]
  obtain ⟨rank, unsigned⟩ := t
  obtain hrank | hrank := hwide <;> simp only at hrank <;> subst hrank
  · cases unsigned <;> rfl
  · have hsame (z : BitVec 64) : z.setWidth 64 = z := BitVec.setWidth_eq z
    cases unsigned <;>
      simp only [binop_value, of_ty, is_w64, is_uns, cc_type.size, Ty.width, Rank.width, hsame] <;> rfl

theorem compare_value_of_ty (hwide : Wide t) (kind : compare_kind) (x y : BitVec 64) :
    compare_value kind (of_ty t) x y =
      truth (compare_at kind t.unsigned (x.setWidth t.width) (y.setWidth t.width)) := by
  obtain ⟨rank, unsigned⟩ := t
  obtain hrank | hrank := hwide <;> simp only at hrank <;> subst hrank
  · cases unsigned <;> rfl
  · have hsame (z : BitVec 64) : z.setWidth 64 = z := BitVec.setWidth_eq z
    cases unsigned <;>
      simp only [compare_value, of_ty, is_w64, is_uns, cc_type.size, Ty.width, Rank.width, hsame] <;> rfl

theorem toNat_ofInt_of_holds (hu : t.unsigned = true) (ha : t.Holds a) : ((BitVec.ofInt t.width a).toNat : Int) = a := by
  have hconv := ofBits_ofInt t a
  rwa [Ty.ofBits, if_pos hu, c11.convert_of_holds ha] at hconv

theorem toInt_ofInt_of_holds (hu : t.unsigned = false) (ha : t.Holds a) : (BitVec.ofInt t.width a).toInt = a := by
  have hconv := ofBits_ofInt t a
  rwa [Ty.ofBits, if_neg (by simp [hu]), c11.convert_of_holds ha] at hconv

theorem ofInt_eq_iff (ha : t.Holds a) (hb : t.Holds b) : BitVec.ofInt t.width a = BitVec.ofInt t.width b ↔ a = b := by
  refine ⟨fun h => ?_, fun h => by rw [h]⟩
  have hbits := congrArg t.ofBits h
  rwa [ofBits_ofInt, ofBits_ofInt, c11.convert_of_holds ha, c11.convert_of_holds hb] at hbits

/-- The comparison node of a comparison of C, and whether its sides change places. -/
def compare_of : c11.Rel → compare_kind × Bool
  | .eq => (.ND_EQ, false)
  | .ne => (.ND_NE, false)
  | .lt => (.ND_LT, false)
  | .le => (.ND_LE, false)
  | .gt => (.ND_LT, true)
  | .ge => (.ND_LE, true)

/-- What a comparison node asks of two integers. -/
def compare_ints (kind : compare_kind) (a b : Int) : Bool :=
  match kind with
  | .ND_EQ => a = b
  | .ND_NE => a ≠ b
  | .ND_LT => a < b
  | .ND_LE => a ≤ b

/-- Values of a type compare as the integers do. -/
theorem compare_at_ofInt (ha : t.Holds a) (hb : t.Holds b) (kind : compare_kind) :
    compare_at kind t.unsigned (BitVec.ofInt t.width a) (BitVec.ofInt t.width b) = compare_ints kind a b := by
  cases kind with
  | ND_EQ => simp only [compare_at, compare_ints, ofInt_eq_iff ha hb]
  | ND_NE => simp [compare_at, compare_ints, ofInt_eq_iff ha hb]
  | ND_LT =>
    cases hu : t.unsigned with
    | false => simp [compare_at, compare_ints, BitVec.slt, toInt_ofInt_of_holds hu ha, toInt_ofInt_of_holds hu hb]
    | true =>
      have ha' := toNat_ofInt_of_holds hu ha
      have hb' := toNat_ofInt_of_holds hu hb
      simp only [compare_at, compare_ints, if_true, BitVec.lt_def, decide_eq_decide]
      omega
  | ND_LE =>
    cases hu : t.unsigned with
    | false => simp [compare_at, compare_ints, BitVec.sle, toInt_ofInt_of_holds hu ha, toInt_ofInt_of_holds hu hb]
    | true =>
      have ha' := toNat_ofInt_of_holds hu ha
      have hb' := toNat_ofInt_of_holds hu hb
      simp only [compare_at, compare_ints, if_true, BitVec.le_def, decide_eq_decide]
      omega

/-- A result that C settles is what the pattern stands for. -/
theorem ofBits_of_settle (h : c11.settle t a = some r) : t.ofBits (BitVec.ofInt t.width a) = r := by
  rw [ofBits_ofInt]
  unfold c11.settle at h
  split at h
  · exact some.inj h
  · split at h
    · next hholds =>
      rw [c11.convert_of_holds hholds]
      exact some.inj h
    · cases h

theorem holds_zero (t : Ty) : t.Holds 0 := by
  obtain ⟨rank, unsigned⟩ := t
  cases rank <;> cases unsigned <;> decide

theorem ofInt_ne_zero (hb : t.Holds b) (hne : b ≠ 0) : BitVec.ofInt t.width b ≠ 0 := by
  have hzero : (0 : BitVec t.width) = BitVec.ofInt t.width 0 := (BitVec.ofInt_natCast _ 0).symm
  rw [hzero]
  exact fun h => hne ((ofInt_eq_iff hb (holds_zero t)).mp h)

/-- A quotient that C defines is not the least value divided by minus one. -/
theorem not_overflow_of_holds (hu : t.unsigned = false) (ha : t.Holds a) (hb : t.Holds b) (hq : t.Holds (a.tdiv b)) :
    ¬ (BitVec.ofInt t.width a = BitVec.intMin t.width ∧ BitVec.ofInt t.width b = -1) := by
  rintro ⟨hmin, hneg⟩
  have hpos := t.width_pos
  have ha' : a = -2 ^ (t.width - 1) := by
    have hlt : 2 ^ (t.width - 1) < 2 ^ t.width := Nat.pow_lt_pow_right (by decide) (by omega)
    have htoInt := congrArg BitVec.toInt hmin
    rw [toInt_ofInt_of_holds hu ha, BitVec.toInt_intMin, Nat.mod_eq_of_lt hlt] at htoInt
    exact_mod_cast htoInt
  have hb' : b = -1 := by
    have hholds : t.Holds (-1) := by
      obtain ⟨rank, unsigned⟩ := t
      simp only at hu
      subst hu
      cases rank <;> decide
    refine (ofInt_eq_iff hb hholds).mp (hneg.trans ?_)
    rw [BitVec.ofInt_neg]
    rfl
  rw [ha', hb', Int.tdiv_neg, Int.tdiv_one, neg_neg, Ty.Holds, if_neg (by simp [hu])] at hq
  omega

theorem udiv_ofInt (hu : t.unsigned = true) (ha : t.Holds a) (hb : t.Holds b) :
    BitVec.ofInt t.width a / BitVec.ofInt t.width b = BitVec.ofInt t.width (a.tdiv b) := by
  have ha' := toNat_ofInt_of_holds hu ha
  have hb' := toNat_ofInt_of_holds hu hb
  have hquot : a.tdiv b = ((BitVec.ofInt t.width a / BitVec.ofInt t.width b).toNat : Int) := by
    rw [BitVec.toNat_udiv, Int.natCast_div, ha', hb', Int.tdiv_eq_ediv_of_nonneg (by omega)]
  rw [hquot, BitVec.ofInt_natCast, BitVec.ofNat_toNat, BitVec.setWidth_eq]

theorem umod_ofInt (hu : t.unsigned = true) (ha : t.Holds a) (hb : t.Holds b) :
    BitVec.ofInt t.width a % BitVec.ofInt t.width b = BitVec.ofInt t.width (a.tmod b) := by
  have ha' := toNat_ofInt_of_holds hu ha
  have hb' := toNat_ofInt_of_holds hu hb
  have hrem : a.tmod b = ((BitVec.ofInt t.width a % BitVec.ofInt t.width b).toNat : Int) := by
    rw [BitVec.toNat_umod, Int.natCast_mod, ha', hb', Int.tmod_eq_emod_of_nonneg (by omega)]
  rw [hrem, BitVec.ofInt_natCast, BitVec.ofNat_toNat, BitVec.setWidth_eq]

theorem sdiv_ofInt (hu : t.unsigned = false) (ha : t.Holds a) (hb : t.Holds b) :
    (BitVec.ofInt t.width a).sdiv (BitVec.ofInt t.width b) = BitVec.ofInt t.width (a.tdiv b) := by
  apply BitVec.eq_of_toInt_eq
  rw [BitVec.toInt_sdiv, toInt_ofInt_of_holds hu ha, toInt_ofInt_of_holds hu hb, BitVec.toInt_ofInt]

theorem srem_ofInt (hu : t.unsigned = false) (ha : t.Holds a) (hb : t.Holds b) :
    (BitVec.ofInt t.width a).srem (BitVec.ofInt t.width b) = BitVec.ofInt t.width (a.tmod b) := by
  apply BitVec.eq_of_toInt_eq
  rw [BitVec.toInt_srem, toInt_ofInt_of_holds hu ha, toInt_ofInt_of_holds hu hb,
    toInt_ofInt_of_holds hu (c11.holds_tmod ha)]

/-- Where C11 defines the result, the operation at the width gives it. -/
theorem binop_at_arith {op} (ha : t.Holds a) (hb : t.Holds b) (h : c11.arith op t a b = some r) :
    ∃ v, binop_at (kind_of (.arith op)) t.unsigned (BitVec.ofInt t.width a) (BitVec.ofInt t.width b) = some v ∧
      t.ofBits v = r := by
  cases op with
  | add => exact ⟨_, congrArg some (BitVec.ofInt_add a b).symm, ofBits_of_settle h⟩
  | sub =>
    have hsub : BitVec.ofInt t.width a - BitVec.ofInt t.width b = BitVec.ofInt t.width (a - b) := by
      rw [Int.sub_eq_add_neg, BitVec.ofInt_add, BitVec.ofInt_neg, BitVec.sub_eq_add_neg]
    exact ⟨_, congrArg some hsub, ofBits_of_settle h⟩
  | mul => exact ⟨_, congrArg some (BitVec.ofInt_mul a b).symm, ofBits_of_settle h⟩
  | div =>
    simp only [c11.arith] at h
    split at h
    · cases h
    next hne =>
    simp only [kind_of, binop_at, if_neg (ofInt_ne_zero hb hne)]
    cases hu : t.unsigned with
    | true => exact ⟨_, congrArg some (udiv_ofInt hu ha hb), ofBits_of_settle h⟩
    | false =>
      have hq : t.Holds (a.tdiv b) := by
        by_contra hnot
        simp [c11.settle, hu, hnot] at h
      simp only [Bool.false_eq_true, if_false, if_neg (not_overflow_of_holds hu ha hb hq)]
      exact ⟨_, congrArg some (sdiv_ofInt hu ha hb), ofBits_of_settle h⟩
  | mod =>
    simp only [c11.arith] at h
    split at h
    · cases h
    next hne =>
    split at h
    case isFalse => cases h
    next hq =>
    cases h
    have hrem : t.ofBits (BitVec.ofInt t.width (a.tmod b)) = a.tmod b := by
      rw [ofBits_ofInt, c11.convert_of_holds (c11.holds_tmod ha)]
    simp only [kind_of, binop_at, if_neg (ofInt_ne_zero hb hne)]
    cases hu : t.unsigned with
    | true => exact ⟨_, congrArg some (umod_ofInt hu ha hb), hrem⟩
    | false =>
      simp only [Bool.false_eq_true, if_false, if_neg (not_overflow_of_holds hu ha hb hq)]
      exact ⟨_, congrArg some (srem_ofInt hu ha hb), hrem⟩
  | and | or | xor => exact ⟨_, rfl, some.inj h⟩

/-- Where C11 defines a shift, the one at the width gives it. -/
theorem binop_at_shift (ha : t.Holds a) (h : c11.shift left t a b = some r) :
    ∃ v, binop_at (kind_of (.shift left)) t.unsigned (BitVec.ofInt t.width a) (BitVec.ofInt t.width b) = some v ∧
      t.ofBits v = r := by
  unfold c11.shift at h
  split at h
  · cases h
  next hcount =>
  obtain ⟨hlo, hhi⟩ := not_or.mp hcount
  obtain ⟨k, rfl⟩ := Int.eq_ofNat_of_zero_le (not_lt.mp hlo)
  have hk : k < t.width := by omega
  have hk' : (BitVec.ofInt t.width k).toNat % t.width = k := by
    rw [BitVec.ofInt_natCast, BitVec.toNat_ofNat, Nat.mod_eq_of_lt (hk.trans Nat.lt_two_pow_self), Nat.mod_eq_of_lt hk]
  cases left with
  | false =>
    simp only [Bool.not_false, if_true, Int.toNat_natCast, some.injEq] at h
    subst h
    simp only [kind_of, binop_at, hk']
    refine ⟨_, rfl, ?_⟩
    cases hu : t.unsigned with
    | true =>
      have ha' := toNat_ofInt_of_holds hu ha
      simp only [if_true, Ty.ofBits, hu, BitVec.toNat_ushiftRight, Nat.shiftRight_eq_div_pow]
      push_cast
      rw [ha']
    | false =>
      simp only [Bool.false_eq_true, if_false, Ty.ofBits, hu, BitVec.toInt_sshiftRight, Int.shiftRight_eq_div_pow,
        toInt_ofInt_of_holds hu ha]
      push_cast
      rfl
  | true =>
    have hshl : BitVec.ofInt t.width a <<< k = BitVec.ofInt t.width (a * 2 ^ k) := by
      have hpow : BitVec.ofInt t.width (2 ^ k) = BitVec.twoPow t.width k := by
        have hcast : (2 : Int) ^ k = ((2 ^ k : Nat) : Int) := by push_cast; rfl
        apply BitVec.eq_of_toNat_eq
        rw [hcast, BitVec.ofInt_natCast, BitVec.toNat_ofNat, BitVec.toNat_twoPow]
      rw [BitVec.ofInt_mul, BitVec.shiftLeft_eq_mul_twoPow, hpow]
    simp only [kind_of, binop_at, hk', hshl]
    refine ⟨_, rfl, ?_⟩
    simp only [Bool.not_true, Bool.false_eq_true, if_false, Int.toNat_natCast] at h
    split at h
    · rw [ofBits_ofInt]
      exact some.inj h
    split at h
    · cases h
    · exact ofBits_of_settle h

/-- Arithmetic of the tree computes what C defines. -/
theorem arith_value {op} {u : Ty} (h : c11.BinOp.val (.arith op) t u a b = some r) :
    binop_value (kind_of (.arith op)) (of_ty (usual t u)) (BitVec.ofInt 64 (convert (usual t u) a))
      (BitVec.ofInt 64 (convert (usual t u) b)) = some (BitVec.ofInt 64 r) := by
  obtain ⟨v, hv, hr⟩ := binop_at_arith (c11.holds_convert _ _) (c11.holds_convert _ _) h
  rw [binop_value_of_ty (wide_usual t u), setWidth_ofInt_of_le (width_le _), setWidth_ofInt_of_le (width_le _), hv,
    map_some, hr]

theorem convert_count (h : c11.shift left t a b = some r) : convert .int b = b := by
  unfold c11.shift at h
  split at h
  · cases h
  · next hcount =>
    have hwidth := width_le t
    apply c11.convert_of_holds
    simp only [Ty.Holds, Ty.width, Rank.width, Bool.false_eq_true, if_false]
    omega

/-- A shift of the tree computes what C defines. -/
theorem shift_value (hwide : Wide t) (ha : t.Holds a) (h : c11.shift left t a b = some r) :
    binop_value (kind_of (.shift left)) (of_ty t) (BitVec.ofInt 64 a) (BitVec.ofInt 64 (convert .int b)) =
      some (BitVec.ofInt 64 r) := by
  obtain ⟨v, hv, hr⟩ := binop_at_shift ha h
  rw [convert_count h, binop_value_of_ty hwide, setWidth_ofInt_of_le (width_le _), setWidth_ofInt_of_le (width_le _),
    hv, map_some, hr]

theorem promote_of_not_wide (h : ¬ Wide t) : promote t = .int := by
  obtain ⟨rank, unsigned⟩ := t
  cases rank <;> cases unsigned <;> first | rfl | exact absurd (by simp [Wide]) h

theorem promote_of_wide (h : Wide t) : promote t = t := by
  obtain ⟨rank, unsigned⟩ := t
  obtain hrank | hrank := h <;> simp only at hrank <;> subst hrank <;> cases unsigned <;> rfl

theorem as_type_narrow (hnarrow : ¬ Wide t) (v : BitVec 32) :
    as_type (of_ty t) (v.setWidth 64) = BitVec.ofInt 64 (convert t v.toInt) := by
  have hle : t.width ≤ 32 := by
    obtain ⟨rank, unsigned⟩ := t
    cases rank <;> simp_all [Wide, Ty.width, Rank.width]
  have hpattern : v.setWidth t.width = BitVec.ofInt t.width v.toInt := by
    rw [← setWidth_ofInt_of_le hle, BitVec.ofInt_toInt]
  rw [as_type_eq, BitVec.setWidth_setWidth_of_le _ (width_le t), hpattern, ofBits_ofInt]

/-- A shift made at the width of a narrow left side, as in a compound assignment,
    is the shift of the promoted value converted back. -/
theorem shift_value_narrow (hnarrow : ¬ Wide t) (ha : t.Holds a) (h : c11.shift left .int a b = some r) :
    binop_value (kind_of (.shift left)) (of_ty t) (BitVec.ofInt 64 a) (BitVec.ofInt 64 (convert .int b)) =
      some (BitVec.ofInt 64 (convert t r)) := by
  have hpromote := promote_of_not_wide hnarrow
  have haInt : Ty.int.Holds a := hpromote ▸ c11.holds_promote ha
  obtain ⟨v, hv, rfl⟩ : ∃ v : BitVec 32,
      binop_at (kind_of (.shift left)) false (BitVec.ofInt 32 a) (BitVec.ofInt 32 b) = some v ∧ v.toInt = r :=
    binop_at_shift haInt h
  have hnode (x y : BitVec 64) : binop_value (kind_of (.shift left)) (of_ty t) x y =
      (binop_at (kind_of (.shift left)) t.unsigned (x.setWidth 32) (y.setWidth 32)).map
        fun v => as_type (of_ty t) (v.setWidth 64) := by
    obtain ⟨rank, unsigned⟩ := t
    cases rank <;> cases unsigned <;> first | rfl | exact absurd (by simp [Wide]) hnarrow
  -- the left side of an unsigned type is not negative, so the two right shifts agree
  have hsame : binop_at (kind_of (.shift left)) t.unsigned (BitVec.ofInt 32 a) (BitVec.ofInt 32 b) =
      binop_at (kind_of (.shift left)) false (BitVec.ofInt 32 a) (BitVec.ofInt 32 b) := by
    cases hu : t.unsigned with
    | false => rfl
    | true =>
      cases left with
      | true => rfl
      | false =>
        have hnonneg : 0 ≤ a := by
          simp only [Ty.Holds, hu, if_true] at ha
          exact ha.1
        have hmsb : (BitVec.ofInt 32 a).msb = false := by
          have htoInt : (BitVec.ofInt 32 a).toInt = a := toInt_ofInt_of_holds (t := .int) rfl haInt
          rw [BitVec.msb_eq_toInt, htoInt]
          simpa using hnonneg
        simp [kind_of, binop_at, BitVec.sshiftRight_eq_of_msb_false hmsb]
  rw [convert_count h, hnode, setWidth_ofInt_of_le (by decide), setWidth_ofInt_of_le (by decide), hsame, hv,
    map_some, as_type_narrow hnarrow]

theorem compound_shift_value (ha : t.Holds a) (h : c11.shift left (promote t) a b = some r) :
    binop_value (kind_of (.shift left)) (of_ty t) (BitVec.ofInt 64 a) (BitVec.ofInt 64 (convert .int b)) =
      some (BitVec.ofInt 64 (convert t r)) := by
  by_cases hwide : Wide t
  · rw [promote_of_wide hwide] at h
    rw [shift_value hwide ha h, c11.convert_of_holds (c11.holds_shift ha h)]
  · rw [promote_of_not_wide hwide] at h
    exact shift_value_narrow hwide ha h

end Operators

end fable.cc
