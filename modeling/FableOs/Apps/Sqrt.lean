import FableOs.Apps.Cap
import Mathlib.Analysis.Real.Sqrt

namespace fable.apps

/-! The square root of the expression language (`call_fn` of `apps/expr.c`):
Newton's method over unsigned 128-bit integers, from the number itself down. -/

abbrev APP_NUM_MAX : Int := 9000000000000000

/-- The loop of `AO_SQRT`; a division by zero has no answer. -/
def newton (n r : BitVec 128) : Option (BitVec 128) :=
  if r = 0 then none
  else
    let r1 := (r + n / r) / 2
    if r1 < r then newton n r1 else some r
termination_by r.toNat

/-- The case `AO_SQRT` of `call_fn`. -/
def call_fn_sqrt : app_val_t → Option app_val_t
  | .AV_NUM num =>
    if num < 0 then some .AV_ERR
    else if num = 0 then some (.AV_NUM 0)
    else
      let n := (BitVec.ofInt 64 num).setWidth 128 * (BitVec.ofInt 64 APP_NUM_SCALE).setWidth 128
      (newton n n).map fun r =>
        if r > (BitVec.ofInt 64 APP_NUM_MAX).setWidth 128 then .AV_ERR else .AV_NUM (r.setWidth 64).toInt
  | _ => some .AV_ERR

/-- One step of the iteration stays at or above the root, from any guess. -/
theorem sqrt_le_step (n : Nat) {r} (hpos : 0 < r) : n.sqrt ≤ (r + n / r) / 2 := by
  have hroot := Nat.sqrt_le n
  have hdiv := Nat.lt_mul_div_succ n hpos
  rw [Nat.le_div_iff_mul_le two_pos]
  by_contra hless
  have hover : r + (n / r + 1) ≤ 2 * n.sqrt := by omega
  have hmeans := four_mul_le_sq_add r (n / r + 1)
  have hsquare := Nat.pow_le_pow_left hover 2
  nlinarith only [hroot, hdiv, hmeans, hsquare]

/-- From any guess between the root and the number, the loop ends at the root. -/
theorem newton_eq_sqrt {n : BitVec 128} (hn : n.toNat < 2 ^ 127) {r : BitVec 128} (hpos : 0 < r.toNat)
    (hle : r.toNat ≤ n.toNat) (hover : n.toNat.sqrt ≤ r.toNat) :
    ∃ s, newton n r = some s ∧ s.toNat = n.toNat.sqrt := by
  have hstep : ((r + n / r) / 2).toNat = (r.toNat + n.toNat / r.toNat) / 2 := by
    have := Nat.div_le_self n.toNat r.toNat
    simp only [BitVec.toNat_udiv, BitVec.toNat_add]
    rw [Nat.mod_eq_of_lt (by omega)]
    rfl
  have hnext := sqrt_le_step n.toNat hpos
  rw [← hstep] at hnext
  have hne : ¬ r = 0 := by
    rintro rfl
    simp at hpos
  rw [newton, if_neg hne]
  by_cases hdown : (r + n / r) / 2 < r
  · have hlt := BitVec.lt_def.mp hdown
    have hroot : 0 < n.toNat.sqrt := Nat.sqrt_pos.mpr (by omega)
    simp only [if_pos hdown]
    exact newton_eq_sqrt hn (by omega) (by omega) hnext
  · simp only [if_neg hdown]
    refine ⟨r, rfl, le_antisymm ?_ hover⟩
    -- the guess did not fall, so its square is not above the number
    have hstop : r.toNat ≤ n.toNat / r.toNat := by
      have := BitVec.not_lt.mp hdown
      rw [BitVec.le_def, hstep] at this
      omega
    exact Nat.le_sqrt.mpr ((Nat.le_div_iff_mul_le hpos).mp hstop)
termination_by r.toNat

theorem call_fn_sqrt_eq {k : Nat} (hmax : (k : Int) ≤ APP_NUM_MAX) :
    call_fn_sqrt (.AV_NUM k) = some (.AV_NUM (k * 1000000).sqrt) := by
  unfold APP_NUM_MAX at hmax
  by_cases hzero : k = 0
  · subst hzero
    rfl
  let n := (BitVec.ofInt 64 k).setWidth 128 * (BitVec.ofInt 64 APP_NUM_SCALE).setWidth 128
  have hn : n.toNat = k * 1000000 := by
    have hscale : ((BitVec.ofInt 64 APP_NUM_SCALE).setWidth 128).toNat = 1000000 := rfl
    rw [BitVec.toNat_mul, hscale, BitVec.ofInt_natCast]
    simp (disch := omega) only [BitVec.toNat_setWidth, BitVec.toNat_ofNat, Nat.mod_eq_of_lt]
  obtain ⟨s, hloop, hs⟩ := newton_eq_sqrt (n := n) (by omega) (by omega) le_rfl (Nat.sqrt_le_self _)
  rw [hn] at hs
  have hroot : (k * 1000000).sqrt < 9000000000000000 := Nat.sqrt_lt.mpr (by omega)
  have hfits : ¬ s > (BitVec.ofInt 64 APP_NUM_MAX).setWidth 128 := by
    have hbound : ((BitVec.ofInt 64 APP_NUM_MAX).setWidth 128).toNat = 9000000000000000 := rfl
    rw [gt_iff_lt, BitVec.lt_def]
    omega
  have hback : (s.setWidth 64).toInt = (k * 1000000).sqrt := by
    have hlow : (s.setWidth 64).toNat = s.toNat := by
      rw [BitVec.toNat_setWidth, Nat.mod_eq_of_lt (by omega)]
    rw [BitVec.toInt_eq_toNat_of_lt (by omega), hlow, hs]
  have hnonneg : ¬ (k : Int) < 0 := by omega
  have hnonzero : ¬ (k : Int) = 0 := by omega
  simp only [call_fn_sqrt, if_neg hnonneg, if_neg hnonzero]
  rw [hloop, Option.map_some, if_neg hfits, hback]

/-- For every number the language holds, `sqrt` ends with the largest scaled
    integer whose square is within the number, the exact root rounded down. -/
theorem sqrt_exact (x : Int) (hpos : 0 ≤ x) (hmax : x ≤ APP_NUM_MAX) :
    ∃ r : Int, call_fn_sqrt (.AV_NUM x) = some (.AV_NUM r) ∧ r * r ≤ x * APP_NUM_SCALE ∧
      (∀ s : Int, s * s ≤ x * APP_NUM_SCALE → s ≤ r) ∧
      r = ⌊√(x / APP_NUM_SCALE : ℝ) * APP_NUM_SCALE⌋ := by
  obtain ⟨k, rfl⟩ := Int.eq_ofNat_of_zero_le hpos
  refine ⟨_, call_fn_sqrt_eq hmax, ?_, ?_, ?_⟩
  · change _ ≤ (k : Int) * 1000000
    exact_mod_cast Nat.sqrt_le (k * 1000000)
  · intro s hs
    have hmag : s.natAbs * s.natAbs ≤ k * 1000000 := by
      zify
      simpa using hs
    have := Nat.le_sqrt.mpr hmag
    omega
  · rw [← Real.floor_real_sqrt_eq_nat_sqrt]
    congr 1
    rw [← Real.sqrt_mul_self (show (0 : ℝ) ≤ APP_NUM_SCALE by norm_num), ← Real.sqrt_mul (by positivity)]
    push_cast
    ring_nf

theorem sqrt_two_exact :
    ∃ r : Int, call_fn_sqrt (.AV_NUM 2000000) = some (.AV_NUM r) ∧ r * r ≤ 2000000 * APP_NUM_SCALE ∧
      (∀ s : Int, s * s ≤ 2000000 * APP_NUM_SCALE → s ≤ r) ∧
      r = ⌊√((2000000 : Int) / APP_NUM_SCALE : ℝ) * APP_NUM_SCALE⌋ :=
  sqrt_exact 2000000 (by decide) (by decide)

end fable.apps
