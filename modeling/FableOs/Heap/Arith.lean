import FableOs.Heap.Alloc

namespace fable.heap

section Wrap

variable {x y n k a : Nat}

theorem wadd_of_lt (h : x + y < 2 ^ 64) : wadd x y = x + y := Nat.mod_eq_of_lt h

theorem wsub_of_le (hle : y ≤ x) (hx : x < 2 ^ 64) : wsub x y = x - y := by
  unfold wsub
  simp only [SIZE_RANGE]
  omega

/-- Masking off the low `k` bits rounds down to a multiple of `2 ^ k`. -/
theorem and_mask_eq (hx : x < 2 ^ 64) (hk : k ≤ 64) : x &&& (2 ^ 64 - 1 - (2 ^ k - 1)) = x / 2 ^ k * 2 ^ k := by
  have hmask : 2 ^ 64 - 1 - (2 ^ k - 1) = 2 ^ 64 - (2 ^ k - 1 + 1) := by omega
  have hle : 2 ^ k ≤ 2 ^ 64 := Nat.pow_le_pow_right (by decide) hk
  rw [hmask]
  apply Nat.eq_of_testBit_eq
  intro i
  rw [Nat.testBit_and, Nat.testBit_two_pow_sub_succ (by omega), Nat.testBit_two_pow_sub_one,
    Nat.testBit_mul_two_pow, Nat.testBit_div_two_pow]
  by_cases hik : i < k
  · have hnot : ¬ k ≤ i := by omega
    simp [hik, hnot]
  · have hle : k ≤ i := by omega
    have hsub : i - k + k = i := Nat.sub_add_cancel hle
    by_cases hi : i < 64
    · simp [hik, hle, hi, hsub]
    · have hbit : x.testBit i = false :=
        Nat.testBit_lt_two_pow (lt_of_lt_of_le hx (Nat.pow_le_pow_right (by decide) (by omega)))
      simp [hle, hsub, hbit]

theorem align_up_eq (hk : k ≤ 64) (hn : n + (2 ^ k - 1) < 2 ^ 64) :
    align_up n (2 ^ k) = (n + (2 ^ k - 1)) / 2 ^ k * 2 ^ k := by
  unfold align_up
  rw [wadd_of_lt hn, and_mask_eq hn hk]

theorem align_up_bounds (hk : k ≤ 64) (hn : n + (2 ^ k - 1) < 2 ^ 64) :
    n ≤ align_up n (2 ^ k) ∧ align_up n (2 ^ k) < n + 2 ^ k ∧ align_up n (2 ^ k) % 2 ^ k = 0 := by
  have hdiv := Nat.div_add_mod (n + (2 ^ k - 1)) (2 ^ k)
  rw [align_up_eq hk hn]
  refine ⟨?_, ?_, Nat.mul_mod_left _ _⟩
  · rw [Nat.mul_comm]
    omega
  · rw [Nat.mul_comm]
    omega

theorem align_request (h : n < 2 ^ 64 - 15) :
    n ≤ align_up n ALIGN ∧ align_up n ALIGN < n + 16 ∧ align_up n ALIGN % ALIGN = 0 :=
  @align_up_bounds n 4 (by decide) (by omega)

/-- Within 15 bytes of the largest size the rounding wraps to nothing. -/
theorem align_request_wraps (hlo : 2 ^ 64 - 15 ≤ n) (hhi : n < 2 ^ 64) : align_up n ALIGN = 0 := by
  have hw : wadd n (ALIGN - 1) = n + 15 - 2 ^ 64 := by
    simp only [wadd, ALIGN, SIZE_RANGE]
    omega
  have hmask := @and_mask_eq (n + 15 - 2 ^ 64) 4 (by omega) (by decide)
  have hzero : (n + 15 - 2 ^ 64) / 2 ^ 4 = 0 := by omega
  rw [hzero, Nat.zero_mul] at hmask
  unfold align_up
  rw [hw]
  exact hmask

theorem align_request_mod (h : n < 2 ^ 64) : align_up n ALIGN % ALIGN = 0 := by
  by_cases hlo : n < 2 ^ 64 - 15
  · exact (align_request hlo).2.2
  · rw [align_request_wraps (by omega) h, Nat.zero_mod]

end Wrap

end fable.heap
