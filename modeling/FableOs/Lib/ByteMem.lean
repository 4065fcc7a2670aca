import Mathlib.Tactic

namespace fable

/-- A memory of bytes. -/
abbrev Mem := Nat → UInt8

namespace Mem

/-- The little-endian word of `w` bytes at an address. -/
def load (m : Mem) (a : Nat) : Nat → Nat
  | 0 => 0
  | w + 1 => (m a).toNat + 256 * load m (a + 1) w

/-- Store the `w` low bytes of a value, the lowest first. -/
def store (m : Mem) (a w v : Nat) : Mem :=
  fun i => if a ≤ i ∧ i < a + w then UInt8.ofNat (v / 256 ^ (i - a)) else m i

def setByte (m : Mem) (a : Nat) (c : UInt8) : Mem := fun i => if i = a then c else m i

/-- `memset(a, c, n)` -/
def fill (m : Mem) (a : Nat) (c : UInt8) (n : Nat) : Mem := fun i => if a ≤ i ∧ i < a + n then c else m i

/-- `memcpy(dst, src, n)` for spans that do not overlap. -/
def copy (m : Mem) (dst src n : Nat) : Mem :=
  fun i => if dst ≤ i ∧ i < dst + n then m (src + (i - dst)) else m i

variable {m m' : Mem} {a w v i n : Nat} {c : UInt8}

theorem store_of_outside (h : i < a ∨ a + w ≤ i) : m.store a w v i = m i := if_neg (by omega)

theorem setByte_of_ne (h : i ≠ a) : m.setByte a c i = m i := if_neg h

theorem fill_of_outside (h : i < a ∨ a + n ≤ i) : m.fill a c n i = m i := if_neg (by omega)

theorem copy_of_outside {dst src : Nat} (h : i < dst ∨ dst + n ≤ i) : m.copy dst src n i = m i := if_neg (by omega)

theorem copy_of_inside {dst src : Nat} (h : i < n) : m.copy dst src n (dst + i) = m (src + i) := by
  unfold copy
  rw [if_pos (by omega), Nat.add_sub_cancel_left]

theorem load_congr (h : ∀ i, a ≤ i → i < a + w → m' i = m i) : m'.load a w = m.load a w := by
  induction w generalizing a with
  | zero => rfl
  | succ w ih =>
    have hrest := @ih (a + 1) (fun i hlo hhi => h i (by omega) (by omega))
    rw [load, load, h a (by omega) (by omega), hrest]

/-- The bytes of a value are read back as the value, cut to the width. -/
theorem load_eq_mod (h : ∀ k, k < w → m (a + k) = UInt8.ofNat (v / 256 ^ k)) : m.load a w = v % 256 ^ w := by
  induction w generalizing a v with
  | zero =>
    rw [load, Nat.pow_zero, Nat.mod_one]
  | succ w ih =>
    have hlow : m a = UInt8.ofNat v := by
      have h0 := h 0 (by omega)
      rwa [Nat.add_zero, Nat.pow_zero, Nat.div_one] at h0
    have hrest : m.load (a + 1) w = v / 256 % 256 ^ w := by
      apply ih
      intro k hk
      have hk' := h (k + 1) (by omega)
      rwa [Nat.pow_succ, Nat.mul_comm, ← Nat.div_div_eq_div_mul, Nat.add_comm k 1, ← Nat.add_assoc] at hk'
    rw [load, hlow, hrest, Nat.pow_succ', Nat.mod_mul, UInt8.toNat_ofNat']

theorem load_store_self (h : v < 256 ^ w) : (m.store a w v).load a w = v := by
  rw [load_eq_mod (v := v), Nat.mod_eq_of_lt h]
  intro k hk
  unfold store
  rw [if_pos (by omega), Nat.add_sub_cancel_left]

theorem load_store_of_apart {b u : Nat} (h : a + w ≤ b ∨ b + u ≤ a) : (m.store b u v).load a w = m.load a w :=
  load_congr fun _ hlo hhi => store_of_outside (by omega)

end Mem

end fable
