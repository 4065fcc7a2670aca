import Mathlib.Data.Nat.Basic
import Mathlib.Tactic.Ring

namespace fable.Digest

/-! The 64-bit FNV-1a hash of a text, and fixed-width numbers in lowercase hex. -/

def fnv1a (bytes : List UInt8) : UInt64 :=
  bytes.foldl (fun h b => (h ^^^ b.toUInt64) * 0x100000001b3) 0xcbf29ce484222325

def hex_char (d : Nat) : UInt8 := UInt8.ofNat (if d < 10 then 0x30 + d else 0x57 + d)

/-- The last digits of a number, the highest of them first. -/
def hexes : Nat → Nat → List UInt8
  | 0, _ => []
  | n + 1, v => hexes n (v / 16) ++ [hex_char (v % 16)]

def hex_value (c : UInt8) : Option Nat :=
  if 0x30 ≤ c ∧ c ≤ 0x39 then some (c.toNat - 0x30)
  else if 0x61 ≤ c ∧ c ≤ 0x66 then some (c.toNat - 0x57)
  else none

/-- The digits behind those that `v` was read from. -/
def unhexes : Nat → List UInt8 → Option Nat
  | v, [] => some v
  | v, c :: s =>
    match hex_value c with
    | none => none
    | some d => unhexes (v * 16 + d) s

variable {n v a : Nat} {s t : List UInt8}

theorem hex_value_hex_char (h : v < 16) : hex_value (hex_char v) = some v := by
  have hall : ∀ v : Fin 16, hex_value (hex_char v) = some v.val := by decide
  exact hall ⟨v, h⟩

theorem unhexes_append : unhexes a (s ++ t) = (unhexes a s).bind fun v => unhexes v t := by
  induction s generalizing a with
  | nil => rfl
  | cons c s ih =>
    rw [List.cons_append, unhexes, unhexes]
    cases hex_value c with
    | none => rfl
    | some d => exact ih

@[simp] theorem length_hexes : (hexes n v).length = n := by
  induction n generalizing v with
  | zero => rfl
  | succ n ih => rw [hexes, List.length_append, ih, List.length_singleton]

theorem unhexes_hexes (h : v < 16 ^ n) : unhexes a (hexes n v) = some (a * 16 ^ n + v) := by
  induction n generalizing v with
  | zero =>
    obtain rfl : v = 0 := by simpa using h
    simp [hexes, unhexes]
  | succ n ih =>
    have hhigh : v / 16 < 16 ^ n := Nat.div_lt_of_lt_mul (by rw [← Nat.pow_succ']; exact h)
    rw [hexes, unhexes_append, ih hhigh, Option.bind_some, unhexes, hex_value_hex_char (Nat.mod_lt v (by decide))]
    simp only [unhexes]
    have hsplit : (v / 16) * 16 + v % 16 = v := Nat.div_add_mod' v 16
    rw [Nat.pow_succ]
    congr 1
    calc (a * 16 ^ n + v / 16) * 16 + v % 16 = a * (16 ^ n * 16) + (v / 16 * 16 + v % 16) := by ring
      _ = a * (16 ^ n * 16) + v := by rw [hsplit]

/-- A 64-bit number comes back from its sixteen digits. -/
theorem unhexes_hexes_toNat (v : UInt64) : unhexes 0 (hexes 16 v.toNat) = some v.toNat := by
  rw [unhexes_hexes v.toNat_lt, Nat.zero_mul, Nat.zero_add]

end fable.Digest
