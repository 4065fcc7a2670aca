import FableOs.Cc.Gen
import FableOs.Lib.X64.Decode

namespace fable.cc

open x64 (Machine Runs Instr)

/-! Emitted items as they stand in memory once their jumps are filled in. -/

/-- The code of a unit in memory: where it starts, where its labels are, which
    addresses it takes and what they hold. -/
structure code_t where
  base : BitVec 64
  place : Nat → Option Nat
  holds : BitVec 64 → Prop
  bytes : x64.Mem

namespace code_t

variable (C : code_t)

def addr (off : Nat) : BitVec 64 := C.base + BitVec.ofNat 64 off

/-- The code is still what it was. -/
def Intact (m : x64.Mem) : Prop := ∀ a, C.holds a → m a = C.bytes a

/-- The bytes are part of the code, at an offset. -/
def BytesAt (off : Nat) (bs : List UInt8) : Prop :=
  ∀ i, ∀ h : i < bs.length, C.holds (C.addr (off + i)) ∧ C.bytes (C.addr (off + i)) = bs[i]

/-- The items stand in the code from an offset on. -/
def Laid : Nat → List item_t → Prop
  | _, [] => True
  | off, .ins bs :: items => C.BytesAt off bs ∧ Laid (off + bs.length) items
  | off, .jump op l :: items =>
    (∃ target, C.place l = some target ∧ target < 2 ^ 31 ∧ off + (op.length + 4) < 2 ^ 31 ∧
      C.BytesAt off (op ++ e32 (target - (off + (op.length + 4))))) ∧ Laid (off + (op.length + 4)) items
  | off, .label l :: items => C.place l = some off ∧ Laid off items

/-- The machine stands at an offset, and the code is still what it was. -/
structure At (off : Nat) (s : Machine) : Prop where
  rip : s.rip = C.addr off
  intact : C.Intact s.mem

variable {C}

theorem addr_add (off n : Nat) : C.addr off + BitVec.ofNat 64 n = C.addr (off + n) := by
  unfold addr
  rw [BitVec.ofNat_add, BitVec.add_assoc]

theorem laid_append {off : Nat} {items items'} :
    C.Laid off (items ++ items') ↔ C.Laid off items ∧ C.Laid (off + code_size items) items' := by
  induction items generalizing off with
  | nil => simp [Laid, code_size]
  | cons item items ih =>
    have hsize : off + code_size (item :: items) = off + item.size + code_size items := by
      rw [code_size_cons, Nat.add_assoc]
    cases item with
    | ins bs | jump op l =>
      rw [List.cons_append, hsize]
      simp only [Laid, ih, and_assoc, item_t.size]
    | label l =>
      rw [List.cons_append, hsize]
      simp [Laid, ih, and_assoc, item_t.size]

theorem BytesAt.in_memory {off : Nat} {bs m} (h : C.BytesAt off bs) (hm : C.Intact m) :
    x64.BytesAt m (C.addr off) bs := by
  intro i hi
  obtain ⟨hcode, hbyte⟩ := h i hi
  rw [addr_add, hm _ hcode, hbyte]

end code_t

section Numbers

theorem takeLE_le_bytes (n v : Nat) (rest : List UInt8) :
    x64.takeLE n (le_bytes n v ++ rest) = some (v % 256 ^ n, rest) := by
  induction n generalizing v with
  | zero => simp [x64.takeLE, le_bytes, Nat.mod_one]
  | succ n ih =>
    have hbyte : (UInt8.ofNat v).toNat = v % 256 := UInt8.toNat_ofNat'
    rw [le_bytes, List.cons_append, x64.takeLE, ih, Option.map_some, hbyte, Nat.pow_succ', Nat.mod_mul]

@[simp] theorem length_le_bytes (n v : Nat) : (le_bytes n v).length = n := by
  induction n generalizing v with
  | zero => rfl
  | succ n ih => rw [le_bytes, List.length_cons, ih]

@[simp] theorem length_e32 (v : Int) : (e32 v).length = 4 := length_le_bytes _ _

@[simp] theorem length_e64 (v : BitVec 64) : (e64 v).length = 8 := length_le_bytes _ _

theorem takeLE_e64 (v : BitVec 64) (rest : List UInt8) : x64.takeLE 8 (e64 v ++ rest) = some (v.toNat, rest) := by
  have hlt : v.toNat < 256 ^ 8 := v.isLt
  rw [e64, takeLE_le_bytes, Nat.mod_eq_of_lt hlt]

theorem takeImm_e32 (v : Int) (rest : List UInt8) :
    x64.takeImm 4 (e32 v ++ rest) = some ((BitVec.ofInt 32 v).signExtend 64, rest) := by
  have hlt : (BitVec.ofInt 32 v).toNat < 256 ^ 4 := (BitVec.ofInt 32 v).isLt
  unfold x64.takeImm
  rw [e32, takeLE_le_bytes, Nat.mod_eq_of_lt hlt, Option.map_some, BitVec.ofNat_toNat]
  rfl

/-- A displacement leads from the end of the jump to its target. -/
theorem addr_jump {C : code_t} {target next : Nat} (htarget : target < 2 ^ 31) (hnext : next < 2 ^ 31) :
    C.addr next + (BitVec.ofInt 32 ((target : Int) - next)).signExtend 64 = C.addr target := by
  have hint : ((BitVec.ofInt 32 ((target : Int) - next)).signExtend 64) =
      BitVec.ofNat 64 target - BitVec.ofNat 64 next := by
    apply BitVec.eq_of_toInt_eq
    rw [BitVec.toInt_signExtend_of_le (by decide), BitVec.toInt_ofInt, BitVec.toInt_sub, BitVec.toInt_ofNat',
      BitVec.toInt_ofNat']
    simp only [Int.bmod_def]
    omega
  unfold code_t.addr
  rw [hint, BitVec.add_assoc, BitVec.add_comm (BitVec.ofNat 64 next), BitVec.sub_add_cancel]

end Numbers

end fable.cc
