import FableOs.Lib.X64.Decode

namespace x64

open BitVec

/-- Cutting off the upper bits of an integer's representation. -/
theorem setWidth_ofInt_of_le {n w : Nat} (h : w ≤ n) (v : Int) :
    (BitVec.ofInt n v).setWidth w = BitVec.ofInt w v := by
  rw [← signExtend_eq_setWidth_of_le _ h]
  apply eq_of_toInt_eq
  rw [toInt_signExtend, toInt_ofInt, toInt_ofInt, Nat.min_eq_left h]
  exact Int.bmod_bmod_of_dvd (Nat.pow_dvd_pow 2 h)

section Widths

variable (w : Width) (v : BitVec 64)

theorem Width.bits_le : w.bits ≤ 64 := by
  cases w <;> decide

theorem Width.bytes_le : w.bytes ≤ 8 := by
  cases w <;> decide

theorem Width.pow_bytes : 256 ^ w.bytes = 2 ^ w.bits := by
  unfold Width.bits
  rw [Nat.pow_mul]

/-- Widening with zeros keeps the value modulo the width. -/
theorem Width.toNat_zext : (w.zext v).toNat = v.toNat % 2 ^ w.bits := by
  have hlt : v.toNat % 2 ^ w.bits < 2 ^ 64 := Nat.lt_of_le_of_lt (Nat.mod_le _ _) v.isLt
  rw [Width.zext, toNat_setWidth, toNat_setWidth, Nat.mod_eq_of_lt hlt]

@[simp] theorem Width.setWidth_zext : (w.zext v).setWidth w.bits = v.setWidth w.bits := by
  unfold Width.zext
  rw [setWidth_setWidth_of_le _ w.bits_le, setWidth_eq]

@[simp] theorem Width.zext_zext : w.zext (w.zext v) = w.zext v := by
  have h := w.setWidth_zext v
  unfold Width.zext at h ⊢
  rw [h]

@[simp] theorem Width.sext_zext : w.sext (w.zext v) = w.sext v := by
  unfold Width.sext
  rw [Width.setWidth_zext]

@[simp] theorem Width.zext_w64 : Width.w64.zext v = v := by
  exact (setWidth_setWidth_of_le v (Nat.le_refl 64)).trans (setWidth_eq v)

/-- A value of the width is not changed by widening it with zeros. -/
@[simp] theorem Width.zext_setWidth (r : BitVec w.bits) : w.zext (r.setWidth 64) = r.setWidth 64 := by
  unfold Width.zext
  rw [setWidth_setWidth_of_le r w.bits_le, setWidth_eq]

end Widths

section Memory

variable {m m' : Mem} {a : BitVec 64} {w : Width}

/-- What is loaded fits its bytes. -/
theorem load_lt (m : Mem) (a : BitVec 64) (n : Nat) : load m a n < 256 ^ n := by
  induction n generalizing a with
  | zero => simp [load]
  | succ n ih =>
    have hbyte := (m a).toNat_lt
    have hrest := ih (a + 1)
    rw [load, Nat.pow_succ']
    omega

/-- Two memories that agree on the bytes load alike. -/
theorem load_congr {n : Nat} (h : ∀ i < n, m (a + BitVec.ofNat 64 i) = m' (a + BitVec.ofNat 64 i)) :
    load m a n = load m' a n := by
  induction n generalizing a with
  | zero => rfl
  | succ n ih =>
    have hhead := h 0 (Nat.succ_pos n)
    rw [BitVec.add_zero] at hhead
    have htail := @ih (a + 1) fun i hi => by
      have hnext := h (i + 1) (Nat.succ_lt_succ hi)
      rwa [Nat.add_comm, ofNat_add, ← add_assoc] at hnext
    rw [load, load, hhead, htail]

theorem read_congr (h : ∀ i < w.bytes, m (a + BitVec.ofNat 64 i) = m' (a + BitVec.ofNat 64 i)) :
    read m a w = read m' a w := by
  unfold read
  rw [load_congr h]

@[simp] theorem zext_read (m : Mem) (a : BitVec 64) (w : Width) : w.zext (read m a w) = read m a w := by
  have hlt := load_lt m a w.bytes
  rw [w.pow_bytes] at hlt
  apply eq_of_toNat_eq
  rw [w.toNat_zext, read, toNat_ofNat]
  exact Nat.mod_eq_of_lt (Nat.lt_of_le_of_lt (Nat.mod_le _ _) hlt)

/-- A byte outside of what is written is as it was. -/
theorem write_of_not_lt {x v} (h : ¬ (x - a).toNat < w.bytes) : write m a w v x = m x := if_neg h

/-- Bytes that are the digits of a number to base 256 load as that number. -/
theorem load_of_bytes {v n : Nat} (h : ∀ i < n, m (a + BitVec.ofNat 64 i) = UInt8.ofNat (v / 256 ^ i)) :
    load m a n = v % 256 ^ n := by
  induction n generalizing a v with
  | zero => simp [load, Nat.mod_one]
  | succ n ih =>
    have hhead := h 0 (Nat.succ_pos n)
    rw [BitVec.add_zero, Nat.pow_zero, Nat.div_one] at hhead
    have hbyte : (UInt8.ofNat v).toNat = v % 256 := UInt8.toNat_ofNat'
    have htail := @ih (a + 1) (v / 256) fun i hi => by
      have hnext := h (i + 1) (Nat.succ_lt_succ hi)
      rwa [Nat.add_comm, ofNat_add, ← add_assoc, Nat.add_comm, Nat.pow_succ', ← Nat.div_div_eq_div_mul]
        at hnext
    rw [load, hhead, hbyte, htail, Nat.pow_succ', Nat.mod_mul]

theorem toNat_offset {i : Nat} (a : BitVec 64) (hi : i < 2 ^ 64) : (a + BitVec.ofNat 64 i - a).toNat = i := by
  rw [add_comm, add_sub_cancel, toNat_ofNat, Nat.mod_eq_of_lt hi]

/-- What has been written is read back, cut to its width. -/
theorem read_write_same (m : Mem) (a : BitVec 64) (w : Width) (v : BitVec 64) :
    read (write m a w v) a w = w.zext v := by
  have hbytes := w.bytes_le
  have hload : load (write m a w v) a w.bytes = v.toNat % 256 ^ w.bytes := by
    refine load_of_bytes fun i hi => ?_
    have hoff := toNat_offset (i := i) a (by omega)
    rw [write, if_pos (by omega), hoff]
  have hlt : v.toNat % 2 ^ w.bits < 2 ^ 64 := Nat.lt_of_le_of_lt (Nat.mod_le _ _) v.isLt
  apply eq_of_toNat_eq
  rw [read, hload, w.pow_bytes, toNat_ofNat, w.toNat_zext, Nat.mod_eq_of_lt hlt]

@[simp] theorem write_zext (m : Mem) (a : BitVec 64) (w : Width) (v : BitVec 64) :
    write m a w (w.zext v) = write m a w v := by
  funext x
  unfold write
  split
  · next hlt =>
    have hpow : 2 ^ w.bits = 256 ^ (x - a).toNat * 256 ^ (w.bytes - (x - a).toNat) := by
      rw [← Nat.pow_add, Nat.add_sub_cancel' hlt.le, Width.bits, Nat.pow_mul]
    have hdvd : 256 ∣ 256 ^ (w.bytes - (x - a).toNat) := dvd_pow_self _ (Nat.sub_ne_zero_of_lt hlt)
    apply UInt8.toNat_inj.mp
    rw [UInt8.toNat_ofNat', UInt8.toNat_ofNat', w.toNat_zext, hpow, Nat.mod_mul_right_div_self]
    exact Nat.mod_mod_of_dvd _ hdvd
  · rfl

/-- The bytes from an address on. -/
def Within (a : BitVec 64) (n : Nat) (x : BitVec 64) : Prop := (x - a).toNat < n

/-- The bytes of an access are within it. -/
theorem within_offset {i n : Nat} (a : BitVec 64) (hi : i < n) (hn : n ≤ 2 ^ 64) : Within a n (a + BitVec.ofNat 64 i) := by
  unfold Within
  rw [toNat_offset a (by omega)]
  exact hi

/-- Two memories that agree on the bytes of an access read alike there. -/
theorem read_congr_within (h : ∀ x, Within a w.bytes x → m x = m' x) : read m a w = read m' a w := by
  have hle := w.bytes_le
  exact read_congr fun i hi => h _ (within_offset a hi (by omega))

/-- Writing elsewhere does not change what is read. -/
theorem read_write_apart {b v w'} (h : ∀ x, Within a w.bytes x → ¬ Within b w'.bytes x) :
    read (write m b w' v) a w = read m a w :=
  read_congr_within fun x hx => write_of_not_lt (h x hx)

end Memory

section Registers

variable (s : Machine) (r r' : Reg) (v : BitVec 64) (a : BitVec 64) (f : Flags)

@[simp] theorem regs_setReg : (s.setReg r v).regs = Function.update s.regs r v := rfl
@[simp] theorem mem_setReg : (s.setReg r v).mem = s.mem := rfl
@[simp] theorem flags_setReg : (s.setReg r v).flags = s.flags := rfl
@[simp] theorem regs_goto : (s.goto a).regs = s.regs := rfl
@[simp] theorem mem_goto : (s.goto a).mem = s.mem := rfl
@[simp] theorem flags_goto : (s.goto a).flags = s.flags := rfl
@[simp] theorem rip_goto : (s.goto a).rip = a := rfl
@[simp] theorem regs_setFlags : (s.setFlags f).regs = s.regs := rfl
@[simp] theorem mem_setFlags : (s.setFlags f).mem = s.mem := rfl
@[simp] theorem flags_setFlags : (s.setFlags f).flags = f := rfl
@[simp] theorem mem_writeReg (w : Width) : (s.writeReg w r v).mem = s.mem := by cases w <;> rfl

@[simp] theorem mem_setRM_reg (w : Width) : (s.setRM w v (.reg r)).mem = s.mem := mem_writeReg s r v w

/-- The other registers keep their values. -/
theorem regs_writeReg_of_ne (w : Width) (h : r' ≠ r) : (s.writeReg w r v).regs r' = s.regs r' := by
  cases w <;> exact Function.update_of_ne h _ _

@[simp] theorem regs_writeReg_w64 : (s.writeReg .w64 r v).regs r = v := Function.update_self _ _ _

@[simp] theorem regs_writeReg_w32 : (s.writeReg .w32 r v).regs r = Width.w32.zext v := Function.update_self _ _ _

end Registers

end x64
