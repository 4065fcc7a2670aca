import FableOs.Cc.Ops

namespace fable.cc

open Output

open x64 (Machine Runs Instr Reg Width RM Encodes exec decode)

/-! Code that uses the stack, stores and jumps. The tree's memory and the
machine's agree where accesses are allowed; the stack and the code are outside. -/

/-- The bytes from the stack pointer down. -/
def below (sp : BitVec 64) (room : Nat) (a : BitVec 64) : Prop := (sp - 1 - a).toNat < room

/-- The machine stands at an offset of the code, its memory is the given one
    where accesses are allowed, and there is room below the stack pointer. -/
structure Ready (C : code_t) (F : frame_t) (room : Nat) (m : x64.Mem) (off : Nat) (s : Machine) : Prop where
  rip : s.rip = C.addr off
  rbp : s.regs .rbp = F.rbp
  code : C.Intact s.mem
  mem : ∀ a, F.valid a = true → s.mem a = m a
  code_apart : ∀ a, C.holds a → F.valid a = false
  stack_apart : ∀ a, below (s.regs .rsp) room a → F.valid a = false ∧ ¬ C.holds a

/-- The machine has come to an offset with a value in rax. Its memory is the
    given one where accesses are allowed, and elsewhere as it was but for the
    room below the stack pointer. -/
structure Came (C : code_t) (F : frame_t) (room : Nat) (off : Nat) (v : BitVec 64) (m : x64.Mem) (s t : Machine) :
    Prop where
  runs : Runs s t
  rip : t.rip = C.addr off
  rax : t.regs .rax = v
  mem : ∀ a, F.valid a = true → t.mem a = m a
  frame : ∀ a, F.valid a = false → ¬ below (s.regs .rsp) room a → t.mem a = s.mem a
  kept : ∀ r, r ∉ scratch → t.regs r = s.regs r

section Below

variable {sp a : BitVec 64} {room room' i : Nat}

theorem below.mono (h : below sp room a) (hle : room ≤ room') : below sp room' a := Nat.lt_of_lt_of_le h hle

theorem below_of_pushed (h : below (sp - 8) room a) : below sp (room + 8) a := by
  unfold below at *
  bv_omega

theorem below_pushed (hi : i < 8) : below sp 8 (sp - 8 + BitVec.ofNat 64 i) := by
  unfold below
  bv_omega

theorem not_below_pushed (hi : i < 8) (hroom : room + 8 < 2 ^ 64) :
    ¬ below (sp - 8) room (sp - 8 + BitVec.ofNat 64 i) := by
  unfold below
  bv_omega

end Below

section Runs

variable {C : code_t} {F : frame_t} {room room' off off' : Nat} {v v' : BitVec 64} {m m' m₂ : x64.Mem}
  {s t u : Machine} {E E' : emit_t} {T : List item_t}

theorem Ready.at (hs : Ready C F room m off s) : C.At off s := ⟨hs.rip, hs.code⟩

theorem Ready.mono (h : Ready C F room m off s) (hle : room' ≤ room) : Ready C F room' m off s :=
  { h with stack_apart := fun a ha => h.stack_apart a (ha.mono hle) }

theorem rsp_notMem_scratch : Reg.rsp ∉ scratch := by decide

theorem Came.ready (h : Came C F room off' v m' s t) (hs : Ready C F room m off s) : Ready C F room m' off' t where
  rip := h.rip
  rbp := (h.kept .rbp (by decide)).trans hs.rbp
  code a ha := by
    rw [h.frame a (hs.code_apart a ha) fun hb => (hs.stack_apart a hb).2 ha]
    exact hs.code a ha
  mem := h.mem
  code_apart := hs.code_apart
  stack_apart a ha := by
    rw [h.kept .rsp rsp_notMem_scratch] at ha
    exact hs.stack_apart a ha

/-- Two pieces of code that are done one behind the other are done. -/
theorem Came.trans (hst : Came C F room off v m s t) (htu : Came C F room off' v' m' t u) :
    Came C F room off' v' m' s u where
  runs := hst.runs.trans htu.runs
  rip := htu.rip
  rax := htu.rax
  mem := htu.mem
  frame a ha hb := by
    rw [htu.frame a ha (by rwa [hst.kept .rsp rsp_notMem_scratch]), hst.frame a ha hb]
  kept r hr := (htu.kept r hr).trans (hst.kept r hr)

theorem Done.came (h : Done C off' v s t) (hs : Ready C F room m off s) : Came C F room off' v m s t where
  runs := h.runs
  rip := h.rip
  rax := h.rax
  mem a ha := by rw [h.mem, hs.mem a ha]
  frame a _ _ := by rw [h.mem]
  kept := h.kept

/-- A byte of the code is not in the room below the stack pointer, so there are
    addresses left. -/
theorem Ready.room_lt (hs : Ready C F room m off s) {bs} (hlaid : C.Laid off [.ins bs]) (hne : 0 < bs.length) :
    room < 2 ^ 64 := by
  by_contra hroom
  have hbelow : below (s.regs .rsp) room (C.addr (off + 0)) :=
    Nat.lt_of_lt_of_le (s.regs .rsp - 1 - C.addr (off + 0)).isLt (Nat.not_lt.mp hroom)
  exact (hs.stack_apart _ hbelow).2 (hlaid.1 0 hne).1

@[simp] theorem gives_push_rax {p : Unit} :
    push_rax.Gives E p T E' ↔ T = [.ins [0x50]] ∧ { E with depth := E.depth + 1 } = E' := by
  simp [push_rax, gives_bind, and_comm]

@[simp] theorem gives_pop_rdi {p : Unit} :
    pop_rdi.Gives E p T E' ↔ T = [.ins [0x5F]] ∧ { E with depth := E.depth - 1 } = E' := by
  simp [pop_rdi, gives_bind, and_comm]

theorem write_pushed_of_not_below {a x} (h : ¬ below (s.regs .rsp) 8 a) :
    x64.write s.mem (s.regs .rsp - 8) .w64 x a = s.mem a := by
  refine x64.write_of_not_lt ?_
  intro hlt
  apply h
  unfold below
  change (a - (s.regs .rsp - 8)).toNat < 8 at hlt
  bv_omega

/-- A push leaves eight bytes less room and the rest ready. -/
theorem push_ready (hs : Ready C F (room + 8) m off s) (hlaid : C.Laid off [.ins [0x50]]) :
    Runs s ((s.pushWord (s.regs .rax)).goto (C.addr (off + 1))) ∧
      Ready C F room m (off + 1) ((s.pushWord (s.regs .rax)).goto (C.addr (off + 1))) := by
  have houtside {a : BitVec 64} (h : ¬ below (s.regs .rsp) (room + 8) a) :
      ((s.pushWord (s.regs .rax)).goto (C.addr (off + 1))).mem a = s.mem a :=
    write_pushed_of_not_below fun hb => h (hb.mono (by omega))
  refine ⟨run_ins (i := .push .rax) hlaid hs.at ⟨by decide, fun _ => rfl⟩ rfl, rfl, hs.rbp, ?_, ?_, hs.code_apart,
    ?_⟩
  · intro a ha
    rw [houtside fun hb => (hs.stack_apart a hb).2 ha, hs.code a ha]
  · intro a ha
    rw [houtside fun hb => by simp [(hs.stack_apart a hb).1] at ha, hs.mem a ha]
  · intro a ha
    exact hs.stack_apart a (below_of_pushed ha)

/-- A value that is pushed, kept on the stack while other code runs, and popped
    into rdi. -/
theorem pushed_across (hs : Ready C F (room + 8) m off s) (hpush : C.Laid off [.ins [0x50]])
    (hpop : C.Laid off' [.ins [0x5F]])
    (hrun : ∀ t, Ready C F room m (off + 1) t → ∃ u, Came C F room off' v m' t u) :
    ∃ u, Came C F (room + 8) (off' + 1) v m' s u ∧ u.regs .rdi = s.regs .rax := by
  obtain ⟨hruns, ht⟩ := push_ready hs hpush
  obtain ⟨u, hu⟩ := hrun _ ht
  have hroom : room + 8 < 2 ^ 64 := hs.room_lt hpush (by decide)
  have hrsp : u.regs .rsp = s.regs .rsp - 8 := hu.kept .rsp rsp_notMem_scratch
  -- the pushed word lies above the room of the code in between, and no access may touch it
  have hword : x64.read u.mem (u.regs .rsp) .w64 = s.regs .rax := by
    have hsame : x64.read u.mem (s.regs .rsp - 8) .w64 =
        x64.read (x64.write s.mem (s.regs .rsp - 8) .w64 (s.regs .rax)) (s.regs .rsp - 8) .w64 := by
      refine x64.read_congr fun i hi => hu.frame _ ?_ (not_below_pushed hi hroom)
      exact (hs.stack_apart _ ((below_pushed hi).mono (by omega))).1
    rw [hrsp, hsame, x64.read_write_same, Width.zext_w64]
  have hpopped : Runs u (((u.setReg .rsp (u.regs .rsp + 8)).setReg .rdi (x64.read u.mem (u.regs .rsp) .w64)).goto
      (C.addr (off' + 1))) :=
    run_ins (i := .pop .rdi) hpop (hu.ready ht).at ⟨by decide, fun _ => rfl⟩ rfl
  refine ⟨_, ⟨hruns.trans (hu.runs.trans hpopped), rfl, ?_, hu.mem, ?_, ?_⟩, ?_⟩
  · simpa using hu.rax
  · intro a ha hb
    have hb' : ¬ below (s.regs .rsp - 8) room a := fun h => hb (below_of_pushed h)
    exact (hu.frame a ha hb').trans (write_pushed_of_not_below fun h => hb (h.mono (by omega)))
  · intro r hr
    by_cases hrr : r = .rsp
    · subst hrr
      simp [hrsp]
    · have hrdi : r ≠ .rdi := fun h => hr (h ▸ by decide)
      have hkept := hu.kept r hr
      simp only [x64.regs_goto, x64.regs_setReg, Machine.pushWord] at hkept ⊢
      rw [Function.update_of_ne hrdi, Function.update_of_ne hrr, hkept, Function.update_of_ne hrr]
  · simpa using hword

theorem write_eq_of_not_valid {a x y w} (hallow : F.allows a w.bytes = true) (hy : F.valid y = false) :
    x64.write m a w x y = m y := by
  refine x64.write_of_not_lt ?_
  intro hlt
  have hvalid := frame_t.allows_iff.mp hallow _ hlt
  have haddr : a + BitVec.ofNat 64 (y - a).toNat = y := by
    rw [BitVec.ofNat_toNat, BitVec.setWidth_eq, BitVec.add_comm, BitVec.sub_add_cancel]
  rw [haddr, hy] at hvalid
  cases hvalid

theorem write_congr {a x y w} (h : m y = m' y) : x64.write m a w x y = x64.write m' a w x y := by
  unfold x64.write
  rw [h]

def store_bytes : Width → List UInt8
  | .w8 => [0x88, 0x07]
  | .w16 => [0x66, 0x89, 0x07]
  | .w32 => [0x89, 0x07]
  | .w64 => [0x48, 0x89, 0x07]

theorem store_eq (size : Int) : store size = EMIT (store_bytes (width_of size)) := by
  unfold store width_of
  split_ifs <;> rfl

/-- The store instruction stores what the tree's evaluation does. -/
theorem store_came {size : Int} (hgen : (store size).Gives E () T E') (hlaid : C.Laid off T)
    (hs : Ready C F room m off s) (hval : store_value F size (s.regs .rdi) (s.regs .rax) m = some (v, m')) :
    ∃ t, Came C F room (off + code_size T) v m' s t := by
  unfold store_value at hval
  split at hval
  case isFalse => cases hval
  next hallow =>
  cases hval
  rw [store_eq] at hgen
  obtain ⟨rfl, rfl⟩ := gives_EMIT.mp hgen
  generalize width_of size = w at *
  have hcode : Encodes (store_bytes w) (.mov w (.mem .rdi 0) (.reg .rax)) := by
    cases w <;> exact ⟨by decide, fun _ => rfl⟩
  have hmem : (s.setRM w (s.getRM w (.reg .rax)) (.mem .rdi 0)).mem =
      x64.write s.mem (s.regs .rdi) w (s.regs .rax) := by
    change x64.write s.mem (s.regs .rdi + 0) _ (w.zext (s.regs .rax)) = _
    rw [x64.write_zext, add_zero]
  refine ⟨_, run_ins hlaid hs.at hcode rfl, rfl, rfl, ?_, ?_, fun _ _ => rfl⟩
  · intro a ha
    rw [x64.mem_goto, hmem]
    exact write_congr (hs.mem a ha)
  · intro a ha _
    rw [x64.mem_goto, hmem]
    exact write_eq_of_not_valid hallow ha

end Runs

section Jumps

variable {C : code_t} {off l : Nat} {s : Machine} {op : List UInt8} {E E' : emit_t} {T : List item_t}
variable {p : Unit} {c : x64.Cond}

@[simp] theorem gives_jmp_to : (jmp_to l).Gives E p T E' ↔ T = [.jump [0xE9] l] ∧ E = E' :=
  gives_tell

@[simp] theorem gives_label_here : (label_here l).Gives E p T E' ↔ T = [.label l] ∧ E = E' :=
  gives_tell

@[simp] theorem gives_test_rax : test_rax.Gives E p T E' ↔ T = [.ins [0x48, 0x85, 0xC0]] ∧ E = E' :=
  gives_tell

/-- The bytes make a jump with the distance behind them. -/
def Jumps (op : List UInt8) (i : BitVec 64 → Instr) : Prop :=
  ∀ v : Int, Encodes (op ++ e32 v) (i ((BitVec.ofInt 32 v).signExtend 64))

/-- A jump is decoded with the distance to its label's place. -/
theorem step_jump {i} (hlaid : C.Laid off [.jump op l]) (hat : C.At off s) (hcode : Jumps op i) :
    ∃ target rel, C.place l = some target ∧ C.addr (off + (op.length + 4)) + rel = C.addr target ∧
      x64.step s = exec s (C.addr (off + (op.length + 4))) (i rel) := by
  obtain ⟨⟨target, hplace, htarget, hnext, hbytes⟩, -⟩ := hlaid
  have hmem := hbytes.in_memory hat.intact
  rw [← hat.rip] at hmem
  refine ⟨target, _, hplace, addr_jump htarget hnext, ?_⟩
  rw [x64.step_of_bytesAt hmem (hcode _), hat.rip, code_t.addr_add, List.length_append, length_e32]
  rfl

/-- A jump lands at the place of its label. -/
theorem jmp_done (hlaid : C.Laid off [.jump [0xE9] l]) (hat : C.At off s) :
    ∃ target, C.place l = some target ∧ ∃ t, Done C target (s.regs .rax) s t := by
  have hdecode (v : Int) (rest : List UInt8) :
      decode ([0xE9] ++ e32 v ++ rest) = some (.jmp ((BitVec.ofInt 32 v).signExtend 64), rest) := by
    have hopcode : decode ([0xE9] ++ e32 v ++ rest) =
        (x64.takeImm 4 (e32 v ++ rest)).map fun r => (.jmp r.1, r.2) := rfl
    rw [hopcode, takeImm_e32, Option.map_some]
  obtain ⟨target, rel, hplace, haddr, hstep⟩ := step_jump hlaid hat fun v => ⟨by simp, hdecode v⟩
  exact ⟨target, hplace, _, .of_step hstep, haddr, rfl, rfl, fun _ _ => rfl⟩

theorem jcc_done {b : Bool} (hlaid : C.Laid off [.jump op l]) (hat : C.At off s) (hlen : op.length = 2)
    (hcode : Jumps op (.jcc c)) (hcond : c.holds s.flags = some b) :
    ∃ target, C.place l = some target ∧ ∃ t, Done C (if b then target else off + 6) (s.regs .rax) s t := by
  obtain ⟨target, rel, hplace, haddr, hstep⟩ := step_jump hlaid hat hcode
  rw [hlen] at haddr hstep
  have hexec : x64.step s = some (s.goto (C.addr (if b then target else off + 6))) := by
    rw [hstep, exec, hcond, Option.map_some, haddr]
    cases b <;> rfl
  exact ⟨target, hplace, _, .of_step hexec, rfl, rfl, rfl, fun _ _ => rfl⟩

/-- A test and a conditional jump go where the register says. -/
theorem branch_done {b : Bool} (hlaid : C.Laid off [.ins [0x48, 0x85, 0xC0], .jump op l]) (hat : C.At off s)
    (hlen : op.length = 2) (hcode : Jumps op (.jcc c))
    (hcond : ∀ f : x64.Flags, f.zf = some (decide (s.regs .rax = 0)) → c.holds f = some b) :
    ∃ target, C.place l = some target ∧ ∃ t, Done C (if b then target else off + 9) (s.regs .rax) s t := by
  obtain ⟨hfirst, hrest⟩ := hlaid
  obtain ⟨t, ht, hregs, hzf⟩ := test_rax_reaches.laid ⟨hfirst, trivial⟩ hat
  obtain ⟨target, hplace, u, hu⟩ := jcc_done hrest (ht.at hat) hlen hcode (hcond _ hzf)
  rw [hregs] at hu
  exact ⟨target, hplace, u, ht.trans hu⟩

theorem jumps_jcc {b} (hb : b.toNat / 16 = 8) (hc : x64.Cond.ofCode (b.toNat % 16) = some c) :
    Jumps [0x0F, b] (.jcc c) := by
  refine fun v => ⟨by simp, fun rest => ?_⟩
  have hopcode : decode ([0x0F, b] ++ e32 v ++ rest) = x64.decode0F .w32 .none (b :: (e32 v ++ rest)) := rfl
  rw [hopcode, x64.decode0F, if_pos hb, hc, takeImm_e32]
  rfl

theorem je_done (hlaid : C.Laid off [.ins [0x48, 0x85, 0xC0], .jump [0x0F, 0x84] l]) (hat : C.At off s) :
    ∃ target, C.place l = some target ∧
      ∃ t, Done C (if s.regs .rax = 0 then target else off + 9) (s.regs .rax) s t := by
  obtain ⟨target, hplace, t, ht⟩ := branch_done (c := .e) (b := decide (s.regs .rax = 0)) hlaid hat rfl
    (jumps_jcc rfl rfl) fun _ hzf => hzf
  exact ⟨target, hplace, t, by simpa using ht⟩

theorem jne_done (hlaid : C.Laid off [.ins [0x48, 0x85, 0xC0], .jump [0x0F, 0x85] l]) (hat : C.At off s) :
    ∃ target, C.place l = some target ∧
      ∃ t, Done C (if s.regs .rax = 0 then off + 9 else target) (s.regs .rax) s t := by
  obtain ⟨target, hplace, t, ht⟩ := branch_done (c := .ne) (b := !decide (s.regs .rax = 0)) hlaid hat rfl
    (jumps_jcc rfl rfl) fun _ hzf => congrArg (Option.map (!·)) hzf
  refine ⟨target, hplace, t, ?_⟩
  by_cases hzero : s.regs .rax = 0 <;> simpa [hzero] using ht

end Jumps

end fable.cc
