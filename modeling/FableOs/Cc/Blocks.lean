import FableOs.Cc.Layout
import FableOs.Cc.Value
import FableOs.Lib.X64.Facts

namespace fable.cc

open x64 (Machine Runs Instr Reg Width RM Encodes exec decode)

/-! What the blocks of instructions without a jump do, one lemma a block. -/

@[simp] theorem gives_EMIT {bs E E'} {u : Unit} {T} :
    (EMIT bs).Gives E u T E' ↔ T = [.ins bs] ∧ E = E' := Output.gives_tell

/-- The registers the code of an expression may change. -/
def scratch : List Reg := [.rax, .rcx, .rdx, .rdi]

/-- The machine has come to an offset with a value in rax; memory and the other
    registers are as before. -/
structure Done (C : code_t) (off : Nat) (v : BitVec 64) (s t : Machine) : Prop where
  runs : Runs s t
  rip : t.rip = C.addr off
  rax : t.regs .rax = v
  mem : t.mem = s.mem
  kept : ∀ r, r ∉ scratch → t.regs r = s.regs r

/-- The code of a generator, wherever it is laid, takes the machine to its end, and
    to a state of which `Q` holds. -/
def Reaches (C : code_t) (gen : GenM Unit) (s : Machine) (Q : Machine → Prop) : Prop :=
  ∀ ⦃E E' : emit_t⦄ ⦃T : List item_t⦄ ⦃off : Nat⦄, gen.Gives E () T E' → C.Laid off T → C.At off s →
    ∃ t, Done C (off + code_size T) (t.regs .rax) s t ∧ Q t

/-- It leaves a value in rax. -/
abbrev Yields (C : code_t) (gen : GenM Unit) (s : Machine) (v : BitVec 64) : Prop := Reaches C gen s (·.regs .rax = v)

/-- Memory and the registers that are not scratch are as before. -/
structure Quiet (s t : Machine) : Prop where
  mem : t.mem = s.mem
  kept : ∀ r, r ∉ scratch → t.regs r = s.regs r

section Steps

variable {C : code_t} {off : Nat} {s t u : Machine} {v v' x : BitVec 64} {bs : List UInt8} {i : Instr}
variable {T : List item_t} {F : frame_t} {E E' : emit_t} {gen gen' : GenM Unit} {Q R : Machine → Prop} {w : Width}

/-- The bytes of one instruction, laid out in the code, run it. -/
theorem run_ins (hlaid : C.Laid off [.ins bs]) (hat : C.At off s) (hcode : Encodes bs i)
    (hexec : exec s (C.addr (off + bs.length)) i = some t) : Runs s t := by
  have hbytes := hlaid.1.in_memory hat.intact
  rw [← hat.rip] at hbytes
  refine .of_step ((x64.step_of_bytesAt hbytes hcode).trans ?_)
  rw [hat.rip, code_t.addr_add]
  exact hexec

theorem Done.refl (hat : C.At off s) : Done C off (s.regs .rax) s s :=
  ⟨.refl s, hat.rip, rfl, rfl, fun _ _ => rfl⟩

theorem Done.at {off' : Nat} (h : Done C off' v s t) (hat : C.At off s) : C.At off' t :=
  ⟨h.rip, h.mem ▸ hat.intact⟩

theorem Done.trans (hst : Done C off v s t) {off' : Nat} (htu : Done C off' v' t u) : Done C off' v' s u :=
  ⟨hst.runs.trans htu.runs, htu.rip, htu.rax, htu.mem.trans hst.mem,
    fun r hr => (htu.kept r hr).trans (hst.kept r hr)⟩

theorem Quiet.writeReg {r : Reg} (hr : r ∈ scratch) : Quiet s (s.writeReg w r x) :=
  ⟨x64.mem_writeReg _ _ _ _, fun _ hr' => x64.regs_writeReg_of_ne _ _ _ _ _ fun h => hr' (h ▸ hr)⟩

theorem Quiet.setFlags (h : Quiet s t) (f : x64.Flags) : Quiet s (t.setFlags f) := ⟨h.mem, h.kept⟩

/-- Code that is generated in two parts is laid in two parts. -/
theorem laid_bind {A B : Type} {y : GenM A} {g} {b : B} (hgen : (y >>= g).Gives E b T E') (hlaid : C.Laid off T) :
    ∃ a T₁ E₁ T₂, y.Gives E a T₁ E₁ ∧ C.Laid off T₁ ∧ (g a).Gives E₁ b T₂ E' ∧ C.Laid (off + code_size T₁) T₂ ∧
      off + code_size T = off + code_size T₁ + code_size T₂ := by
  obtain ⟨a, T₁, E₁, T₂, hfst, hsnd, rfl⟩ := Output.gives_bind.mp hgen
  obtain ⟨hlaid₁, hlaid₂⟩ := code_t.laid_append.mp hlaid
  exact ⟨a, T₁, E₁, T₂, hfst, hlaid₁, hsnd, hlaid₂, by rw [code_size_append, Nat.add_assoc]⟩

theorem Reaches.imp (h : Reaches C gen s Q) (himp : ∀ t, Q t → R t) : Reaches C gen s R := by
  intro E E' T off hgen hlaid hat
  obtain ⟨t, ht, hQ⟩ := h hgen hlaid hat
  exact ⟨t, ht, himp t hQ⟩

/-- Code behind code goes on where the first ends. -/
theorem Reaches.bind (h : Reaches C gen s Q) (h' : ∀ t, Q t → Reaches C gen' t R) :
    Reaches C (gen >>= fun _ => gen') s R := by
  intro E E' T off hgen hlaid hat
  obtain ⟨_, T₁, E₁, T₂, hgen₁, hlaid₁, hgen₂, hlaid₂, hoff⟩ := laid_bind hgen hlaid
  obtain ⟨t, ht, hQ⟩ := h hgen₁ hlaid₁ hat
  obtain ⟨u, hu, hR⟩ := h' t hQ hgen₂ hlaid₂ (ht.at hat)
  rw [hoff]
  exact ⟨u, ht.trans hu, hR⟩

theorem Reaches.emit (hcode : Encodes bs i) (hexec : ∀ next, exec s next i = some (t.goto next)) (hquiet : Quiet s t)
    (hQ : ∀ next, Q (t.goto next)) : Reaches C (EMIT bs) s Q := by
  intro E E' T off hgen hlaid hat
  obtain ⟨rfl, rfl⟩ := gives_EMIT.mp hgen
  exact ⟨_, ⟨run_ins hlaid hat hcode (hexec _), rfl, rfl, hquiet.mem, hquiet.kept⟩, hQ _⟩

theorem Reaches.laid (h : Reaches C (EMIT bs) s Q) (hlaid : C.Laid off [.ins bs]) (hat : C.At off s) :
    ∃ t, Done C (off + bs.length) (t.regs .rax) s t ∧ Q t :=
  h (gives_EMIT.mpr ⟨rfl, (rfl : emit_start = _)⟩) hlaid hat

theorem Yields.done (h : Yields C gen s v) (hgen : gen.Gives E () T E') (hlaid : C.Laid off T) (hat : C.At off s) :
    ∃ t, Done C (off + code_size T) v s t := by
  obtain ⟨t, ht, rfl⟩ := h hgen hlaid hat
  exact ⟨t, ht⟩

theorem Yields.pure : Yields C (pure ()) s (s.regs .rax) := by
  intro E E' T off hgen _ hat
  obtain ⟨-, rfl, -⟩ := Output.gives_pure.mp hgen
  exact ⟨s, .refl hat, rfl⟩

theorem Yields.emit (hcode : Encodes bs i) (hexec : ∀ next, exec s next i = some ((s.writeReg w .rax x).goto next))
    (hv : (s.writeReg w .rax x).regs .rax = v) : Yields C (EMIT bs) s v :=
  Reaches.emit hcode hexec (.writeReg (by decide)) fun _ => hv

theorem mov_rax_imm_yields : Yields C (mov_rax_imm v) s v := by
  have hdecode (rest : List UInt8) :
      decode ([0x48, 0xB8] ++ e64 v ++ rest) = some (.movImm .w64 .rax v, rest) := by
    have hopcode : decode ([0x48, 0xB8] ++ e64 v ++ rest) =
        (x64.takeLE 8 (e64 v ++ rest)).map fun r => (.movImm .w64 .rax (BitVec.ofNat 64 r.1), r.2) := rfl
    rw [hopcode, takeLE_e64, Option.map_some, BitVec.ofNat_toNat, BitVec.setWidth_eq]
  exact .emit ⟨by simp, hdecode⟩ (fun _ => rfl) (x64.regs_writeReg_w64 _ _ _)

/-- The instruction that brings a value of a width to rax, extended to 64 bits. -/
def widen (w : Width) (uns : Bool) (src : RM) : Instr :=
  match w, uns with
  | .w32, true => .mov .w32 (.reg .rax) src
  | w, uns => .movx (!uns) w .w64 .rax src

theorem widen_yields (w : Width) (uns : Bool) (src : RM) (hcode : Encodes bs (widen w uns src)) (hsrc : s.getRM w src = w.zext x) :
    Yields C (EMIT bs) s (if uns then w.zext x else w.sext x) := by
  refine .emit (w := .w64) hcode (fun next => ?_) (x64.regs_writeReg_w64 _ _ _)
  cases w <;> cases uns <;> simp [widen, exec, Machine.setRM, Machine.writeReg, hsrc]

/-- Normalising leaves the value as the type reads it. -/
theorem normalise_yields (ty : cc_type) : Yields C (normalise ty) s (as_type ty (s.regs .rax)) := by
  unfold normalise as_type
  split_ifs
  · exact widen_yields .w8 true (.reg .rax) ⟨by decide, fun _ => rfl⟩ rfl
  · exact widen_yields .w8 false (.reg .rax) ⟨by decide, fun _ => rfl⟩ rfl
  · exact widen_yields .w16 true (.reg .rax) ⟨by decide, fun _ => rfl⟩ rfl
  · exact widen_yields .w16 false (.reg .rax) ⟨by decide, fun _ => rfl⟩ rfl
  · exact widen_yields .w32 true (.reg .rax) ⟨by decide, fun _ => rfl⟩ rfl
  · exact widen_yields .w32 false (.reg .rax) ⟨by decide, fun _ => rfl⟩ rfl
  · exact .pure

theorem frame_t.allows_iff {a} {n : Nat} : F.allows a n = true ↔ ∀ i < n, F.valid (a + BitVec.ofNat 64 i) = true := by
  simp [frame_t.allows]

theorem read_of_allows {a w m m'} (hallow : F.allows a w.bytes = true) (hmem : ∀ a, F.valid a = true → m' a = m a) :
    x64.read m' a w = x64.read m a w :=
  x64.read_congr fun i hi => hmem _ (frame_t.allows_iff.mp hallow i hi)

/-- A load leaves what the evaluation reads. -/
theorem load_yields {ty m m'} (hmem : ∀ a, F.valid a = true → s.mem a = m a)
    (hval : load_value F ty (s.regs .rax) m = some (v, m')) : m' = m ∧ Yields C (load ty) s v := by
  unfold load_value at hval
  split at hval
  · cases hval
    exact ⟨rfl, .pure⟩
  · cases hval
    exact ⟨rfl, .pure⟩
  next harray haggregate =>
    rw [load.eq_3 ty harray haggregate]
    split at hval
    case isFalse => cases hval
    next hallow =>
    cases hval
    rw [← read_of_allows hallow hmem]
    refine ⟨rfl, ?_⟩
    -- a load without a displacement reads at rax itself
    have hread (w : Width) : s.getRM w (.mem .rax 0) = w.zext (x64.read s.mem (s.regs .rax) w) := by
      rw [x64.zext_read]
      exact congrArg (x64.read s.mem · w) (BitVec.add_zero _)
    unfold as_type width_of
    split_ifs
    · exact widen_yields .w8 true _ ⟨by decide, fun _ => rfl⟩ (hread _)
    · exact widen_yields .w8 false _ ⟨by decide, fun _ => rfl⟩ (hread _)
    · exact widen_yields .w16 true _ ⟨by decide, fun _ => rfl⟩ (hread _)
    · exact widen_yields .w16 false _ ⟨by decide, fun _ => rfl⟩ (hread _)
    · exact widen_yields .w32 true _ ⟨by decide, fun _ => rfl⟩ (hread _)
    · exact widen_yields .w32 false _ ⟨by decide, fun _ => rfl⟩ (hread _)
    · exact .emit (i := .mov .w64 (.reg .rax) (.mem .rax 0)) (w := .w64) ⟨by decide, fun _ => rfl⟩ (fun _ => rfl)
        ((x64.regs_writeReg_w64 _ _ _).trans ((hread .w64).trans (Width.zext_w64 _)))

end Steps

end fable.cc
