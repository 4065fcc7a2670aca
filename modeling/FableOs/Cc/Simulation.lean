import FableOs.Cc.Stack

namespace fable.cc

open Option

open x64 (Machine Runs Instr Reg Width RM Encodes exec decode)

/-! The emitted code computes what the tree does: rules for the pieces of code
first, then the tree by its constructors. -/

/-- Code that turns a value in rax into another one, as a function on values
    and memories says. It needs some bytes of stack. -/
structure Acts (C : code_t) (F : frame_t) (need : Nat) (gen : GenM Unit) (f : BitVec 64 → Eval) : Prop where
  came : ∀ {E E' : emit_t} {T : List item_t} {off room : Nat} {m m' : x64.Mem} {v : BitVec 64} {s : Machine},
    gen.Gives E () T E' → C.Laid off T → need ≤ room → Ready C F room m off s →
      f (s.regs .rax) m = some (v, m') → ∃ t, Came C F room (off + code_size T) v m' s t

variable {C : code_t} {F : frame_t} {need : Nat}

section Rules

variable {need' : Nat} {gen gen' block : GenM Unit} {f : BitVec 64 → Eval}
  {e e' : Eval}

theorem Acts.mono (h : Acts C F need gen f) (hle : need ≤ need') : Acts C F need' gen f :=
  ⟨fun hgen hlaid hroom hs hval => h.came hgen hlaid (hle.trans hroom) hs hval⟩

theorem Acts.fail (err : emit_error) : Acts C F need (Output.fail err) f :=
  ⟨fun hgen => (Output.gives_fail.mp hgen).elim⟩

theorem Acts.none (gen : GenM Unit) : Acts C F need gen (fun _ _ => Option.none) := by
  refine ⟨fun _ _ _ _ hval => ?_⟩
  cases hval

theorem Acts.of_yields {g : BitVec 64 → BitVec 64}
    (h : ∀ {s : Machine}, s.regs .rbp = F.rbp → Yields C block s (g (s.regs .rax))) :
    Acts C F need block (fun v m => some (g v, m)) := by
  refine ⟨fun hgen hlaid _ hs hval => ?_⟩
  cases hval
  obtain ⟨t, ht⟩ := (h hs.rbp).done hgen hlaid hs.at
  exact ⟨t, ht.came hs⟩

theorem Acts.bind {g} (h : Acts C F need gen f) (h' : Acts C F need gen' g) :
    Acts C F need (gen >>= fun _ => gen') (fun v m => (f v m).bind fun r => g r.1 r.2) := by
  refine ⟨fun hgen hlaid hroom hs hval => ?_⟩
  obtain ⟨_, T₁, E₁, T₂, hgen₁, hlaid₁, hgen₂, hlaid₂, hoff⟩ := laid_bind hgen hlaid
  obtain ⟨⟨w, m₁⟩, hw, hv⟩ := bind_eq_some_iff.mp hval
  obtain ⟨t, ht⟩ := h.came hgen₁ hlaid₁ hroom hs hw
  rw [← ht.rax] at hv
  obtain ⟨u, hu⟩ := h'.came hgen₂ hlaid₂ hroom (ht.ready hs) hv
  rw [hoff]
  exact ⟨u, ht.trans hu⟩

/-- Two operands, the first kept on the stack while the second is computed, and
    a block that finds them in rdi and rax. -/
theorem Acts.binary {b} {h : BitVec 64 → BitVec 64 → Eval} (hfst : Acts C F need gen (fun _ => e))
    (hsnd : Acts C F need' gen' (fun _ => e'))
    (hblock : ∀ {E E' : emit_t} {T : List item_t} {off room : Nat} {m m' : x64.Mem} {v : BitVec 64} {s : Machine}, b.Gives E () T E' → C.Laid off T → Ready C F room m off s → h (s.regs .rdi) (s.regs .rax) m = some (v, m') → ∃ t, Came C F room (off + code_size T) v m' s t) :
    Acts C F (max need (need' + 8))
      (do
        gen
        push_rax
        gen'
        pop_rdi
        b)
      (fun _ m => (e m).bind fun r => (e' r.2).bind fun r' => h r.1 r'.1 r'.2) := by
  refine ⟨@fun _ _ _ _ room _ m' v _ hgen hlaid hroom hs hval => ?_⟩
  obtain ⟨_, T₁, _, _, hgen₁, hlaid₁, hrest₁, hlaid', hoff₁⟩ := laid_bind hgen hlaid
  obtain ⟨_, _, _, _, hpush, hlaid₂, hrest₂, hlaid', hoff₂⟩ := laid_bind hrest₁ hlaid'
  obtain ⟨_, T₃, _, _, hgen₃, hlaid₃, hrest₃, hlaid', hoff₃⟩ := laid_bind hrest₂ hlaid'
  obtain ⟨_, _, _, T₅, hpop, hlaid₄, hgen₅, hlaid₅, hoff₄⟩ := laid_bind hrest₃ hlaid'
  obtain ⟨rfl, rfl⟩ := gives_push_rax.mp hpush
  obtain ⟨rfl, rfl⟩ := gives_pop_rdi.mp hpop
  obtain ⟨⟨x, m₁⟩, hx, hval⟩ := bind_eq_some_iff.mp hval
  obtain ⟨⟨y, m₂⟩, hy, hval⟩ := bind_eq_some_iff.mp hval
  obtain ⟨room, rfl⟩ : ∃ room', room = room' + 8 := ⟨room - 8, by omega⟩
  obtain ⟨t, ht⟩ := hfst.came hgen₁ hlaid₁ (by omega) hs hx
  obtain ⟨u, hu, hrdi⟩ := pushed_across (ht.ready hs) hlaid₂ hlaid₄
    fun t' ht' => hsnd.came hgen₃ hlaid₃ (by omega) ht' hy
  rw [ht.rax] at hrdi
  rw [← hrdi, ← hu.rax] at hval
  obtain ⟨w, hw⟩ := hblock hgen₅ hlaid₅ (hu.ready (ht.ready hs)) hval
  rw [hoff₁, hoff₂, hoff₃, hoff₄]
  exact ⟨w, (ht.trans hu).trans hw⟩

end Rules

section Values

variable {off : Nat} {s : Machine} {env : gen_env}

theorem zero_yields : Yields C (EMIT [0x31, 0xC0]) s 0 :=
  Reaches.emit (i := .alu .xor .w32 (.reg .rax) (.reg .rax)) ⟨by decide, fun _ => rfl⟩ (fun _ => x64.exec_xor_self _ _ _)
    (.setFlags (.writeReg (w := .w64) (by decide)) _) fun _ => Function.update_self Reg.rax 0 s.regs

theorem one_yields : Yields C (EMIT ([0xB8] ++ e32 1)) s 1 :=
  .emit (i := .movImm .w32 .rax 1) ⟨by decide, fun _ => rfl⟩ (fun _ => rfl) (x64.regs_writeReg_w32 _ _ _)

theorem Acts.mov_rax_imm (x : BitVec 64) : Acts C F need (mov_rax_imm x) (fun _ m => some (x, m)) :=
  .of_yields fun _ => mov_rax_imm_yields

theorem lea_rbp_yields (offset : Int) : Yields C (EMIT ([0x48, 0x8D, 0x85] ++ e32 offset)) s
    (s.regs .rbp + (BitVec.ofInt 32 offset).signExtend 64) := by
  have hdecode (rest : List UInt8) : decode ([0x48, 0x8D, 0x85] ++ e32 offset ++ rest) =
      some (.lea .rax .rbp ((BitVec.ofInt 32 offset).signExtend 64), rest) := by
    have hopcode : decode ([0x48, 0x8D, 0x85] ++ e32 offset ++ rest) =
        ((x64.takeImm 4 (e32 offset ++ rest)).map fun r => (0, RM.mem .rbp r.1, r.2)).bind fun r =>
          x64.decodeRM 0x8D .w64 (.ofByte 0x48) r.1 r.2.1 r.2.2 := rfl
    rw [hopcode, takeImm_e32]
    rfl
  exact .emit (w := .w64) ⟨by simp, hdecode⟩ (fun _ => rfl) (x64.regs_writeReg_w64 _ _ _)

theorem Acts.gen_sym_addr (hdata : F.data = env.data) (sym : cc_sym) :
    Acts C F need (gen_sym_addr env sym) (fun _ m => (sym_addr F sym).map (·, m)) := by
  cases sym with
  | «local» offset =>
    refine .of_yields (g := fun _ => F.rbp + (BitVec.ofInt 32 offset).signExtend 64) fun hrbp => ?_
    rw [← hrbp]
    exact lea_rbp_yields offset
  | global offset =>
    simp only [sym_addr, hdata, map_some]
    exact .mov_rax_imm _
  | _ => exact .fail _

theorem add_imm_yields (offset : Int) : Yields C (EMIT ([0x48, 0x05] ++ e32 offset)) s
    (s.regs .rax + (BitVec.ofInt 32 offset).signExtend 64) := by
  have hdecode (rest : List UInt8) : decode ([0x48, 0x05] ++ e32 offset ++ rest) =
      some (.aluImm .add .w64 (.reg .rax) ((BitVec.ofInt 32 offset).signExtend 64), rest) := by
    have hopcode : decode ([0x48, 0x05] ++ e32 offset ++ rest) =
        (x64.takeImm 4 (e32 offset ++ rest)).bind fun r => some (.aluImm .add .w64 (.reg .rax) r.1, r.2) := rfl
    rw [hopcode, takeImm_e32]
    rfl
  refine Reaches.emit ⟨by simp, hdecode⟩
    (fun _ => congrArg (fun t => some (Machine.goto t _)) (x64.aluExec_reg .add (by decide) s .rax _))
    (.setFlags (.writeReg (by decide)) _) fun _ => (x64.regs_writeReg_w64 s .rax _).trans ?_
  change ((s.regs .rax).setWidth 64 + ((BitVec.ofInt 32 offset).signExtend 64).setWidth 64).setWidth 64 = _
  simp

theorem Acts.load (ty : cc_type) : Acts C F need (load ty) (load_value F ty) := by
  refine ⟨fun hgen hlaid _ hs hval => ?_⟩
  obtain ⟨rfl, hload⟩ := load_yields hs.mem hval
  obtain ⟨t, ht⟩ := hload.done hgen hlaid hs.at
  exact ⟨t, ht.came hs⟩

theorem Acts.normalise (ty : cc_type) : Acts C F need (normalise ty) (fun v m => some (as_type ty v, m)) :=
  .of_yields fun _ => normalise_yields ty

theorem Acts.pure : Acts C F need (pure ()) (fun v m => some (v, m)) := .of_yields fun _ => .pure

end Values

section Branches

variable {gen gen' gen'' : GenM Unit} {e e' e'' : Eval}

theorem laid_branch {g E E' T} {off l : Nat} {op}
    (hgen : (do test_rax; Output.tell (.jump op l); g).Gives E () T E') (hop : op.length = 2) (hlaid : C.Laid off T) :
    C.Laid off [.ins [0x48, 0x85, 0xC0], .jump op l] ∧
      ∃ T', g.Gives E () T' E' ∧ C.Laid (off + 9) T' ∧ off + code_size T = off + 9 + code_size T' := by
  obtain ⟨_, _, _, _, htest, hlaid₁, hrest, hlaid', hoff₁⟩ := laid_bind hgen hlaid
  obtain ⟨_, _, _, T', hjump, hlaid₂, hg, hlaid₃, hoff₂⟩ := laid_bind hrest hlaid'
  obtain ⟨rfl, rfl⟩ := gives_test_rax.mp htest
  obtain ⟨rfl, rfl⟩ := Output.gives_tell.mp hjump
  have hsize : off + code_size [.ins [0x48, 0x85, 0xC0]] + code_size [.jump op l] = off + 9 := by
    simp [item_t.size, hop]
  rw [hsize] at hlaid₃
  refine ⟨⟨hlaid₁.1, hlaid₂⟩, T', hg, hlaid₃, ?_⟩
  rw [hoff₁, hoff₂, hsize]

section Tails

variable {off lhere lend : Nat} {s : Machine}

/-- Both ends of `&&` and `||`: the one that is fallen into, and behind it the
    one that the tests jump to. -/
theorem tail_done {bs bs' x y}
    (hlaid : C.Laid off [.ins bs, .jump [0xE9] lend, .label lhere, .ins bs', .label lend])
    (hfst : Yields C (EMIT bs) s x) (hsnd : Yields C (EMIT bs') s y) {J : Prop} [Decidable J]
    (hat : ∀ target, C.place lhere = some target → C.At (if J then target else off) s) :
    ∃ t, Done C (off + (bs.length + 5 + bs'.length)) (if J then y else x) s t := by
  obtain ⟨hlaid₁, hjmp, hhere, hlaid₂, hend, -⟩ := hlaid
  have hat' := hat _ hhere
  have hoff : off + (bs.length + 5 + bs'.length) = off + bs.length + 5 + bs'.length := by omega
  rw [hoff]
  by_cases hj : J
  · rw [if_pos hj] at hat' ⊢
    obtain ⟨t, ht, rfl⟩ := hsnd.laid ⟨hlaid₂, trivial⟩ hat'
    exact ⟨t, ht⟩
  · rw [if_neg hj] at hat' ⊢
    obtain ⟨t, ht, rfl⟩ := hfst.laid ⟨hlaid₁, trivial⟩ hat'
    obtain ⟨target, hplace, u, hu⟩ := jmp_done ⟨hjmp, trivial⟩ (ht.at hat')
    have htarget : target = off + bs.length + 5 + bs'.length := some.inj (hplace.symm.trans hend)
    rw [htarget] at hu
    exact ⟨u, ht.trans hu⟩

end Tails

section Shortcut

variable {op bs bs' : List UInt8} {x y : BitVec 64} {P : BitVec 64 → Prop} [DecidablePred P]

/-- `&&` and `||`: the second operand is evaluated only if the first one's test
    does not jump. -/
theorem Acts.shortcut (hop : op.length = 2)
    (hbranch : ∀ {off l : Nat} {s : Machine}, C.Laid off [.ins [0x48, 0x85, 0xC0], .jump op l] →
      C.At off s → ∃ target, C.place l = some target ∧
        ∃ t, Done C (if P (s.regs .rax) then target else off + 9) (s.regs .rax) s t)
    (hfst : ∀ s, Yields C (EMIT bs) s x) (hsnd : ∀ s, Yields C (EMIT bs') s y)
    (ha : Acts C F need gen (fun _ => e)) (hb : Acts C F need gen' (fun _ => e')) :
    Acts C F need
      (do
        let lhere ← label_new
        let lend ← label_new
        gen
        test_rax
        Output.tell (.jump op lhere)
        gen'
        test_rax
        Output.tell (.jump op lhere)
        EMIT bs
        jmp_to lend
        label_here lhere
        EMIT bs'
        label_here lend)
      (fun _ m => (e m).bind fun r =>
        if P r.1 then some (y, r.2) else (e' r.2).bind fun r' => some (if P r'.1 then y else x, r'.2)) := by
  refine ⟨@fun _ _ T off room _ _ _ s hgen hlaid hroom hs hval => ?_⟩
  replace hgen := gives_label_new (gives_label_new hgen)
  obtain ⟨_, T₁, _, _, hgen₁, hlaid₁, hrest₁, hlaid', hoff₁⟩ := laid_bind hgen hlaid
  obtain ⟨hbr₁, _, hrest₂, hlaid', hoff₂⟩ := laid_branch hrest₁ hop hlaid'
  obtain ⟨_, T₂, _, _, hgen₂, hlaid₂, hrest₃, hlaid', hoff₃⟩ := laid_bind hrest₂ hlaid'
  obtain ⟨hbr₂, _, hrest₄, htail, hoff₄⟩ := laid_branch hrest₃ hop hlaid'
  simp [Output.gives_bind] at hrest₄
  obtain ⟨rfl, rfl⟩ := hrest₄
  obtain ⟨⟨a, m₁⟩, hea, hval⟩ := bind_eq_some_iff.mp hval
  obtain ⟨t, ht⟩ := ha.came hgen₁ hlaid₁ hroom hs hea
  obtain ⟨target, hplace, t', ht'⟩ := hbranch hbr₁ (ht.ready hs).at
  rw [ht.rax] at ht'
  have htt' := ht.trans (ht'.came (ht.ready hs))
  -- the end is one and the same for both tests
  have hfinish {u : Machine} {b : BitVec 64} {m' : x64.Mem} {off' : Nat}
      (hu : Came C F room off' b m' s u) {J : Prop} [Decidable J]
      (hoff' : off' = if J then target else off + code_size T₁ + 9 + code_size T₂ + 9) :
      ∃ w, Came C F room (off + code_size T₁ + 9 + code_size T₂ + 9 + (bs.length + 5 + bs'.length))
        (if J then y else x) m' s w := by
    obtain ⟨w, hw⟩ := tail_done (J := J) htail (hfst u) (hsnd u) fun target' hplace' => by
      rw [some.inj (hplace'.symm.trans hplace), ← hoff']
      exact (hu.ready hs).at
    exact ⟨w, hu.trans (hw.came (hu.ready hs))⟩
  have hoff : off + code_size T = off + code_size T₁ + 9 + code_size T₂ + 9 + (bs.length + 5 + bs'.length) := by
    rw [hoff₁, hoff₂, hoff₃, hoff₄]
    simp [item_t.size]
    omega
  rw [hoff]
  by_cases hj : P a
  · simp only [if_pos hj, some.injEq, Prod.mk.injEq] at hval htt'
    obtain ⟨rfl, rfl⟩ := hval
    simpa using hfinish (J := True) htt' (by simp)
  · simp only [if_neg hj] at hval htt'
    obtain ⟨⟨b, m₂⟩, heb, hval⟩ := bind_eq_some_iff.mp hval
    cases hval
    obtain ⟨u, hu⟩ := hb.came hgen₂ hlaid₂ hroom (htt'.ready hs) heb
    have hsu := htt'.trans hu
    obtain ⟨target', hplace', u', hu'⟩ := hbranch hbr₂ (hsu.ready hs).at
    rw [hsu.rax, some.inj (hplace'.symm.trans hplace)] at hu'
    exact hfinish (hsu.trans (hu'.came (hsu.ready hs))) rfl

end Shortcut

theorem Acts.cond (hc : Acts C F need gen (fun _ => e)) (ht : Acts C F need gen' (fun _ => e'))
    (he : Acts C F need gen'' (fun _ => e'')) :
    Acts C F need
      (do
        let lelse ← label_new
        let lend ← label_new
        gen
        test_rax
        je_to lelse
        gen'
        jmp_to lend
        label_here lelse
        gen''
        label_here lend)
      (fun _ m => (e m).bind fun r => if r.1 ≠ 0 then e' r.2 else e'' r.2) := by
  refine ⟨@fun _ _ T off room _ _ _ s hgen hlaid hroom hs hval => ?_⟩
  replace hgen := gives_label_new (gives_label_new hgen)
  obtain ⟨_, T₁, _, _, hgen₁, hlaid₁, hrest₁, hlaid', hoff₁⟩ := laid_bind hgen hlaid
  obtain ⟨hbr, _, hrest₂, hlaid', hoff₂⟩ := laid_branch hrest₁ rfl hlaid'
  obtain ⟨_, T₂, _, _, hgen₂, hlaid₂, hrest₃, hlaid', hoff₃⟩ := laid_bind hrest₂ hlaid'
  obtain ⟨_, _, _, _, hjmp, hjmplaid, hrest₄, hlaid', hoff₄⟩ := laid_bind hrest₃ hlaid'
  obtain ⟨_, _, _, _, helse, helselaid, hrest₅, hlaid', hoff₅⟩ := laid_bind hrest₄ hlaid'
  obtain ⟨_, T₃, _, _, hgen₃, hlaid₃, hend, hendlaid, hoff₆⟩ := laid_bind hrest₅ hlaid'
  obtain ⟨rfl, rfl⟩ := gives_jmp_to.mp hjmp
  obtain ⟨rfl, rfl⟩ := gives_label_here.mp helse
  obtain ⟨rfl, rfl⟩ := gives_label_here.mp hend
  obtain ⟨⟨a, m₁⟩, hea, hval⟩ := bind_eq_some_iff.mp hval
  obtain ⟨t, ht₁⟩ := hc.came hgen₁ hlaid₁ hroom hs hea
  obtain ⟨target, hplace, t', ht'⟩ := je_done hbr (ht₁.ready hs).at
  rw [ht₁.rax] at ht'
  have hst' := ht₁.trans (ht'.came (ht₁.ready hs))
  rw [hoff₁, hoff₂, hoff₃, hoff₄, hoff₅, hoff₆]
  by_cases hzero : a = 0
  · simp only [hzero, ne_eq, not_true_eq_false, if_false, if_true] at hval hst'
    rw [some.inj (hplace.symm.trans helselaid.1)] at hst'
    obtain ⟨u, hu⟩ := he.came hgen₃ hlaid₃ hroom (hst'.ready hs) hval
    exact ⟨u, hst'.trans hu⟩
  · simp only [hzero, ne_eq, not_false_eq_true, if_false, if_true] at hval hst'
    obtain ⟨u, hu⟩ := ht.came hgen₂ hlaid₂ hroom (hst'.ready hs) hval
    have hsu := hst'.trans hu
    obtain ⟨lands, hplace', w, hw⟩ := jmp_done hjmplaid (hsu.ready hs).at
    rw [hsu.rax, some.inj (hplace'.symm.trans hendlaid.1)] at hw
    exact ⟨w, hsu.trans (hw.came (hsu.ready hs))⟩

end Branches

/-- The bytes of stack the code of a node needs. -/
def stack_need : cc_node → Nat
  | .num _ _ | .var _ _ | .str _ _ | .call _ _ _ => 0
  | .member _ lhs _ | .deref _ lhs | .addr _ lhs | .cast _ lhs | .not _ lhs | .bitnot _ lhs => stack_need lhs
  | .assign _ lhs rhs | .copy _ lhs rhs => max (stack_need lhs) (stack_need rhs + 8)
  | .binop _ _ lhs rhs | .compare _ _ lhs rhs => max (stack_need rhs) (stack_need lhs + 8)
  | .logand _ lhs rhs | .logor _ lhs rhs | .comma _ lhs rhs => max (stack_need lhs) (stack_need rhs)
  | .cond _ c t e => max (stack_need c) (max (stack_need t) (stack_need e))

section Tree

variable {env : gen_env}

/-- The code of a node, for its address and for its value. -/
structure Simulates (C : code_t) (F : frame_t) (env : gen_env) (n : cc_node) : Prop where
  addr : Acts C F (stack_need n) (gen_addr env n) (fun _ => eval_addr F n)
  value : Acts C F (stack_need n) (gen_expr env n) (fun _ => eval_expr F n)

theorem Acts.congr {need : Nat} {gen f f'} (h : Acts C F need gen f) (hf : ∀ v m, f v m = f' v m) :
    Acts C F need gen f' := by
  have hfun : f = f' := funext fun v => funext (hf v)
  rwa [← hfun]

theorem truth_ne_zero (v : BitVec 64) : truth (v ≠ 0) = if v = 0 then 0 else 1 := by
  by_cases hv : v = 0 <;> simp [truth, hv]

/-- The emitted code of every node computes the node's address and value. -/
theorem simulates (hdata : F.data = env.data) (n : cc_node) : Simulates C F env n := by
  cases n with
  | num type val => exact ⟨.fail _, .mov_rax_imm val⟩
  | var type sym =>
    refine ⟨.gen_sym_addr hdata sym, ?_⟩
    have hload : Acts C F 0 (gen_sym_addr env sym >>= fun _ => load type) _ :=
      (Acts.gen_sym_addr hdata sym).bind (Acts.load type)
    cases sym with
    | enumconst val => exact .mov_rax_imm val
    | _ => exact hload.congr fun _ _ => rfl
  | str type off =>
    have himm : Acts C F 0 (mov_rax_imm (env.data + BitVec.ofInt 64 off))
        (fun _ m => some (F.data + BitVec.ofInt 64 off, m)) := by
      rw [hdata]
      exact .mov_rax_imm _
    exact ⟨himm, himm⟩
  | member type lhs offset =>
    have haddr : Acts C F (stack_need lhs) (gen_addr env (.member type lhs offset))
        (fun _ => eval_addr F (.member type lhs offset)) := by
      refine (simulates hdata lhs).addr.bind (g := fun a m =>
        some (if offset = 0 then a else a + (BitVec.ofInt 32 offset).signExtend 64, m)) ?_
      by_cases hzero : offset = 0
      · simp only [hzero, ne_eq, not_true_eq_false, if_false, if_true]
        exact .pure
      · simp only [hzero, ne_eq, not_false_eq_true, if_false, if_true]
        exact .of_yields fun _ => add_imm_yields offset
    exact ⟨haddr, haddr.bind (.load type)⟩
  | deref type lhs =>
    have ih := simulates hdata lhs
    exact ⟨ih.value, ih.value.bind (.load type)⟩
  | addr type lhs => exact ⟨.fail _, (simulates hdata lhs).addr⟩
  | assign type lhs rhs =>
    exact ⟨.fail _, (simulates hdata lhs).addr.binary (b := store type.size) (h := store_value F type.size)
      (simulates hdata rhs).value fun hgen hlaid hs hval => store_came hgen hlaid hs hval⟩
  | copy type lhs rhs => exact ⟨.fail _, .none _⟩
  | cast type lhs =>
    refine ⟨.fail _, (simulates hdata lhs).value.bind (g := fun v m =>
      some (if type = .void then v else as_type type v, m)) ?_⟩
    by_cases hvoid : type = .void
    · simp only [hvoid, ne_eq, not_true_eq_false, if_false, if_true]
      exact .pure
    · simp only [hvoid, ne_eq, not_false_eq_true, if_false, if_true]
      exact .normalise type
  | binop kind type lhs rhs =>
    refine ⟨.fail _, ((simulates hdata rhs).value.binary (b := gen_binop kind type)
      (h := fun b a m => (binop_value kind type a b).bind fun v => some (v, m)) (simulates hdata lhs).value ?_)⟩
    intro E E' T off room m m' v s hgen hlaid hs hval
    obtain ⟨w, hw, hsome⟩ := bind_eq_some_iff.mp hval
    cases hsome
    obtain ⟨t, ht⟩ := (gen_binop_yields hw).done hgen hlaid hs.at
    exact ⟨t, ht.came hs⟩
  | compare kind type lhs rhs =>
    refine ⟨.fail _, ((simulates hdata rhs).value.binary (b := gen_compare kind lhs.type)
      (h := fun b a m => some (compare_value kind lhs.type a b, m)) (simulates hdata lhs).value ?_)⟩
    intro E E' T off room m m' v s hgen hlaid hs hval
    cases hval
    obtain ⟨t, ht⟩ := (gen_compare_yields kind lhs.type).done hgen hlaid hs.at
    exact ⟨t, ht.came hs⟩
  | not type lhs =>
    refine ⟨.fail _, (simulates hdata lhs).value.bind (g := fun v m => some (truth (v = 0), m)) ?_⟩
    exact .of_yields fun _ => test_rax_reaches.bind fun _ ht => setcc_yields (c := .e) ⟨by decide, fun _ => rfl⟩ ht.2
  | bitnot type lhs =>
    refine ⟨.fail _, (simulates hdata lhs).value.bind (g := fun v m => some (bitnot_value type v, m)) ?_⟩
    exact .of_yields fun _ => gen_bitnot_yields type
  | logand type lhs rhs =>
    have hl := (simulates hdata lhs).value.mono (Nat.le_max_left _ (stack_need rhs))
    have hr := (simulates hdata rhs).value.mono (Nat.le_max_right (stack_need lhs) _)
    refine ⟨.fail _, (Acts.shortcut (P := (· = 0)) rfl je_done (fun _ => one_yields) (fun _ => zero_yields) hl hr).congr fun _ _ => ?_⟩
    simp only [← truth_ne_zero]
    rfl
  | logor type lhs rhs =>
    have hl := (simulates hdata lhs).value.mono (Nat.le_max_left _ (stack_need rhs))
    have hr := (simulates hdata rhs).value.mono (Nat.le_max_right (stack_need lhs) _)
    have hjump {off l : Nat} {s : Machine} (hlaid : C.Laid off [.ins [0x48, 0x85, 0xC0], .jump [0x0F, 0x85] l])
        (hat : C.At off s) : ∃ target, C.place l = some target ∧
          ∃ t, Done C (if s.regs .rax ≠ 0 then target else off + 9) (s.regs .rax) s t := by
      simpa only [ne_eq, ite_not] using jne_done hlaid hat
    refine ⟨.fail _, (Acts.shortcut (P := (· ≠ 0)) rfl hjump (fun _ => zero_yields) (fun _ => one_yields) hl hr).congr fun _ _ => ?_⟩
    have htruth (v : BitVec 64) : (if v ≠ 0 then 1 else 0) = truth (v ≠ 0) := by rw [ite_not, truth_ne_zero]
    simp only [htruth]
    rfl
  | cond type c t e =>
    have hc := (simulates hdata c).value.mono (Nat.le_max_left _ (max (stack_need t) (stack_need e)))
    have ht := (simulates hdata t).value.mono
      ((Nat.le_max_left _ (stack_need e)).trans (Nat.le_max_right (stack_need c) _))
    have he := (simulates hdata e).value.mono
      ((Nat.le_max_right (stack_need t) _).trans (Nat.le_max_right (stack_need c) _))
    exact ⟨.fail _, .cond hc ht he⟩
  | comma type lhs rhs =>
    have hl := (simulates hdata lhs).value.mono (Nat.le_max_left _ (stack_need rhs))
    have ih := simulates hdata rhs
    exact ⟨hl.bind (ih.addr.mono (Nat.le_max_right _ _)), hl.bind (ih.value.mono (Nat.le_max_right _ _))⟩
  | call type callee args => exact ⟨.fail _, .none _⟩
termination_by structural n

end Tree

end fable.cc
