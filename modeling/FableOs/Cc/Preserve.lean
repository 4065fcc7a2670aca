import FableOs.Cc.Vars

namespace fable.cc

open Option

open c11 (Ty Rank Expr Evals convert promote usual)
open x64 (Width Within setWidth_ofInt_of_le)

/-! The tree that the parser builds for an expression evaluates as C defines. -/

variable {X : Type} {F : frame_t} {V : vars_t X} {lo hi : Nat} {n l r : cc_node} {m : x64.Mem} {T U : Option Ty}

section Types

variable {role role' : role_t}

theorem Typed.decay (h : Typed n T) : decay n = n := by
  cases T with
  | none => exact decay_void h
  | some t =>
    obtain ⟨t', ht, -⟩ := h
    exact decay_int ht

theorem typed_of {t t' : Ty} (hT : T = some t) (hn : n.type = of_ty t') (hp : promote t' = promote t) :
    Typed n T := by
  subst hT
  exact ⟨t', hn, hp⟩

theorem Typed.void (h : Typed n T) (hT : T = none) : n.type = .void := by
  subst hT
  exact h

theorem Typed.int {t : Ty} (h : Typed n T) (hT : T = some t) : ∃ t', n.type = of_ty t' ∧ promote t' = promote t := by
  subst hT
  exact h

/-- A node of the integer type `t'`, for an expression of the type `t`. -/
structure Operand (n : cc_node) (T : Option Ty) (t t' : Ty) : Prop where
  some : T = .some t
  type : n.type = of_ty t'
  promote : c11.promote t' = c11.promote t

/-- What passes for a scalar is an integer expression. -/
theorem Typed.of_scalar {n'} (h : Typed n T) (hok : want_scalar n role = .ok n') :
    n' = n ∧ ∃ t t', Operand n T t t' := by
  cases T with
  | none =>
    rw [want_scalar_void h] at hok
    cases hok
  | some t =>
    obtain ⟨t', ht, hp⟩ := h
    rw [want_scalar_int ht] at hok
    cases hok
    exact ⟨rfl, t, t', rfl, ht, hp⟩

theorem Typed.of_scalars {n} {g : cc_node → cc_node → Except cc_error cc_node} (hl : Typed l T) (hr : Typed r U)
    (hok : (want_scalar l role >>= fun l => want_scalar r role' >>= fun r => g l r) = .ok n) :
    ∃ t t' u u', Operand l T t t' ∧ Operand r U u u' := by
  obtain ⟨l', hl', hrest⟩ := except_bind_eq_ok_iff.mp hok
  obtain ⟨r', hr', -⟩ := except_bind_eq_ok_iff.mp hrest
  obtain ⟨-, t, t', ht⟩ := hl.of_scalar hl'
  obtain ⟨-, u, u', hu⟩ := hr.of_scalar hr'
  exact ⟨t, t', u, u', ht, hu⟩

end Types

section Evaluates

variable {a b c : Int}
  {σ σ₁ σ₂ : X → Int} {t u w : Ty}

/-- A node evaluates to an integer and to a memory that holds a store; the
    value is held as the node's type asks. -/
def Evaluates (F : frame_t) (V : vars_t X) (lo hi : Nat) (n : cc_node) (m : x64.Mem) (val : Int) (σ : X → Int) :
    Prop :=
  ∃ v m', eval_expr F n m = some (v, m') ∧ HoldsStore F V σ m' ∧ Kept F V lo hi m m' ∧
    ∀ t, n.type = of_ty t → t.Holds val ∧ v = BitVec.ofInt 64 val

theorem Evaluates.mono {lo' hi' : Nat} (h : Evaluates F V lo hi n m a σ) (hlo : lo' ≤ lo) (hhi : hi ≤ hi') :
    Evaluates F V lo' hi' n m a σ := by
  obtain ⟨v, m', heval, hstore, hkept, hval⟩ := h
  exact ⟨v, m', heval, hstore, hkept.mono hlo hhi, hval⟩

/-- An integer node leaves its value in the register, the store in memory and the
    temporaries in place. -/
theorem Evaluates.int (h : Evaluates F V lo hi n m a σ) (ht : n.type = of_ty t) :
    ∃ m', eval_expr F n m = some (BitVec.ofInt 64 a, m') ∧ HoldsStore F V σ m' ∧ Kept F V lo hi m m' ∧ t.Holds a := by
  obtain ⟨v, m', heval, hstore, hkept, hval⟩ := h
  obtain ⟨hholds, rfl⟩ := hval t ht
  exact ⟨m', heval, hstore, hkept, hholds⟩

theorem evaluates_int {m'} (ht : n.type = of_ty t) (heval : eval_expr F n m = some (BitVec.ofInt 64 a, m'))
    (hstore : HoldsStore F V σ m') (hkept : Kept F V lo hi m m') (hholds : t.Holds a) :
    Evaluates F V lo hi n m a σ := by
  refine ⟨_, m', heval, hstore, hkept, fun t' ht' => ?_⟩
  obtain rfl := of_ty_inj.mp (ht.symm.trans ht')
  exact ⟨hholds, rfl⟩

/-- A cast converts the value. -/
theorem Evaluates.cast (h : Evaluates F V lo hi n m a σ) (ht : n.type = of_ty t) (u : Ty) :
    Evaluates F V lo hi (.cast (of_ty u) n) m (convert u a) σ := by
  obtain ⟨m', heval, hstore, hkept, hholds⟩ := h.int ht
  refine evaluates_int rfl ?_ hstore hkept (c11.holds_convert _ _)
  change (eval_expr F n m).bind (fun r => some (if of_ty u = .void then r.1 else as_type (of_ty u) r.1, r.2)) = _
  rw [heval, bind_some, if_neg (of_ty_ne_void u), as_type_ofInt]

theorem Evaluates.node_cast (h : Evaluates F V lo hi n m a σ) (ht : n.type = of_ty t) (u : Ty) :
    Evaluates F V lo hi (node_cast n (of_ty u)) m (convert u a) σ := by
  unfold cc.node_cast
  split
  · next hsame =>
    obtain rfl := of_ty_inj.mp (ht.symm.trans hsame)
    obtain ⟨m', heval, hstore, hkept, hholds⟩ := h.int ht
    rwa [c11.convert_of_holds hholds]
  · exact h.cast ht u

/-- The right operand is evaluated first, and the left one in what it leaves. -/
theorem Evaluates.binop {kind} (hr : Evaluates F V lo hi r m b σ₁)
    (hl : ∀ {m₁}, HoldsStore F V σ₁ m₁ → Kept F V lo hi m m₁ → Evaluates F V lo hi l m₁ a σ₂)
    (hrt : r.type = of_ty u) (hlt : l.type = of_ty t)
    (hval : binop_value kind (of_ty w) (BitVec.ofInt 64 a) (BitVec.ofInt 64 b) = some (BitVec.ofInt 64 c))
    (hc : w.Holds c) : Evaluates F V lo hi (.binop kind (of_ty w) l r) m c σ₂ := by
  obtain ⟨m₁, heval₁, hstore₁, hkept₁, -⟩ := hr.int hrt
  obtain ⟨m₂, heval₂, hstore₂, hkept₂, -⟩ := (hl hstore₁ hkept₁).int hlt
  refine evaluates_int rfl ?_ hstore₂ (hkept₁.trans hkept₂) hc
  change (eval_expr F r m).bind (fun y => (eval_expr F l y.2).bind fun x =>
    (binop_value kind (of_ty w) x.1 y.1).bind fun v => some (v, x.2)) = _
  rw [heval₁, bind_some, heval₂, bind_some, hval, bind_some]

theorem truth_eq (b : Bool) : truth b = BitVec.ofInt 64 (c11.ofBool b) := by
  cases b <;> rfl

/-- A comparison gives 0 or 1. -/
theorem Evaluates.compare {kind} (hr : Evaluates F V lo hi r m b σ₁)
    (hl : ∀ {m₁}, HoldsStore F V σ₁ m₁ → Evaluates F V lo hi l m₁ a σ₂) (hwide : Wide t) (hrt : r.type = of_ty t)
    (hlt : l.type = of_ty t) :
    Evaluates F V lo hi (.compare kind cc_ty_int l r) m (c11.ofBool (compare_ints kind a b)) σ₂ := by
  obtain ⟨m₁, heval₁, hstore₁, hkept₁, hb⟩ := hr.int hrt
  obtain ⟨m₂, heval₂, hstore₂, hkept₂, ha⟩ := (hl hstore₁).int hlt
  refine evaluates_int (t := .int) rfl ?_ hstore₂ (hkept₁.trans hkept₂) (c11.holds_ofBool _)
  change (eval_expr F r m).bind (fun y => (eval_expr F l y.2).bind fun x =>
    some (compare_value kind l.type x.1 y.1, x.2)) = _
  rw [heval₁, bind_some, heval₂, bind_some, hlt, compare_value_of_ty hwide,
    setWidth_ofInt_of_le (width_le t), setWidth_ofInt_of_le (width_le t), compare_at_ofInt ha hb, truth_eq]

theorem ofInt64_eq_zero (h : t.Holds a) : BitVec.ofInt 64 a = 0 ↔ a = 0 := by
  refine ⟨fun hzero => ?_, fun hzero => by rw [hzero]; rfl⟩
  by_contra hne
  refine ofInt_ne_zero h hne ?_
  rw [← setWidth_ofInt_of_le (width_le t), hzero]
  exact BitVec.setWidth_zero _ _

theorem Evaluates.not (h : Evaluates F V lo hi n m a σ) (ht : n.type = of_ty t) :
    Evaluates F V lo hi (.not cc_ty_int n) m (c11.ofBool (a = 0)) σ := by
  obtain ⟨m', heval, hstore, hkept, hholds⟩ := h.int ht
  refine evaluates_int (t := .int) rfl ?_ hstore hkept (c11.holds_ofBool _)
  change (eval_expr F n m).bind (fun x => some (truth (x.1 = 0), x.2)) = _
  simp only [heval, bind_some, ofInt64_eq_zero hholds, truth_eq]

theorem bitnot_value_of_ty (hwide : Wide t) (v : BitVec 64) :
    bitnot_value (of_ty t) v = BitVec.ofInt 64 (t.ofBits (~~~(v.setWidth t.width))) := by
  rw [← as_type_setWidth]
  obtain ⟨rank, unsigned⟩ := t
  obtain hrank | hrank := hwide <;> simp only at hrank <;> subst hrank
  · rfl
  · have hsame (z : BitVec 64) : z.setWidth 64 = z := BitVec.setWidth_eq z
    simp only [Ty.width, Rank.width, hsame]
    rfl

/-- The complement is taken at the width of the type. -/
theorem Evaluates.bitnot (h : Evaluates F V lo hi n m a σ) (hwide : Wide t) (ht : n.type = of_ty t) :
    Evaluates F V lo hi (.bitnot (of_ty t) n) m (t.ofBits (~~~(BitVec.ofInt t.width a))) σ := by
  obtain ⟨m', heval, hstore, hkept, hholds⟩ := h.int ht
  refine evaluates_int rfl ?_ hstore hkept (c11.holds_ofBits _ _)
  change (eval_expr F n m).bind (fun x => some (bitnot_value (of_ty t) x.1, x.2)) = _
  rw [heval, bind_some, bitnot_value_of_ty hwide, setWidth_ofInt_of_le (width_le t)]

/-- What `&&` and `||` share: the right side is not evaluated when the left one
    is zero, or for `||` when it is not. -/
theorem eval_shortcut (l r : cc_node) (m : x64.Mem) (stop : Bool) :
    eval_expr F (if stop then .logor cc_ty_int l r else .logand cc_ty_int l r) m =
      (eval_expr F l m).bind fun x => if decide (x.1 ≠ 0) = stop then some (truth stop, x.2) else
        (eval_expr F r x.2).bind fun y => some (truth (y.1 ≠ 0), y.2) := by
  cases stop with
  | false | true =>
    change (eval_expr F l m).bind _ = _
    simp [eval_expr, truth]

/-- Of the two branches one is evaluated. -/
theorem eval_cond (ty : cc_type) (c l r : cc_node) (m : x64.Mem) :
    eval_expr F (.cond ty c l r) m =
      (eval_expr F c m).bind fun x => eval_expr F (if x.1 ≠ 0 then l else r) x.2 := by
  change (eval_expr F c m).bind (fun x => if x.1 ≠ 0 then eval_expr F l x.2 else eval_expr F r x.2) = _
  congr 1
  funext x
  split <;> rfl

/-- A left operand that decides the result is the only one evaluated. -/
theorem Evaluates.stops (hl : Evaluates F V lo hi l m a σ) (hlt : l.type = of_ty t) (stop : Bool)
    (hstop : decide (a ≠ 0) = stop) :
    Evaluates F V lo hi (if stop then .logor cc_ty_int l r else .logand cc_ty_int l r) m (c11.ofBool stop) σ := by
  obtain ⟨m', heval, hstore, hkept, hholds⟩ := hl.int hlt
  refine evaluates_int (t := .int) (by cases stop <;> rfl) ?_ hstore hkept (c11.holds_ofBool stop)
  rw [eval_shortcut, heval, bind_some, if_pos (by simpa only [ne_eq, ofInt64_eq_zero hholds]), truth_eq]

/-- Otherwise the right operand decides. -/
theorem Evaluates.goes_on (hl : Evaluates F V lo hi l m a σ₁) (hlt : l.type = of_ty t) (stop : Bool)
    (hgoes : decide (a ≠ 0) ≠ stop) (hr : ∀ {m₁}, HoldsStore F V σ₁ m₁ → Evaluates F V lo hi r m₁ b σ₂)
    (hrt : r.type = of_ty u) :
    Evaluates F V lo hi (if stop then .logor cc_ty_int l r else .logand cc_ty_int l r) m (c11.ofBool (b ≠ 0)) σ₂ := by
  obtain ⟨m₁, heval₁, hstore₁, hkept₁, hholds₁⟩ := hl.int hlt
  obtain ⟨m₂, heval₂, hstore₂, hkept₂, hholds₂⟩ := (hr hstore₁).int hrt
  refine evaluates_int (t := .int) (by cases stop <;> rfl) ?_ hstore₂ (hkept₁.trans hkept₂) (c11.holds_ofBool _)
  rw [eval_shortcut, heval₁, bind_some, if_neg (by simpa only [ne_eq, ofInt64_eq_zero hholds₁]), heval₂,
    bind_some]
  simp only [ne_eq, ofInt64_eq_zero hholds₂, truth_eq]

theorem Evaluates.cond {ty cn} (hc : Evaluates F V lo hi cn m a σ₁) (hct : cn.type = of_ty t)
    (harm : ∀ {m₁}, HoldsStore F V σ₁ m₁ → Evaluates F V lo hi (if a ≠ 0 then l else r) m₁ b σ₂) (hl : l.type = ty)
    (hr : r.type = ty) : Evaluates F V lo hi (.cond ty cn l r) m b σ₂ := by
  obtain ⟨m₁, heval₁, hstore₁, hkept₁, hholds₁⟩ := hc.int hct
  obtain ⟨v, m₂, heval₂, hstore₂, hkept₂, hval₂⟩ := harm hstore₁
  refine ⟨v, m₂, ?_, hstore₂, hkept₁.trans hkept₂, fun t' ht' => hval₂ t' ?_⟩
  · rwa [eval_cond, heval₁, bind_some, if_congr (not_congr (ofInt64_eq_zero hholds₁)) rfl rfl]
  · split
    · exact hl.trans ht'
    · exact hr.trans ht'

/-- The left operand's value is dropped, its effect is not. -/
theorem Evaluates.comma (hl : Evaluates F V lo hi l m a σ₁)
    (hr : ∀ {m₁}, HoldsStore F V σ₁ m₁ → Evaluates F V lo hi r m₁ b σ₂) :
    Evaluates F V lo hi (comma l r) m b σ₂ := by
  obtain ⟨v₁, m₁, heval₁, hstore₁, hkept₁, -⟩ := hl
  obtain ⟨v₂, m₂, heval₂, hstore₂, hkept₂, hval₂⟩ := hr hstore₁
  refine ⟨v₂, m₂, ?_, hstore₂, hkept₁.trans hkept₂, hval₂⟩
  change (eval_expr F l m).bind (fun x => eval_expr F r x.2) = _
  rw [heval₁, bind_some, heval₂]

end Evaluates

section Variables

variable {a : Int}
  {σ σ₁ : X → Int} {t u : Ty} {x : X}

/-- A variable's place holds its value. -/
theorem load_var (hplaced : Placed F V) (hm : HoldsStore F V σ m) (x : X) :
    load_value F (of_ty (V.decl x)) (var_addr F V x) m = some (BitVec.ofInt 64 (σ x), m) := by
  have hallowed : F.allows (var_addr F V x) (width_of (of_ty (V.decl x)).size).bytes = true := hplaced.allowed x
  have hread : as_type (of_ty (V.decl x)) (x64.read m (var_addr F V x) (width_of (of_ty (V.decl x)).size)) = _ :=
    (hm x).2
  generalize V.decl x = ty at hallowed hread ⊢
  obtain ⟨rank, unsigned⟩ := ty
  cases rank <;> exact (if_pos hallowed).trans (congrArg (fun v => some (v, m)) hread)

theorem eval_addr_var (hplaced : Placed F V) (x : X) (m : x64.Mem) :
    eval_addr F (var_node V x) m = some (var_addr F V x, m) := by
  change (sym_addr F (V.sym x)).map (·, m) = _
  rw [hplaced.placed x, map_some]

theorem evaluates_var (hplaced : Placed F V) (hm : HoldsStore F V σ m) (x : X) :
    Evaluates F V lo hi (var_node V x) m (σ x) σ := by
  refine evaluates_int (t := V.decl x) rfl ?_ hm (.refl m) (hm x).1
  have hsym := hplaced.placed x
  have hnode : eval_expr F (var_node V x) m =
      (sym_addr F (V.sym x)).bind fun a => load_value F (of_ty (V.decl x)) a m := by
    cases hs : V.sym x <;> rw [hs] at hsym <;> first | cases hsym | (unfold var_node; rw [hs]; rfl)
  rw [hnode, hsym, bind_some, load_var hplaced hm]

variable [DecidableEq X]

/-- An assignment changes the one variable, and its value is what is stored. -/
theorem Evaluates.assign (hplaced : Placed F V) (hr : Evaluates F V lo hi r m a σ₁)
    (hrt : r.type = of_ty (V.decl x)) :
    Evaluates F V lo hi (.assign (of_ty (V.decl x)) (var_node V x) r) m a (Function.update σ₁ x a) := by
  obtain ⟨m₁, heval, hstore, hkept, hholds⟩ := hr.int hrt
  refine evaluates_int (t := V.decl x) rfl ?_ (hstore.assign hplaced x hholds) (hkept.trans (kept_assign x _)) hholds
  change (eval_addr F (var_node V x) m).bind (fun p => (eval_expr F r p.2).bind fun v =>
    store_value F (of_ty (V.decl x)).size p.1 v.1 v.2) = _
  have hallowed : F.allows (var_addr F V x) (width_of (of_ty (V.decl x)).size).bytes = true := hplaced.allowed x
  rw [eval_addr_var hplaced, bind_some, heval, bind_some, store_value, if_pos hallowed]
  rfl

end Variables

section Compound

variable {ctx : build_ctx} {val : cc_node}
  {a b : Int} {σ σ₁ : X → Int} {t u : Ty} {x : X}

theorem eval_addr_target (hplaced : Placed F V) (hk : ctx.ntemp < CC_TEMP_SLOTS) (ty : cc_type) (m : x64.Mem) :
    eval_addr F (target_node ty ctx) m = some (x64.read m (temp_addr F ctx.ntemp) .w64, m) := by
  change load_value F (.ptr ty) (temp_addr F ctx.ntemp) m = _
  exact if_pos (hplaced.temp_allowed _ hk)

/-- The target of a compound assignment is found through its temporary. -/
theorem evaluates_target (hplaced : Placed F V) (hk : ctx.ntemp < CC_TEMP_SLOTS) (hm : HoldsStore F V σ m)
    (htemp : x64.read m (temp_addr F ctx.ntemp) .w64 = var_addr F V x) :
    Evaluates F V lo hi (target_node (of_ty (V.decl x)) ctx) m (σ x) σ := by
  refine evaluates_int (t := V.decl x) rfl ?_ hm (.refl m) (hm x).1
  change (eval_addr F (target_node (of_ty (V.decl x)) ctx) m).bind (fun p => load_value F (of_ty (V.decl x)) p.1 p.2) = _
  rw [eval_addr_target hplaced hk, bind_some, htemp, load_var hplaced hm]

/-- The address of the left side is kept in the temporary while the right side
    is evaluated. -/
theorem Evaluates.compound [DecidableEq X] (hplaced : Placed F V) (hk : ctx.ntemp < CC_TEMP_SLOTS)
    (hlo : lo ≤ ctx.ntemp) (hm : HoldsStore F V σ m)
    (hval : ∀ {m₁}, HoldsStore F V σ m₁ → x64.read m₁ (temp_addr F ctx.ntemp) .w64 = var_addr F V x →
      Evaluates F V lo ctx.ntemp val m₁ a σ₁) (hvt : val.type = of_ty (V.decl x)) :
    Evaluates F V lo (ctx.ntemp + 1)
      (.comma (of_ty (V.decl x))
        (.assign (.ptr (of_ty (V.decl x))) (temp_node (of_ty (V.decl x)) ctx)
          (.addr (.ptr (of_ty (V.decl x))) (var_node V x)))
        (.assign (of_ty (V.decl x)) (target_node (of_ty (V.decl x)) ctx) val)) m a (Function.update σ₁ x a) := by
  let m₁ := x64.write m (temp_addr F ctx.ntemp) .w64 (var_addr F V x)
  have hm₁ : HoldsStore F V σ m₁ := hm.set_temp hplaced hk _
  have hkept₁ : Kept F V lo (ctx.ntemp + 1) m m₁ := kept_set_temp hlo (Nat.lt_succ_self _) _
  have htemp : x64.read m₁ (temp_addr F ctx.ntemp) .w64 = var_addr F V x := by
    rw [x64.read_write_same, Width.zext_w64]
  obtain ⟨m₂, heval, hstore, hkept₂, hholds⟩ := (hval hm₁ htemp).int hvt
  refine evaluates_int (t := V.decl x) rfl ?_ (hstore.assign hplaced x hholds)
    ((hkept₁.trans (hkept₂.mono le_rfl (Nat.le_succ _))).trans (kept_assign x _)) hholds
  have hset : eval_expr F (.assign (.ptr (of_ty (V.decl x))) (temp_node (of_ty (V.decl x)) ctx)
      (.addr (.ptr (of_ty (V.decl x))) (var_node V x))) m = some (var_addr F V x, m₁) := by
    change (eval_addr F (var_node V x) m).bind (fun p => store_value F 8 (temp_addr F ctx.ntemp) p.1 p.2) = _
    have hallowed : F.allows (temp_addr F ctx.ntemp) (width_of 8).bytes = true := hplaced.temp_allowed _ hk
    rw [eval_addr_var hplaced, bind_some, store_value, if_pos hallowed]
    rfl
  have hnode (s v : cc_node) : eval_expr F (.comma (of_ty (V.decl x)) s
      (.assign (of_ty (V.decl x)) (target_node (of_ty (V.decl x)) ctx) v)) m =
        (eval_expr F s m).bind fun y => (eval_addr F (target_node (of_ty (V.decl x)) ctx) y.2).bind fun p =>
          (eval_expr F v p.2).bind fun w => store_value F (of_ty (V.decl x)).size p.1 w.1 w.2 := rfl
  have hallowed : F.allows (var_addr F V x) (width_of (of_ty (V.decl x)).size).bytes = true := hplaced.allowed x
  rw [hnode, hset, bind_some, eval_addr_target hplaced hk, bind_some, htemp, heval, bind_some,
    store_value, if_pos hallowed]
  rfl

end Compound

section Main

variable [DecidableEq X] {n' : cc_node} {op : c11.BinOp}

theorem build_unary {x : Except cc_error (cc_node × build_ctx)} {f : cc_node → Except cc_error cc_node} {n ctx'}
    (h : (do let (n, ctx) ← x; return (← f n, ctx)) = .ok (n, ctx')) : ∃ n₁, x = .ok (n₁, ctx') ∧ f n₁ = .ok n := by
  obtain ⟨⟨n₁, ctx₁⟩, hx, hrest⟩ := except_bind_eq_ok_iff.mp h
  obtain ⟨n₂, hf, hok⟩ := except_bind_eq_ok_iff.mp hrest
  cases hok
  exact ⟨n₁, hx, hf⟩

theorem build_binary {x : Except cc_error (cc_node × build_ctx)}
    {y : build_ctx → Except cc_error (cc_node × build_ctx)} {f : cc_node → cc_node → Except cc_error cc_node} {n}
    {ctx'} (h : (do let (l, ctx) ← x; let (r, ctx) ← y ctx; return (← f l r, ctx)) = .ok (n, ctx')) :
    ∃ l ctx₁ r, x = .ok (l, ctx₁) ∧ y ctx₁ = .ok (r, ctx') ∧ f l r = .ok n := by
  obtain ⟨⟨l, ctx₁⟩, hx, hrest⟩ := except_bind_eq_ok_iff.mp h
  obtain ⟨r, hy, hf⟩ := build_unary hrest
  exact ⟨l, ctx₁, r, hx, hy, hf⟩

/-- A tree evaluates as an expression does. -/
def Agrees (F : frame_t) (V : vars_t X) (lo hi : Nat) (n : cc_node) (e : Expr X) : Prop :=
  ∀ {σ : X → Int} {r : c11.Result X} {m : x64.Mem}, Evals V.decl e σ r → HoldsStore F V σ m →
    Evaluates F V lo hi n m r.val r.store

/-- What the parser has built for an expression, between two states of its
    temporaries. -/
structure Built (F : frame_t) (V : vars_t X) (ctx ctx' : build_ctx) (n : cc_node) (e : Expr X) : Prop where
  typed : Typed n (e.typeOf V.decl)
  le : ctx.ntemp ≤ ctx'.ntemp
  agrees : Agrees F V ctx.ntemp ctx'.ntemp n e

variable {ctx ctx₁ ctx₂ ctx' : build_ctx} {nl nr nc : cc_node} {e l r c : Expr X} {x : X}

/-- A constant is its node. -/
theorem built_const (ctx : build_ctx) (t : Ty) (v : Int) :
    Built F V ctx ctx (.num (of_ty t) (BitVec.ofInt 64 v)) (.const t v) := by
  refine ⟨⟨t, rfl, rfl⟩, le_rfl, ?_⟩
  intro σ r m he hm
  cases he with
  | const hv => exact evaluates_int rfl rfl hm (.refl m) hv

/-- A variable is its node. -/
theorem built_var (hplaced : Placed F V) (ctx : build_ctx) (x : X) :
    Built F V ctx ctx (var_node V x) (.var x) := by
  refine ⟨⟨V.decl x, rfl, rfl⟩, le_rfl, ?_⟩
  intro σ r m he hm
  cases he with
  | var => exact evaluates_var hplaced hm x

section Unary

variable (h : Built F V ctx ctx' n e)
include h

theorem Built.pos (hf : unary_plus n = .ok n') : Built F V ctx ctx' n' (.pos e) := by
  obtain ⟨rfl, t, t', ht, htype, hpromote⟩ := h.typed.of_scalar hf
  refine ⟨typed_of (by rw [Expr.typeOf, ht]; rfl) htype (by simpa using hpromote), h.le, ?_⟩
  intro σ r m he hm
  cases he with
  | pos _ he => exact h.agrees he hm

/-- A minus sign is built as a subtraction from zero, of the same value. -/
theorem Built.neg (hf : unary_minus n = .ok n') : Built F V ctx ctx' n' (.neg e) := by
  obtain ⟨n₂, hscalar, -⟩ := except_bind_eq_ok_iff.mp hf
  obtain ⟨-, t, t', ht, htype, hpromote⟩ := h.typed.of_scalar hscalar
  rw [unary_minus_int htype, hpromote] at hf
  cases hf
  refine ⟨typed_of (by rw [Expr.typeOf, ht]; rfl) rfl (by simp), h.le, ?_⟩
  intro σ r m he hm
  cases he with
  | @neg _ _ v _ r ht' he hv =>
    cases ht.symm.trans ht'
    have hcast := (h.agrees he hm).node_cast htype (promote t)
    have hzero {m₁ : x64.Mem} (hm₁ : HoldsStore F V r.store m₁) :
        Evaluates F V ctx.ntemp ctx'.ntemp (.num (of_ty (promote t)) 0) m₁ 0 r.store :=
      evaluates_int rfl rfl hm₁ (.refl m₁) (holds_zero _)
    have hconv : convert (promote t) r.val = r.val := by
      obtain ⟨-, -, -, -, hholds⟩ := (h.agrees he hm).int htype
      exact c11.convert_of_holds (hpromote ▸ c11.holds_promote hholds)
    refine hcast.binop (fun hm₁ _ => hzero hm₁) (type_node_cast _ _) rfl ?_ (c11.holds_settle hv)
    have hsub : c11.BinOp.val (.arith .sub) (promote t) (promote t) 0 r.val = some v := by
      simp only [c11.BinOp.val, usual_promote, c11.arith, hconv, c11.convert_of_holds (holds_zero _), zero_sub]
      exact hv
    have hvalue := arith_value hsub
    rwa [usual_promote, c11.convert_of_holds (holds_zero _)] at hvalue

theorem Built.bitnot (hf : unary_bitnot n = .ok n') : Built F V ctx ctx' n' (.bitnot e) := by
  obtain ⟨n₂, hscalar, -⟩ := except_bind_eq_ok_iff.mp hf
  obtain ⟨-, t, t', ht, htype, hpromote⟩ := h.typed.of_scalar hscalar
  rw [unary_bitnot_int htype, hpromote] at hf
  cases hf
  refine ⟨typed_of (by rw [Expr.typeOf, ht]; rfl) rfl (by simp), h.le, ?_⟩
  intro σ r m he hm
  cases he with
  | @bitnot _ _ _ r ht' he =>
    cases ht.symm.trans ht'
    obtain ⟨-, -, -, -, hholds⟩ := (h.agrees he hm).int htype
    have hcast := (h.agrees he hm).node_cast htype (promote t)
    rw [c11.convert_of_holds (hpromote ▸ c11.holds_promote hholds)] at hcast
    exact hcast.bitnot (wide_promote t) (type_node_cast _ _)

theorem Built.not (hf : unary_not n = .ok n') : Built F V ctx ctx' n' (.not e) := by
  obtain ⟨n₂, hscalar, hok⟩ := except_bind_eq_ok_iff.mp hf
  obtain ⟨rfl, t, t', ht, htype, hpromote⟩ := h.typed.of_scalar hscalar
  cases hok
  refine ⟨⟨.int, rfl, rfl⟩, h.le, ?_⟩
  intro σ r m he hm
  cases he with
  | not _ he => exact (h.agrees he hm).not htype

/-- A cast to a type, or to void. -/
theorem Built.cast (hf : cast_to (cast_type T) n = .ok n') : Built F V ctx ctx' n' (.cast T e) := by
  cases T with
  | none =>
    have hok : cast_to .void n = .ok (node_cast n .void) := by
      unfold cast_to
      rw [h.typed.decay]
    cases hok.symm.trans hf
    refine ⟨type_node_cast _ _, h.le, ?_⟩
    intro σ r m he hm
    cases he with
    | void he =>
      obtain ⟨v, m', heval, hstore, hkept, -⟩ := h.agrees he hm
      refine ⟨v, m', ?_, hstore, hkept, fun t ht => ?_⟩
      · unfold node_cast
        split
        · exact heval
        · change (eval_expr F n m).bind (fun y => some (y.1, y.2)) = _
          rw [heval]
          rfl
      · rw [type_node_cast] at ht
        exact absurd ht.symm (of_ty_ne_void t)
  | some u =>
    change cast_to (of_ty u) n = _ at hf
    cases hT : e.typeOf V.decl with
    | none =>
      rw [cast_to_of_void (h.typed.void hT)] at hf
      cases hf
    | some t =>
      obtain ⟨t', htype, -⟩ := h.typed.int hT
      rw [cast_to_int htype] at hf
      cases hf
      refine ⟨⟨u, rfl, rfl⟩, h.le, ?_⟩
      intro σ r m he hm
      cases he with
      | cast _ he => exact (h.agrees he hm).cast htype u

end Unary

/-- Operands that pass are both integers. -/
theorem build_bin_scalars {U : Option Ty} (hl : Typed nl T) (hr : Typed nr U) (hf : build_bin op nl nr = .ok n) :
    ∃ t t' u u', Operand nl T t t' ∧ Operand nr U u u' := by
  cases op with
  | shift left => exact hl.of_scalars hr hf
  | arith op => cases op <;> exact hl.of_scalars hr hf

theorem binOp_ty_congr {t t' u u' : Ty} (op : c11.BinOp) (ht : promote t' = promote t) (hu : promote u' = promote u) :
    op.ty t' u' = op.ty t u := by
  cases op with
  | arith op => exact usual_congr ht hu
  | shift left => exact ht

/-- Greater-than is less-than with its operands exchanged. -/
theorem rel_holds_eq (rel : c11.Rel) (a b : Int) :
    rel.holds a b =
      if (compare_of rel).2 then compare_ints (compare_of rel).1 b a else compare_ints (compare_of rel).1 a b := by
  cases rel <;> rfl

theorem build_cmp_scalars {U} {rel : c11.Rel} (hl : Typed nl T) (hr : Typed nr U) (hf : build_cmp rel nl nr = .ok n) :
    ∃ t t' u u', Operand nl T t t' ∧ Operand nr U u u' := by
  unfold build_cmp at hf
  split at hf
  · obtain ⟨u, u', t, t', hu, ht⟩ := hr.of_scalars hl hf
    exact ⟨t, t', u, u', ht, hu⟩
  · exact hl.of_scalars hr hf

theorem usual_comm (t u : Ty) : usual t u = usual u t := by
  obtain ⟨rank, unsigned⟩ := t
  obtain ⟨rank', unsigned'⟩ := u
  cases rank <;> cases unsigned <;> cases rank' <;> cases unsigned' <;> rfl

section Binary

variable (hl : Built F V ctx ctx₁ nl l) (hr : Built F V ctx₁ ctx' nr r)
include hl hr

/-- A binary operator computes what the language says in the common type. -/
theorem Built.bin (hf : build_bin op nl nr = .ok n) : Built F V ctx ctx' n (.bin op l r) := by
  obtain ⟨t, t', u, u', ⟨ht, htype, hpt⟩, hu, hutype, hpu⟩ := build_bin_scalars hl.typed hr.typed hf
  rw [build_bin_int htype hutype, binOp_ty_congr op hpt hpu] at hf
  cases hf
  refine ⟨typed_of (by rw [Expr.typeOf, ht, hu]; rfl) rfl rfl, hl.le.trans hr.le, ?_⟩
  intro σ res m he hm
  cases he with
  | @bin _ _ _ _ _ v _ a b ht' hu' hel her hapart hv =>
    cases ht.symm.trans ht'
    cases hu.symm.trans hu'
    obtain ⟨b', a', her', hel', hb', ha', hstore⟩ := hel.comm her hapart
    rw [← hb', ← ha'] at hv
    have hrun := (hr.agrees her' hm).mono hl.le le_rfl
    have hlun {m₁ : x64.Mem} (hm₁ : HoldsStore F V b'.store m₁) :
        Evaluates F V ctx.ntemp ctx'.ntemp nl m₁ a'.val b.store := by
      rw [← hstore]
      exact (hl.agrees hel' hm₁).mono le_rfl hr.le
    obtain ⟨m₁, -, hm₁, -, hbholds⟩ := hrun.int hutype
    obtain ⟨-, -, -, -, haholds⟩ := (hlun hm₁).int htype
    have hapromoted : (promote t).Holds a'.val := hpt ▸ c11.holds_promote haholds
    cases op with
    | arith op =>
      refine (hrun.node_cast hutype (usual t' u')).binop (fun hm₁ _ => (hlun hm₁).node_cast htype _)
        (type_node_cast _ _) (type_node_cast _ _) ?_ (c11.holds_arith (c11.holds_convert _ _) hv)
      rw [usual_congr hpt hpu]
      exact arith_value hv
    | shift left =>
      refine (hrun.node_cast hutype .int).binop (fun hm₁ _ => (hlun hm₁).node_cast htype _)
        (type_node_cast _ _) (type_node_cast _ _) ?_ (c11.holds_shift hapromoted hv)
      change binop_value _ (of_ty (promote t)) (BitVec.ofInt 64 (convert (promote t) a'.val)) _ = _
      rw [c11.convert_of_holds hapromoted]
      exact shift_value (wide_promote t) hapromoted hv

/-- A comparison, with its operands in either order. -/
theorem Built.cmp {rel} (hf : build_cmp rel nl nr = .ok n) : Built F V ctx ctx' n (.cmp rel l r) := by
  obtain ⟨t, t', u, u', ⟨ht, htype, hpt⟩, hu, hutype, hpu⟩ := build_cmp_scalars hl.typed hr.typed hf
  unfold build_cmp at hf
  rw [compare_int htype hutype, compare_int hutype htype, usual_comm u' t', usual_congr hpt hpu] at hf
  have hwide := wide_usual t u
  split at hf
  · -- `>` and `>=` have their sides changed, so the left one is evaluated first
    next hswap =>
    cases hf
    refine ⟨⟨.int, rfl, rfl⟩, hl.le.trans hr.le, ?_⟩
    intro σ res m he hm
    cases he with
    | cmp ht' hu' hel her hapart =>
      cases ht.symm.trans ht'
      cases hu.symm.trans hu'
      rw [rel_holds_eq, if_pos hswap]
      refine (((hl.agrees hel hm).mono le_rfl hr.le).node_cast htype (usual t u)).compare (fun hm₁ => ?_)
        hwide (type_node_cast _ _) (type_node_cast _ _)
      exact ((hr.agrees her hm₁).mono hl.le le_rfl).node_cast hutype (usual t u)
  · next hsame =>
    cases hf
    refine ⟨⟨.int, rfl, rfl⟩, hl.le.trans hr.le, ?_⟩
    intro σ res m he hm
    cases he with
    | @cmp _ _ _ _ _ _ a b ht' hu' hel her hapart =>
      cases ht.symm.trans ht'
      cases hu.symm.trans hu'
      obtain ⟨b', a', her', hel', hb', ha', hstore⟩ := hel.comm her hapart
      change Evaluates F V _ _ _ m (c11.ofBool _) b.store
      rw [rel_holds_eq, if_neg hsame, ← hb', ← ha', ← hstore]
      refine (((hr.agrees her' hm).mono hl.le le_rfl).node_cast hutype (usual t u)).compare (fun hm₁ => ?_)
        hwide (type_node_cast _ _) (type_node_cast _ _)
      exact ((hl.agrees hel' hm₁).mono le_rfl hr.le).node_cast htype (usual t u)

/-- The right operand counts only if the left one is not zero. -/
theorem Built.and (hf : logand nl nr = .ok n) : Built F V ctx ctx' n (.and l r) := by
  obtain ⟨t, t', u, u', ⟨ht, htype, -⟩, hu, hutype, -⟩ := hl.typed.of_scalars hr.typed hf
  unfold logand at hf
  rw [want_scalar_int htype, want_scalar_int hutype] at hf
  cases hf
  refine ⟨⟨.int, rfl, rfl⟩, hl.le.trans hr.le, ?_⟩
  intro σ res m he hm
  cases he with
  | and_false _ _ hel hzero =>
    exact ((hl.agrees hel hm).mono le_rfl hr.le).stops htype false (by simp [hzero])
  | and_true _ _ hel hne her =>
    exact ((hl.agrees hel hm).mono le_rfl hr.le).goes_on htype false (by simp [hne])
      (fun hm₁ => (hr.agrees her hm₁).mono hl.le le_rfl) hutype

/-- The right operand counts only if the left one is zero. -/
theorem Built.or (hf : logor nl nr = .ok n) : Built F V ctx ctx' n (.or l r) := by
  obtain ⟨t, t', u, u', ⟨ht, htype, -⟩, hu, hutype, -⟩ := hl.typed.of_scalars hr.typed hf
  unfold logor at hf
  rw [want_scalar_int htype, want_scalar_int hutype] at hf
  cases hf
  refine ⟨⟨.int, rfl, rfl⟩, hl.le.trans hr.le, ?_⟩
  intro σ res m he hm
  cases he with
  | or_true _ _ hel hne =>
    exact ((hl.agrees hel hm).mono le_rfl hr.le).stops htype true (by simp [hne])
  | or_false _ _ hel hzero her =>
    exact ((hl.agrees hel hm).mono le_rfl hr.le).goes_on htype true (by simp [hzero])
      (fun hm₁ => (hr.agrees her hm₁).mono hl.le le_rfl) hutype

theorem Built.comma : Built F V ctx ctx' (comma nl nr) (.comma l r) := by
  refine ⟨?_, hl.le.trans hr.le, ?_⟩
  · have htyped := hr.typed
    rw [Expr.typeOf]
    cases hT : r.typeOf V.decl <;> rw [hT] at htyped <;> exact htyped
  · intro σ res m he hm
    cases he with
    | comma hel her =>
      exact ((hl.agrees hel hm).mono le_rfl hr.le).comma
        fun hm₁ => (hr.agrees her hm₁).mono hl.le le_rfl

end Binary

section Ternary

variable (hc : Built F V ctx ctx₁ nc c) (hl : Built F V ctx₁ ctx₂ nl l) (hr : Built F V ctx₂ ctx' nr r)
include hc hl hr

theorem Built.arm  {σ res m} {p : Prop} [Decidable p] (he : Evals V.decl (if p then l else r) σ res) (hm : HoldsStore F V σ m) :
    Evaluates F V ctx.ntemp ctx'.ntemp (if p then nl else nr) m res.val res.store := by
  split at he
  · next hp =>
    rw [if_pos hp]
    exact (hl.agrees he hm).mono hc.le hr.le
  · next hp =>
    rw [if_neg hp]
    exact (hr.agrees he hm).mono (hc.le.trans hl.le) le_rfl

/-- An arm that is void makes the conditional void. -/
theorem Built.cond_void  {w : Ty} (hctype : nc.type = of_ty w) (hvoid : l.typeOf V.decl = none ∨ r.typeOf V.decl = none)
    (hf : conditional nc nl nr = .ok n) : Built F V ctx ctx' n (.cond c l r) := by
  have hnvoid : nl.type = .void ∨ nr.type = .void := hvoid.imp hl.typed.void hr.typed.void
  rw [conditional_void hctype hl.typed.decay hr.typed.decay hnvoid] at hf
  cases hf
  have hnone : (Expr.cond c l r).typeOf V.decl = none := by
    rw [Expr.typeOf]
    obtain h | h := hvoid <;> rw [h]
    · rfl
    · cases l.typeOf V.decl <;> rfl
  refine ⟨by rw [hnone]; rfl, (hc.le.trans hl.le).trans hr.le, ?_⟩
  intro σ res m he hm
  cases he with
  | cond _ htt hte _ _ => simp [htt, hte] at hvoid
  | @cond_void _ _ _ _ _ a b _ htt hte hec harm =>
    obtain ⟨m₁, heval₁, hm₁, hkept₁, hholds₁⟩ := (hc.agrees hec hm).int hctype
    obtain ⟨v, m₂, heval₂, hm₂, hkept₂, -⟩ := hc.arm hl hr harm hm₁
    refine ⟨v, m₂, ?_, hm₂, (hkept₁.mono le_rfl (hl.le.trans hr.le)).trans hkept₂,
      fun t ht => absurd ht.symm (of_ty_ne_void t)⟩
    rwa [eval_cond, heval₁, bind_some, if_congr (not_congr (ofInt64_eq_zero hholds₁)) rfl rfl]

/-- A conditional evaluates the branch that its condition selects. -/
theorem Built.cond  (hf : conditional nc nl nr = .ok n) : Built F V ctx ctx' n (.cond c l r) := by
  obtain ⟨_, hscalar, -⟩ := except_bind_eq_ok_iff.mp hf
  obtain ⟨-, w, w', hw, hctype, -⟩ := hc.typed.of_scalar hscalar
  cases hT : l.typeOf V.decl with
  | none => exact hc.cond_void hl hr hctype (.inl hT) hf
  | some t =>
    cases hU : r.typeOf V.decl with
    | none => exact hc.cond_void hl hr hctype (.inr hU) hf
    | some u =>
      obtain ⟨t', htype, hpt⟩ := hl.typed.int hT
      obtain ⟨u', hutype, hpu⟩ := hr.typed.int hU
      rw [conditional_int hctype htype hutype, usual_congr hpt hpu] at hf
      cases hf
      refine ⟨typed_of (by rw [Expr.typeOf, hT, hU]; rfl) rfl rfl, (hc.le.trans hl.le).trans hr.le, ?_⟩
      intro σ res m he hm
      cases he with
      | cond_void _ htt _ _ _ => cases hT.symm.trans htt
      | @cond _ _ _ _ _ _ _ a b _ htt hte hec harm =>
        cases hT.symm.trans htt
        cases hU.symm.trans hte
        refine ((hc.agrees hec hm).mono le_rfl (hl.le.trans hr.le)).cond hctype (fun hm₁ => ?_)
          (type_node_cast _ _) (type_node_cast _ _)
        have hrun := hc.arm hl hr harm hm₁
        by_cases hne : a.val ≠ 0
        · rw [if_pos hne] at hrun ⊢
          exact hrun.node_cast htype _
        · rw [if_neg hne] at hrun ⊢
          exact hrun.node_cast hutype _

end Ternary

theorem Typed.of_coerce {n v} {u : Ty} {role} (h : Typed n T) (hok : coerce n (of_ty u) role = .ok v) :
    v = node_cast n (of_ty u) ∧ ∃ t t', Operand n T t t' := by
  cases T with
  | none =>
    have hno : assignable (of_ty u) n = false := by
      have hvoid : n.type = .void := h
      obtain ⟨rank, unsigned⟩ := u
      cases rank <;> simp [assignable, hvoid, of_ty, cc_type.cc_is_integer]
    unfold coerce at hok
    rw [decay_void h] at hok
    simp [hno] at hok
  | some t =>
    obtain ⟨t', ht, hp⟩ := h
    rw [coerce_int ht] at hok
    cases hok
    exact ⟨rfl, t, t', rfl, ht, hp⟩

omit [DecidableEq X] in
theorem assign_var_ok (hf : assign (var_node V x) nr = .ok n) :
    ∃ v, coerce nr (of_ty (V.decl x)) .assignment = .ok v ∧ n = .assign (of_ty (V.decl x)) (var_node V x) v := by
  unfold assign at hf
  split at hf
  · cases hf
  split at hf
  · next heq => exact absurd heq ((scalar_of_ty _).2 _ _)
  · obtain ⟨v, hv, hok⟩ := except_bind_eq_ok_iff.mp hf
    have hscalar : (var_node V x).type.is_aggregate = false := (scalar_of_ty (V.decl x)).1
    rw [if_neg (by rw [hscalar]; exact Bool.false_ne_true)] at hok
    cases hok
    exact ⟨v, hv, rfl⟩

/-- An assignment converts to the variable's type. -/
theorem Built.assign (hplaced : Placed F V) (hr : Built F V ctx ctx' nr r) (hf : assign (var_node V x) nr = .ok n) :
    Built F V ctx ctx' n (.assign x r) := by
  obtain ⟨v, hv, rfl⟩ := assign_var_ok hf
  obtain ⟨rfl, t, t', ht, htype, -⟩ := hr.typed.of_coerce hv
  refine ⟨⟨V.decl x, rfl, rfl⟩, hr.le, ?_⟩
  intro σ res m he hm
  cases he with
  | assign _ he => exact ((hr.agrees he hm).node_cast htype _).assign hplaced (type_node_cast _ _)

theorem compound_value_ok {t : Ty} (hr : Typed nr T)
    (hok : compound_value (kind_of op) (target_node (of_ty t) ctx) nr = .ok n) :
    ∃ u u', Operand nr T u u' := by
  have htarget : Typed (target_node (of_ty t) ctx) (some t) := ⟨t, rfl, rfl⟩
  cases op with
  | shift left =>
    obtain ⟨_, hscalar⟩ : ∃ n', want_scalar nr .shift_count = .ok n' := by
      cases left <;> exact (except_bind_eq_ok_iff.mp hok).imp fun _ h => h.1
    exact (hr.of_scalar hscalar).2
  | arith op =>
    obtain ⟨-, -, u, u', -, hu⟩ : ∃ s s' u u', Operand (target_node (of_ty t) ctx) (some t) s s' ∧ Operand nr T u u' := by
      cases op <;> exact htarget.of_scalars hr hok
    exact ⟨u, u', hu⟩

/-- The new value of a compound assignment; the temporary outlives the
    evaluation of the right side. -/
theorem Built.compound_value (hplaced : Placed F V) (hr : Built F V ctx ctx₁ nr r) {σ res m} {u u' : Ty} {v : Int}
    {val} (hk : ctx₁.ntemp < CC_TEMP_SLOTS) (hutype : nr.type = of_ty u') (hpu : promote u' = promote u)
    (hval : cc.compound_value (kind_of op) (target_node (of_ty (V.decl x)) ctx₁) nr = .ok val)
    (he : Evals V.decl r σ res) (hv : op.val (V.decl x) u (res.store x) res.val = some v) (hm : HoldsStore F V σ m)
    (htemp : x64.read m (temp_addr F ctx₁.ntemp) .w64 = var_addr F V x) :
    Evaluates F V ctx.ntemp ctx₁.ntemp (node_cast val (of_ty (V.decl x))) m (convert (V.decl x) v) res.store := by
  have hrun := hr.agrees he hm
  have htarget {m₁ : x64.Mem} (hm₁ : HoldsStore F V res.store m₁) (hkept : Kept F V ctx.ntemp ctx₁.ntemp m m₁) :
      Evaluates F V ctx.ntemp ctx₁.ntemp (target_node (of_ty (V.decl x)) ctx₁) m₁ (res.store x) res.store :=
    evaluates_target hplaced hk hm₁ ((hkept.read_temp hplaced hk le_rfl).trans htemp)
  obtain ⟨m₁, -, hm₁, -, -⟩ := hrun.int hutype
  rw [compound_value_int hutype] at hval
  cases op with
  | arith op =>
    cases hval
    rw [usual_congr rfl hpu]
    refine Evaluates.node_cast ?_ rfl (V.decl x)
    exact (hrun.node_cast hutype _).binop (fun hm₁ hkept => (htarget hm₁ hkept).node_cast rfl _)
      (type_node_cast _ _) (type_node_cast _ _) (arith_value hv) (c11.holds_arith (c11.holds_convert _ _) hv)
  | shift left =>
    have hsame : val.type = of_ty (V.decl x) := by
      cases hval
      rfl
    rw [node_cast_same hsame]
    cases hval
    exact (hrun.node_cast hutype .int).binop (fun hm₁ hkept => htarget hm₁ hkept) (type_node_cast _ _) rfl
      (compound_shift_value (hm₁ x).1 hv) (c11.holds_convert _ _)

/-- A compound assignment reads and writes the variable through one address. -/
theorem Built.assignOp (hplaced : Placed F V) (hr : Built F V ctx ctx₁ nr r)
    (hf : compound_assign ctx₁ (var_node V x) nr (kind_of op) = .ok (n, ctx')) :
    Built F V ctx ctx' n (.assignOp op x r) := by
  have htype : (var_node V x).type = of_ty (V.decl x) := rfl
  obtain ⟨-, hk, hnext, val, store, hval, hstore, rfl⟩ := compound_assign_ok htype (scalar_of_ty _) hf
  obtain ⟨u, u', hu, hutype, hpu⟩ := compound_value_ok hr.typed hval
  obtain ⟨w, hw⟩ : ∃ w, val.type = of_ty w := by
    have hint := hval
    rw [compound_value_int hutype] at hint
    cases op <;> cases hint <;> exact ⟨_, rfl⟩
  rw [coerce_int hw] at hstore
  cases hstore
  refine ⟨⟨V.decl x, rfl, rfl⟩, by have := hr.le; omega, ?_⟩
  intro σ res m he hm
  cases he with
  | @assignOp _ _ _ _ v _ res hu' he _ hv =>
    cases hu.symm.trans hu'
    rw [hnext]
    have hnew {m₁ : x64.Mem} (hm₁ : HoldsStore F V σ m₁)
        (htemp : x64.read m₁ (temp_addr F ctx₁.ntemp) .w64 = var_addr F V x) :
        Evaluates F V ctx.ntemp ctx₁.ntemp (node_cast val (of_ty (V.decl x))) m₁ (convert (V.decl x) v) res.store :=
      hr.compound_value hplaced hk hutype hpu hval he hv hm₁ htemp
    exact Evaluates.compound hplaced hk hr.le hm hnew (type_node_cast _ _)

/-- A postfix step is the stepped value with the step undone. -/
theorem Built.post {plus : Bool}
    (h : Built F V ctx ctx' n (.bin (c11.stepOp !plus) (.assignOp (c11.stepOp plus) x (.const .int 1)) (.const .int 1))) :
    Built F V ctx ctx' n (.post plus x) := by
  obtain ⟨t', htype, hpromote⟩ := h.typed
  refine ⟨⟨t', htype, ?_⟩, h.le, ?_⟩
  · rw [hpromote]
    exact (congrArg promote (usual_int (V.decl x))).trans (promote_promote _)
  · intro σ r m he hm
    obtain ⟨r', he', hval, hstore⟩ := he.lowered (hm x).1
    rw [← hval, ← hstore]
    exact h.agrees he' hm

/-- The tree of an expression that the parser takes evaluates as C defines. -/
theorem build_agrees (hplaced : Placed F V) (e : Expr X) (h : build V e ctx = .ok (n, ctx')) :
    Built F V ctx ctx' n e := by
  induction e generalizing ctx ctx' n with
  | const t v =>
    cases h
    exact built_const ctx t v
  | var x =>
    cases h
    exact built_var hplaced ctx x
  | post plus x =>
    rw [build_post] at h
    obtain ⟨nl, ctx₁, nr, hl, hr, hf⟩ := build_binary h
    have hstep := (built_const ctx .int 1).assignOp hplaced hl
    cases hr
    exact (hstep.bin (built_const _ .int 1) hf).post
  | pos e ih =>
    obtain ⟨n₁, he, hf⟩ := build_unary h
    exact (ih he).pos hf
  | neg e ih =>
    obtain ⟨n₁, he, hf⟩ := build_unary h
    exact (ih he).neg hf
  | bitnot e ih =>
    obtain ⟨n₁, he, hf⟩ := build_unary h
    exact (ih he).bitnot hf
  | not e ih =>
    obtain ⟨n₁, he, hf⟩ := build_unary h
    exact (ih he).not hf
  | cast T e ih =>
    obtain ⟨n₁, he, hf⟩ := build_unary h
    exact (ih he).cast hf
  | bin op l r ihl ihr =>
    obtain ⟨nl, ctx₁, nr, hl, hr, hf⟩ := build_binary h
    exact (ihl hl).bin (ihr hr) hf
  | cmp rel l r ihl ihr =>
    obtain ⟨nl, ctx₁, nr, hl, hr, hf⟩ := build_binary h
    exact (ihl hl).cmp (ihr hr) hf
  | and l r ihl ihr =>
    obtain ⟨nl, ctx₁, nr, hl, hr, hf⟩ := build_binary h
    exact (ihl hl).and (ihr hr) hf
  | or l r ihl ihr =>
    obtain ⟨nl, ctx₁, nr, hl, hr, hf⟩ := build_binary h
    exact (ihl hl).or (ihr hr) hf
  | cond c l r ihc ihl ihr =>
    obtain ⟨⟨nc, ctx₁⟩, hc, hrest⟩ := except_bind_eq_ok_iff.mp h
    obtain ⟨nl, ctx₂, nr, hl, hr, hf⟩ := build_binary hrest
    exact (ihc hc).cond (ihl hl) (ihr hr) hf
  | comma l r ihl ihr =>
    obtain ⟨⟨nl, ctx₁⟩, hl, hrest⟩ := except_bind_eq_ok_iff.mp h
    obtain ⟨⟨nr, ctx₂⟩, hr, hok⟩ := except_bind_eq_ok_iff.mp hrest
    cases hok
    exact (ihl hl).comma (ihr hr)
  | assign x e ih =>
    obtain ⟨nr, hr, hf⟩ := build_unary h
    exact (ih hr).assign hplaced hf
  | assignOp op x e ih =>
    obtain ⟨⟨nr, ctx₁⟩, hr, hf⟩ := except_bind_eq_ok_iff.mp h
    exact (ih hr).assignOp hplaced hf

end Main

end fable.cc
