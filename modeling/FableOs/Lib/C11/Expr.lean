import FableOs.Lib.C11.Arith

namespace c11

/-! Expressions of C11 over integer variables. Operands of an operator without a
sequence point are unsequenced: an access of one that conflicts with one of the
other is undefined (6.5p2). -/

open List Option

/-- Expressions over the variables `X`. A cast to no type is a cast to void; `post`
    is `x++` or `x--`. What is written `++x` is `x += 1` (6.5.3.1p2). -/
inductive Expr (X : Type) where
  | const (t : Ty) (v : Int)
  | var (x : X)
  | post (plus : Bool) (x : X)
  | pos (e : Expr X)
  | neg (e : Expr X)
  | bitnot (e : Expr X)
  | not (e : Expr X)
  | cast (t : Option Ty) (e : Expr X)
  | bin (op : BinOp) (l r : Expr X)
  | cmp (rel : Rel) (l r : Expr X)
  | and (l r : Expr X)
  | or (l r : Expr X)
  | cond (c t e : Expr X)
  | comma (l r : Expr X)
  | assign (x : X) (e : Expr X)
  | assignOp (op : BinOp) (x : X) (e : Expr X)

/-- A value, the store after the evaluation, and the variables it read and wrote. -/
structure Result (X : Type) where
  val : Int
  store : X → Int
  reads : List X
  writes : List X

/-- The operation that `++` and `--` stand for; each undoes the other one. -/
def stepOp (plus : Bool) : BinOp := .arith (if plus then .add else .sub)

/-- A step back, from a value that is still one of the type or was reduced to it. -/
theorem stepOp_back {t : Ty} {plus : Bool} {a v : Int} (ha : t.Holds a) (hv : (stepOp plus).val t .int a 1 = some v)
    (hfit : promote t = t ∨ t.Holds v) : (stepOp !plus).val t .int (convert t v) 1 = some a := by
  have hwide : usual t .int = promote t := by
    obtain ⟨rank, unsigned⟩ := t
    cases rank <;> cases unsigned <;> rfl
  have hone : convert (promote t) 1 = 1 := by
    obtain ⟨rank, unsigned⟩ := t
    cases rank <;> cases unsigned <;> rfl
  have hapromoted := holds_promote ha
  simp only [stepOp, BinOp.val, hwide, hone, convert_of_holds hapromoted] at hv ⊢
  have hvpromoted : (promote t).Holds v := holds_arith hapromoted hv
  have hsame : convert t v = v := by
    obtain hwide | hfit := hfit
    · exact convert_of_holds (hwide ▸ hvpromoted)
    · exact convert_of_holds hfit
  rw [hsame, convert_of_holds hvpromoted]
  cases plus with
  | true => exact settle_undo hapromoted hv
  | false =>
    have hback := @settle_undo _ a (-1) v hapromoted (by rwa [← Int.sub_eq_add_neg])
    rwa [Int.sub_neg] at hback

section Semantics

variable {X : Type} (decl : X → Ty)

/-- The type of an expression; none is void. -/
def Expr.typeOf : Expr X → Option Ty
  | const t _ => some t
  | var x | post _ x | assign x _ | assignOp _ x _ => some (decl x)
  | pos e | neg e | bitnot e => (typeOf e).map promote
  | not _ | cmp _ _ _ | and _ _ | or _ _ => some .int
  | cast t _ => t
  | bin op l r => do return op.ty (← typeOf l) (← typeOf r)
  | cond _ t e => do return usual (← typeOf t) (← typeOf e)
  | comma _ r => typeOf r

variable [DecidableEq X]

/-- Two unsequenced evaluations, one of which writes what the other accesses. -/
def Conflict (a b : Result X) : Prop :=
  (∃ x ∈ a.writes, x ∈ b.reads ∨ x ∈ b.writes) ∨ ∃ x ∈ b.writes, x ∈ a.reads

instance (a b : Result X) : Decidable (Conflict a b) :=
  inferInstanceAs (Decidable (_ ∨ _))

/-- One evaluation behind another. -/
def Result.behind (b a : Result X) (v : Int) : Result X := ⟨v, b.store, a.reads ++ b.reads, a.writes ++ b.writes⟩

/-- An assignment behind an evaluation. -/
def Result.assign (r : Result X) (x : X) (v : Int) : Result X :=
  ⟨v, Function.update r.store x v, r.reads, r.writes ++ [x]⟩

/-- The evaluation of an expression, from the left to the right. -/
def Expr.eval : Expr X → (X → Int) → Option (Result X)
  | const t v, σ => if t.Holds v then some ⟨v, σ, [], []⟩ else none
  | var x, σ => some ⟨σ x, σ, [x], []⟩
  | post plus x, σ => do
    let v ← (stepOp plus).val (decl x) .int (σ x) 1
    return ⟨σ x, Function.update σ x (convert (decl x) v), [x], [x]⟩
  | pos e, σ => do
    let _ ← typeOf decl e
    eval e σ
  | neg e, σ => do
    let t ← typeOf decl e
    let r ← eval e σ
    let v ← settle (promote t) (-r.val)
    return { r with val := v }
  | bitnot e, σ => do
    let t ← typeOf decl e
    let r ← eval e σ
    return { r with val := (promote t).ofBits (~~~(BitVec.ofInt _ r.val)) }
  | not e, σ => do
    let _ ← typeOf decl e
    let r ← eval e σ
    return { r with val := ofBool (r.val = 0) }
  | cast none e, σ => do
    let r ← eval e σ
    return { r with val := 0 }
  | cast (some t) e, σ => do
    let _ ← typeOf decl e
    let r ← eval e σ
    return { r with val := convert t r.val }
  | bin op l r, σ => do
    let t ← typeOf decl l
    let u ← typeOf decl r
    let a ← eval l σ
    let b ← eval r a.store
    if Conflict a b then none
    else
      let v ← op.val t u a.val b.val
      return b.behind a v
  | cmp rel l r, σ => do
    let t ← typeOf decl l
    let u ← typeOf decl r
    let a ← eval l σ
    let b ← eval r a.store
    if Conflict a b then none
    else return b.behind a (ofBool (rel.holds (convert (usual t u) a.val) (convert (usual t u) b.val)))
  | and l r, σ => do
    let _ ← typeOf decl l
    let _ ← typeOf decl r
    let a ← eval l σ
    if a.val = 0 then return { a with val := 0 }
    else
      let b ← eval r a.store
      return b.behind a (ofBool (b.val ≠ 0))
  | or l r, σ => do
    let _ ← typeOf decl l
    let _ ← typeOf decl r
    let a ← eval l σ
    if a.val ≠ 0 then return { a with val := 1 }
    else
      let b ← eval r a.store
      return b.behind a (ofBool (b.val ≠ 0))
  | cond c t e, σ => do
    let _ ← typeOf decl c
    let a ← eval c σ
    let b ← (if a.val ≠ 0 then eval t a.store else eval e a.store)
    match typeOf decl t, typeOf decl e with
    | some tt, some te => return b.behind a (convert (usual tt te) b.val)
    | none, none => return b.behind a 0
    | _, _ => none
  | comma l r, σ => do
    let a ← eval l σ
    let b ← eval r a.store
    return b.behind a b.val
  | assign x e, σ => do
    let _ ← typeOf decl e
    let r ← eval e σ
    return r.assign x (convert (decl x) r.val)
  | assignOp op x e, σ => do
    let u ← typeOf decl e
    let r ← eval e σ
    if x ∈ r.writes then none
    else
      let v ← op.val (decl x) u (r.store x) r.val
      return { r with reads := r.reads ++ [x] }.assign x (convert (decl x) v)

/-- No `x++` or `x--` that is evaluated takes a variable narrower than int out of
    the range of its type. -/
def Expr.StepsFit : Expr X → (X → Int) → Prop
  | const _ _, _ | var _, _ => True
  | post plus x, σ =>
    promote (decl x) = decl x ∨ ∀ v, (stepOp plus).val (decl x) .int (σ x) 1 = some v → (decl x).Holds v
  | pos e, σ | neg e, σ | bitnot e, σ | not e, σ | cast _ e, σ | assign _ e, σ | assignOp _ _ e, σ => StepsFit e σ
  | bin _ l r, σ | cmp _ l r, σ | comma l r, σ => StepsFit l σ ∧ ∀ a, l.eval decl σ = some a → StepsFit r a.store
  | and l r, σ => StepsFit l σ ∧ ∀ a, l.eval decl σ = some a → a.val ≠ 0 → StepsFit r a.store
  | or l r, σ => StepsFit l σ ∧ ∀ a, l.eval decl σ = some a → a.val = 0 → StepsFit r a.store
  | cond c t e, σ =>
    StepsFit c σ ∧ ∀ a, c.eval decl σ = some a → if a.val ≠ 0 then StepsFit t a.store else StepsFit e a.store

/-- The evaluations of an expression whose steps fit, by the rule that made them. -/
inductive Evals : Expr X → (X → Int) → Result X → Prop where
  | const {t : Ty} {v : Int} {σ : X → Int} (hv : t.Holds v) : Evals (.const t v) σ ⟨v, σ, [], []⟩
  | var (x : X) (σ : X → Int) : Evals (.var x) σ ⟨σ x, σ, [x], []⟩
  | post {plus : Bool} {x : X} {v : Int} {σ : X → Int} (hv : (stepOp plus).val (decl x) .int (σ x) 1 = some v)
      (hfit : promote (decl x) = decl x ∨ (decl x).Holds v) :
      Evals (.post plus x) σ ⟨σ x, Function.update σ x (convert (decl x) v), [x], [x]⟩
  | pos {e : Expr X} {t : Ty} {σ : X → Int} {r : Result X} (ht : e.typeOf decl = some t) (he : Evals e σ r) :
      Evals (.pos e) σ r
  | neg {e : Expr X} {t : Ty} {v : Int} {σ : X → Int} {r : Result X} (ht : e.typeOf decl = some t) (he : Evals e σ r)
      (hv : settle (promote t) (-r.val) = some v) : Evals (.neg e) σ { r with val := v }
  | bitnot {e : Expr X} {t : Ty} {σ : X → Int} {r : Result X} (ht : e.typeOf decl = some t) (he : Evals e σ r) :
      Evals (.bitnot e) σ { r with val := (promote t).ofBits (~~~(BitVec.ofInt _ r.val)) }
  | not {e : Expr X} {t : Ty} {σ : X → Int} {r : Result X} (ht : e.typeOf decl = some t) (he : Evals e σ r) :
      Evals (.not e) σ { r with val := ofBool (r.val = 0) }
  | void {e : Expr X} {σ : X → Int} {r : Result X} (he : Evals e σ r) : Evals (.cast none e) σ { r with val := 0 }
  | cast {e : Expr X} {t u : Ty} {σ : X → Int} {r : Result X} (ht : e.typeOf decl = some t) (he : Evals e σ r) :
      Evals (.cast (some u) e) σ { r with val := convert u r.val }
  | bin {op : BinOp} {l r : Expr X} {t u : Ty} {v : Int} {σ : X → Int} {a b : Result X}
      (ht : l.typeOf decl = some t) (hu : r.typeOf decl = some u) (hl : Evals l σ a) (hr : Evals r a.store b)
      (hapart : ¬ Conflict a b) (hv : op.val t u a.val b.val = some v) : Evals (.bin op l r) σ (b.behind a v)
  | cmp {rel : Rel} {l r : Expr X} {t u : Ty} {σ : X → Int} {a b : Result X}
      (ht : l.typeOf decl = some t) (hu : r.typeOf decl = some u) (hl : Evals l σ a) (hr : Evals r a.store b)
      (hapart : ¬ Conflict a b) :
      Evals (.cmp rel l r) σ
        (b.behind a (ofBool (rel.holds (convert (usual t u) a.val) (convert (usual t u) b.val))))
  | and_false {l r : Expr X} {t u : Ty} {σ : X → Int} {a : Result X}
      (ht : l.typeOf decl = some t) (hu : r.typeOf decl = some u) (hl : Evals l σ a) (hzero : a.val = 0) :
      Evals (.and l r) σ { a with val := 0 }
  | and_true {l r : Expr X} {t u : Ty} {σ : X → Int} {a b : Result X}
      (ht : l.typeOf decl = some t) (hu : r.typeOf decl = some u) (hl : Evals l σ a) (hne : a.val ≠ 0)
      (hr : Evals r a.store b) : Evals (.and l r) σ (b.behind a (ofBool (b.val ≠ 0)))
  | or_true {l r : Expr X} {t u : Ty} {σ : X → Int} {a : Result X}
      (ht : l.typeOf decl = some t) (hu : r.typeOf decl = some u) (hl : Evals l σ a) (hne : a.val ≠ 0) :
      Evals (.or l r) σ { a with val := 1 }
  | or_false {l r : Expr X} {t u : Ty} {σ : X → Int} {a b : Result X}
      (ht : l.typeOf decl = some t) (hu : r.typeOf decl = some u) (hl : Evals l σ a) (hzero : a.val = 0)
      (hr : Evals r a.store b) : Evals (.or l r) σ (b.behind a (ofBool (b.val ≠ 0)))
  | cond {c t e : Expr X} {tc tt te : Ty} {σ : X → Int} {a b : Result X} (htc : c.typeOf decl = some tc)
      (htt : t.typeOf decl = some tt) (hte : e.typeOf decl = some te) (hc : Evals c σ a)
      (harm : Evals (if a.val ≠ 0 then t else e) a.store b) :
      Evals (.cond c t e) σ (b.behind a (convert (usual tt te) b.val))
  | cond_void {c t e : Expr X} {tc : Ty} {σ : X → Int} {a b : Result X} (htc : c.typeOf decl = some tc)
      (htt : t.typeOf decl = none) (hte : e.typeOf decl = none) (hc : Evals c σ a)
      (harm : Evals (if a.val ≠ 0 then t else e) a.store b) : Evals (.cond c t e) σ (b.behind a 0)
  | comma {l r : Expr X} {σ : X → Int} {a b : Result X} (hl : Evals l σ a) (hr : Evals r a.store b) :
      Evals (.comma l r) σ (b.behind a b.val)
  | assign {x : X} {e : Expr X} {t : Ty} {σ : X → Int} {r : Result X} (ht : e.typeOf decl = some t)
      (he : Evals e σ r) : Evals (.assign x e) σ (r.assign x (convert (decl x) r.val))
  | assignOp {op : BinOp} {x : X} {e : Expr X} {t : Ty} {v : Int} {σ : X → Int} {r : Result X}
      (ht : e.typeOf decl = some t) (he : Evals e σ r) (hapart : x ∉ r.writes)
      (hv : op.val (decl x) t (r.store x) r.val = some v) :
      Evals (.assignOp op x e) σ ({ r with reads := r.reads ++ [x] }.assign x (convert (decl x) v))

variable {decl}

theorem Evals.of_eval {e σ r} (h : e.eval decl σ = some r) (hfit : e.StepsFit decl σ) : Evals decl e σ r := by
  -- each step of the function on the subterms is a premise of the rule
  induction e generalizing σ r with try simp only [Expr.eval, bind_eq_bind, bind_eq_some_iff] at h
  | const t v =>
    split at h
    · cases h
      exact .const ‹_›
    · cases h
  | var x =>
    cases h
    exact .var x σ
  | post plus x =>
    obtain ⟨v, hv, hsome⟩ := h
    cases hsome
    exact .post hv (hfit.imp_right fun hholds => hholds v hv)
  | pos e ih =>
    obtain ⟨t, ht, hr⟩ := h
    exact .pos ht (ih hr hfit)
  | neg e ih =>
    obtain ⟨t, ht, r, hr, v, hv, hsome⟩ := h
    cases hsome
    exact .neg ht (ih hr hfit) hv
  | bitnot e ih =>
    obtain ⟨t, ht, r, hr, hsome⟩ := h
    cases hsome
    exact .bitnot ht (ih hr hfit)
  | not e ih =>
    obtain ⟨t, ht, r, hr, hsome⟩ := h
    cases hsome
    exact .not ht (ih hr hfit)
  | cast t e ih =>
    cases t with
    | none =>
      simp only [Expr.eval, bind_eq_bind, bind_eq_some_iff] at h
      obtain ⟨r, hr, hsome⟩ := h
      cases hsome
      exact .void (ih hr hfit)
    | some u =>
      simp only [Expr.eval, bind_eq_bind, bind_eq_some_iff] at h
      obtain ⟨t, ht, r, hr, hsome⟩ := h
      cases hsome
      exact .cast ht (ih hr hfit)
  | bin op l r ihl ihr =>
    obtain ⟨t, ht, u, hu, a, ha, b, hb, hrest⟩ := h
    split at hrest
    · cases hrest
    · next hapart =>
      obtain ⟨v, hv, hsome⟩ := bind_eq_some_iff.mp hrest
      cases hsome
      exact .bin ht hu (ihl ha hfit.1) (ihr hb (hfit.2 a ha)) hapart hv
  | cmp rel l r ihl ihr =>
    obtain ⟨t, ht, u, hu, a, ha, b, hb, hrest⟩ := h
    split at hrest
    · cases hrest
    · next hapart =>
      cases hrest
      exact .cmp ht hu (ihl ha hfit.1) (ihr hb (hfit.2 a ha)) hapart
  | and l r ihl ihr =>
    obtain ⟨t, ht, u, hu, a, ha, hrest⟩ := h
    split at hrest
    · next hzero =>
      cases hrest
      exact .and_false ht hu (ihl ha hfit.1) hzero
    · next hne =>
      obtain ⟨b, hb, hsome⟩ := bind_eq_some_iff.mp hrest
      cases hsome
      exact .and_true ht hu (ihl ha hfit.1) hne (ihr hb (hfit.2 a ha hne))
  | or l r ihl ihr =>
    obtain ⟨t, ht, u, hu, a, ha, hrest⟩ := h
    split at hrest
    · next hne =>
      cases hrest
      exact .or_true ht hu (ihl ha hfit.1) hne
    · next hzero =>
      obtain ⟨b, hb, hsome⟩ := bind_eq_some_iff.mp hrest
      cases hsome
      have hzero := not_not.mp hzero
      exact .or_false ht hu (ihl ha hfit.1) hzero (ihr hb (hfit.2 a ha hzero))
  | cond c t e ihc iht ihe =>
    obtain ⟨tc, htc, a, ha, b, hb, hrest⟩ := h
    have harm : Evals decl (if a.val ≠ 0 then t else e) a.store b := by
      have hfits := hfit.2 a ha
      split at hb
      · next hne =>
        rw [if_pos hne] at hfits ⊢
        exact iht hb hfits
      · next hzero =>
        rw [if_neg hzero] at hfits ⊢
        exact ihe hb hfits
    split at hrest
    · cases hrest
      exact .cond htc ‹_› ‹_› (ihc ha hfit.1) harm
    · cases hrest
      exact .cond_void htc ‹_› ‹_› (ihc ha hfit.1) harm
    · cases hrest
  | comma l r ihl ihr =>
    obtain ⟨a, ha, b, hb, hsome⟩ := h
    cases hsome
    exact .comma (ihl ha hfit.1) (ihr hb (hfit.2 a ha))
  | assign x e ih =>
    obtain ⟨t, ht, r, hr, hsome⟩ := h
    cases hsome
    exact .assign ht (ih hr hfit)
  | assignOp op x e ih =>
    obtain ⟨t, ht, r, hr, hrest⟩ := h
    split at hrest
    · cases hrest
    · next hapart =>
      obtain ⟨v, hv, hsome⟩ := bind_eq_some_iff.mp hrest
      cases hsome
      exact .assignOp ht (ih hr hfit) hapart hv

/-- An evaluation changes what it writes only. -/
theorem Evals.frame {e σ r} (h : Evals decl e σ r) : ∀ x, x ∉ r.writes → r.store x = σ x := by
  induction h with
  | const | var => exact fun _ _ => rfl
  | post => exact fun y hy => Function.update_of_ne (ne_of_not_mem_cons hy) _ _
  | pos _ _ ih | neg _ _ _ ih | bitnot _ _ ih | not _ _ ih | void _ ih | cast _ _ ih | and_false _ _ _ _ ih
  | or_true _ _ _ _ ih => exact ih
  | bin _ _ _ _ _ _ ihl ihr | cmp _ _ _ _ _ ihl ihr | and_true _ _ _ _ _ ihl ihr | or_false _ _ _ _ _ ihl ihr
  | cond _ _ _ _ _ ihl ihr | cond_void _ _ _ _ _ ihl ihr | comma _ _ ihl ihr =>
    intro x hx
    obtain ⟨ha, hb⟩ := not_or.mp (mt mem_append.mpr hx)
    exact (ihr x hb).trans (ihl x ha)
  | assign _ _ ih | assignOp _ _ _ _ ih =>
    intro x hx
    obtain ⟨hr, hne⟩ := not_or.mp (mt mem_append.mpr hx)
    exact (Function.update_of_ne (ne_of_not_mem_cons hne) _ _).trans (ih x hr)

/-- The same evaluation from another store. -/
structure Alike (r r' : Result X) : Prop where
  val : r'.val = r.val
  reads : r'.reads = r.reads
  writes : r'.writes = r.writes
  store : ∀ x ∈ r.writes, r'.store x = r.store x

namespace Alike

variable {a a' b b' r r' : Result X} {v : Int} {σ τ : X → Int} {x : X}

omit [DecidableEq X] in
theorem with_val (h : Alike r r') (v : Int) : Alike { r with val := v } { r' with val := v } := { h with val := rfl }

omit [DecidableEq X] in
theorem conflict_iff (ha : Alike a a') (hb : Alike b b') : Conflict a' b' ↔ Conflict a b := by
  unfold Conflict
  rw [ha.reads, ha.writes, hb.reads, hb.writes]

/-- What the first evaluation leaves for the second one to read. -/
theorem store_eq (ha : Alike a a') (hframe : ∀ x, x ∉ a.writes → a.store x = σ x)
    (hframe' : ∀ x, x ∉ a'.writes → a'.store x = τ x) (hx : τ x = σ x) : a'.store x = a.store x := by
  by_cases hw : x ∈ a.writes
  · exact ha.store x hw
  · rw [hframe x hw, hframe' x (by rwa [ha.writes]), hx]

theorem behind (ha : Alike a a') (hb : Alike b b') (hframe : ∀ x, x ∉ b.writes → b.store x = a.store x)
    (hframe' : ∀ x, x ∉ b'.writes → b'.store x = a'.store x) (v : Int) : Alike (b.behind a v) (b'.behind a' v) where
  val := rfl
  reads := congrArg₂ _ ha.reads hb.reads
  writes := congrArg₂ _ ha.writes hb.writes
  store x hx := by
    by_cases hw : x ∈ b.writes
    · exact hb.store x hw
    · have ha' : x ∈ a.writes := (mem_append.mp hx).resolve_right hw
      exact hb.store_eq hframe hframe' (ha.store x ha')

theorem assign (h : Alike r r') (x : X) (v : Int) : Alike (r.assign x v) (r'.assign x v) where
  val := rfl
  reads := h.reads
  writes := congrArg (· ++ [x]) h.writes
  store y hy := by
    change Function.update r'.store x v y = Function.update r.store x v y
    by_cases hyx : y = x
    · rw [hyx, Function.update_self, Function.update_self]
    · have hy' : y ∈ r.writes :=
        (mem_append.mp hy).resolve_right fun h => hyx (mem_singleton.mp h)
      rw [Function.update_of_ne hyx, Function.update_of_ne hyx, h.store y hy']

end Alike

theorem Alike.sequence {l r σ τ a b} (hl : Evals decl l σ a) (hr : Evals decl r a.store b)
    (ihl : ∀ {τ}, (∀ x ∈ a.reads, τ x = σ x) → ∃ a', Evals decl l τ a' ∧ Alike a a')
    (ihr : ∀ {τ}, (∀ x ∈ b.reads, τ x = a.store x) → ∃ b', Evals decl r τ b' ∧ Alike b b')
    (hreads : ∀ x ∈ a.reads ++ b.reads, τ x = σ x) :
    ∃ a' b', Evals decl l τ a' ∧ Evals decl r a'.store b' ∧ Alike a a' ∧ Alike b b' ∧
      ∀ v, Alike (b.behind a v) (b'.behind a' v) := by
  obtain ⟨a', hl', ha⟩ := ihl fun x hx => hreads x (mem_append_left _ hx)
  obtain ⟨b', hr', hb⟩ := ihr fun x hx =>
    ha.store_eq hl.frame hl'.frame (hreads x (mem_append_right _ hx))
  exact ⟨a', b', hl', hr', ha, hb, ha.behind hb hr.frame hr'.frame⟩

/-- An evaluation depends on what it reads only. -/
theorem Evals.congr {e σ r} (h : Evals decl e σ r) {τ} (hreads : ∀ x ∈ r.reads, τ x = σ x) :
    ∃ r', Evals decl e τ r' ∧ Alike r r' := by
  induction h generalizing τ with
  | const hv => exact ⟨_, .const hv, rfl, rfl, rfl, fun x hx => absurd hx (not_mem_nil)⟩
  | var x σ => exact ⟨_, .var x τ, hreads x (by simp), rfl, rfl, fun x hx => absurd hx (not_mem_nil)⟩
  | @post plus x v σ hv hfit =>
    have hx : τ x = σ x := hreads x (mem_singleton_self x)
    rw [← hx] at hv
    refine ⟨_, .post hv hfit, hx, rfl, rfl, fun y hy => ?_⟩
    obtain rfl := mem_singleton.mp hy
    exact (Function.update_self y _ τ).trans (Function.update_self y _ σ).symm
  | pos ht _ ih =>
    obtain ⟨r', he', halike⟩ := ih hreads
    exact ⟨r', .pos ht he', halike⟩
  | neg ht _ hv ih =>
    obtain ⟨r', he', halike⟩ := ih hreads
    rw [← halike.val] at hv
    exact ⟨_, .neg ht he' hv, halike.with_val _⟩
  | bitnot ht _ ih =>
    obtain ⟨r', he', halike⟩ := ih hreads
    rw [← halike.val]
    exact ⟨_, .bitnot ht he', halike.with_val _⟩
  | not ht _ ih =>
    obtain ⟨r', he', halike⟩ := ih hreads
    rw [← halike.val]
    exact ⟨_, .not ht he', halike.with_val _⟩
  | void _ ih =>
    obtain ⟨r', he', halike⟩ := ih hreads
    exact ⟨_, .void he', halike.with_val _⟩
  | cast ht _ ih =>
    obtain ⟨r', he', halike⟩ := ih hreads
    rw [← halike.val]
    exact ⟨_, .cast ht he', halike.with_val _⟩
  | bin ht hu hl hr hapart hv ihl ihr =>
    obtain ⟨a', b', hl', hr', ha, hb, hbehind⟩ := Alike.sequence hl hr ihl ihr hreads
    rw [← ha.val, ← hb.val] at hv
    exact ⟨_, .bin ht hu hl' hr' (mt (ha.conflict_iff hb).mp hapart) hv, hbehind _⟩
  | cmp ht hu hl hr hapart ihl ihr =>
    obtain ⟨a', b', hl', hr', ha, hb, hbehind⟩ := Alike.sequence hl hr ihl ihr hreads
    rw [← ha.val, ← hb.val]
    exact ⟨_, .cmp ht hu hl' hr' (mt (ha.conflict_iff hb).mp hapart), hbehind _⟩
  | and_false ht hu _ hzero ih =>
    obtain ⟨r', he', halike⟩ := ih hreads
    exact ⟨_, .and_false ht hu he' (halike.val.trans hzero), halike.with_val _⟩
  | and_true ht hu hl hne hr ihl ihr =>
    obtain ⟨a', b', hl', hr', ha, hb, hbehind⟩ := Alike.sequence hl hr ihl ihr hreads
    rw [← hb.val]
    exact ⟨_, .and_true ht hu hl' (by rwa [ha.val]) hr', hbehind _⟩
  | or_true ht hu _ hne ih =>
    obtain ⟨r', he', halike⟩ := ih hreads
    exact ⟨_, .or_true ht hu he' (by rwa [halike.val]), halike.with_val _⟩
  | or_false ht hu hl hzero hr ihl ihr =>
    obtain ⟨a', b', hl', hr', ha, hb, hbehind⟩ := Alike.sequence hl hr ihl ihr hreads
    rw [← hb.val]
    exact ⟨_, .or_false ht hu hl' (ha.val.trans hzero) hr', hbehind _⟩
  | cond htc htt hte hc harm ihc iharm =>
    obtain ⟨a', b', hc', harm', ha, hb, hbehind⟩ := Alike.sequence hc harm ihc iharm hreads
    rw [← ha.val] at harm'
    rw [← hb.val]
    exact ⟨_, .cond htc htt hte hc' harm', hbehind _⟩
  | cond_void htc htt hte hc harm ihc iharm =>
    obtain ⟨a', b', hc', harm', ha, hb, hbehind⟩ := Alike.sequence hc harm ihc iharm hreads
    rw [← ha.val] at harm'
    exact ⟨_, .cond_void htc htt hte hc' harm', hbehind _⟩
  | comma hl hr ihl ihr =>
    obtain ⟨a', b', hl', hr', ha, hb, hbehind⟩ := Alike.sequence hl hr ihl ihr hreads
    rw [← hb.val]
    exact ⟨_, .comma hl' hr', hbehind _⟩
  | assign ht _ ih =>
    obtain ⟨r', he', halike⟩ := ih hreads
    rw [← halike.val]
    exact ⟨_, .assign ht he', halike.assign _ _⟩
  | @assignOp op x e t v σ r ht he hapart hv ih =>
    obtain ⟨r', he', halike⟩ := ih fun y hy => hreads y (mem_append_left _ hy)
    have hx : r'.store x = r.store x :=
      halike.store_eq he.frame he'.frame (hreads x (mem_append_right _ (mem_singleton_self x)))
    rw [← hx, ← halike.val] at hv
    refine ⟨_, .assignOp ht he' (by rwa [halike.writes]) hv, Alike.assign ?_ x _⟩
    exact { halike with reads := congrArg (· ++ [x]) halike.reads }

/-- Two operands without a conflict may be evaluated in the other order. -/
theorem Evals.comm {l r σ a b} (hl : Evals decl l σ a) (hr : Evals decl r a.store b) (hapart : ¬ Conflict a b) :
    ∃ b' a', Evals decl r σ b' ∧ Evals decl l b'.store a' ∧ b'.val = b.val ∧ a'.val = a.val ∧ a'.store = b.store := by
  obtain ⟨hwrites, hreads⟩ := not_or.mp hapart
  have ha_out {x : X} (hx : x ∈ b.reads ∨ x ∈ b.writes) : x ∉ a.writes := fun h => hwrites ⟨x, h, hx⟩
  have hbefore (x) (hx : x ∈ b.reads) : σ x = a.store x := (hl.frame x (ha_out (.inl hx))).symm
  obtain ⟨b', hr', hb⟩ := hr.congr hbefore
  have hb_out {x : X} (hx : x ∈ a.reads) : x ∉ b'.writes := by
    rw [hb.writes]
    exact fun h => hreads ⟨x, h, hx⟩
  have hafter (x) (hx : x ∈ a.reads) : b'.store x = σ x := hr'.frame x (hb_out hx)
  obtain ⟨a', hl', ha⟩ := hl.congr hafter
  refine ⟨b', a', hr', hl', hb.val, ha.val, ?_⟩
  funext x
  by_cases hbw : x ∈ b.writes
  · have haw : x ∉ a'.writes := by
      rw [ha.writes]
      exact ha_out (.inr hbw)
    rw [hl'.frame x haw, hb.store x hbw]
  · rw [hr.frame x hbw]
    exact ha.store_eq hl.frame hl'.frame (hr'.frame x (by rwa [hb.writes]))

theorem holds_ofBool (b : Bool) : Ty.int.Holds (ofBool b) := by
  cases b <;> decide

/-- The values of a well-typed store are values of their types, and stay so. -/
theorem Evals.holds {e σ r} (h : Evals decl e σ r) (hσ : ∀ x, (decl x).Holds (σ x)) :
    (∀ t, e.typeOf decl = some t → t.Holds r.val) ∧ ∀ x, (decl x).Holds (r.store x) := by
  have hassign {r : Result X} (hr : ∀ x, (decl x).Holds (r.store x)) (x : X) (v : Int) (y : X) :
      (decl y).Holds ((r.assign x (convert (decl x) v)).store y) := by
    change (decl y).Holds (Function.update r.store x (convert (decl x) v) y)
    by_cases hyx : y = x
    · subst hyx
      rw [Function.update_self]
      exact holds_convert _ _
    · rw [Function.update_of_ne hyx]
      exact hr y
  induction h with
  | const hv => exact ⟨fun _ ht => by cases ht; exact hv, hσ⟩
  | var x σ => exact ⟨fun _ ht => by cases ht; exact hσ x, hσ⟩
  | @post plus x v σ hv hfit =>
    exact ⟨fun _ ht => by cases ht; exact hσ x, @hassign ⟨σ x, σ, [x], []⟩ hσ x v⟩
  | pos ht _ ih =>
    refine ⟨fun _ ht' => ?_, (ih hσ).2⟩
    simp only [Expr.typeOf, ht, map_some, some.injEq] at ht'
    subst ht'
    exact holds_promote ((ih hσ).1 _ ht)
  | neg ht _ hv ih =>
    refine ⟨fun _ ht' => ?_, (ih hσ).2⟩
    simp only [Expr.typeOf, ht, map_some, some.injEq] at ht'
    subst ht'
    exact holds_settle hv
  | bitnot ht _ ih =>
    refine ⟨fun _ ht' => ?_, (ih hσ).2⟩
    simp only [Expr.typeOf, ht, map_some, some.injEq] at ht'
    subst ht'
    exact holds_ofBits _ _
  | not _ _ ih => exact ⟨fun _ ht => by cases ht; exact holds_ofBool _, (ih hσ).2⟩
  | void _ ih => exact ⟨fun _ ht => (by cases ht), (ih hσ).2⟩
  | cast _ _ ih => exact ⟨fun _ ht => by cases ht; exact holds_convert _ _, (ih hσ).2⟩
  | bin ht hu _ _ _ hv ihl ihr =>
    refine ⟨fun _ ht' => ?_, (ihr (ihl hσ).2).2⟩
    simp only [Expr.typeOf, ht, hu, bind_eq_bind, bind_some] at ht'
    cases ht'
    exact holds_binOp ((ihl hσ).1 _ ht) hv
  | cmp _ _ _ _ _ ihl ihr | and_true _ _ _ _ _ ihl ihr | or_false _ _ _ _ _ ihl ihr =>
    exact ⟨fun _ ht => by cases ht; exact holds_ofBool _, (ihr (ihl hσ).2).2⟩
  | and_false _ _ _ _ ih => exact ⟨fun _ ht => by cases ht; exact holds_ofBool false, (ih hσ).2⟩
  | or_true _ _ _ _ ih => exact ⟨fun _ ht => by cases ht; exact holds_ofBool true, (ih hσ).2⟩
  | cond _ htt hte _ _ ihc iharm =>
    refine ⟨fun _ ht' => ?_, (iharm (ihc hσ).2).2⟩
    simp only [Expr.typeOf, htt, hte, bind_eq_bind, bind_some] at ht'
    cases ht'
    exact holds_convert _ _
  | cond_void _ htt _ _ _ ihc iharm =>
    refine ⟨fun _ ht' => ?_, (iharm (ihc hσ).2).2⟩
    simp [Expr.typeOf, htt] at ht'
  | comma _ _ ihl ihr => exact ⟨(ihr (ihl hσ).2).1, (ihr (ihl hσ).2).2⟩
  | assign _ _ ih | assignOp _ _ _ _ ih =>
    exact ⟨fun _ ht => by cases ht; exact holds_convert _ _, hassign (ih hσ).2 _ _⟩

/-- `x++` is `(x += 1) - 1`, and `x--` is `(x -= 1) + 1`, as long as the step fits. -/
theorem Evals.lowered {plus x σ r} (h : Evals decl (.post plus x) σ r) (hσ : (decl x).Holds (σ x)) :
    ∃ r', Evals decl (.bin (stepOp !plus) (.assignOp (stepOp plus) x (.const .int 1)) (.const .int 1)) σ r' ∧
      r'.val = r.val ∧ r'.store = r.store := by
  cases h with
  | @post _ _ v _ hv hfit =>
    have hone : Ty.int.Holds 1 := by decide
    have hback : (stepOp !plus).val (decl x) .int (convert (decl x) v) 1 = some (σ x) := stepOp_back hσ hv hfit
    refine ⟨_, .bin rfl rfl (.assignOp rfl (.const hone) not_mem_nil hv) (.const hone) ?_ hback, rfl, rfl⟩
    simp [Conflict]

end Semantics

end c11
