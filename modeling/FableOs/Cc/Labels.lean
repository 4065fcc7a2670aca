import FableOs.Cc.Gen

namespace fable.cc

/-! Every label of a unit is placed at most once. Labels are numbered as they are
made, so code made later has later labels; the label of a case is made by its
switch and placed by the case. -/

open List Output

/-- The label of a case is the one that was entered for it. -/
theorem gives_label_of {E E' T} {l id : Nat} (h : (label_of id).Gives E l T E') :
    T = [] ∧ E' = E ∧ (id, l) ∈ E.case_label := by
  replace h := gives_of_get_bind h
  split at h
  · next heq =>
    obtain ⟨rfl, rfl, rfl⟩ := gives_pure.mp h
    obtain ⟨before, after, hsplit, -⟩ := lookup_eq_some_iff.mp heq
    exact ⟨rfl, rfl, by simp [hsplit]⟩
  · exact (gives_fail.mp h).elim

/-- The labels that the items place. -/
def placed (T : List item_t) : List Nat :=
  T.filterMap fun item =>
    match item with
    | .label l => some l
    | _ => none

@[simp] theorem placed_append (T T' : List item_t) : placed (T ++ T') = placed T ++ placed T' :=
  filterMap_append

mutual

/-- The cases that a statement places, in the order of the code. -/
def case_ids : cc_stmt → List Nat
  | .nop | .expr_stmt _ | .memzero _ _ | .ret _ | .break_ | .continue_ => []
  | .block body => case_ids_of body
  | .if_then _ then_ => case_ids then_
  | .if_else _ then_ els => case_ids then_ ++ case_ids els
  | .loop _ init _ post body => case_ids init ++ (case_ids body ++ case_ids post)
  | .case_ id body => id :: case_ids body
  | .switch _ _ _ body => case_ids body

def case_ids_of : cc_stmts → List Nat
  | .nil => []
  | .cons stmt next => case_ids stmt ++ case_ids_of next

end

/-- The labels of cases were made before, each once. -/
structure Settled (E : emit_t) : Prop where
  lt : ∀ p ∈ E.case_label, p.2 < E.nlabel
  nodup : (E.case_label.map Prod.snd).Nodup

/-- A label that was made in between, and not for a case. -/
def Fresh (E E' : emit_t) (l : Nat) : Prop :=
  E.nlabel ≤ l ∧ l < E'.nlabel ∧ l ∉ E'.case_label.map Prod.snd

instance (E E' : emit_t) (l : Nat) : Decidable (Fresh E E' l) := inferInstanceAs (Decidable (_ ∧ _))

/-- What is emitted for the cases `ids` and the labels `own`, both of which
    were made before, or in between for a case: any label is placed as often as
    these ask, or once if it is fresh. -/
structure Grows (ids own : List Nat) (E : emit_t) (T : List item_t) (E' : emit_t) : Prop where
  le : E.nlabel ≤ E'.nlabel
  kept : ∀ p ∈ E.case_label, p ∈ E'.case_label
  new : ∀ p ∈ E'.case_label, p ∈ E.case_label ∨ E.nlabel ≤ p.2
  fn_label : E'.fn_label = E.fn_label
  settled : Settled E'
  count : ∀ l, (placed T).count l ≤
    own.count l + ids.countP (fun id => (id, l) ∈ E'.case_label) + if Fresh E E' l then 1 else 0

namespace Grows

variable {ids ids' own own' : List Nat} {E E₁ E' : emit_t} {T T' : List item_t}

theorem mono (h : Grows ids own E T E') (hown : ∀ l, own.count l ≤ own'.count l) : Grows ids own' E T E' :=
  { h with count := fun l => by have := h.count l; have := hown l; omega }

/-- Growth composes: the cases and the labels of both parts have been placed. -/
theorem trans (h : Grows ids own E T E₁) (h' : Grows ids' own' E₁ T' E') :
    Grows (ids ++ ids') (own ++ own') E (T ++ T') E' := by
  refine ⟨h.le.trans h'.le, fun p hp => h'.kept p (h.kept p hp), fun p hp => ?_, h'.fn_label.trans h.fn_label,
    h'.settled, fun l => ?_⟩
  · obtain hold | hnew := h'.new p hp
    · exact h.new p hold
    · exact .inr (h.le.trans hnew)
  · have hids : ids.countP (fun id => (id, l) ∈ E₁.case_label) ≤ ids.countP (fun id => (id, l) ∈ E'.case_label) :=
      countP_mono_left fun id _ hid => by simpa using h'.kept _ (by simpa using hid)
    -- a label fresh for one of the two is fresh for both, and for one of them only
    have hfresh : ((if Fresh E E₁ l then 1 else 0) + if Fresh E₁ E' l then 1 else 0) ≤
        if Fresh E E' l then 1 else 0 := by
      by_cases h₁ : Fresh E E₁ l
      · obtain ⟨hge, hlt, hnot⟩ := h₁
        have h₂ : ¬ Fresh E₁ E' l := fun hf => absurd hf.1 (by omega)
        have hboth : Fresh E E' l := by
          refine ⟨hge, hlt.trans_le h'.le, fun hmem => ?_⟩
          obtain ⟨p, hp, rfl⟩ := mem_map.mp hmem
          obtain hold | hnew := h'.new p hp
          · exact hnot (mem_map_of_mem hold)
          · omega
        rw [if_pos ⟨hge, hlt, hnot⟩, if_neg h₂, if_pos hboth]
      · by_cases h₂ : Fresh E₁ E' l
        · rw [if_neg h₁, if_pos h₂, if_pos ⟨h.le.trans h₂.1, h₂.2⟩]
        · simp [h₁, h₂]
    have hcount := h.count l
    have hcount' := h'.count l
    rw [placed_append, count_append, count_append, countP_append]
    omega

end Grows

/-- A generator whose code places what it is given. -/
def Places (ids own : List Nat) {A : Type} (gen : GenM A) : Prop :=
  gen.Ensures fun E T E' => Settled E → Grows ids own E T E'

section Rules

variable {A B : Type} {ids ids' own own' : List Nat} {x : GenM A} {f : A → GenM B} {E : emit_t}
variable {rest : GenM A}

/-- One step behind the other places what both place. -/
theorem Places.bind (hx : Places ids own x) (hf : ∀ a, Places ids' own' (f a)) :
    Places (ids ++ ids') (own ++ own') (x >>= f) :=
  Output.Ensures.bind hx hf fun h h' hE => (h hE).trans (h' (h hE).settled)

theorem Places.andThen (hx : Places [] [] x) (hf : ∀ a, Places ids own (f a)) : Places ids own (x >>= f) :=
  hx.bind hf

theorem Places.bind_own (hx : Places ids own x) (hf : ∀ a, Places [] own' (f a)) :
    Places ids (own ++ own') (x >>= f) := by
  have h := hx.bind hf
  rwa [append_nil] at h

theorem Places.bind_nil (hx : Places ids own x) (hf : ∀ a, Places [] [] (f a)) : Places ids own (x >>= f) := by
  have h := hx.bind_own hf
  rwa [append_nil] at h

theorem Places.mono (h : Places ids own x) (hown : ∀ l, own.count l ≤ own'.count l) : Places ids own' x :=
  Output.Ensures.mono h fun hgrows hE => (hgrows hE).mono hown

/-- Without a label placed or made nothing grows. -/
theorem grows_quiet {T E'} (hE : Settled E) (hT : placed T = []) (hn : E'.nlabel = E.nlabel)
    (hc : E'.case_label = E.case_label) (hf : E'.fn_label = E.fn_label) : Grows [] [] E T E' := by
  refine ⟨hn.ge, fun p hp => hc ▸ hp, fun p hp => .inl (hc ▸ hp), hf, ⟨?_, ?_⟩, fun l => by simp [hT]⟩
  · rw [hc, hn]
    exact hE.lt
  · rw [hc]
    exact hE.nodup

theorem places_pure (a : A) : Places [] [] (pure a) :=
  ensures_pure a fun _ hE => grows_quiet hE rfl rfl rfl rfl

theorem places_fail (e : emit_error) : Places ids own (Output.fail e : GenM A) := ensures_fail e

theorem places_get : Places [] [] Output.get :=
  ensures_get fun _ hE => grows_quiet hE rfl rfl rfl rfl

theorem places_modify (g : emit_t → emit_t) (hn : ∀ E, (g E).nlabel = E.nlabel)
    (hc : ∀ E, (g E).case_label = E.case_label) (hf : ∀ E, (g E).fn_label = E.fn_label) :
    Places [] [] (Output.modify g) :=
  ensures_modify g fun E hE => grows_quiet hE rfl (hn E) (hc E) (hf E)

theorem places_modify_then {g}
    (hg : ∀ E, (g E).nlabel = E.nlabel ∧ (g E).case_label = E.case_label ∧ (g E).fn_label = E.fn_label)
    (hrest : Places ids own rest) : Places ids own (Output.modify g >>= fun _ => rest) :=
  (places_modify g (fun E => (hg E).1) (fun E => (hg E).2.1) fun E => (hg E).2.2).andThen fun _ => hrest

theorem places_EMIT (bytes : List UInt8) : Places [] [] (EMIT bytes) :=
  ensures_tell _ fun _ hE => grows_quiet hE rfl rfl rfl rfl

theorem places_jump (op : List UInt8) (l : Nat) : Places [] [] (Output.tell (.jump op l)) :=
  ensures_tell _ fun _ hE => grows_quiet hE rfl rfl rfl rfl

theorem Places.emit {bytes} (hrest : Places ids own rest) : Places ids own (EMIT bytes >>= fun _ => rest) :=
  (places_EMIT bytes).andThen fun _ => hrest

theorem Places.jump {op} {l : Nat} (hrest : Places ids own rest) :
    Places ids own (Output.tell (.jump op l) >>= fun _ => rest) :=
  (places_jump op l).andThen fun _ => hrest

/-- A label is placed where it is put. -/
theorem places_label_here (l : Nat) : Places [] [l] (label_here l) := by
  refine ensures_tell _ fun E hE => ⟨le_rfl, fun _ hp => hp, fun _ hp => .inl hp, rfl, hE, fun k => ?_⟩
  change [l].count k ≤ _
  omega

theorem settled_next (hE : Settled E) : Settled { E with nlabel := E.nlabel + 1 } :=
  ⟨fun p hp => Nat.lt_succ_of_lt (hE.lt p hp), hE.nodup⟩

/-- A label that is new may be placed once. -/
theorem places_label_new {f : Nat → GenM A} (hf : ∀ l, Places ids (l :: own) (f l)) :
    Places ids own (label_new >>= f) := by
  constructor
  intro E a T E' hgives hE
  have h := (hf _).of_gives (gives_label_new hgives) (settled_next hE)
  have hle : E.nlabel + 1 ≤ E'.nlabel := h.le
  have hnew (p) (hp : p ∈ E'.case_label) : p ∈ E.case_label ∨ E.nlabel + 1 ≤ p.2 := h.new p hp
  refine ⟨by omega, h.kept, fun p hp => (hnew p hp).imp_right (by omega), h.fn_label, h.settled, fun m => ?_⟩
  refine (h.count m).trans ?_
  rw [count_cons]
  by_cases hm : E.nlabel = m
  · have hfresh : Fresh E E' m := by
      refine ⟨hm.le, by omega, fun hmem => ?_⟩
      obtain ⟨p, hp, rfl⟩ := mem_map.mp hmem
      obtain hold | hge := hnew p hp
      · have := hE.lt p hold
        omega
      · omega
    have hno : ¬ Fresh { E with nlabel := E.nlabel + 1 } E' m := fun hf => by
      have hge : E.nlabel + 1 ≤ m := hf.1
      omega
    rw [if_pos hfresh, if_neg hno, if_pos (by simpa using hm)]
    omega
  · have hsub : Fresh { E with nlabel := E.nlabel + 1 } E' m → Fresh E E' m := fun hf =>
      ⟨by have hge : E.nlabel + 1 ≤ m := hf.1; omega, hf.2⟩
    rw [if_neg (by simpa using hm)]
    split_ifs <;> simp_all

/-- Giving a case its label places nothing yet. -/
theorem grows_case (hE : Settled E) (id : Nat) :
    Grows [] [] E [] { E with nlabel := E.nlabel + 1, case_label := (id, E.nlabel) :: E.case_label } := by
  refine ⟨Nat.le_succ _, fun p hp => mem_cons_of_mem _ hp, fun p hp => ?_, rfl, ⟨fun p hp => ?_, ?_⟩,
    fun l => by simp [placed]⟩
  · obtain rfl | hold := mem_cons.mp hp
    · exact .inr le_rfl
    · exact .inl hold
  · obtain rfl | hold := mem_cons.mp hp
    · exact Nat.lt_succ_self _
    · exact Nat.lt_succ_of_lt (hE.lt p hold)
  · refine nodup_cons.mpr ⟨fun hmem => ?_, hE.nodup⟩
    obtain ⟨p, hp, heq⟩ := mem_map.mp hmem
    have := hE.lt p hp
    omega

theorem places_new_case (id : Nat) (hrest : Places ids own rest) :
    Places ids own (do
      let l ← label_new
      Output.modify fun E => { E with case_label := (id, l) :: E.case_label }
      rest) := by
  constructor
  intro E a T E' hgives hE
  have hmore := gives_of_modify_bind (gives_label_new hgives)
  exact (grows_case hE id).trans (hrest.of_gives hmore (grows_case hE id).settled)

/-- The label of a case is placed at its statement. -/
theorem places_case_label (id : Nat) : Places [id] [] (label_of id >>= label_here) := by
  constructor
  intro E a T E' hgives hE
  obtain ⟨l, T₁, E₁, T₂, hof, hhere, rfl⟩ := gives_bind.mp hgives
  obtain ⟨rfl, rfl⟩ := gives_tell.mp hhere
  obtain ⟨rfl, rfl, hmem⟩ := gives_label_of hof
  refine ⟨le_rfl, fun _ hp => hp, fun _ hp => .inl hp, rfl, hE, fun k => ?_⟩
  change [l].count k ≤ _
  by_cases hk : l = k
  · subst hk
    simp [hmem]
  · simp [hk]

end Rules

section Blocks

theorem places_ite {A : Type} {p : Prop} [Decidable p] {ids own} {x y : GenM A} (hx : Places ids own x)
    (hy : Places ids own y) : Places ids own (if p then x else y) := by
  split
  · exact hx
  · exact hy

theorem places_when {A : Type} {p : Prop} [Decidable p] {ids own} {x : GenM Unit} {rest : GenM A}
    (hx : Places [] [] x) (hrest : Places ids own rest) : Places ids own (if p then x >>= fun _ => rest else rest) :=
  places_ite (hx.bind fun _ => hrest) hrest

theorem places_EMITS (blocks : List (List UInt8)) : Places [] [] (EMITS blocks) := by
  induction blocks with
  | nil => exact places_pure ()
  | cons bytes rest ih => exact (places_EMIT bytes).bind fun _ => ih

theorem places_push_rax : Places [] [] push_rax :=
  .emit <| places_modify _ (fun _ => rfl) (fun _ => rfl) fun _ => rfl

theorem places_pop_rdi : Places [] [] pop_rdi :=
  .emit <| places_modify _ (fun _ => rfl) (fun _ => rfl) fun _ => rfl

theorem places_fuel_check : Places [] [] fuel_check := .emit <| places_get.bind fun _ => places_jump _ _

theorem places_stack_check : Places [] [] stack_check := .emit <| places_get.bind fun _ => places_jump _ _

theorem places_load (ty : cc_type) : Places [] [] (load ty) := by
  unfold load
  repeat' split
  all_goals first | exact places_pure () | exact places_EMIT _

theorem places_store (size : Int) : Places [] [] (store size) := by
  unfold store
  repeat' split
  all_goals exact places_EMIT _

theorem places_normalise (ty : cc_type) : Places [] [] (normalise ty) := by
  unfold normalise
  repeat' split
  all_goals first | exact places_pure () | exact places_EMIT _

theorem places_by_width (w64 : Bool) (bytes : List UInt8) : Places [] [] (by_width w64 bytes) :=
  places_ite (places_EMIT _) (places_EMIT _)

theorem places_gen_div (w64 uns : Bool) : Places [] [] (gen_div w64 uns) :=
  places_ite (.emit <| places_by_width _ _) ((places_by_width _ _).bind fun _ => places_by_width _ _)

theorem places_gen_binop (kind : binop_kind) (ty : cc_type) : Places [] [] (gen_binop kind ty) := by
  refine Places.andThen ?_ fun _ => places_normalise ty
  cases kind with
  | ND_DIV => exact places_gen_div _ _
  | ND_MOD => exact (places_gen_div _ _).bind fun _ => places_by_width _ _
  | ND_SHL | ND_SHR => exact .emit <| places_by_width _ _
  | _ => exact places_by_width _ _

theorem places_gen_compare (kind : compare_kind) (ty : cc_type) : Places [] [] (gen_compare kind ty) := by
  have hset (uns : Bool) : Places [] [] (gen_setcc kind uns) := by
    cases kind with
    | ND_LT | ND_LE => exact places_ite (places_EMIT _) (places_EMIT _)
    | _ => exact places_EMIT _
  exact (places_by_width _ _).bind fun _ => (hset _).bind fun _ => places_EMIT _

theorem places_zero_bytes (size : Int) : Places [] [] (zero_bytes size) := by
  refine places_ite (places_EMITS _) (places_label_new fun top => ?_)
  exact .emit <| (places_label_here top).bind_nil fun _ => .emit <| .emit <| .emit <| places_jump _ _

theorem places_pop_arg (i : Nat) : Places [] [] (pop_arg i) := by
  have hdown : Places [] [] (modify fun E => { E with depth := E.depth - 1 }) :=
    places_modify _ (fun _ => rfl) (fun _ => rfl) fun _ => rfl
  unfold pop_arg
  dsimp only
  split <;> exact .emit hdown

theorem places_pop_args (n : Nat) : Places [] [] (pop_args n) := by
  induction n with
  | zero => exact places_pure ()
  | succ n ih => exact (places_pop_arg n).bind fun _ => ih

theorem places_gen_callee (callee : cc_sym) : Places [] [] (gen_callee callee) := by
  have hcall (a : BitVec 64) : Places [] [] (do mov_r11_imm a; EMIT [0x41, 0xFF, 0xD3]) :=
    .emit <| places_EMIT _
  cases callee with
  | func index =>
    refine places_get.bind fun E => ?_
    split
    · exact places_fail _
    · exact places_jump _ _
  | extern_ addr => exact hcall addr
  | _ => exact hcall 0

theorem places_gen_call_pushed (type : cc_type) (callee : cc_sym) (nargs : Nat) :
    Places [] [] (gen_call_pushed type callee nargs) := by
  refine (places_pop_args nargs).bind fun _ => places_get.bind fun E => places_when (places_EMIT _) ?_
  refine places_fuel_check.bind fun _ => (places_gen_callee callee).bind fun _ => places_when (places_EMIT _) ?_
  exact places_ite (places_normalise _) (places_pure _)

theorem places_gen_sym_addr (env : gen_env) (sym : cc_sym) : Places [] [] (gen_sym_addr env sym) := by
  cases sym with
  | «local» offset | global offset => exact places_EMIT _
  | _ => exact places_fail _

end Blocks

section Trees

variable (env : gen_env)

theorem places_two {ids} {x : Nat → Nat → GenM Unit} (hx : ∀ l k, Places ids [l, k] (x l k)) :
    Places ids [] (do let l ← label_new; let k ← label_new; x l k) :=
  places_label_new fun l => places_label_new fun k =>
    (hx l k).mono fun m => by simp only [List.count_cons, List.count_nil]; omega

mutual

/-- The code of a node places fresh labels only. -/
theorem places_both : ∀ n : cc_node, Places [] [] (gen_both env n).1 ∧ Places [] [] (gen_both env n).2
  | .num _ _ => ⟨places_fail _, places_EMIT _⟩
  | .var type sym => by
    refine ⟨places_gen_sym_addr env sym, ?_⟩
    cases sym with
    | enumconst val => exact places_EMIT _
    | _ => exact (places_gen_sym_addr env _).bind fun _ => places_load type
  | .str _ _ => ⟨places_EMIT _, places_EMIT _⟩
  | .member type lhs offset => by
    have haddr : Places [] [] (gen_both env (.member type lhs offset)).1 :=
      (places_both lhs).1.bind fun _ => places_ite (places_EMIT _) (places_pure _)
    exact ⟨haddr, haddr.bind fun _ => places_load type⟩
  | .deref type lhs => ⟨(places_both lhs).2, (places_both lhs).2.bind fun _ => places_load type⟩
  | .addr _ lhs => ⟨places_fail _, (places_both lhs).1⟩
  | .assign type lhs rhs =>
    ⟨places_fail _, (places_both lhs).1.bind fun _ => places_push_rax.bind fun _ => (places_both rhs).2.bind fun _ =>
      places_pop_rdi.bind fun _ => places_store _⟩
  | .copy type lhs rhs =>
    ⟨places_fail _, places_ite (places_fail _) ((places_both lhs).1.bind fun _ => places_push_rax.bind fun _ =>
      (places_both rhs).1.bind fun _ => places_pop_rdi.bind fun _ => (places_EMITS _).bind fun _ => places_EMIT _)⟩
  | .cast type lhs =>
    ⟨places_fail _, (places_both lhs).2.bind fun _ => places_ite (places_normalise _) (places_pure _)⟩
  | .binop kind type lhs rhs =>
    ⟨places_fail _, (places_both rhs).2.bind fun _ => places_push_rax.bind fun _ => (places_both lhs).2.bind fun _ =>
      places_pop_rdi.bind fun _ => places_gen_binop _ _⟩
  | .compare kind _ lhs rhs =>
    ⟨places_fail _, (places_both rhs).2.bind fun _ => places_push_rax.bind fun _ => (places_both lhs).2.bind fun _ =>
      places_pop_rdi.bind fun _ => places_gen_compare _ _⟩
  | .not _ lhs =>
    ⟨places_fail _, (places_both lhs).2.bind fun _ => .emit <| .emit <| places_EMIT _⟩
  | .bitnot type lhs =>
    ⟨places_fail _, (places_both lhs).2.bind fun _ => (places_by_width _ _).bind fun _ => places_normalise _⟩
  | .logand _ lhs rhs => by
    refine ⟨places_fail _, places_two fun lfalse lend => ?_⟩
    refine (places_both lhs).2.bind fun _ => .emit <| .jump <| ?_
    refine (places_both rhs).2.bind fun _ => .emit <| .jump <| ?_
    exact .emit <| .jump <| (places_label_here lfalse).bind fun _ => .emit <| places_label_here lend
  | .logor _ lhs rhs => by
    refine ⟨places_fail _, places_two fun ltrue lend => ?_⟩
    refine (places_both lhs).2.bind fun _ => .emit <| .jump <| ?_
    refine (places_both rhs).2.bind fun _ => .emit <| .jump <| ?_
    exact .emit <| .jump <| (places_label_here ltrue).bind fun _ => .emit <| places_label_here lend
  | .cond _ c t e => by
    refine ⟨places_fail _, places_two fun lelse lend => ?_⟩
    refine (places_both c).2.bind fun _ => .emit <| .jump <| ?_
    refine (places_both t).2.bind fun _ => .jump <| (places_label_here lelse).bind fun _ => ?_
    exact (places_both e).2.bind fun _ => places_label_here lend
  | .comma _ lhs rhs =>
    ⟨(places_both lhs).2.bind fun _ => (places_both rhs).1, (places_both lhs).2.bind fun _ => (places_both rhs).2⟩
  | .call type callee args =>
    ⟨places_fail _, (places_args args).bind fun nargs => places_gen_call_pushed type callee nargs⟩

theorem places_args : ∀ args : cc_args, Places [] [] (gen_args env args)
  | .nil => places_pure _
  | .cons arg next =>
    (places_both arg).2.bind fun _ => places_push_rax.bind fun _ => (places_args next).bind fun _ => places_pure _

end

/-- An expression places the labels it makes and no other. -/
theorem places_gen_expr (n : cc_node) : Places [] [] (gen_expr env n) := (places_both env n).2

theorem places_gen_test (cond : Option cc_node) (lend : Nat) : Places [] [] (gen_test env cond lend) := by
  cases cond with
  | none => exact places_pure _
  | some cond => exact (places_gen_expr env cond).bind fun _ => .emit <| places_jump _ _

theorem places_gen_case_labels (cases : List (Nat × BitVec 64)) : Places [] [] (gen_case_labels cases) := by
  induction cases with
  | nil => exact places_pure _
  | cons c cases ih => exact places_new_case c.1 ih

theorem places_label_of (id : Nat) : Places [] [] (label_of id) := by
  refine places_get.bind fun E => ?_
  split
  · exact places_pure _
  · exact places_fail _

theorem places_gen_cases (cases : List (Nat × BitVec 64)) : Places [] [] (gen_cases cases) := by
  induction cases with
  | nil => exact places_pure _
  | cons c cases ih =>
    exact .emit <| .emit <| (places_label_of _).bind fun _ => .jump ih

mutual

/-- The code of a statement places fresh labels and the statement's cases. -/
theorem places_stmt : ∀ s : cc_stmt, Places (case_ids s) [] (gen_stmt env s)
  | .nop => places_pure _
  | .block body => places_stmts body
  | .expr_stmt lhs => places_gen_expr env lhs
  | .memzero type sym => (places_gen_sym_addr env sym).bind fun _ => places_zero_bytes _
  | .ret lhs => by
    cases lhs with
    | none => exact places_get.bind fun _ => places_jump _ _
    | some lhs => exact (places_gen_expr env lhs).bind fun _ => places_get.bind fun _ => places_jump _ _
  | .if_then cond then_ => by
    refine places_two fun l lend => ?_
    suffices h : Places (case_ids then_) [lend] _ from h.mono fun m => by simp only [count_cons]; omega
    refine (places_gen_expr env cond).andThen fun _ => .emit <| .jump <| ?_
    exact (places_stmt then_).bind_own fun _ => places_label_here lend
  | .if_else cond then_ els => by
    refine places_two fun lelse lend => ?_
    refine (places_gen_expr env cond).andThen fun _ => .emit <| .jump <| ?_
    refine (places_stmt then_).bind fun _ => .jump <| (places_label_here lelse).bind fun _ => ?_
    exact (places_stmt els).bind_own fun _ => places_label_here lend
  | .loop test_first init cond post body => by
    refine places_label_new fun ltop => places_label_new fun lcont => places_label_new fun lend => ?_
    refine places_get.andThen fun E => places_ite (places_fail _) ?_
    refine places_modify_then (fun _ => ⟨rfl, rfl, rfl⟩) ?_
    suffices h : Places (case_ids init ++ (case_ids body ++ case_ids post)) [ltop, lcont, lend] _ from
      h.mono fun m => by simp only [count_cons]; omega
    refine (places_stmt init).bind fun _ => (places_label_here ltop).bind fun _ => ?_
    refine places_when (places_gen_test env cond lend) ?_
    refine (places_stmt body).bind fun _ => (places_label_here lcont).bind fun _ => (places_stmt post).bind_own fun _ => ?_
    refine places_when (places_gen_test env cond lend) ?_
    refine places_fuel_check.andThen fun _ => .jump <| (places_label_here lend).bind_nil fun _ => ?_
    exact places_modify _ (fun _ => rfl) (fun _ => rfl) fun _ => rfl
  | .break_ | .continue_ => by
    refine places_get.bind fun E => ?_
    split
    · exact places_fail _
    · exact places_jump _ _
  | .case_ id body => by
    have hassoc : (label_of id >>= label_here) >>= (fun _ => gen_stmt env body) = gen_stmt env (.case_ id body) :=
      Output.bind_assoc _ _ _
    rw [← hassoc]
    exact (places_case_label id).bind fun _ => places_stmt body
  | .switch cond cases default_case body => by
    refine places_label_new fun lend => places_get.andThen fun E => places_ite (places_fail _) ?_
    refine (places_gen_case_labels cases).andThen fun _ => ?_
    have hbody : Places (case_ids body) [lend] (do
        modify fun E => { E with brk := lend :: E.brk }
        gen_stmt env body
        modify fun E => { E with brk := E.brk.tail }
        label_here lend) := by
      refine places_modify_then (fun _ => ⟨rfl, rfl, rfl⟩) ?_
      refine (places_stmt body).bind_own fun _ => ?_
      exact places_modify_then (fun _ => ⟨rfl, rfl, rfl⟩) (places_label_here lend)
    cases default_case with
    | none =>
      exact (places_gen_expr env cond).andThen fun _ => (places_gen_cases cases).andThen fun _ => .jump hbody
    | some id =>
      refine places_new_case id ?_
      exact (places_gen_expr env cond).andThen fun _ => (places_gen_cases cases).andThen fun _ =>
        (places_label_of id).andThen fun _ => .jump hbody

theorem places_stmts : ∀ s : cc_stmts, Places (case_ids_of s) [] (gen_stmts env s)
  | .nil => places_pure _
  | .cons stmt next => (places_stmt stmt).bind fun _ => places_stmts next

end

theorem places_gen_params (params : List (Int × Int)) (i : Nat) : Places [] [] (gen_params i params) := by
  induction params generalizing i with
  | nil => exact places_pure _
  | cons p params ih =>
    have hmov : Places [] [] (mov_rax_from_arg i) := by
      unfold mov_rax_from_arg
      split <;> exact places_EMIT _
    exact hmov.bind fun _ => .emit <| (places_store _).bind fun _ => ih (i + 1)

/-- A function places its entry and the labels of its cases. -/
theorem places_gen_func (f : cc_func) (entry : Nat) : Places (case_ids f.body) [entry] (gen_func env f entry) := by
  refine (places_label_here entry).bind fun _ => places_label_new fun epilogue => ?_
  refine places_modify_then (fun _ => ⟨rfl, rfl, rfl⟩) ?_
  refine .emit <| .emit <| places_when (places_EMIT _) ?_
  refine places_fuel_check.andThen fun _ => places_stack_check.andThen fun _ => ?_
  refine (places_gen_params f.param 0).andThen fun _ => (places_stmt env f.body).bind_own fun _ => ?_
  refine .emit <| (places_label_here epilogue).bind_nil fun _ => ?_
  exact .emit <| .emit <| places_EMIT _

end Trees

section Unit

variable {env : gen_env} {E E' : emit_t} {T : List item_t}
variable {funcs : List cc_func} {u : Unit}

/-- The cases of the functions of a unit. -/
def unit_case_ids (funcs : List cc_func) : List Nat := funcs.flatMap fun f => case_ids f.body

/-- The functions of a unit place their entries in order. -/
theorem grows_gen_funcs {i : Nat} (h : (gen_funcs env funcs i).Gives E () T E') (hE : Settled E) :
    Grows (unit_case_ids funcs) ((List.range' i funcs.length).map fun j => E.fn_label.getD j 0) E T E' := by
  induction funcs generalizing i E T with
  | nil =>
    obtain ⟨-, rfl, rfl⟩ := gives_pure.mp h
    exact grows_quiet hE rfl rfl rfl rfl
  | cons f funcs ih =>
    obtain ⟨_, T₂, E₂, T₃, hfunc, hfuncs, rfl⟩ := gives_bind.mp (gives_of_get_bind h)
    have hone := (places_gen_func env f _).of_gives hfunc hE
    have hmore := ih hfuncs hone.settled
    rw [hone.fn_label] at hmore
    exact hone.trans hmore

/-- Each function has a label before any code is made. -/
theorem gives_gen_fn_labels (h : (gen_fn_labels funcs).Gives E u T E') :
    T = [] ∧ E' = { E with
      nlabel := E.nlabel + funcs.length, fn_label := E.fn_label ++ List.range' E.nlabel funcs.length } := by
  induction funcs generalizing E T with
  | nil =>
    obtain ⟨-, rfl, rfl⟩ := gives_pure.mp h
    simp
  | cons f funcs ih =>
    obtain ⟨rfl, rfl⟩ := ih (gives_of_modify_bind (gives_label_new h))
    refine ⟨rfl, ?_⟩
    simp [range'_succ, Nat.add_assoc, Nat.add_comm 1]

/-- A label of a unit is placed at most once. -/
theorem Grows.nodup {ids own} (h : Grows ids own E T E') (hids : ids.Nodup) (hown : own.Nodup)
    (hlt : ∀ l ∈ own, l < E.nlabel) (hnone : E.case_label = []) : (placed T).Nodup := by
  rw [nodup_iff_count_le_one]
  intro l
  refine (h.count l).trans ?_
  by_cases hl : l ∈ own
  · have hcase : ids.countP (fun id => (id, l) ∈ E'.case_label) = 0 := by
      refine countP_eq_zero.mpr fun id _ hid => ?_
      obtain hold | hge := h.new _ (of_decide_eq_true hid)
      · simp [hnone] at hold
      · exact absurd (hlt l hl) (Nat.not_lt.mpr hge)
    have hfresh : ¬ Fresh E E' l := fun hf => absurd (hlt l hl) (Nat.not_lt.mpr hf.1)
    rw [hcase, if_neg hfresh]
    exact nodup_iff_count_le_one.mp hown l
  · rw [count_eq_zero.mpr hl, Nat.zero_add]
    by_cases hcase : ∃ id, (id, l) ∈ E'.case_label
    · obtain ⟨id, hid⟩ := hcase
      have hfresh : ¬ Fresh E E' l := fun hf => hf.2.2 (mem_map.mpr ⟨_, hid, rfl⟩)
      have hone : ids.countP (fun id => (id, l) ∈ E'.case_label) ≤ ids.count id := by
        refine countP_mono_left fun id' _ hid' => ?_
        have heq := inj_on_of_nodup_map h.settled.nodup (of_decide_eq_true hid') hid rfl
        simpa using congrArg Prod.fst heq
      rw [if_neg hfresh]
      exact hone.trans (nodup_iff_count_le_one.mp hids id)
    · have hzero : ids.countP (fun id => (id, l) ∈ E'.case_label) = 0 :=
        countP_eq_zero.mpr fun id _ hid => hcase ⟨id, of_decide_eq_true hid⟩
      rw [hzero]
      split <;> omega

/-- The trampoline, the functions and the abort stubs, from a unit's first
    label on. -/
theorem gen_unit_parts (h : (gen_unit env funcs).Gives emit_start u T E') :
    ∃ entry T₁ T₂ T₃ T₄ E₁ E₂ E₃ E₄, find_main funcs 0 = some entry ∧ E₁ = { emit_start with
        nlabel := funcs.length + 3, fn_label := List.range' 0 funcs.length, abort_fuel := funcs.length,
        abort_stack := funcs.length + 1 } ∧
      (gen_trampoline env (E₁.fn_label.getD entry 0) (funcs.length + 2)).Gives E₁ () T₁ E₂ ∧
      (gen_funcs env funcs 0).Gives E₂ () T₂ E₃ ∧
      (gen_abort funcs.length 1 (funcs.length + 2)).Gives E₃ () T₃ E₄ ∧
      (gen_abort (funcs.length + 1) 2 (funcs.length + 2)).Gives E₄ () T₄ E' ∧ T = T₁ ++ (T₂ ++ (T₃ ++ T₄)) := by
  obtain ⟨_, _, _, _, hfn, h₁, rfl⟩ := gives_bind.mp h
  obtain ⟨rfl, rfl⟩ := gives_gen_fn_labels hfn
  split at h₁
  · exact (gives_fail.mp h₁).elim
  next entry hentry =>
  have h₂ := gives_of_modify_bind (gives_label_new (gives_label_new h₁))
  have h₃ := gives_of_get_bind (gives_label_new h₂)
  obtain ⟨_, T₁, E₂, _, htramp, h₇, rfl⟩ := gives_bind.mp h₃
  obtain ⟨_, T₂, E₃, _, hfuncs, h₈, rfl⟩ := gives_bind.mp h₇
  obtain ⟨_, T₃, E₄, T₄, hfuel, hstack, rfl⟩ := gives_bind.mp h₈
  simp only [emit_start, Nat.zero_add, nil_append] at htramp hfuel hstack
  exact ⟨entry, T₁, T₂, T₃, T₄, _, E₂, E₃, E₄, hentry, rfl, htramp, hfuncs, hfuel, hstack, by simp⟩

/-- No label of a unit is placed twice. -/
theorem gen_unit_placed_nodup (hids : (unit_case_ids funcs).Nodup) (h : (gen_unit env funcs).Gives emit_start u T E') :
    (placed T).Nodup := by
  obtain ⟨entry, T₁, T₂, T₃, T₄, E₁, E₂, E₃, E₄, -, hE₁, htramp, hfuncs, hfuel, hstack, rfl⟩ := gen_unit_parts h
  have hsettled : Settled E₁ := by
    rw [hE₁]
    exact ⟨by simp [emit_start], by simp [emit_start]⟩
  have hplaces (fn l : Nat) : Places [] [l] (gen_trampoline env fn l) := by
    refine .emit <| .emit <| .emit <| .emit <| .emit <| .emit <| ?_
    refine .jump <| (places_label_here _).bind_nil fun _ => .emit <| ?_
    exact .emit <| .emit <| .emit <| places_EMIT _
  have habort (l code ldone : Nat) : Places [] [l] (gen_abort l code ldone) :=
    (places_label_here l).bind_nil fun _ => .emit <| .emit <| places_jump _ _
  have h₁ := (hplaces _ _).of_gives htramp hsettled
  have h₂ := grows_gen_funcs hfuncs h₁.settled
  have h₃ := (habort _ _ _).of_gives hfuel h₂.settled
  have h₄ := (habort _ _ _).of_gives hstack h₃.settled
  have hall := h₁.trans (h₂.trans (h₃.trans h₄))
  have hfn : (range' 0 funcs.length).map (fun j => E₂.fn_label.getD j 0) = range' 0 funcs.length := by
    rw [h₁.fn_label, hE₁]
    refine (map_congr_left fun j hj => ?_).trans (map_id _)
    have hlt : j < funcs.length := by simpa using hj
    simp [getD_eq_getElem?_getD, hlt]
  rw [hfn] at hall
  refine hall.nodup ?_ ?_ ?_ (by rw [hE₁]; rfl)
  · simpa using hids
  · simp [nodup_append, nodup_range']
    omega
  · intro l hl
    simp only [mem_append, mem_singleton, mem_range'_1] at hl
    rw [hE₁]
    dsimp only
    omega

end Unit

end fable.cc
