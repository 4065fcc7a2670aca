import FableOs.Cc.Image
import FableOs.Cc.Preserve
import FableOs.Cc.Simulation

namespace fable.cc

open c11 (Ty Rank Expr Evals)
open x64 (Machine Reg Runs)

/-! The machine code of an integer expression, inside the image of any unit,
computes what C11 defines. -/

/-- A value of a type in a register: its pattern, zero-extended or
    sign-extended to 64 bits. -/
def extended_to (t : Ty) (v : Int) : BitVec 64 :=
  if t.unsigned then (BitVec.ofInt t.width v).setWidth 64 else (BitVec.ofInt t.width v).signExtend 64

theorem extended_to_eq {t : Ty} {v : Int} (h : t.Holds v) : extended_to t v = BitVec.ofInt 64 v := by
  rw [extended_to, extended, ofBits_ofInt, c11.convert_of_holds h]

theorem HoldsStore.congr {X : Type} {F V} {σ : X → Int} {m m' : x64.Mem} (hplaced : Placed F V)
    (h : HoldsStore F V σ m) (hmem : ∀ a, F.valid a = true → m' a = m a) : HoldsStore F V σ m' := by
  intro x
  rw [read_of_allows (hplaced.allowed x) hmem]
  exact h x

/-- Where the code of an expression stands in the code of its unit. -/
structure Emitted (env : gen_env) (funcs : List cc_func) (n : cc_node) (items before T : List item_t) : Prop where
  unit : ∃ E', (gen_unit env funcs).Gives emit_start () items E'
  part : ∃ after, items = before ++ (T ++ after)
  code : ∃ E E', (gen_expr env n).Gives E () T E'

theorem Emitted.laid {env funcs n items before T} {cap : Nat} {image} (h : Emitted env funcs n items before T)
    (hids : (unit_case_ids funcs).Nodup) (hcap : cap < 2 ^ 31) (hunit : cc_codegen env funcs cap = .ok image)
    (base : BitVec 64) : (loaded base items image).Laid (code_size before) T := by
  obtain ⟨items', E', hgen, -, hlaid⟩ := cc_codegen_laid hids hcap hunit
  obtain ⟨E'', hgen'⟩ := h.unit
  obtain ⟨after, hpart⟩ := h.part
  cases hgen.symm.trans hgen'
  have hall := hlaid base
  rw [hpart] at hall ⊢
  obtain ⟨-, hrest⟩ := code_t.laid_append.mp hall
  rw [Nat.zero_add] at hrest
  exact (code_t.laid_append.mp hrest).1

/-- Wherever the code of a tree stands in the image of a unit, it runs to its end
    with the value of the tree in rax. -/
theorem Emitted.runs {env funcs n items before T} {cap : Nat} {image F room s v m'}
    (h : Emitted env funcs n items before T) (hids : (unit_case_ids funcs).Nodup) (hcap : cap ≤ CC_CODE_MAX)
    (hunit : cc_codegen env funcs cap = .ok image) (hdata : F.data = env.data) (hroom : stack_need n ≤ room)
    {base : BitVec 64} (hready : Ready (loaded base items image) F room s.mem (code_size before) s)
    (hv : eval_expr F n s.mem = some (v, m')) :
    ∃ t, Came (loaded base items image) F (stack_need n) (code_size before + code_size T) v m' s t := by
  have hlaid := h.laid hids (hcap.trans_lt (by decide)) hunit base
  obtain ⟨E, E', hgen⟩ := h.code
  exact (simulates hdata n).value.came hgen hlaid le_rfl (hready.mono hroom) hv

/-- Wherever the code of an expression stands in the image of a unit, it runs
    to its end with the value that C11 defines in rax, extended as the type of
    the expression asks, and with the variables as C11 leaves them, as long as no
    `x++` or `x--` in it wraps a variable narrower than int. The stack pointer is
    where it was; of the rest of the memory only the temporaries of the
    expression's own compound assignments and free stack have changed. -/
theorem gen_expr_computes {X : Type} [DecidableEq X] {env : gen_env} {funcs : List cc_func} {cap : Nat}
    {image : List UInt8} {items before T : List item_t} {n : cc_node} {V : vars_t X} {F : frame_t} {e : Expr X}
    {ctx ctx' : build_ctx} {base : BitVec 64} {room : Nat} {s : Machine} {σ : X → Int} {r : c11.Result X}
    (hids : (unit_case_ids funcs).Nodup) (hcap : cap ≤ CC_CODE_MAX) (hunit : cc_codegen env funcs cap = .ok image)
    (hbuild : build V e ctx = .ok (n, ctx')) (hemitted : Emitted env funcs n items before T)
    (hdata : F.data = env.data) (hplaced : Placed F V) (hroom : stack_need n ≤ room)
    (hready : Ready (loaded base items image) F room s.mem (code_size before) s) (hstore : HoldsStore F V σ s.mem)
    (heval : e.eval V.decl σ = some r) (hsteps : e.StepsFit V.decl σ) :
    ∃ t, Runs s t ∧ t.rip = base + BitVec.ofNat 64 (code_size before + code_size T) ∧
      (∀ ty, e.typeOf V.decl = some ty → ty.Holds r.val ∧ t.regs .rax = extended_to ty r.val) ∧
      t.regs .rsp = s.regs .rsp ∧ t.regs .rbp = s.regs .rbp ∧ HoldsStore F V r.store t.mem ∧
      ∀ a, (∀ x, ¬ InVar F V x a) → (∀ k, ctx.ntemp ≤ k → k < ctx'.ntemp → ¬ InTemp F k a) →
        ¬ below (s.regs .rsp) (stack_need n) a → t.mem a = s.mem a := by
  have hbuilt := build_agrees hplaced e hbuild
  have hevals := Evals.of_eval heval hsteps
  obtain ⟨v, m', hv, hstore', hkept, hval⟩ := hbuilt.agrees hevals hstore
  obtain ⟨t, hcame⟩ := hemitted.runs hids hcap hunit hdata hroom hready hv
  refine ⟨t, hcame.runs, hcame.rip, fun ty hty => ?_, hcame.kept _ (by decide), hcame.kept _ (by decide),
    hstore'.congr hplaced hcame.mem, fun a hvar htemp hbelow => ?_⟩
  · have hholds := (hevals.holds fun x => (hstore x).1).1 ty hty
    have htyped := hbuilt.typed
    rw [hty] at htyped
    obtain ⟨ty', hntype, -⟩ := htyped
    rw [hcame.rax, extended_to_eq hholds]
    exact ⟨hholds, (hval ty' hntype).2⟩
  · cases ha : F.valid a with
    | true => rw [hcame.mem a ha, hkept a hvar htemp]
    | false => exact hcame.frame a ha hbelow

def step_env : gen_env := ⟨0x200000, 0x300000⟩

/-- One local unsigned char, behind the temporaries. -/
def step_vars : vars_t Unit := ⟨fun _ => ⟨.char, true⟩, fun _ => .local (-129)⟩

/-- The tree of `c++`. -/
def step_node : cc_node :=
  let c := .var (.char true) (.local (-129))
  let p := .var (.ptr (.char true)) (.local (-8))
  .binop .ND_SUB cc_ty_int
    (.cast cc_ty_int (.comma (.char true) (.assign (.ptr (.char true)) p (.addr (.ptr (.char true)) c))
      (.assign (.char true) (.deref (.char true) p)
        (.cast (.char true) (.binop .ND_ADD cc_ty_int (.cast cc_ty_int (.deref (.char true) p)) (.num cc_ty_int 1))))))
    (.num cc_ty_int 1)

/-- `int main(void) { unsigned char c; c++; }`. -/
def step_unit : List cc_func := [⟨true, [], .expr_stmt step_node, 144⟩]

def step_items : List item_t :=
  match gen_unit step_env step_unit emit_start with
  | .ok (_, items, _) => items
  | .error _ => []

def step_image : List UInt8 := (resolve_items (fun l => label_off l 0 step_items) 0 step_items).getD []

/-- The local and the temporaries may be accessed. -/
def step_frame : frame_t := ⟨0x10000, 0x200000, fun a => 0x10000 - 129 ≤ a.toNat ∧ a.toNat < 0x10000⟩

/-- Before the code of `c++`, with a value of `c`. -/
def step_start (c : UInt8) : Machine where
  regs r := if r = .rbp then 0x10000 else 0x8000
  flags := ⟨none, none, none, none⟩
  mem a := if a = 0x10000 - 129 then c else (loaded 0x1000 step_items step_image).bytes a
  rip := 0x1000 + BitVec.ofNat 64 (code_size (step_items.take 21))

theorem step_placed : Placed step_frame step_vars := by
  refine ⟨fun _ => rfl, fun x => by cases x; decide, by decide, fun _ _ hne => absurd rfl hne, ?_⟩
  intro x k hk a hvar htemp
  change (a - (0x10000 + (BitVec.ofInt 32 (-129)).signExtend 64)).toNat < 1 at hvar
  unfold InTemp x64.Within temp_addr at htemp
  change (a - (0x10000 + (BitVec.ofInt 32 (-8 * (k + 1))).signExtend 64)).toNat < 8 at htemp
  interval_cases k <;> simp at hvar htemp <;> bv_omega

theorem step_emitted : Emitted step_env step_unit step_node step_items (step_items.take 21)
    ((step_items.drop 21).take 26) :=
  ⟨⟨_, rfl⟩, ⟨step_items.drop 47, by decide⟩, ⟨emit_start, _, rfl⟩⟩

theorem step_ready (c : UInt8) : Ready (loaded 0x1000 step_items step_image) step_frame 64 (step_start c).mem
    (code_size (step_items.take 21)) (step_start c) := by
  have hlength : step_image.length = 194 := by decide +kernel
  have hholds (a) (h : (loaded 0x1000 step_items step_image).holds a) : (a - 0x1000).toNat < 194 := hlength ▸ h
  refine ⟨rfl, rfl, fun a ha => if_neg ?_, fun _ _ => rfl, fun a ha => ?_, fun a ha => ?_⟩
  · have hcode := hholds a ha
    rintro rfl
    exact absurd hcode (by decide)
  · have hcode := hholds a ha
    change decide _ = false
    rw [decide_eq_false_iff_not]
    bv_omega
  · change (0x8000 - 1 - a).toNat < 64 at ha
    refine ⟨?_, fun hcode => ?_⟩
    · change decide _ = false
      rw [decide_eq_false_iff_not]
      bv_omega
    · have hlt := hholds a hcode
      bv_omega

theorem step_store {c : UInt8} {v : Int} (hv : Ty.Holds ⟨.char, true⟩ v)
    (hread : as_type (.char true) (x64.read (step_start c).mem (var_addr step_frame step_vars ()) .w8) = BitVec.ofInt 64 v) :
    HoldsStore step_frame step_vars (fun _ => v) (step_start c).mem := fun _ => ⟨hv, hread⟩

theorem step_computes : ∃ t, Runs (step_start 7) t ∧ t.regs .rax = 7 ∧ t.regs .rsp = 0x8000 ∧
    HoldsStore step_frame step_vars (fun _ => 8) t.mem := by
  obtain ⟨t, hruns, -, hrax, hrsp, -, hafter, -⟩ :=
    gen_expr_computes (by decide) le_rfl (rfl : cc_codegen step_env step_unit CC_CODE_MAX = .ok step_image)
      (rfl : build step_vars (.post true ()) ⟨true, 0, 0⟩ = .ok (step_node, ⟨true, 1, 1⟩)) step_emitted rfl step_placed
      (by decide) (step_ready 7) (step_store (v := 7) (by decide) (by decide +kernel))
      (rfl : Expr.eval step_vars.decl (.post true ()) (fun _ => 7) =
        some ⟨7, Function.update (fun _ => 7) () 8, [()], [()]⟩)
      (.inr fun v hv => by cases hv; decide)
  refine ⟨t, hruns, (hrax _ rfl).2, hrsp, ?_⟩
  intro x
  exact hafter x

/-- C11 defines 255 for `c++` where `c` is 255; the code subtracts 1 from the 0 that
    it has stored. -/
theorem char_step_wraps : HoldsStore step_frame step_vars (fun _ => 255) (step_start 255).mem ∧
    build step_vars (.post true ()) ⟨true, 0, 0⟩ = .ok (step_node, ⟨true, 1, 1⟩) ∧
    (Expr.eval step_vars.decl (.post true ()) (fun _ => 255)).map c11.Result.val = some 255 ∧
    ∃ t, Runs (step_start 255) t ∧
      t.rip = 0x1000 + BitVec.ofNat 64 (code_size (step_items.take 21) + code_size ((step_items.drop 21).take 26)) ∧
      t.regs .rax = -1 ∧ t.regs .rax ≠ extended_to ⟨.char, true⟩ 255 := by
  refine ⟨step_store (by decide) (by decide +kernel), rfl, rfl, ?_⟩
  have hvalue : (eval_expr step_frame step_node (step_start 255).mem).map Prod.fst = some (-1) := by decide +kernel
  obtain ⟨⟨v, m'⟩, hv, rfl⟩ := Option.map_eq_some_iff.mp hvalue
  obtain ⟨t, hcame⟩ := step_emitted.runs (by decide) le_rfl
    (rfl : cc_codegen step_env step_unit CC_CODE_MAX = .ok step_image) rfl (by decide) (step_ready 255) hv
  exact ⟨t, hcame.runs, hcame.rip, hcame.rax, by rw [hcame.rax]; decide⟩

/-- In the image of every unit that is taken, each jump and each call leads to the
    one place of its label, between two of the items that the unit is made of. -/
theorem jumps_land {env funcs} {cap : Nat} {image} (hids : (unit_case_ids funcs).Nodup) (hcap : cap ≤ CC_CODE_MAX)
    (h : cc_codegen env funcs cap = .ok image) :
    ∃ items E', (gen_unit env funcs).Gives emit_start () items E' ∧ image.length = code_size items ∧
      ∀ front op l back, items = front ++ .jump op l :: back →
        ∃ before after, items = before ++ .label l :: after ∧ l ∉ placed (before ++ after) ∧
          ∀ base, (loaded base items image).BytesAt (code_size front)
            (op ++ e32 (code_size before - (code_size front + (op.length + 4)))) := by
  obtain ⟨items, E', hgen, hlength, hlaid⟩ := cc_codegen_laid hids (hcap.trans_lt (by decide)) h
  refine ⟨items, E', hgen, hlength, fun front op l back hitems => ?_⟩
  have hjump (base) : ∃ target, label_off l 0 items = some target ∧
      (loaded base items image).BytesAt (code_size front) (op ++ e32 (target - (code_size front + (op.length + 4)))) := by
    have hall := hlaid base
    nth_rewrite 2 [hitems] at hall
    obtain ⟨⟨target, hplace, -, -, hbytes⟩, -⟩ := (code_t.laid_append.mp hall).2
    rw [Nat.zero_add] at hbytes
    exact ⟨target, hplace, hbytes⟩
  obtain ⟨_, hplace, -⟩ := hjump 0
  obtain ⟨before, after, hlabel, rfl⟩ := label_off_split hplace
  refine ⟨before, after, hlabel, ?_, fun base => ?_⟩
  · have hnodup := gen_unit_placed_nodup hids hgen
    rw [hlabel, placed_append] at hnodup
    rw [placed_append]
    exact (List.nodup_cons.mp (List.nodup_middle.mp hnodup)).1
  · obtain ⟨target, hplace', hbytes⟩ := hjump base
    cases hplace.symm.trans hplace'
    rwa [Nat.zero_add] at hbytes

/-- The call of `main` in the unit of `c++`, and the jump where the stack is too small
    for the frame. -/
theorem step_jumps_land : (∃ before after, step_items = before ++ .label 0 :: after ∧ 0 ∉ placed (before ++ after) ∧
      ∀ base, (loaded base step_items step_image).BytesAt (code_size (step_items.take 6))
        ([0xE8] ++ e32 (code_size before - (code_size (step_items.take 6) + 5)))) ∧
    ∃ before after, step_items = before ++ .label 2 :: after ∧ 2 ∉ placed (before ++ after) ∧
      ∀ base, (loaded base step_items step_image).BytesAt (code_size (step_items.take 20))
        ([0x0F, 0x82] ++ e32 (code_size before - (code_size (step_items.take 20) + 6))) := by
  obtain ⟨items, E', hgen, -, hland⟩ :=
    jumps_land (by decide) le_rfl (rfl : cc_codegen step_env step_unit CC_CODE_MAX = .ok step_image)
  obtain ⟨E'', hunit⟩ := step_emitted.unit
  cases hunit.symm.trans hgen
  exact ⟨hland _ [0xE8] 0 (step_items.drop 7) (by decide), hland _ [0x0F, 0x82] 2 (step_items.drop 21) (by decide)⟩

end fable.cc
