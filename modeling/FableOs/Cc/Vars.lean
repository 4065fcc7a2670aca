import FableOs.Cc.Blocks
import FableOs.Cc.Elab

namespace fable.cc

open BitVec

open c11 (Ty Rank Expr Evals convert promote usual)
open x64 (Width Within)

/-! Integer variables in memory, and the hidden temporaries beside them. -/

section Layout

variable {X : Type} (F : frame_t) (V : vars_t X)

def var_addr (x : X) : BitVec 64 := (sym_addr F (V.sym x)).getD 0

def var_width (x : X) : Width := width_of (of_ty (V.decl x)).size

/-- The hidden temporary of a slot. -/
def temp_addr (k : Nat) : BitVec 64 := F.rbp + (BitVec.ofInt 32 (-8 * (k + 1))).signExtend 64

/-- The bytes of a variable. -/
def InVar (x : X) (a : BitVec 64) : Prop := Within (var_addr F V x) (var_width V x).bytes a

/-- The bytes of a temporary. -/
def InTemp (k : Nat) (a : BitVec 64) : Prop := Within (temp_addr F k) 8 a

/-- The variables are objects of their own in memory that may be accessed, and
    so are the temporaries. -/
structure Placed : Prop where
  placed : ∀ x, sym_addr F (V.sym x) = some (var_addr F V x)
  allowed : ∀ x, F.allows (var_addr F V x) (var_width V x).bytes = true
  temp_allowed : ∀ k < CC_TEMP_SLOTS, F.allows (temp_addr F k) 8 = true
  apart : ∀ x y, x ≠ y → ∀ a, InVar F V x a → ¬ InVar F V y a
  temp_apart : ∀ x, ∀ k < CC_TEMP_SLOTS, ∀ a, InVar F V x a → ¬ InTemp F k a

/-- A memory that holds a store: every variable has a value of its type, in the
    bytes of its type. -/
def HoldsStore (σ : X → Int) (m : x64.Mem) : Prop :=
  ∀ x, (V.decl x).Holds (σ x) ∧
    as_type (of_ty (V.decl x)) (x64.read m (var_addr F V x) (var_width V x)) = BitVec.ofInt 64 (σ x)

/-- Everything is as before but the variables and the temporaries of the slots
    from `lo` up to `hi`. -/
def Kept (lo hi : Nat) (m m' : x64.Mem) : Prop :=
  ∀ a, (∀ x, ¬ InVar F V x a) → (∀ k, lo ≤ k → k < hi → ¬ InTemp F k a) → m' a = m a

end Layout

section Memory

variable {X : Type} {F : frame_t} {V : vars_t X} {σ : X → Int} {m m' m₂ : x64.Mem} {lo mid hi : Nat}

theorem Kept.refl (m : x64.Mem) : Kept F V lo hi m m := fun _ _ _ => rfl

theorem Kept.trans (h : Kept F V lo hi m m') (h' : Kept F V lo hi m' m₂) : Kept F V lo hi m m₂ :=
  fun a hvar htemp => (h' a hvar htemp).trans (h a hvar htemp)

theorem Kept.mono {lo' hi' : Nat} (h : Kept F V lo hi m m') (hlo : lo' ≤ lo) (hhi : hi ≤ hi') :
    Kept F V lo' hi' m m' :=
  fun a hvar htemp => h a hvar fun k hk hk' => htemp k (by omega) (by omega)

/-- Two temporaries share no byte. -/
theorem temp_slots_apart {k j : Nat} (hk : k < CC_TEMP_SLOTS) (hj : j < CC_TEMP_SLOTS) (hne : k ≠ j) {a}
    (ha : InTemp F k a) : ¬ InTemp F j a := by
  have hoff {i : Nat} (hi : i < CC_TEMP_SLOTS) :
      (BitVec.ofInt 32 (-8 * ((i : Int) + 1))).signExtend 64 = -BitVec.ofNat 64 (8 * (i + 1)) := by
    apply eq_of_toInt_eq
    change i < 16 at hi
    rw [toInt_signExtend_of_le (by decide), toInt_ofInt, toInt_neg, toInt_ofNat']
    simp only [Int.bmod_def]
    omega
  unfold InTemp Within temp_addr at *
  rw [hoff hk] at ha
  rw [hoff hj]
  change k < 16 at hk
  change j < 16 at hj
  bv_omega

theorem as_type_zext (t : Ty) (v : BitVec 64) :
    as_type (of_ty t) ((width_of (of_ty t).size).zext v) = as_type (of_ty t) v := by
  have hsame : ((width_of (of_ty t).size).zext v).setWidth t.width = v.setWidth t.width := by
    obtain ⟨rank, unsigned⟩ := t
    cases rank with
    | char => exact Width.setWidth_zext .w8 v
    | short => exact Width.setWidth_zext .w16 v
    | int => exact Width.setWidth_zext .w32 v
    | long => exact Width.setWidth_zext .w64 v
  rw [as_type_eq, as_type_eq, hsame]

variable [DecidableEq X]

/-- Writing a variable's place is assigning the variable. -/
theorem HoldsStore.assign (hplaced : Placed F V) (h : HoldsStore F V σ m) (x : X) {v : Int}
    (hv : (V.decl x).Holds v) :
    HoldsStore F V (Function.update σ x v)
      (x64.write m (var_addr F V x) (var_width V x) (BitVec.ofInt 64 v)) := by
  intro y
  by_cases hyx : y = x
  · subst hyx
    rw [Function.update_self, x64.read_write_same]
    refine ⟨hv, ?_⟩
    rw [var_width, as_type_zext, as_type_ofInt, c11.convert_of_holds hv]
  · rw [Function.update_of_ne hyx, x64.read_write_apart (hplaced.apart y x hyx)]
    exact h y

omit [DecidableEq X] in

/-- An assignment changes its variable only. -/
theorem kept_assign (x : X) (v : BitVec 64) :
    Kept F V lo hi m (x64.write m (var_addr F V x) (var_width V x) v) :=
  fun _ hvar _ => x64.write_of_not_lt (hvar x)

omit [DecidableEq X] in

/-- Writing a temporary keeps every variable. -/
theorem HoldsStore.set_temp (hplaced : Placed F V) (h : HoldsStore F V σ m) {k : Nat} (hk : k < CC_TEMP_SLOTS)
    (v : BitVec 64) : HoldsStore F V σ (x64.write m (temp_addr F k) .w64 v) := by
  intro x
  have hread : x64.read (x64.write m (temp_addr F k) .w64 v) (var_addr F V x) (var_width V x) =
      x64.read m (var_addr F V x) (var_width V x) := x64.read_write_apart (hplaced.temp_apart x k hk)
  rw [hread]
  exact h x

omit [DecidableEq X] in
theorem kept_set_temp {k : Nat} (hlo : lo ≤ k) (hhi : k < hi) (v : BitVec 64) :
    Kept F V lo hi m (x64.write m (temp_addr F k) .w64 v) :=
  fun _ _ htemp => x64.write_of_not_lt (htemp k hlo hhi)

omit [DecidableEq X] in

/-- A temporary outside of the range that was used is as it was. -/
theorem Kept.read_temp (hplaced : Placed F V) (h : Kept F V lo hi m m') {k : Nat} (hk : k < CC_TEMP_SLOTS)
    (hhi : hi ≤ k) : x64.read m' (temp_addr F k) .w64 = x64.read m (temp_addr F k) .w64 := by
  refine x64.read_congr_within fun a ha => h a (fun x hx => hplaced.temp_apart x k hk a hx ha) fun j _ hj => ?_
  exact temp_slots_apart hk (by omega) (by omega) ha

end Memory

end fable.cc
