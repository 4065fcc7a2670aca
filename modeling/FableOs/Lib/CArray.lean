import Mathlib.Tactic

namespace fable

open List

/-- A C array of `n` elements: a value for each index below `n` and nothing
    anywhere else. -/
structure CArray (A : Type) (n : Nat) where
  elems : Fin n → A
  deriving DecidableEq

namespace CArray

variable {A : Type} {n : Nat}

def replicate (n : Nat) (value : A) : CArray A n := ⟨fun _ => value⟩

/-- An array whose first elements are listed and whose others are `rest`. -/
def ofList (n : Nat) (values : List A) (rest : A) : CArray A n := ⟨fun i => values.getD i.val rest⟩

/-- The element at an index, absent outside the array. -/
def get? (a : CArray A n) (i : Nat) : Option A :=
  if h : i < n then some (a.elems ⟨i, h⟩) else none

/-- A store; outside the array it has no effect, so a caller that may be out
    of bounds tests the index first. -/
def set (a : CArray A n) (i : Nat) (value : A) : CArray A n :=
  ⟨fun j => if j.val = i then value else a.elems j⟩

/-- The first `count` elements. -/
def front (a : CArray A n) (count : Nat) : List A := (List.ofFn a.elems).take count

/-- The elements of a span. -/
def slice (a : CArray A n) (off count : Nat) : List A := (a.front (off + count)).drop off

/-- Values stored one after the other from an index on. -/
def write (a : CArray A n) (off : Nat) : List A → CArray A n
  | [] => a
  | value :: rest => (a.set off value).write (off + 1) rest

theorem get?_of_lt (a : CArray A n) {i : Nat} (h : i < n) : a.get? i = some (a.elems ⟨i, h⟩) := by
  simp [get?, h]

theorem get?_isSome_of_lt (a : CArray A n) {i : Nat} (h : i < n) : ∃ value, a.get? i = some value :=
  ⟨_, a.get?_of_lt h⟩

theorem lt_of_get?_eq_some {a : CArray A n} {i : Nat} {value : A} (h : a.get? i = some value) : i < n := by
  unfold get? at h
  split at h
  · assumption
  · cases h

theorem get?_set (a : CArray A n) (i j : Nat) (value : A) :
    (a.set i value).get? j = if j = i ∧ j < n then some value else a.get? j := by
  unfold get? set
  by_cases hij : j = i
  · subst hij
    by_cases hj : j < n <;> simp [hj]
  · simp [hij]

/-- A block that was written is at its place, and the rest is as it was. -/
theorem get?_write (a : CArray A n) (off : Nat) (values : List A) (hspan : off + values.length ≤ n) (j : Nat) :
    (a.write off values).get? j =
      if off ≤ j ∧ j < off + values.length then values[j - off]? else a.get? j := by
  induction values generalizing a off with
  | nil =>
    simp only [write, length_nil, Nat.add_zero]
    rw [if_neg (by omega)]
  | cons value rest ih =>
    simp only [length_cons] at hspan ⊢
    rw [write, ih (a.set off value) (off + 1) (by omega), get?_set]
    by_cases hj : j = off
    · subst hj
      have hlt : j < n := by omega
      have hpast : ¬ (j + 1 ≤ j ∧ j < j + 1 + rest.length) := by omega
      have hfirst : j ≤ j ∧ j < j + (rest.length + 1) := by omega
      simp only [hpast, hfirst, hlt, Nat.sub_self, getElem?_cons_zero, and_self, if_true, if_false]
    · have hne : ¬ (j = off ∧ j < n) := fun h => hj h.1
      rw [if_neg hne]
      by_cases hin : off + 1 ≤ j ∧ j < off + 1 + rest.length
      · rw [if_pos hin, if_pos (by omega)]
        have hsub : j - off = (j - (off + 1)) + 1 := by omega
        rw [hsub, getElem?_cons_succ]
      · rw [if_neg hin, if_neg (by omega)]

theorem length_front_le (a : CArray A n) (count : Nat) : (a.front count).length ≤ n := by
  simp only [front, length_take, length_ofFn]
  omega

theorem slice_zero (a : CArray A n) (off : Nat) : a.slice off 0 = [] := by
  simp only [slice, Nat.add_zero, front]
  exact drop_eq_nil_of_le (by simp)

theorem slice_succ (a : CArray A n) {off count : Nat} {value : A} (h : a.get? off = some value)
    (hspan : off + (count + 1) ≤ n) : a.slice off (count + 1) = value :: a.slice (off + 1) count := by
  have hlt := lt_of_get?_eq_some h
  have hlen : off < (a.front (off + (count + 1))).length := by
    simp only [front, length_take, length_ofFn]
    omega
  have hvalue : (a.front (off + (count + 1)))[off] = value := by
    rw [get?_of_lt a hlt] at h
    simpa [front] using h
  have hend : off + 1 + count = off + (count + 1) := by omega
  rw [slice, slice, drop_eq_getElem_cons hlen, hvalue, hend]

theorem length_slice (a : CArray A n) {off count : Nat} (h : off + count ≤ n) : (a.slice off count).length = count := by
  simp only [slice, front, length_drop, length_take, length_ofFn]
  omega

/-- The front holds what is at the first indices. -/
theorem mem_front_iff (a : CArray A n) (count : Nat) (value : A) :
    value ∈ a.front count ↔ ∃ i, i < count ∧ a.get? i = some value := by
  unfold front get?
  rw [mem_take_iff_getElem]
  constructor
  · rintro ⟨i, hi, rfl⟩
    simp only [length_ofFn] at hi
    exact ⟨i, by omega, by simp [show i < n by omega]⟩
  · rintro ⟨i, hi, h⟩
    split at h
    · next hn =>
      cases h
      exact ⟨i, by simp; omega, by simp⟩
    · cases h

theorem getElem?_front (a : CArray A n) (count i : Nat) :
    (a.front count)[i]? = if i < count then a.get? i else none := by
  unfold front get?
  rw [getElem?_take]
  split
  · rw [List.getElem?_ofFn]
  · rfl

/-- A block that was written is read back. -/
theorem slice_write (a : CArray A n) (off : Nat) (values : List A) (h : off + values.length ≤ n) :
    (a.write off values).slice off values.length = values := by
  refine ext_getElem? fun i => ?_
  by_cases hi : i < values.length
  · rw [slice, getElem?_drop, getElem?_front, if_pos (by omega), get?_write a off values h, if_pos (by omega),
      Nat.add_sub_cancel_left]
  · rw [getElem?_eq_none (by rw [length_slice _ h]; omega), getElem?_eq_none (by omega)]

theorem front_set_self (a : CArray A n) {i : Nat} (h : i < n) (value : A) :
    (a.set i value).front (i + 1) = a.front i ++ [value] := by
  apply ext_getElem?
  intro j
  have hlen : (a.front i).length = i := by
    rw [front, length_take, length_ofFn]
    omega
  rw [getElem?_front, get?_set]
  rcases Nat.lt_trichotomy j i with hlt | rfl | hgt
  · rw [if_pos (by omega), if_neg (by omega), getElem?_append_left (by omega), getElem?_front, if_pos hlt]
  · rw [if_pos (by omega), if_pos ⟨rfl, h⟩, getElem?_append_right (by omega), hlen]
    simp
  · rw [if_neg (by omega), getElem?_eq_none]
    simp only [length_append, length_singleton, hlen]
    omega

theorem get?_ofList {values} {rest : A} {i : Nat} (h : i < n) :
    (ofList n values rest).get? i = some (values.getD i rest) := by
  rw [get?_of_lt _ h]
  rfl

theorem front_ofList {values} {rest : A} (h : values.length ≤ n) :
    (ofList n values rest).front n = values ++ List.replicate (n - values.length) rest := by
  apply ext_getElem?
  intro i
  rw [getElem?_front]
  by_cases hi : i < n
  · rw [if_pos hi, get?_ofList hi]
    by_cases hv : i < values.length
    · rw [getElem?_append_left hv, getD_eq_getElem?_getD, getElem?_eq_getElem hv]
      rfl
    · rw [getElem?_append_right (by omega), getElem?_replicate_of_lt (by omega),
        getD_eq_getElem?_getD, getElem?_eq_none (by omega)]
      rfl
  · rw [if_neg hi, getElem?_eq_none]
    simp only [length_append, length_replicate]
    omega

end CArray

section Except

variable {E A B : Type}

/-- A test that ends a checking function with a verdict. -/
def refuse (bad : Prop) [Decidable bad] (e : E) : Except E Unit := if bad then .error e else .ok ()

@[simp] theorem refuse_eq_ok_iff {bad : Prop} [Decidable bad] {e : E} {u : Unit} :
    refuse bad e = .ok u ↔ ¬ bad := by
  unfold refuse
  split <;> simp_all

theorem except_bind_eq_ok_iff {x} {f : A → Except E B} {b : B} :
    (x >>= f) = .ok b ↔ ∃ a, x = .ok a ∧ f a = .ok b := by
  cases x <;> simp [Bind.bind, Except.bind]

/-- The same for a step that only checks. -/
theorem except_seq_eq_ok_iff {x : Except E Unit} {y : Except E B} {b : B} :
    (x >>= fun _ => y) = .ok b ↔ x = .ok () ∧ y = .ok b := by
  rw [except_bind_eq_ok_iff]
  exact ⟨fun ⟨_, hx, hy⟩ => ⟨hx, hy⟩, fun ⟨hx, hy⟩ => ⟨(), hx, hy⟩⟩

theorem mapError_eq_ok_iff {E' : Type} {f : E → E'} {x : Except E A} {a : A} : x.mapError f = .ok a ↔ x = .ok a := by
  cases x with
  | error e | ok b => simp [Except.mapError]

theorem exists_of_isOk {x : Except E A} (h : x.isOk = true) : ∃ a, x = .ok a := by
  cases x with
  | ok a => exact ⟨a, rfl⟩
  | error e => cases h

/-- `for (i = start; ...) check(i, xs[i])` over the elements of a list, ending
    at the first refusal. -/
def checkFrom (check : Nat → A → Except E Unit) : Nat → List A → Except E Unit
  | _, [] => .ok ()
  | i, a :: rest => do check i a; checkFrom check (i + 1) rest

/-- A check over a list passes when it passes at every place. -/
theorem checkFrom_eq_ok_iff {check : Nat → A → Except E Unit} {good : A → Prop}
    (hgood : ∀ i a, check i a = .ok () ↔ good a) {i : Nat} {xs} {u : Unit} :
    checkFrom check i xs = .ok u ↔ ∀ a ∈ xs, good a := by
  induction xs generalizing i with
  | nil => simp [checkFrom]
  | cons a rest ih =>
    simp only [checkFrom, except_bind_eq_ok_iff, hgood, ih, mem_cons, forall_eq_or_imp]
    simp

@[simp] theorem checkFrom_refuse_eq_ok_iff {bad : A → Prop} [DecidablePred bad] {e : Nat → A → E} {i : Nat} {xs}
    {u : Unit} : checkFrom (fun j a => refuse (bad a) (e j a)) i xs = .ok u ↔ ∀ a ∈ xs, ¬ bad a := by
  apply checkFrom_eq_ok_iff
  intro j a
  exact refuse_eq_ok_iff

end Except

end fable
