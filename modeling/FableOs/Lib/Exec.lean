import Mathlib.Tactic

namespace fable.exec

/-- How a piece of imperative code ends: it returns, it stops the run early
    with a verdict and the state of that moment, or it does something the
    source language leaves undefined (an index outside its array). -/
inductive Outcome (E S A : Type) where
  | ok (value : A) (state : S)
  | stop (verdict : E) (state : S)
  | fault

def Outcome.value? {E S A : Type} : Outcome E S A → Option A
  | .ok a _ => some a
  | _ => none

/-- Code over a state `S` that may stop early with a verdict in `E`. -/
def Exec (E S A : Type) : Type := S → Outcome E S A

variable {E S A B : Type}

namespace Exec

instance : Monad (Exec E S) where
  pure value := fun s => .ok value s
  bind m f := fun s =>
    match m s with
    | .ok value s' => f value s'
    | .stop e s' => .stop e s'
    | .fault => .fault

def read : Exec E S S := fun s => .ok s s

def modify (f : S → S) : Exec E S Unit := fun s => .ok () (f s)

def stop (e : E) : Exec E S A := fun s => .stop e s

/-- Use a partial result; its absence is undefined behaviour of the source. -/
def ofOption (value : Option A) : Exec E S A := fun s =>
  match value with
  | some a => .ok a s
  | none => .fault

/-- An access the source makes without a test of its own: undefined behaviour
    unless the index is in bounds. -/
def inBounds (c : Prop) [Decidable c] : Exec E S Unit := fun s => if c then .ok () s else .fault

/-- `for (i = 0; i < n; i++) f(i);` -/
def forUp (f : Nat → Exec E S Unit) : Nat → Exec E S Unit
  | 0 => pure ()
  | n + 1 => do forUp f n; f n

/-- `for (i = n; i > 0; i--) f(i - 1);` -/
def forDown (f : Nat → Exec E S Unit) : Nat → Exec E S Unit
  | 0 => pure ()
  | n + 1 => do f n; forDown f n

/-- `n` iterations of `for (;;) body`. The result is `ok` when the loop is
    still running after all of them. -/
def loop (body : Exec E S Unit) : Nat → Exec E S Unit
  | 0 => pure ()
  | n + 1 => do body; loop body n

@[simp] theorem pure_apply (a : A) (s : S) : (pure a : Exec E S A) s = .ok a s := rfl

theorem bind_apply (m : Exec E S A) (f : A → Exec E S B) (s : S) :
    (m >>= f) s = match m s with
      | .ok value s' => f value s'
      | .stop e s' => .stop e s'
      | .fault => .fault := rfl

@[simp] theorem read_apply (s : S) : (read : Exec E S S) s = .ok s s := rfl

@[simp] theorem modify_apply (f : S → S) (s : S) : (modify f : Exec E S Unit) s = .ok () (f s) := rfl

@[simp] theorem ofOption_some (a : A) (s : S) : (ofOption (some a) : Exec E S A) s = .ok a s := rfl

@[simp] theorem inBounds_pos {c : Prop} [Decidable c] (h : c) (s : S) :
    (inBounds c : Exec E S Unit) s = .ok () s := if_pos h

theorem bind_eq_ok_iff {m} {f : A → Exec E S B} {s s' : S} {b : B} :
    (m >>= f) s = .ok b s' ↔ ∃ a mid, m s = .ok a mid ∧ f a mid = .ok b s' := by
  rw [bind_apply]
  cases m s <;> simp

end Exec

theorem Outcome.eq_ok_of_value {out : Outcome E S A} {a : A} (h : out.value? = some a) : ∃ s, out = .ok a s := by
  cases out with
  | ok b s => exact ⟨s, by rw [Option.some.inj h]⟩
  | stop e s | fault => cases h

open Exec

/-- The postcondition `Q` of a normal return and `R` of an early stop. Code
    that faults meets no postcondition. -/
def Outcome.Meets (Q : A → S → Prop) (R : E → S → Prop) : Outcome E S A → Prop
  | .ok a s => Q a s
  | .stop e s => R e s
  | .fault => False

/-- From every state in `P` the code ends without a fault, in `Q` when it
    returns and in `R` when it stops the run. -/
def Triple (P : S → Prop) (m : Exec E S A) (Q : A → S → Prop) (R : E → S → Prop) : Prop :=
  ∀ s, P s → (m s).Meets Q R

section Rules

variable {P P' : S → Prop} {Q : A → S → Prop} {Q' : B → S → Prop} {R : E → S → Prop}
variable {m : Exec E S A} {f : A → Exec E S B}

theorem Outcome.Meets.mono {out : Outcome E S A} {Q₁ Q₂ R₁ R₂} (h : out.Meets Q₁ R₁) (hq : ∀ a s, Q₁ a s → Q₂ a s)
    (hr : ∀ e s, R₁ e s → R₂ e s) : out.Meets Q₂ R₂ := by
  cases out with
  | ok a s => exact hq a s h
  | stop e s => exact hr e s h
  | fault => exact h

theorem Outcome.Meets.bind {s : S} (hm : (m s).Meets Q R) (hf : ∀ a s', Q a s' → (f a s').Meets Q' R) :
    ((m >>= f) s).Meets Q' R := by
  rw [bind_apply]
  cases hout : m s with
  | ok a s' => rw [hout] at hm; exact hf a s' hm
  | stop e s' | fault => rw [hout] at hm; exact hm

theorem Outcome.Meets.read_bind {f} {s : S} (h : (f s s).Meets Q' R) : ((Exec.read >>= f) s).Meets Q' R := h

theorem Outcome.Meets.modify_bind {g f} {s : S} (h : (f () (g s)).Meets Q' R) :
    ((Exec.modify g >>= f) s).Meets Q' R := h

theorem Outcome.Meets.ofOption_bind {value} {a : A} (hvalue : value = some a) {s : S} (h : (f a s).Meets Q' R) :
    ((Exec.ofOption value >>= f) s).Meets Q' R := by
  rw [hvalue]
  exact h

theorem Outcome.Meets.inBounds_bind {c : Prop} [Decidable c] (hc : c) {f} {s : S} (h : (f () s).Meets Q' R) :
    ((Exec.inBounds c >>= f) s).Meets Q' R := by
  rw [bind_apply, inBounds_pos hc]
  exact h

theorem Triple.bind (hm : Triple P m Q R) (hf : ∀ a, Triple (Q a) (f a) Q' R) :
    Triple P (m >>= f) Q' R :=
  fun s hs => (hm s hs).bind hf

theorem Triple.pure {a : A} (h : ∀ s, P s → Q a s) : Triple P (Pure.pure a : Exec E S A) Q R :=
  fun s hs => h s hs

/-- What one iteration preserves, every number of iterations preserves. -/
theorem Triple.loop {body} (h : Triple P body (fun _ => P) R) (n : Nat) :
    Triple P (Exec.loop body n) (fun _ => P) R := by
  induction n with
  | zero => exact Triple.pure fun _ hs => hs
  | succ n ih => exact Triple.bind h fun _ => ih

end Rules

section Loop

variable {body : Exec E S Unit}

theorem Exec.loop_succ_of_ok {n : Nat} {s s' : S} {u : Unit} (h : Exec.loop body n s = .ok u s') :
    Exec.loop body (n + 1) s = body s' := by
  induction n generalizing s with
  | zero =>
    cases h
    simp only [Exec.loop, bind_apply]
    cases body s' <;> rfl
  | succ n ih =>
    rw [Exec.loop, bind_eq_ok_iff] at h
    obtain ⟨a, mid, hmid, hrest⟩ := h
    rw [Exec.loop, bind_apply, hmid]
    exact ih hrest

/-- A loop that has stopped stays stopped when it is given more iterations. -/
theorem Exec.loop_stop_mono {n : Nat} {s s' : S} {e : E} (h : Exec.loop body n s = .stop e s') :
    ∀ k, n ≤ k → Exec.loop body k s = .stop e s' := by
  induction n generalizing s with
  | zero => cases h
  | succ n ih =>
    intro k hk
    obtain ⟨k, rfl⟩ : ∃ j, k = j + 1 := ⟨k - 1, by omega⟩
    simp only [Exec.loop, bind_apply] at h ⊢
    cases hb : body s with
    | ok a mid => rw [hb] at h; exact ih h k (by omega)
    | stop e' mid => rw [hb] at h; exact h
    | fault => rw [hb] at h; cases h

/-- A loop whose iterations keep an invariant and lower a measure stops, in a
    state that meets the stop condition. -/
theorem Exec.loop_stops {I : S → Prop} {R} (μ : S → Nat)
    (hbody : ∀ s, I s → (body s).Meets (fun _ s' => I s' ∧ μ s' < μ s) R) {s : S} (hs : I s) :
    ∃ e s', R e s' ∧ ∀ k, μ s < k → Exec.loop body k s = .stop e s' := by
  generalize hn : μ s = n
  induction n using Nat.strong_induction_on generalizing s with
  | _ n ih =>
    have h := hbody s hs
    cases hb : body s with
    | ok a mid =>
      rw [hb] at h
      obtain ⟨e, s', hr, hstop⟩ := ih (μ mid) (by have := h.2; omega) h.1 rfl
      refine ⟨e, s', hr, fun k hk => ?_⟩
      obtain ⟨k, rfl⟩ : ∃ j, k = j + 1 := ⟨k - 1, by omega⟩
      simp only [Exec.loop, bind_apply, hb]
      exact hstop k (by have := h.2; omega)
    | stop e mid =>
      rw [hb] at h
      refine ⟨e, mid, h, fun k hk => ?_⟩
      obtain ⟨k, rfl⟩ : ∃ j, k = j + 1 := ⟨k - 1, by omega⟩
      simp only [Exec.loop, bind_apply, hb]
    | fault => rw [hb] at h; exact h.elim

end Loop

end fable.exec
