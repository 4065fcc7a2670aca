import Mathlib.Init

/-! Computations that can fail, keep a state and put out a list. -/

/-- A computation from a state: an error, or a value, what it put out and the
    state after it. -/
def Output (S W E A : Type) : Type := S → Except E (A × List W × S)

namespace Output

variable {S W E A B : Type}

protected def pure (a : A) : Output S W E A := fun s => .ok (a, [], s)

protected def bind (x : Output S W E A) (f : A → Output S W E B) : Output S W E B := fun s =>
  match x s with
  | .error e => .error e
  | .ok (a, out, s) =>
    match f a s with
    | .error e => .error e
    | .ok (b, out', s) => .ok (b, out ++ out', s)

instance : Monad (Output S W E) where
  pure := Output.pure
  bind := Output.bind

protected theorem bind_assoc {C : Type} (x : Output S W E A) (f : A → Output S W E B) (g : B → Output S W E C) :
    (x.bind f).bind g = x.bind fun a => (f a).bind g := by
  funext s
  unfold Output.bind
  cases x s with
  | error e => rfl
  | ok r =>
    obtain ⟨a, out, t⟩ := r
    dsimp only
    cases f a t with
    | error e => rfl
    | ok r =>
      obtain ⟨b, out', u⟩ := r
      dsimp only
      cases g b u with
      | error e => rfl
      | ok r => simp

/-- Put one item out. -/
def tell (w : W) : Output S W E Unit := fun s => .ok ((), [w], s)

def get : Output S W E S := fun s => .ok (s, [], s)

def modify (f : S → S) : Output S W E Unit := fun s => .ok ((), [], f s)

def fail (e : E) : Output S W E A := fun _ => .error e

/-- The computation ends well, with this value, output and state. -/
def Gives (x : Output S W E A) (s : S) (a : A) (out : List W) (s' : S) : Prop := x s = .ok (a, out, s')

@[simp] theorem gives_pure {s s' : S} {a a' : A} {out} :
    (pure a : Output S W E A).Gives s a' out s' ↔ a = a' ∧ out = [] ∧ s = s' := by
  simp only [Gives, pure, Output.pure, Except.ok.injEq, Prod.mk.injEq]
  constructor
  · rintro ⟨ha, hout, hs⟩
    exact ⟨ha, hout.symm, hs⟩
  · rintro ⟨ha, hout, hs⟩
    exact ⟨ha, hout.symm, hs⟩

/-- A result of two steps in a row splits at the state between them, and so does the
    output. -/
theorem gives_bind {x} {f : A → Output S W E B} {s s' : S} {b : B} {out} :
    (x >>= f).Gives s b out s' ↔
      ∃ a out₁ t out₂, x.Gives s a out₁ t ∧ (f a).Gives t b out₂ s' ∧ out = out₁ ++ out₂ := by
  simp only [Gives, bind, Output.bind]
  constructor
  · intro h
    cases hx : x s with
    | error e =>
      rw [hx] at h
      cases h
    | ok r =>
      obtain ⟨a, out₁, t⟩ := r
      rw [hx] at h
      simp only at h
      cases hf : f a t with
      | error e =>
        rw [hf] at h
        cases h
      | ok r =>
        obtain ⟨b', out₂, u⟩ := r
        rw [hf] at h
        cases h
        exact ⟨a, out₁, t, out₂, rfl, hf, rfl⟩
  · rintro ⟨a, out₁, t, out₂, hx, hf, rfl⟩
    simp only [hx, hf]

@[simp] theorem gives_tell {s s' : S} {w : W} {u : Unit} {out} :
    (tell w : Output S W E Unit).Gives s u out s' ↔ out = [w] ∧ s = s' := by
  simp only [Gives, tell, Except.ok.injEq, Prod.mk.injEq, true_and]
  exact and_congr_left' eq_comm

@[simp] theorem gives_get {s s' a : S} {out} :
    (get : Output S W E S).Gives s a out s' ↔ a = s ∧ out = [] ∧ s = s' := by
  simp only [Gives, get, Except.ok.injEq, Prod.mk.injEq]
  exact and_congr eq_comm (and_congr_left' eq_comm)

@[simp] theorem gives_modify {s s' : S} {f} {u : Unit} {out} :
    (modify f : Output S W E Unit).Gives s u out s' ↔ out = [] ∧ f s = s' := by
  simp only [Gives, modify, Except.ok.injEq, Prod.mk.injEq, true_and]
  exact and_congr_left' eq_comm

theorem gives_of_get_bind {f : S → Output S W E B} {s s' : S} {b : B} {out} (h : (get >>= f).Gives s b out s') :
    (f s).Gives s b out s' := by
  obtain ⟨_, _, _, _, hget, hrest, rfl⟩ := gives_bind.mp h
  obtain ⟨rfl, rfl, rfl⟩ := gives_get.mp hget
  exact hrest

theorem gives_of_modify_bind {g : S → S} {f : Unit → Output S W E B} {s s' : S} {b : B} {out}
    (h : (modify g >>= f).Gives s b out s') : (f ()).Gives (g s) b out s' := by
  obtain ⟨_, _, _, _, hmod, hrest, rfl⟩ := gives_bind.mp h
  obtain ⟨rfl, rfl⟩ := gives_modify.mp hmod
  exact hrest

@[simp] theorem gives_fail {s s' : S} {e : E} {a : A} {out} : (fail e : Output S W E A).Gives s a out s' ↔ False := by
  simp [Gives, fail]

/-- A relation of the states before and after, and of what is put out, that
    holds whenever the computation ends well. -/
structure Ensures (x : Output S W E A) (R : S → List W → S → Prop) : Prop where
  of_gives : ∀ {s a out s'}, x.Gives s a out s' → R s out s'

section Rules

variable {x : Output S W E A} {f : A → Output S W E B} {R R₁ R₂ : S → List W → S → Prop}

/-- A relation may be weakened. -/
theorem Ensures.mono (h : x.Ensures R₁) (hle : ∀ {s out s'}, R₁ s out s' → R s out s') : x.Ensures R :=
  ⟨fun hx => hle (h.of_gives hx)⟩

/-- Two steps in a row ensure what their relations compose to. -/
theorem Ensures.bind (hx : x.Ensures R₁) (hf : ∀ a, (f a).Ensures R₂)
    (htrans : ∀ {s out t out' s'}, R₁ s out t → R₂ t out' s' → R s (out ++ out') s') : (x >>= f).Ensures R := by
  constructor
  intro s b out s' h
  obtain ⟨a, out₁, t, out₂, hgx, hgf, rfl⟩ := gives_bind.mp h
  exact htrans (hx.of_gives hgx) ((hf a).of_gives hgf)

theorem ensures_pure (a : A) (hR : ∀ s, R s [] s) : (pure a : Output S W E A).Ensures R := by
  constructor
  intro s b out s' h
  obtain ⟨-, rfl, rfl⟩ := gives_pure.mp h
  exact hR s

theorem ensures_tell (w : W) (hR : ∀ s, R s [w] s) : (tell w : Output S W E Unit).Ensures R := by
  constructor
  intro s b out s' h
  obtain ⟨rfl, rfl⟩ := gives_tell.mp h
  exact hR s

theorem ensures_get (hR : ∀ s, R s [] s) : (get : Output S W E S).Ensures R := by
  constructor
  intro s b out s' h
  obtain ⟨-, rfl, rfl⟩ := gives_get.mp h
  exact hR s

theorem ensures_modify (g : S → S) (hR : ∀ s, R s [] (g s)) : (modify g : Output S W E Unit).Ensures R := by
  constructor
  intro s b out s' h
  obtain ⟨rfl, rfl⟩ := gives_modify.mp h
  exact hR s

theorem ensures_fail (e : E) : (fail e : Output S W E A).Ensures R := ⟨fun h => (gives_fail.mp h).elim⟩

end Rules

end Output
