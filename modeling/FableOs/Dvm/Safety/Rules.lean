import FableOs.Dvm.Invariant

namespace fable.dvm

open fable.exec

variable {σ A B : Type}

/-- A status that says something about the program's own behaviour, as opposed
    to one of the interpreter's two defences against a malformed image. -/
abbrev mild (e : dvm_status_t) : Prop := e ≠ .DVM_TRAP_BADOP ∧ e ≠ .DVM_TRAP_PC

/-- A check that never gives a status of the other sort. -/
def Mild (verdict : Except (dvm_status_t × String) Unit) : Prop :=
  ∀ e text, verdict = .error (e, text) → mild e

theorem Mild.ok : Mild (.ok ()) := by
  intro e text h
  cases h

theorem Mild.error {e} {text : String} (he : mild e) : Mild (.error (e, text)) := by
  intro e' text' h
  cases h
  exact he

/-- A refusal under a condition is mild when its code is. -/
theorem Mild.refuse {bad : Prop} [Decidable bad] {e} {text : String} (he : mild e) : Mild (refuse bad (e, text)) := by
  unfold fable.refuse
  split
  · exact Mild.error he
  · exact Mild.ok

/-- Two checks in a row are mild when both are. -/
theorem Mild.bind {v w} (hv : Mild v) (hw : Mild w) : Mild (v >>= fun _ => w) := by
  intro e text h
  cases hcase : v with
  | ok u => rw [hcase] at h; exact hw e text h
  | error why =>
    rw [hcase] at h
    cases h
    exact hv e text hcase

/-- `Inv` of the core of a run state. -/
def Sound (env : env_t σ) (steps debt : Nat) (st : run_t σ) : Prop := Inv env steps debt st.core

/-- How an instruction may stop a run. A device access that was charged and
    not made needs an excuse. -/
structure Stopped (env : env_t σ) (steps : Nat) (excuse : Prop) (e : dvm_status_t) (st : run_t σ) : Prop where
  status : mild e
  sound : ∃ debt, Inv env steps debt st.core ∧ (debt = 0 ∨ debt = 1 ∧ excuse)

/-- From every sound state the code ends in a sound state with a result in
    `Q`, or stops the run with every charged access made. -/
def Yields (env : env_t σ) (steps : Nat) (m : M σ A) (Q : A → Prop) : Prop :=
  Triple (Sound env steps 0) m (fun a st => Sound env steps 0 st ∧ Q a) (Stopped env steps False)

/-- The code returns and leaves the core of the state alone. -/
def Quiet (m : M σ A) : Prop := ∀ st, ∃ a st', m st = .ok a st' ∧ st'.core = st.core

section Quiet

variable {off n : Nat}

theorem Quiet.pure (a : A) : Quiet (Pure.pure a : M σ A) := fun st => ⟨a, st, rfl, rfl⟩

/-- Two quiet steps in a row are quiet. -/
theorem Quiet.bind {m} {f : A → M σ B} (hm : Quiet m) (hf : ∀ a, Quiet (f a)) : Quiet (m >>= f) := by
  intro st
  obtain ⟨a, mid, hmid, hcore⟩ := hm st
  obtain ⟨b, st', hst', hcore'⟩ := hf a mid
  refine ⟨b, st', ?_, hcore'.trans hcore⟩
  rw [Exec.bind_apply, hmid]
  exact hst'

/-- An update that leaves the core alone is quiet. -/
theorem Quiet.modify {f} (hf : ∀ st, (f st).core = st.core) :
    Quiet (Exec.modify f : M σ Unit) := fun st => ⟨(), f st, rfl, hf st⟩

theorem Quiet.ite {c : Prop} [Decidable c] {m m' : M σ A} (hm : Quiet m) (hm' : Quiet m') :
    Quiet (if c then m else m') := by
  split
  · exact hm
  · exact hm'

theorem trace_budget_quiet (env : env_t σ) : Quiet (trace_budget env) := by
  apply Quiet.modify
  intro st
  split <;> rfl

theorem tline_quiet (env : env_t σ) (level : Int) : Quiet (tline env level) :=
  Quiet.ite (trace_budget_quiet env) (Quiet.pure ())

theorem set_flags_quiet (zero below : Bool) : Quiet (set_flags zero below : M σ Unit) :=
  Quiet.modify fun _ => rfl

theorem set_zero_quiet (zero : Bool) : Quiet (set_zero zero : M σ Unit) := Quiet.modify fun _ => rfl

theorem raise_hwm_quiet (stop : Nat) : Quiet (raise_hwm stop : M σ Unit) := Quiet.modify fun _ => rfl

/-- A failing service leaves a message and a trace line, no more. -/
theorem sys_fail_quiet (env : env_t σ) (name why : String) : Quiet (sys_fail env name why) := by
  refine Quiet.bind (Quiet.modify ?_) fun _ => tline_quiet env DVM_TRACE_IO
  intro st
  simp only [run_t.core]

/-- A load inside the scratch does not stop. -/
theorem mem_get_quiet (h : off < DVM_MEM_SIZE) : Quiet (mem_get off : M σ UInt8) := by
  intro st
  obtain ⟨b, hb⟩ := st.mem.get?_isSome_of_lt h
  refine ⟨b, st, ?_, rfl⟩
  simp [mem_get, Exec.bind_apply, hb]

/-- A store inside the scratch does not stop. -/
theorem mem_set_quiet (h : off < DVM_MEM_SIZE) (b : UInt8) : Quiet (mem_set off b : M σ Unit) := by
  intro st
  refine ⟨(), { st with mem := st.mem.set off b }, ?_, rfl⟩
  simp [mem_set, Exec.bind_apply, Exec.inBounds_pos h]

/-- A block that ends inside the scratch is read without a stop. -/
theorem mem_read_quiet (h : off + n ≤ DVM_MEM_SIZE) : Quiet (mem_read off n : M σ (List UInt8)) := by
  induction n generalizing off with
  | zero => exact Quiet.pure []
  | succ n ih =>
    refine Quiet.bind (mem_get_quiet (by omega)) fun b => ?_
    exact Quiet.bind (ih (by omega)) fun rest => Quiet.pure _

/-- A block that ends inside the scratch is written without a stop. -/
theorem mem_write_quiet {bytes : List UInt8} (h : off + bytes.length ≤ DVM_MEM_SIZE) :
    Quiet (mem_write off bytes : M σ Unit) := by
  induction bytes generalizing off with
  | nil => exact Quiet.pure ()
  | cons b rest ih =>
    rw [List.length_cons] at h
    exact Quiet.bind (mem_set_quiet (by omega) b) fun _ => ih (by omega)

theorem copy_byte_quiet {dst src i : Nat} (hi : i < n) (hdst : dst + n ≤ DVM_MEM_SIZE) (hsrc : src + n ≤ DVM_MEM_SIZE) :
    Quiet (copy_byte dst src i : M σ Unit) :=
  Quiet.bind (mem_get_quiet (by omega)) fun b => mem_set_quiet (by omega) b

/-- A counting loop is quiet when each of its rounds is. -/
theorem forUp_quiet {f : Nat → M σ Unit} (hf : ∀ i, i < n → Quiet (f i)) : Quiet (Exec.forUp f n) := by
  induction n with
  | zero => exact Quiet.pure ()
  | succ n ih => exact Quiet.bind (ih fun i hi => hf i (by omega)) fun _ => hf n (by omega)

theorem forDown_quiet {f : Nat → M σ Unit} (hf : ∀ i, i < n → Quiet (f i)) : Quiet (Exec.forDown f n) := by
  induction n with
  | zero => exact Quiet.pure ()
  | succ n ih => exact Quiet.bind (hf n (by omega)) fun _ => ih fun i hi => hf i (by omega)

/-- Copying between two blocks of the scratch, in either direction, is quiet. -/
theorem copy_span_quiet {dst src : Nat} (hdst : dst + n ≤ DVM_MEM_SIZE) (hsrc : src + n ≤ DVM_MEM_SIZE) :
    Quiet (copy_span dst src n : M σ Unit) :=
  Quiet.ite (forUp_quiet fun _ hi => copy_byte_quiet hi hdst hsrc)
    (forDown_quiet fun _ hi => copy_byte_quiet hi hdst hsrc)

/-- Comparing a block of the scratch with a text is quiet. -/
theorem match_len_quiet {needle : List UInt8} (h : off + needle.length ≤ DVM_MEM_SIZE) :
    Quiet (match_len off needle : M σ Nat) := by
  induction needle generalizing off with
  | nil => exact Quiet.pure 0
  | cons c rest ih =>
    rw [List.length_cons] at h
    refine Quiet.bind (mem_get_quiet (by omega)) fun b => Quiet.ite ?_ (Quiet.pure 0)
    exact Quiet.bind (ih (by omega)) fun k => Quiet.pure _

end Quiet

section Yields

variable {env : env_t σ} {steps : Nat} {Q : A → Prop} {Q' : B → Prop}
variable {m : M σ A} {st : run_t σ} {excuse : Prop} {text : String}
variable {e : dvm_status_t} {verdict : Except (dvm_status_t × String) Unit}

/-- What is quiet keeps the invariant and cannot stop. -/
theorem Quiet.meets (hm : Quiet m) {debt : Nat} {R} (h : Sound env steps debt st) :
    (m st).Meets (fun _ => Sound env steps debt) R := by
  obtain ⟨a, st', hst', hcore⟩ := hm st
  rw [hst']
  show Inv env steps debt st'.core
  rw [hcore]
  exact h

/-- A stop that is excused stays so under a wider excuse. -/
theorem Stopped.weaken {excuse' : Prop} (h : Stopped env steps excuse e st) (himp : excuse → excuse') :
    Stopped env steps excuse' e st := by
  obtain ⟨debt, hinv, hdebt⟩ := h.sound
  exact ⟨h.status, debt, hinv, hdebt.imp_right fun hex => ⟨hex.1, himp hex.2⟩⟩

/-- A quiet step yields something, of which nothing is known. -/
theorem Yields.quiet (hm : Quiet m) : Yields env steps m fun _ => True := by
  intro st hst
  exact (hm.meets hst).mono (fun _ _ h => ⟨h, trivial⟩) fun _ _ h => h

theorem Yields.pure {a : A} (ha : Q a) : Yields env steps (Pure.pure a : M σ A) Q := fun _ hst => ⟨hst, ha⟩

/-- Two steps in a row: what the first yields is what the second may use. -/
theorem Yields.bind {f} (hm : Yields env steps m Q) (hf : ∀ a, Q a → Yields env steps (f a) Q') :
    Yields env steps (m >>= f) Q' := by
  intro st hst
  exact (hm st hst).bind fun a st' h => hf a h.2 st' h.1

/-- A quiet step may stand in front of any other. -/
theorem Yields.then {f} (hm : Quiet m) (hf : ∀ a, Yields env steps (f a) Q') : Yields env steps (m >>= f) Q' :=
  Yields.bind (Yields.quiet hm) fun a _ => hf a

/-- A mild trap stops in a state where the invariant holds. -/
theorem trap_meets {P} (hst : Sound env steps 0 st) (he : mild e) :
    ((trap env e text : M σ A) st).Meets P (Stopped env steps excuse) :=
  ⟨he, 0, hst, Or.inl rfl⟩

theorem Yields.of_trap (he : mild e) : Yields env steps (trap env e text : M σ A) Q :=
  fun _ hst => trap_meets hst he

theorem require_of_ok (h : verdict = .ok ()) : require env verdict = Pure.pure () := by
  rw [h]
  rfl

/-- A check either passes and changes nothing, or stops with a mild trap. -/
theorem require_meets (hmild : Mild verdict) (hst : Sound env steps 0 st) :
    (require env verdict st).Meets (fun _ st' => st' = st ∧ verdict = .ok ()) (Stopped env steps excuse) := by
  cases hcase : verdict with
  | ok u => exact ⟨rfl, rfl⟩
  | error why =>
    obtain ⟨e, text⟩ := why
    exact trap_meets hst (hmild e text hcase)

theorem Yields.of_require (hmild : Mild verdict) :
    Yields env steps (require env verdict) fun _ => verdict = .ok () := by
  intro st hst
  refine (require_meets hmild hst).mono ?_ fun _ _ h => h
  rintro _ _ ⟨rfl, hok⟩
  exact ⟨hst, hok⟩

/-- A gate that reads the state: what follows it may use that the verdict was good. -/
theorem Yields.gate {verdict : run_t σ → Except (dvm_status_t × String) Unit} {rest : run_t σ → M σ A}
    (hmild : ∀ st, Mild (verdict st))
    (hrest : ∀ st, Sound env steps 0 st → verdict st = .ok () →
      (rest st st).Meets (fun a st' => Sound env steps 0 st' ∧ Q a) (Stopped env steps False)) :
    Yields env steps (do let st ← Exec.read; require env (verdict st); rest st) Q := by
  intro st hst
  refine Outcome.Meets.bind (m := require env (verdict st)) (require_meets (hmild st) hst) ?_
  rintro _ _ ⟨rfl, hok⟩
  exact hrest _ hst hok

/-- A service that asks for a backend's hook goes on only with the hook. -/
theorem Yields.hook {H : Type} {hook : Option H} :
    Yields env steps (sys_hook env hook text) fun h => hook = some h := by
  cases hook with
  | none => exact Yields.of_trap (by decide)
  | some h => exact Yields.pure rfl

/-- An access beside the ports, the memory-mapped registers and the configuration
    space, which the policy permits, is made without a stop. -/
theorem Yields.of_perform {e} {act : σ → A × σ} (hio : e.is_io = false) (hpermitted : Permitted env.plat env.pol e)
    (hchecked : ∀ path, e.path? = some path → PathChecked env.pol path) :
    Yields env steps (perform e act) fun _ => True :=
  fun _ hst => ⟨Inv.make_free hst hio hpermitted hchecked, trivial⟩

end Yields

end fable.dvm
