import FableOs.Apps.Cap

namespace fable.apps

/-! The handlers of a document: compiled statement blocks, and what running one
asks of the capability broker. -/

abbrev APP_MAX_IF_DEPTH : Nat := 8
abbrev APP_MAX_STEPS : Nat := 512

section Documents

inductive app_stmt_t where
  | AS_SET (tgt : target_t) (expr : Nat)
  | AS_IF (expr then_first then_count else_first else_count : Nat)
  | AS_STOP
  | AS_CALL (tgt : Nat)
  deriving DecidableEq, Repr

/-- A compiled call: the expressions of the arguments that were supplied. -/
structure app_call_t where
  cap : Int
  hz : Option Nat
  ms : Option Nat
  amp : Option Nat
  wave : Option Nat
  into : Option target_t
  deriving DecidableEq, Repr

/-- A compiled document. `V` is what its handlers can read and write, that is
    its variables, its widgets and the random numbers to come; expressions are
    evaluated by `app_expr_eval` at the time snapshot of the event. -/
structure doc_t (V : Type) where
  stmt : List app_stmt_t
  call : List app_call_t
  eval : (env_ms : Nat) → (key : text_t) → (expr : Nat) → V → V × app_val_t
  put : target_t → app_val_t → V → V

end Documents

section Running

variable {V : Type}

/-- A request with its verdict. -/
structure ask_t where
  rq : app_cap_req_t
  verdict : Except refusal_t Unit

/-- What one event of the runtime works with. -/
structure event_env_t where
  app : Nat
  env_ms : Nat
  key : text_t
  audio : Bool

/-- The state while a handler runs, with the requests that it made. -/
structure exec_t (V : Type) where
  vars : V
  budget : Nat
  cap : cap_t
  asked : List ask_t

variable (d : doc_t V) (env : event_env_t)

def eval_arg (expr : Option Nat) (vars : V) : V × Option app_val_t :=
  match expr with
  | none => (vars, none)
  | some k => ((d.eval env.env_ms env.key k vars).1, some (d.eval env.env_ms env.key k vars).2)

/-- The request that a call statement makes, its arguments evaluated in order. -/
def request_of (c : app_call_t) (vars : V) : V × app_cap_req_t :=
  let (vars, hz) := eval_arg d env c.hz vars
  let (vars, ms) := eval_arg d env c.ms vars
  let (vars, amp) := eval_arg d env c.amp vars
  let (vars, wave) := eval_arg d env c.wave vars
  (vars, ⟨env.app, c.cap, env.env_ms, hz, ms, amp, wave, c.into⟩)

/-- `AS_CALL`: a refusal is shown in the `into` target at once. -/
def exec_call (c : app_call_t) (st : exec_t V) : exec_t V :=
  let (vars, rq) := request_of d env c st.vars
  match app_cap_request st.cap env.audio rq with
  | (cap, verdict) =>
    { st with
      cap := cap
      asked := st.asked ++ [⟨rq, verdict⟩]
      vars := match verdict, c.into with
        | .error why, some tgt => d.put tgt (.AV_STR why.brief) vars
        | _, _ => vars }

/-- One statement. `block` runs a nested block; the flag is its `return 1`. -/
def exec_stmt (block : Nat → Nat → exec_t V → Bool × exec_t V) (st : exec_t V) : app_stmt_t → Bool × exec_t V
  | .AS_STOP => (true, st)
  | .AS_SET tgt expr =>
    let (vars, v) := d.eval env.env_ms env.key expr st.vars
    (false, { st with vars := d.put tgt v vars })
  | .AS_CALL tgt =>
    match d.call[tgt]? with
    | none => (false, st)
    | some c => (false, exec_call d env c st)
  | .AS_IF expr then_first then_count else_first else_count =>
    let (vars, v) := d.eval env.env_ms env.key expr st.vars
    let st := { st with vars := vars }
    -- an error value counts as false
    if app_val_truthy v = some true then block then_first then_count st
    else if else_count ≠ 0 then block else_first else_count st
    else (false, st)

/-- The loop of `exec_block` from its `i`-th statement on. -/
def exec_from (block : Nat → Nat → exec_t V → Bool × exec_t V) (first : Nat) : Nat → Nat → exec_t V → Bool × exec_t V
  | 0, _, st => (false, st)
  | left + 1, i, st =>
    match d.stmt[first + i]?, st.budget with
    | none, _ => (true, st)
    | some _, 0 => (true, st)
    | some s, budget + 1 =>
      match exec_stmt d env block { st with budget := budget } s with
      | (true, st) => (true, st)
      | (false, st) => exec_from block first left (i + 1) st

/-- `levels` is how many more levels of nesting may be entered: a block deeper
    than `APP_MAX_IF_DEPTH` stops the handler. -/
def exec_block : (levels : Nat) → (first count : Nat) → exec_t V → Bool × exec_t V
  | 0, _, _, st => (true, st)
  | levels + 1, first, count, st => exec_from d env (exec_block levels) first count 0 st

end Running

section Asking

variable {V : Type} {d : doc_t V} {env : event_env_t}

/-- The slot is empty and the quiet window is over. -/
def Open (c : cap_t) (now : Nat) : Prop := c.pend = none ∧ ¬ Early c now

instance (c : cap_t) (now : Nat) : Decidable (Open c now) := by
  unfold Open
  infer_instance

/-- The request was for a sound that the machine can make: it was granted, or
    refused for the moment only. -/
def ask_t.competes (a : ask_t) : Bool :=
  match a.verdict with
  | .error (.fault _) => false
  | _ => true

def ask_t.granted (a : ask_t) : Bool :=
  match a.verdict with
  | .ok () => true
  | .error _ => false

/-- Requests made one after the other at one reading of the clock, and what
    they make of the broker. -/
inductive Asked (audio : Bool) (now : Nat) : cap_t → List ask_t → cap_t → Prop where
  | nil (c : cap_t) : Asked audio now c [] c
  | cons {c c' : cap_t} {rq : app_cap_req_t} {rest : List ask_t} (hnow : rq.now_ms = now)
      (hrest : Asked audio now (app_cap_request c audio rq).1 rest c') :
      Asked audio now c (⟨rq, (app_cap_request c audio rq).2⟩ :: rest) c'

theorem Asked.append {audio : Bool} {now : Nat} {c c' c'' asks more} (h : Asked audio now c asks c')
    (hmore : Asked audio now c' more c'') : Asked audio now c (asks ++ more) c'' := by
  induction h with
  | nil c => exact hmore
  | cons hnow hrest ih => exact .cons hnow (ih hmore)

/-- What a request does: a faulty one changes nothing; another one takes the
    slot if it is open and changes nothing if it is not. -/
theorem request_cases (c : cap_t) (audio : Bool) (rq : app_cap_req_t) :
    (∃ why, app_cap_request c audio rq = (c, .error (.fault why))) ∨
    (Open c rq.now_ms ∧ ∃ p, app_cap_request c audio rq = ({ c with pend := some p }, .ok ())) ∨
    (¬ Open c rq.now_ms ∧ ∃ why, app_cap_request c audio rq = (c, .error why) ∧ ∀ f, why ≠ .fault f) := by
  unfold app_cap_request
  cases hchecked : checked audio rq with
  | error why => exact .inl ⟨why, rfl⟩
  | ok tone =>
    simp only
    split_ifs with hpend hearly
    · exact .inr (.inr ⟨fun hopen => by simp [hopen.1] at hpend, _, rfl, by simp⟩)
    · exact .inr (.inr ⟨fun hopen => hopen.2 hearly, _, rfl, by simp⟩)
    · exact .inr (.inl ⟨⟨by simpa using hpend, hearly⟩, _, rfl⟩)

variable {audio : Bool} {now : Nat} {c c' : cap_t} {asks : List ask_t}

theorem Asked.of_not_open (h : Asked audio now c asks c') (hopen : ¬ Open c now) :
    c' = c ∧ asks.any ask_t.granted = false := by
  induction h with
  | nil c => exact ⟨rfl, rfl⟩
  | @cons c c' rq rest hnow hrest ih =>
    subst hnow
    obtain ⟨why, heq⟩ | ⟨hnow, -⟩ | ⟨-, why, heq, -⟩ := request_cases c audio rq
    · rw [heq] at ih ⊢
      exact ih hopen
    · exact absurd hnow hopen
    · rw [heq] at ih ⊢
      exact ih hopen

theorem Asked.of_open (h : Asked audio now c asks c') (hopen : Open c now) :
    asks.any ask_t.granted = asks.any ask_t.competes ∧
      if asks.any ask_t.competes then c'.pend.isSome = true else c' = c := by
  induction h with
  | nil c => exact ⟨rfl, rfl⟩
  | @cons c c' rq rest hnow hrest ih =>
    subst hnow
    obtain ⟨why, heq⟩ | ⟨-, p, heq⟩ | ⟨hshut, -⟩ := request_cases c audio rq
    · rw [heq] at ih ⊢
      exact ih hopen
    · rw [heq] at hrest ⊢
      have hfull : ¬ Open { c with pend := some p } rq.now_ms := fun h => by simp [Open] at h
      obtain ⟨rfl, -⟩ := hrest.of_not_open hfull
      exact ⟨rfl, rfl⟩
    · exact absurd hopen hshut

/-- What a piece of a handler may do to the broker: make requests. -/
def Requests (env : event_env_t) (st st' : exec_t V) : Prop :=
  ∃ asks, st'.asked = st.asked ++ asks ∧ Asked env.audio env.env_ms st.cap asks st'.cap

theorem Requests.of_same {st st' : exec_t V} (hasked : st'.asked = st.asked) (hcap : st'.cap = st.cap) :
    Requests env st st' := ⟨[], by simp [hasked], by rw [hcap]; exact .nil _⟩

theorem Requests.trans {a b c : exec_t V} (hab : Requests env a b) (hbc : Requests env b c) : Requests env a c := by
  obtain ⟨asks, hasks, hask⟩ := hab
  obtain ⟨more, hmore, hask'⟩ := hbc
  exact ⟨asks ++ more, by rw [hmore, hasks, List.append_assoc], hask.append hask'⟩

theorem requests_call (c : app_call_t) (st : exec_t V) : Requests env st (exec_call d env c st) :=
  ⟨[⟨(request_of d env c st.vars).2, (app_cap_request st.cap env.audio (request_of d env c st.vars).2).2⟩], rfl,
    .cons rfl (.nil _)⟩

section Blocks

variable {block : Nat → Nat → exec_t V → Bool × exec_t V} (hblock : ∀ first count st, Requests env st (block first count st).2)

include hblock

theorem requests_stmt (st : exec_t V) (s : app_stmt_t) : Requests env st (exec_stmt d env block st s).2 := by
  cases s with
  | AS_STOP | AS_SET tgt expr => exact .of_same rfl rfl
  | AS_CALL tgt =>
    simp only [exec_stmt]
    cases d.call[tgt]? with
    | none => exact .of_same rfl rfl
    | some c => exact requests_call c st
  | AS_IF expr then_first then_count else_first else_count =>
    simp only [exec_stmt]
    have hcond : Requests env st { st with vars := (d.eval env.env_ms env.key expr st.vars).1 } := .of_same rfl rfl
    split_ifs
    · exact hcond.trans (hblock _ _ _)
    · exact hcond.trans (hblock _ _ _)
    · exact hcond

theorem requests_from (first count i : Nat) (st : exec_t V) :
    Requests env st (exec_from d env block first count i st).2 := by
  induction count generalizing i st with
  | zero => exact .of_same rfl rfl
  | succ left ih =>
    rw [exec_from]
    split
    · exact .of_same rfl rfl
    · exact .of_same rfl rfl
    · rename_i s budget hstmt hbudget
      have hstep : Requests env st (exec_stmt d env block { st with budget := budget } s).2 :=
        Requests.trans (.of_same rfl rfl) (requests_stmt hblock _ s)
      split
      · rename_i st' hrun
        rwa [hrun] at hstep
      · rename_i st' hrun
        rw [hrun] at hstep
        exact hstep.trans (ih (i + 1) st')

end Blocks

theorem requests_block (levels first count : Nat) (st : exec_t V) :
    Requests env st (exec_block d env levels first count st).2 := by
  induction levels generalizing first count st with
  | zero => exact .of_same rfl rfl
  | succ levels ih => exact requests_from ih first count 0 st

end Asking

end fable.apps
