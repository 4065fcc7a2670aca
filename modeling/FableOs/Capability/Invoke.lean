import FableOs.Capability.Store
import FableOs.Dvm.Safety.Budgets

namespace fable.capability

/-! Invoking a capability: compositions recurse, tail calls loop, and both draw on
the budgets of one call tree. -/

open fable.record

abbrev CAP_EDEPTH : Int := -85
abbrev CAP_EBUDGET : Int := -86
abbrev CAP_ETRAP : Int := -87

abbrev CAP_MAX_DEPTH : Nat := 8
abbrev CAP_MAX_INVOCATIONS : Nat := 64
abbrev CAP_TREE_STEPS : Nat := 2000000
abbrev CAP_TREE_DELAY_US : Nat := 1000000
abbrev CAP_RUN_STEPS : Nat := 100000
abbrev CAP_RUN_DELAY_US : Nat := 200000
abbrev CAP_TEXT_MAX : Nat := 512
abbrev CAP_TAILCALL : UInt64 := 0x7A11CA11

section Model

variable {σ : Type}

/-- What an invocation needs of the machine: where the world keeps the store, and
    what the virtual machine runs on. -/
structure kernel_t (σ : Type) where
  plat : dvm.platform_t
  bus : dvm.dma_bus_t σ
  sys : Option (dvm.dvm_sys_t σ)
  store : σ → disk_t
  data_root : text_t

structure cap_result_t where
  rc : Int
  value : UInt64
  text : text_t
  invocations : Nat
  depth_used : Nat
  steps : Nat
  delay_us : Nat
  sys_calls : Nat

/-- The context of a call tree, with what it acts on: the registry, the program
    that is assembled, and the virtual machine. -/
structure cap_ctx_t (σ : Type) where
  res : cap_result_t
  depth : Nat
  steps_left : Nat
  delay_left : Nat
  caps : List cap_t
  prog : Option (text_t × UInt32 × dvm.dvm_program_t)
  m : dvm.machine_t σ

variable (K : kernel_t σ)

/-- The policy of every run, unless the virtual machine refuses it. -/
def cap_sandbox (steps delay_us : Nat) (trace : Int) : Option dvm.dvm_policy_t :=
  let pol := { dvm.dvm_policy_init with
    max_steps := UInt64.ofNat steps
    max_io := 0
    max_dma_ops := 0
    max_mem_bytes := 1048576
    max_sys := 32
    max_prints := 8
    max_delay_us := UInt64.ofNat delay_us
    max_single_delay_us := 50000
    trace := trace
    max_trace := 16 }
  let pol := [.CON_WRITE, .FS_READ, .FS_WRITE, .FS_SIZE, .TIME_MS].foldl dvm.dvm_policy_allow_sys pol
  match dvm.dvm_policy_set_fs_root pol K.data_root with
  | none => none
  | some pol =>
    match dvm.dvm_policy_check K.plat pol with
    | .error _ => none
    | .ok _ => some pol

def dvm_mem_peek (m : dvm.machine_t σ) (off : UInt64) (n : Nat) : List UInt8 :=
  ((m.mem.front dvm.DVM_MEM_SIZE).drop off.toNat).take n

def text_char (c : UInt8) : UInt8 := if c = 0x0A ∨ c = 0x09 then 0x20 else if printable c then c else 0x2E

def reg (dr : dvm.dvm_result_t) (i : Nat) : UInt64 := (dr.reg.get? i).getD 0

/-- The text result that a program leaves in the scratch arena. -/
def collect_text (m : dvm.machine_t σ) (dr : dvm.dvm_result_t) : text_t :=
  (dvm_mem_peek m (reg dr 1) (min (reg dr 2).toNat (CAP_TEXT_MAX - 1))).map text_char

/-- The name of a tail call's target. -/
def tail_name (m : dvm.machine_t σ) (dr : dvm.dvm_result_t) : Option text_t :=
  let len := (reg dr 5).toNat
  let got := dvm_mem_peek m (reg dr 4) len
  if len = 0 ∨ CAP_NAME_MAX - 1 < len then none
  else if got.length ≠ len then none
  else if (capability_name_ok (zstr got)).isOk = false then none
  else some (zstr got)

/-- A change of the slot of a name. -/
def cap_ctx_t.tally (s : cap_ctx_t σ) (name : text_t) (f : cap_t → cap_t) : cap_ctx_t σ :=
  { s with caps := match Roster.find cap_t.name name s.caps with
    | none => s.caps
    | some c => Roster.put cap_t.name (f c) s.caps }

def cap_ctx_t.refuse (s : cap_ctx_t σ) (rc : Int) : cap_ctx_t σ := { s with res := { s.res with rc := rc } }

def cap_t.failed (c : cap_t) : cap_t := { c with failures := c.failures + 1 }

/-- `c->failures++` with a code. -/
def cap_ctx_t.fail (s : cap_ctx_t σ) (c : cap_t) (rc : Int) : cap_ctx_t σ := (s.tally c.name cap_t.failed).refuse rc

/-- `program_load` past its cache, which is empty from here to success. -/
def program_read (c : cap_t) (s : cap_ctx_t σ) : cap_ctx_t σ × Except Int dvm.dvm_program_t :=
  let miss := { s with prog := none }
  match file_read_all (K.store s.m.ctx) (c.name ++ if c.from_backup then CAP_BAKSUFFIX else CAP_SUFFIX) with
  | (rc, file) =>
    if rc ≠ CAP_OK then (miss, .error CAP_EIO)
    else
      match record_parse file with
      | .error why => (miss, .error why.rc)
      | .ok (stored, src) =>
        if stored.name ≠ c.name ∨ stored.version ≠ c.version then (miss, .error CAP_ECORRUPT)
        else
          match dvm.dvm_assemble (some src) with
          | .error _ => (miss, .error CAP_ECORRUPT)
          | .ok p => ({ s with prog := some (c.name, c.version, p) }, .ok p)

def program_load (c : cap_t) (s : cap_ctx_t σ) : cap_ctx_t σ × Except Int dvm.dvm_program_t :=
  match s.prog with
  | none => program_read K c s
  | some (name, version, p) => if version = c.version ∧ name = c.name then (s, .ok p) else program_read K c s

/-- What comes of a program: the answer to its caller, or a tail call. -/
inductive turn_t where
  | ended (r : Except Int UInt64)
  | tail (name : text_t) (args : List UInt64)

/-- What `invoke_one` does with the result of a run. -/
def settle (c : cap_t) (st : dvm.dvm_status_t) (dr : dvm.dvm_result_t) (m : dvm.machine_t σ) (s : cap_ctx_t σ) :
    cap_ctx_t σ × turn_t :=
  let s := { s with
    m := m
    steps_left := s.steps_left - dr.steps
    delay_left := s.delay_left - dr.delay_us
    res := { s.res with
      steps := s.res.steps + dr.steps
      delay_us := s.res.delay_us + dr.delay_us
      sys_calls := s.res.sys_calls + dr.n_sys } }
  if st ≠ .DVM_OK then (s.fail c CAP_ETRAP, .ended (.error CAP_ETRAP))
  else
    let s := { s with res := { s.res with value := reg dr 0, text := collect_text m dr } }
    if reg dr 3 ≠ CAP_TAILCALL then (s, .ended (.ok (reg dr 0)))
    else
      match tail_name m dr with
      | none => (s.fail c CAP_EINVAL, .ended (.error CAP_EINVAL))
      | some next =>
        match Roster.find cap_t.name next s.caps with
        | none => (s.fail c CAP_ENOENT, .ended (.error CAP_ENOENT))
        | some callee => (s, .tail next ((List.range callee.nparam).map fun i => reg dr (6 + i)))

/-- A program capability, in a virtual machine that is given `vm_fuel` turns of its
    loop; without an answer when those do not do. -/
def invoke_program (vm_fuel : Nat) (c : cap_t) (args : List UInt64) (s : cap_ctx_t σ) : Option (cap_ctx_t σ × turn_t) :=
  if s.steps_left = 0 ∨ s.delay_left = 0 then some (s.fail c CAP_EBUDGET, .ended (.error CAP_EBUDGET))
  else
    match program_load K c s with
    | (s, .error rc) => some (s.fail c rc, .ended (.error rc))
    | (s, .ok p) =>
      match cap_sandbox K (min s.steps_left CAP_RUN_STEPS) (min s.delay_left CAP_RUN_DELAY_US)
        (if s.res.invocations = 1 then dvm.DVM_TRACE_IO else dvm.DVM_TRACE_OFF) with
      | none => some (s.fail c CAP_ETRAP, .ended (.error CAP_ETRAP))
      | some pol =>
        match dvm.dvm_run K.plat K.bus ⟨some p, some pol, some ⟨none, none, none, none, none, none, K.sys⟩,
          some fun i => args.getD i 0, args.length, 0, true⟩ vm_fuel s.m with
        | .returned st dr m _ => some (settle c st dr m s)
        | _ => none

/-- `RESOLVE`. `done` are the results of the steps before, with none for one that
    was skipped; an index that no record has reads as nothing. -/
def resolve (args : List UInt64) (done : List (Option UInt64)) : cap_arg_t → Except Int UInt64
  | .lit v => .ok v
  | .param idx => .ok (args.getD idx 0)
  | .step idx =>
    match idx with
    | 0 => .error CAP_EINVAL
    | idx + 1 =>
      match done.getD idx none with
      | none => .error CAP_EINVAL
      | some v => .ok v

def take_step (cmp : cap_cmp_t) (l r : UInt64) : Bool :=
  match cmp with
  | .eq => l = r
  | .ne => l ≠ r
  | .lt => l < r
  | .le => l ≤ r
  | .gt => r < l
  | .ge => r ≤ l
  | .none => true

/-- The arguments of a step, or nothing where its guard does not hold. -/
def step_call (args : List UInt64) (done : List (Option UInt64)) (s : cap_step_t) : Except Int (Option (List UInt64)) := do
  let taken ←
    if s.cmp = .none then pure true
    else do
      let l ← resolve args done s.lhs
      let r ← resolve args done s.rhs
      pure (take_step s.cmp l r)
  if taken then
    let a ← s.arg.mapM (resolve args done)
    pure (some a)
  else pure none

/-- The loop of `run_compose`; `invoke` is `invoke_one`. -/
def run_steps (invoke : text_t → List UInt64 → cap_ctx_t σ → Option (cap_ctx_t σ × Except Int UInt64)) (args : List UInt64) :
    List cap_step_t → List (Option UInt64) → cap_ctx_t σ → Option (cap_ctx_t σ × Except Int (List (Option UInt64)))
  | [], done, s => some (s, .ok done)
  | step :: steps, done, s =>
    match step_call args done step with
    | .error rc => some (s.refuse rc, .error rc)
    | .ok none => run_steps invoke args steps (done ++ [none]) s
    | .ok (some a) =>
      match invoke step.call a s with
      | none => none
      | some (s, .error rc) => some (s, .error rc)
      | some (s, .ok v) => run_steps invoke args steps (done ++ [some v]) s

def cap_ctx_t.enter (s : cap_ctx_t σ) : cap_ctx_t σ :=
  { s with depth := s.depth + 1, res := { s.res with depth_used := max s.res.depth_used (s.depth + 1) } }

def cap_ctx_t.leave (s : cap_ctx_t σ) : cap_ctx_t σ := { s with depth := s.depth - 1 }

def run_compose (invoke : text_t → List UInt64 → cap_ctx_t σ → Option (cap_ctx_t σ × Except Int UInt64)) (c : cap_t)
    (args : List UInt64) (s : cap_ctx_t σ) : Option (cap_ctx_t σ × Except Int UInt64) :=
  if CAP_MAX_DEPTH < s.depth + 1 then some (s.refuse CAP_EDEPTH, .error CAP_EDEPTH)
  else
    match run_steps invoke args c.step [] s.enter with
    | none => none
    | some (s, .error rc) => some (s.leave, .error rc)
    | some (s, .ok done) =>
      match done.reverse.findSome? id with
      | some v => some (s.leave, .ok v)
      -- Every guard was false: the composition ends with 0 and no text.
      | none => some ({ s.leave with res := { s.res with text := [] } }, .ok 0)

/-- `res->invocations++` and `c->calls++`. -/
def cap_ctx_t.entered (s : cap_ctx_t σ) (c : cap_t) : cap_ctx_t σ :=
  { s.tally c.name (fun c => { c with calls := c.calls + 1 }) with
    res := { s.res with invocations := s.res.invocations + 1 } }

/-- The body of the loop of `invoke_one`, for a capability that is entered. -/
def invoke_found (invoke : text_t → List UInt64 → cap_ctx_t σ → Option (cap_ctx_t σ × Except Int UInt64)) (vm_fuel : Nat)
    (c : cap_t) (args : List UInt64) (s : cap_ctx_t σ) : Option (cap_ctx_t σ × Except Int UInt64) :=
  if c.kind = .compose then
    match run_compose invoke c args s with
    | none => none
    | some (s, .error rc) => some (s.tally c.name cap_t.failed, .error rc)
    | some (s, .ok v) => some (s, .ok v)
  else
    match invoke_program K vm_fuel c args s with
    | none => none
    | some (s, .ended r) => some (s, r)
    | some (s, .tail next args) => invoke next args s

/-- One capability, tail calls included: a turn of the loop, or a composition's
    step, takes one of the `fuel`. -/
def invoke_one (vm_fuel : Nat) : Nat → text_t → List UInt64 → cap_ctx_t σ → Option (cap_ctx_t σ × Except Int UInt64)
  | 0, _, _, _ => none
  | fuel + 1, name, args, s =>
    match Roster.find cap_t.name name s.caps with
    | none => some (s.refuse CAP_ENOENT, .error CAP_ENOENT)
    | some c =>
      if args.length ≠ c.nparam then some (s.refuse CAP_EINVAL, .error CAP_EINVAL)
      else if CAP_MAX_INVOCATIONS ≤ s.res.invocations then some (s.fail c CAP_EBUDGET, .error CAP_EBUDGET)
      else invoke_found K (invoke_one vm_fuel fuel) vm_fuel c args (s.entered c)

/-- A call tree that has not started. -/
def cap_ctx_t.fresh (caps : List cap_t) (prog : Option (text_t × UInt32 × dvm.dvm_program_t)) (m : dvm.machine_t σ) :
    cap_ctx_t σ :=
  ⟨⟨0, 0, [], 0, 0, 0, 0, 0⟩, 0, CAP_TREE_STEPS, CAP_TREE_DELAY_US, caps, prog, m⟩

def capability_invoke (vm_fuel fuel : Nat) (name : text_t) (args : Option (Nat → UInt64)) (nargs : Int) (s : cap_ctx_t σ) :
    Option (cap_ctx_t σ) :=
  if nargs < 0 ∨ (CAP_MAX_PARAMS : Int) < nargs then some (s.refuse CAP_EINVAL)
  else if name = [] then some (s.refuse CAP_EINVAL)
  else if K.sys.isNone then some (s.refuse CAP_ETRAP)
  else
    let a := (List.range nargs.toNat).map fun i => (args.map (· i)).getD 0
    match invoke_one K vm_fuel fuel name a s with
    | none => none
    | some (s, .error rc) => some (s.refuse rc)
    | some (s, .ok v) => some { s with res := { s.res with rc := CAP_OK, value := v } }

end Model

section Budgets

variable {σ : Type} {K : kernel_t σ}

/-- What was spent stays inside the limits, and what is left is what was not spent. -/
structure Within (s : cap_ctx_t σ) : Prop where
  invocations : s.res.invocations ≤ CAP_MAX_INVOCATIONS
  depth : s.res.depth_used ≤ CAP_MAX_DEPTH
  steps : s.res.steps + s.steps_left ≤ CAP_TREE_STEPS
  delay : s.res.delay_us + s.delay_left ≤ CAP_TREE_DELAY_US

/-- The context after a part of the call tree: inside the limits, and with no
    invocation forgotten. -/
structure After (s s' : cap_ctx_t σ) : Prop where
  within : Within s'
  invocations : s.res.invocations ≤ s'.res.invocations

/-- With enough turns for the virtual machine, and more than `n` for the tree, a part
    of the tree ends, and always in the same way. -/
def Ends {A : Type} (n : Nat) (s : cap_ctx_t σ) (run : Nat → Nat → Option (cap_ctx_t σ × A)) : Prop :=
  ∃ s' a, (∀ vm_fuel fuel, CAP_RUN_STEPS < vm_fuel → n < fuel → run vm_fuel fuel = some (s', a)) ∧ After s s'

/-- What a context has spent, and what it has left. -/
def cap_ctx_t.spent (s : cap_ctx_t σ) : Nat × Nat × Nat × Nat × Nat × Nat :=
  (s.res.invocations, s.res.depth_used, s.res.steps, s.steps_left, s.res.delay_us, s.delay_left)

variable {s s' : cap_ctx_t σ} {n : Nat}

theorem After.trans {s''} (h : After s s') (h' : After s' s'') : After s s'' :=
  ⟨h'.within, h.invocations.trans h'.invocations⟩

theorem within_of_spent (hw : Within s) (h : s'.spent = s.spent) : Within s' := by
  simp only [cap_ctx_t.spent, Prod.mk.injEq] at h
  obtain ⟨hinv, hdepth, hsteps, hleft, hdelay, hdleft⟩ := h
  refine ⟨?_, ?_, ?_, ?_⟩
  · rw [hinv]
    exact hw.invocations
  · rw [hdepth]
    exact hw.depth
  · rw [hsteps, hleft]
    exact hw.steps
  · rw [hdelay, hdleft]
    exact hw.delay

theorem after_of_spent (hw : Within s) (h : s'.spent = s.spent) : After s s' :=
  ⟨within_of_spent hw h, (congrArg Prod.fst h).ge⟩

theorem ends_now {A : Type} (a : A) (h : After s s') : Ends n s fun _ _ => some (s', a) :=
  ⟨s', a, fun _ _ _ _ => rfl, h⟩

theorem spent_program_load (c : cap_t) : (program_load K c s).1.spent = s.spent := by
  have hread : (program_read K c s).1.spent = s.spent := by
    unfold program_read
    dsimp only
    repeat' split
    all_goals rfl
  unfold program_load
  split
  · exact hread
  · split
    · rfl
    · exact hread

theorem cap_sandbox_budgets {steps delay_us : Nat} {trace : Int} {pol}
    (h : cap_sandbox K steps delay_us trace = some pol) :
    pol.max_steps = UInt64.ofNat steps ∧ pol.max_delay_us = UInt64.ofNat delay_us := by
  simp only [cap_sandbox] at h
  split at h
  · cases h
  · rename_i pol' hroot
    split at h
    · cases h
    · cases h
      simp only [dvm.dvm_policy_set_fs_root] at hroot
      split at hroot
      · cases hroot
        exact ⟨rfl, rfl⟩
      · cases hroot

/-- A run that kept to its budgets leaves the tree inside its own. -/
theorem after_settle (hw : Within s) {c st dr m} (hsteps : dr.steps ≤ s.steps_left)
    (hdelay : dr.delay_us ≤ s.delay_left) : After s (settle c st dr m s).1 := by
  suffices hspent : ∀ s', s'.res.invocations = s.res.invocations → s'.res.depth_used = s.res.depth_used →
      s'.res.steps = s.res.steps + dr.steps → s'.steps_left = s.steps_left - dr.steps →
      s'.res.delay_us = s.res.delay_us + dr.delay_us → s'.delay_left = s.delay_left - dr.delay_us → After s s' by
    rw [settle]
    split
    · exact hspent _ rfl rfl rfl rfl rfl rfl
    dsimp only
    repeat' split
    all_goals exact hspent _ rfl rfl rfl rfl rfl rfl
  intro s' hinv hdepth hs hleft hd hdleft
  obtain ⟨hinvocations, hused, htree, hwall⟩ := hw
  refine ⟨⟨by omega, by omega, ?_, ?_⟩, hinv.ge⟩
  · rw [hs, hleft]
    omega
  · rw [hd, hdleft]
    omega

/-- A program ends within its part of the budgets. -/
theorem invoke_program_ends (hw : Within s) (c : cap_t) (args : List UInt64) :
    ∃ s' t, (∀ vm_fuel, CAP_RUN_STEPS < vm_fuel → invoke_program K vm_fuel c args s = some (s', t)) ∧ After s s' := by
  by_cases hspent : s.steps_left = 0 ∨ s.delay_left = 0
  · exact ⟨_, _, fun _ _ => if_pos hspent, after_of_spent hw rfl⟩
  cases hload : program_load K c s with
  | mk s₁ r =>
    have hafter := after_of_spent hw (hload ▸ spent_program_load c)
    cases r with
    | error rc =>
      refine ⟨s₁.fail c rc, .ended (.error rc), fun vm_fuel _ => ?_, hafter.trans (after_of_spent hafter.within rfl)⟩
      rw [invoke_program, if_neg hspent, hload]
    | ok p =>
      cases hpol : cap_sandbox K (min s₁.steps_left CAP_RUN_STEPS) (min s₁.delay_left CAP_RUN_DELAY_US)
        (if s₁.res.invocations = 1 then dvm.DVM_TRACE_IO else dvm.DVM_TRACE_OFF) with
      | none =>
        refine ⟨s₁.fail c CAP_ETRAP, .ended (.error CAP_ETRAP), fun vm_fuel _ => ?_,
          hafter.trans (after_of_spent hafter.within rfl)⟩
        rw [invoke_program, if_neg hspent, hload]
        simp only [hpol]
      | some pol =>
        obtain ⟨hmax, hmaxdelay⟩ := cap_sandbox_budgets hpol
        have hsteps : pol.max_steps.toNat = min s₁.steps_left CAP_RUN_STEPS := by
          rw [hmax]
          exact UInt64.toNat_ofNat_of_lt' (lt_of_le_of_lt (Nat.min_le_right _ _) (by decide))
        have hdelay : pol.max_delay_us.toNat = min s₁.delay_left CAP_RUN_DELAY_US := by
          rw [hmaxdelay]
          exact UInt64.toNat_ofNat_of_lt' (lt_of_le_of_lt (Nat.min_le_right _ _) (by decide))
        obtain ⟨st, dr, m, log, hrun, hwithin⟩ := dvm.dvm_run_at_returns K.plat K.bus
          ⟨some p, some pol, some ⟨none, none, none, none, none, none, K.sys⟩, some fun i => args.getD i 0, args.length, 0,
            true⟩ s₁.m pol rfl
        have hused := hwithin.steps
        have hwait := hwithin.delay_us
        rw [hsteps] at hused
        rw [hdelay] at hwait
        have hlast := @after_settle σ s₁ hafter.within c st dr m (hused.trans (Nat.min_le_left _ _))
          (hwait.trans (Nat.min_le_left _ _))
        refine ⟨(settle c st dr m s₁).1, (settle c st dr m s₁).2, fun vm_fuel hfuel => ?_, hafter.trans hlast⟩
        have hvm : pol.max_steps.toNat < vm_fuel := by
          rw [hsteps]
          exact lt_of_le_of_lt (Nat.min_le_right _ _) hfuel
        rw [invoke_program, if_neg hspent, hload]
        simp only [hpol]
        rw [dvm.dvm_run, hrun vm_fuel hvm]

/-- What holds of every invocation that finds at most `n` others to come. -/
def AllEnd (K : kernel_t σ) (n : Nat) : Prop :=
  ∀ name args (s : cap_ctx_t σ), Within s → CAP_MAX_INVOCATIONS - s.res.invocations ≤ n →
    Ends n s fun vm_fuel fuel => invoke_one K vm_fuel fuel name args s

/-- The steps of a composition end, one invocation after the other. -/
theorem run_steps_ends (hall : AllEnd K n) (args : List UInt64) (steps : List cap_step_t) (done : List (Option UInt64))
    (hw : Within s) (hn : CAP_MAX_INVOCATIONS - s.res.invocations ≤ n) :
    Ends n s fun vm_fuel fuel => run_steps (invoke_one K vm_fuel fuel) args steps done s := by
  induction steps generalizing s done with
  | nil => exact ends_now _ ⟨hw, le_rfl⟩
  | cons step steps ih =>
    simp only [run_steps]
    cases hcall : step_call args done step with
    | error rc => exact ends_now _ (after_of_spent hw rfl)
    | ok call =>
      cases call with
      | none => exact ih (done ++ [none]) hw hn
      | some a =>
        obtain ⟨s₁, r, hrun, hafter⟩ := hall step.call a s hw hn
        cases r with
        | error rc =>
          refine ⟨s₁, .error rc, fun vm_fuel fuel hvm hfuel => ?_, hafter⟩
          simp only [hrun vm_fuel fuel hvm hfuel]
        | ok v =>
          have hinv := hafter.invocations
          obtain ⟨s₂, r, hrest, hafter'⟩ := ih (done ++ [some v]) hafter.within (by omega)
          refine ⟨s₂, r, fun vm_fuel fuel hvm hfuel => ?_, hafter.trans hafter'⟩
          simp only [hrun vm_fuel fuel hvm hfuel]
          exact hrest vm_fuel fuel hvm hfuel

theorem run_compose_ends (hall : AllEnd K n) (c : cap_t) (args : List UInt64) (hw : Within s)
    (hn : CAP_MAX_INVOCATIONS - s.res.invocations ≤ n) :
    Ends n s fun vm_fuel fuel => run_compose (invoke_one K vm_fuel fuel) c args s := by
  simp only [run_compose]
  by_cases hdeep : CAP_MAX_DEPTH < s.depth + 1
  · simp only [if_pos hdeep]
    exact ends_now _ (after_of_spent hw rfl)
  simp only [if_neg hdeep]
  have henter : Within s.enter := ⟨hw.invocations, Nat.max_le.mpr ⟨hw.depth, Nat.le_of_not_lt hdeep⟩, hw.steps, hw.delay⟩
  obtain ⟨s₁, r, hrun, hafter⟩ := run_steps_ends hall args c.step [] henter hn
  have hleave {s' : cap_ctx_t σ} (hsame : s'.spent = s₁.spent) : After s s' := by
    obtain ⟨hwithin, hinv⟩ := hafter.trans (after_of_spent hafter.within hsame)
    exact ⟨hwithin, hinv⟩
  cases r with
  | error rc =>
    refine ⟨s₁.leave, .error rc, fun vm_fuel fuel hvm hfuel => ?_, hleave rfl⟩
    simp only [hrun vm_fuel fuel hvm hfuel]
  | ok done =>
    cases hlast : done.reverse.findSome? id with
    | some v =>
      refine ⟨s₁.leave, .ok v, fun vm_fuel fuel hvm hfuel => ?_, hleave rfl⟩
      simp only [hrun vm_fuel fuel hvm hfuel, hlast]
    | none =>
      refine ⟨{ s₁.leave with res := { s₁.res with text := [] } }, .ok 0, fun vm_fuel fuel hvm hfuel => ?_,
        hleave rfl⟩
      simp only [hrun vm_fuel fuel hvm hfuel, hlast]

theorem invoke_found_ends (hall : AllEnd K n) (c : cap_t) (args : List UInt64) (hw : Within s)
    (hn : CAP_MAX_INVOCATIONS - s.res.invocations ≤ n) :
    Ends n s fun vm_fuel fuel => invoke_found K (invoke_one K vm_fuel fuel) vm_fuel c args s := by
  simp only [invoke_found]
  by_cases hkind : c.kind = .compose
  · simp only [if_pos hkind]
    obtain ⟨s₁, r, hrun, hafter⟩ := run_compose_ends hall c args hw hn
    cases r with
    | error rc =>
      refine ⟨s₁.tally c.name cap_t.failed, .error rc, fun vm_fuel fuel hvm hfuel => ?_,
        hafter.trans (after_of_spent hafter.within rfl)⟩
      simp only [hrun vm_fuel fuel hvm hfuel]
    | ok v =>
      refine ⟨s₁, .ok v, fun vm_fuel fuel hvm hfuel => ?_, hafter⟩
      simp only [hrun vm_fuel fuel hvm hfuel]
  · simp only [if_neg hkind]
    obtain ⟨s₁, t, hrun, hafter⟩ := @invoke_program_ends σ K s hw c args
    cases t with
    | ended r =>
      refine ⟨s₁, r, fun vm_fuel fuel hvm _ => ?_, hafter⟩
      simp only [hrun vm_fuel hvm]
    | tail next args' =>
      have hinv := hafter.invocations
      obtain ⟨s₂, r, hnext, hafter'⟩ := hall next args' s₁ hafter.within (by omega)
      refine ⟨s₂, r, fun vm_fuel fuel hvm hfuel => ?_, hafter.trans hafter'⟩
      simp only [hrun vm_fuel hvm]
      exact hnext vm_fuel fuel hvm hfuel

/-- An invocation is refused at once, or enters a capability and spends one. -/
theorem invoke_one_cases (K : kernel_t σ) (name : text_t) (args : List UInt64) (hw : Within s) :
    (∀ n, Ends n s fun vm_fuel fuel => invoke_one K vm_fuel fuel name args s) ∨
    ∃ c, s.res.invocations < CAP_MAX_INVOCATIONS ∧ ∀ vm_fuel fuel, invoke_one K vm_fuel (fuel + 1) name args s =
      invoke_found K (invoke_one K vm_fuel fuel) vm_fuel c args (s.entered c) := by
  have hrefused (s' : cap_ctx_t σ) (rc : Int) (hsame : s'.spent = s.spent)
      (h : ∀ vm_fuel fuel, invoke_one K vm_fuel (fuel + 1) name args s = some (s', .error rc)) (n : Nat) :
      Ends n s fun vm_fuel fuel => invoke_one K vm_fuel fuel name args s := by
    refine ⟨s', .error rc, fun vm_fuel fuel _ hfuel => ?_, after_of_spent hw hsame⟩
    obtain ⟨fuel, rfl⟩ := Nat.exists_eq_add_one_of_ne_zero (Nat.ne_zero_of_lt hfuel)
    exact h vm_fuel fuel
  cases hfind : Roster.find cap_t.name name s.caps with
  | none => exact .inl (hrefused (s.refuse CAP_ENOENT) CAP_ENOENT rfl fun _ _ => by simp only [invoke_one, hfind])
  | some c =>
    simp only [invoke_one, hfind] at hrefused ⊢
    split
    · next hargs => exact .inl (hrefused (s.refuse CAP_EINVAL) CAP_EINVAL rfl fun _ _ => if_pos hargs)
    next hargs =>
    simp only [if_neg hargs] at hrefused
    split
    · next hspent => exact .inl (hrefused (s.fail c CAP_EBUDGET) CAP_EBUDGET rfl fun _ _ => if_pos hspent)
    · next hleft => exact .inr ⟨c, Nat.lt_of_not_le hleft, fun _ _ => rfl⟩

/-- Every invocation ends: each one that is entered, by a step or by a tail call,
    leaves one fewer to come. -/
theorem all_end (n : Nat) : AllEnd K n := by
  induction n with
  | zero =>
    intro name args s hw hn
    obtain hends | ⟨c, hleft, -⟩ := invoke_one_cases K name args hw
    · exact hends 0
    · exact absurd hleft (Nat.not_lt.mpr (Nat.le_of_sub_eq_zero (Nat.le_zero.mp hn)))
  | succ n ih =>
    intro name args s hw hn
    obtain hends | ⟨c, hleft, hfound⟩ := invoke_one_cases K name args hw
    · exact hends (n + 1)
    · have hentered : Within (s.entered c) := ⟨hleft, hw.depth, hw.steps, hw.delay⟩
      have hfewer : CAP_MAX_INVOCATIONS - (s.entered c).res.invocations ≤ n := by
        change CAP_MAX_INVOCATIONS - (s.res.invocations + 1) ≤ n
        omega
      obtain ⟨s', r, hrun, hafter⟩ := invoke_found_ends ih c args hentered hfewer
      refine ⟨s', r, fun vm_fuel fuel hvm hfuel => ?_, hafter.within, (Nat.le_succ _).trans hafter.invocations⟩
      obtain ⟨fuel, rfl⟩ := Nat.exists_eq_add_one_of_ne_zero (Nat.ne_zero_of_lt hfuel)
      exact (hfound vm_fuel fuel).trans (hrun vm_fuel fuel hvm (Nat.lt_of_succ_lt_succ hfuel))

/-- Whatever the registry holds and whatever it calls: an invocation ends, inside
    the limits on invocations, on the depth of compositions, and on what the whole
    tree of calls may run and wait. -/
theorem capability_invoke_ends_within (K : kernel_t σ) (name : text_t) (args : Option (Nat → UInt64)) (nargs : Int)
    (caps : List cap_t) (prog : Option (text_t × UInt32 × dvm.dvm_program_t)) (m : dvm.machine_t σ) :
    ∃ s' : cap_ctx_t σ,
      (∀ vm_fuel fuel, CAP_RUN_STEPS < vm_fuel → CAP_MAX_INVOCATIONS < fuel →
        capability_invoke K vm_fuel fuel name args nargs (.fresh caps prog m) = some s') ∧
      s'.res.invocations ≤ CAP_MAX_INVOCATIONS ∧ s'.res.depth_used ≤ CAP_MAX_DEPTH ∧
      s'.res.steps ≤ CAP_TREE_STEPS ∧ s'.res.delay_us ≤ CAP_TREE_DELAY_US := by
  have hfresh : Within (cap_ctx_t.fresh caps prog m) :=
    ⟨Nat.zero_le _, Nat.zero_le _, (Nat.zero_add CAP_TREE_STEPS).le, (Nat.zero_add CAP_TREE_DELAY_US).le⟩
  suffices hends : ∃ s' : cap_ctx_t σ, (∀ vm_fuel fuel, CAP_RUN_STEPS < vm_fuel → CAP_MAX_INVOCATIONS < fuel →
      capability_invoke K vm_fuel fuel name args nargs (.fresh caps prog m) = some s') ∧ Within s' by
    obtain ⟨s', hrun, hinv, hdepth, hsteps, hdelay⟩ := hends
    exact ⟨s', hrun, hinv, hdepth, (Nat.le_add_right _ _).trans hsteps, (Nat.le_add_right _ _).trans hdelay⟩
  simp only [capability_invoke]
  split
  · exact ⟨_, fun _ _ _ _ => rfl, within_of_spent hfresh rfl⟩
  split
  · exact ⟨_, fun _ _ _ _ => rfl, within_of_spent hfresh rfl⟩
  split
  · exact ⟨_, fun _ _ _ _ => rfl, within_of_spent hfresh rfl⟩
  obtain ⟨s', r, hrun, hafter⟩ := @all_end σ K CAP_MAX_INVOCATIONS name
    ((List.range nargs.toNat).map fun i => (args.map (· i)).getD 0) (.fresh caps prog m) hfresh (Nat.sub_le _ _)
  cases r with
  | error rc =>
    refine ⟨s'.refuse rc, fun vm_fuel fuel hvm hfuel => ?_, within_of_spent hafter.within rfl⟩
    simp only [hrun vm_fuel fuel hvm hfuel]
  | ok v =>
    refine ⟨{ s' with res := { s'.res with rc := CAP_OK, value := v } }, fun vm_fuel fuel hvm hfuel => ?_,
      hafter.within.invocations, hafter.within.depth, hafter.within.steps, hafter.within.delay⟩
    simp only [hrun vm_fuel fuel hvm hfuel]

end Budgets

end fable.capability
