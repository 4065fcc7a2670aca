import FableOs.Capability.Store

namespace fable.capability

/-! Saving, reverting and deleting a capability. -/

open fable.record List Roster Option

section Operations

/-- Why an operation is refused, with the numbers its sentence counts from one. -/
inductive refusal_t where
  | name (why : word_why_t)
  | doc (why : word_why_t)
  | many_params (n : Nat)
  | param (n : Nat) (why : word_why_t)
  | same_param (p : text_t)
  | full
  | source (why : word_why_t)
  | not_assembled (err : dvm.dvm_asm_err_t)
  | step_count (n : Nat)
  | step_name (n : Nat) (why : word_why_t)
  | step_unknown (n : Nat) (call : text_t)
  | step_args (n : Nat) (call : text_t) (narg nparam : Nat)
  | kind
  | breaks_caller (caller : text_t) (n narg nparam : Nat)
  | backup_not_written
  | too_large
  | not_written (have_backup : Bool)
  | absent
  | no_backup (version : UInt32)
  | backup_unreadable
  | backup (why : record_why_t)
  | other_backup (name : text_t)
  | called_by (caller : text_t) (n : Nat)
  | file_left
  deriving DecidableEq, Repr

def refusal_t.rc : refusal_t → Int
  | .full => CAP_ENOSPC
  | .too_large => CAP_ENOSPC
  | .backup_not_written => CAP_EIO
  | .not_written _ => CAP_EIO
  | .backup_unreadable => CAP_EIO
  | .file_left => CAP_EIO
  | .absent => CAP_ENOENT
  | .no_backup _ => CAP_ENOENT
  | .backup why => why.rc
  | .other_backup _ => CAP_ECORRUPT
  | .called_by _ _ => CAP_EEXIST
  | _ => CAP_EINVAL

/-- The registry in memory and the store. -/
structure state_t where
  caps : List cap_t
  disk : disk_t

/-- `seen` are the parameters before. -/
def params_ok : List text_t → List text_t → Except refusal_t Unit
  | _, [] => .ok ()
  | seen, p :: ps => do
    (param_name_ok p).mapError (refusal_t.param (seen.length + 1))
    refuse (p ∈ seen) (.same_param p)
    params_ok (seen ++ [p]) ps

/-- The check of one step of `spec`, which is step `i + 1`. -/
def step_ok (caps : List cap_t) (spec : cap_t) (i : Nat) (s : cap_step_t) : Except refusal_t Unit := do
  (capability_name_ok s.call).mapError (refusal_t.step_name (i + 1))
  match callee caps spec s.call with
  | none => .error (.step_unknown (i + 1) s.call)
  | some callee => refuse (s.narg ≠ callee.nparam) (.step_args (i + 1) s.call s.narg callee.nparam)

/-- The checks on what the capability does, and what they fill in. -/
def body_ok (caps : List cap_t) (spec : cap_t) (src : List UInt8) : Except refusal_t cap_t :=
  match spec.kind with
  | .program => do
    (src_ok src).mapError refusal_t.source
    match dvm.dvm_assemble (some src) with
    | .error err => .error (.not_assembled err)
    | .ok prog => pure { spec with ninsn := prog.ninsn, src_len := src.length, step := [] }
  | .compose => do
    refuse (spec.step.length < 1 ∨ CAP_MAX_STEPS < spec.step.length) (.step_count spec.step.length)
    checkFrom (step_ok caps spec) 0 spec.step
    pure { spec with src_len := 0, ninsn := 0 }
  | .other => .error .kind

/-- The first step of a caller that does not fit a capability of `nparam`
    parameters, as the caller, the number of the step and its arguments. -/
def arity_change_breaks_callers (caps : List cap_t) (name : text_t) (nparam : Nat) : Option (text_t × Nat × Nat) :=
  caps.findSome? fun c =>
    if c.kind ≠ .compose then none
    else
      (c.step.zipIdx.find? fun s => s.1.call = name && s.1.narg ≠ nparam).map fun s => (c.name, s.2 + 1, s.1.narg)

/-- A replacement of another arity must not break a caller. -/
def arity_kept (caps : List cap_t) (old spec : cap_t) : Except refusal_t Unit :=
  if old.nparam = spec.nparam then .ok ()
  else
    match arity_change_breaks_callers caps spec.name spec.nparam with
    | none => .ok ()
    | some (caller, n, narg) => .error (.breaks_caller caller n narg spec.nparam)

/-- All of `capability_save` before it touches the store: the capability as it
    will be written. -/
def save_checks (caps : List cap_t) (spec : cap_t) (src : List UInt8) : Except refusal_t cap_t := do
  (capability_name_ok spec.name).mapError refusal_t.name
  (doc_ok spec.doc).mapError refusal_t.doc
  refuse (CAP_MAX_PARAMS < spec.nparam) (.many_params spec.nparam)
  params_ok [] spec.param
  let old := Roster.find cap_t.name spec.name caps
  refuse (old = none ∧ CAP_MAX ≤ caps.length) .full
  let spec ← body_ok caps spec src
  match old with
  | none => pure { spec with version := 1 }
  | some old => do
    arity_kept caps old spec
    pure { spec with version := old.version + 1 }

/-- The copy of the current record in the backup, where there is one to copy:
    whether it was made, or has failed. -/
def back_up (d : disk_t) (name : text_t) : disk_t × Option Bool :=
  match file_read_all d (name ++ CAP_SUFFIX) with
  | (rc, file) =>
    if rc = CAP_OK ∧ file ≠ [] then
      match file_write_all d (name ++ CAP_BAKSUFFIX) file with
      | (d, rc) => (d, if rc = CAP_OK then some true else none)
    else (d, some false)

/-- The end of `capability_save`: the record is written, and then registered. -/
def write_record (s : state_t) (d : disk_t) (have_backup : Bool) (spec : cap_t) (src : List UInt8) :
    state_t × Except refusal_t Unit :=
  match record_write spec src with
  | none => ({ s with disk := d }, .error .too_large)
  | some file =>
    match file_write_all d (spec.name ++ CAP_SUFFIX) file with
    | (d, rc) =>
      if rc ≠ CAP_OK then ({ s with disk := d }, .error (.not_written have_backup))
      else
        let c := { registered spec s.caps with
          crc := Digest.fnv1a (file.drop CAP_PREFIX_LEN)
          has_backup := have_backup || file_exists d (spec.name ++ CAP_BAKSUFFIX) }
        (⟨Roster.put cap_t.name c s.caps, d⟩, .ok ())

/-- `capability_save` from the backup on. -/
def save_files (s : state_t) (spec : cap_t) (src : List UInt8) : state_t × Except refusal_t Unit :=
  let (d, made) :=
    if (Roster.find cap_t.name spec.name s.caps).isSome then back_up s.disk spec.name else (s.disk, some false)
  match made with
  | none => ({ s with disk := d }, .error .backup_not_written)
  | some have_backup => write_record s d have_backup spec src

def capability_save (spec : cap_t) (src : List UInt8) (s : state_t) : state_t × Except refusal_t Unit :=
  match save_checks s.caps spec src with
  | .error why => (s, .error why)
  | .ok spec => save_files s spec src

/-- The backup of a capability, where it can be put back. -/
def backup_of (s : state_t) (name : text_t) : Except refusal_t (cap_t × List UInt8) := do
  match Roster.find cap_t.name name s.caps with
  | none => .error .absent
  | some cur =>
    refuse (file_exists s.disk (cur.name ++ CAP_BAKSUFFIX) = false) (.no_backup cur.version)
    let (rc, file) := file_read_all s.disk (cur.name ++ CAP_BAKSUFFIX)
    refuse (rc ≠ CAP_OK) refusal_t.backup_unreadable
    let (c, src) ← (record_parse file).mapError refusal_t.backup
    refuse (c.name ≠ cur.name) (.other_backup c.name)
    pure (c, src)

def capability_revert (name : text_t) (s : state_t) : state_t × Except refusal_t Unit :=
  match backup_of s name with
  | .error why => (s, .error why)
  | .ok (c, src) => capability_save c src s

/-- The first step of another composition that calls a capability. The one that
    is skipped is the slot itself: no other entry has its name. -/
def caller_of (caps : List cap_t) (name : text_t) : Option (text_t × Nat) :=
  caps.findSome? fun c =>
    if c.name = name ∨ c.kind ≠ .compose then none
    else (c.step.findIdx? fun s => s.call = name).map fun i => (c.name, i + 1)

def capability_delete (name : text_t) (s : state_t) : state_t × Except refusal_t Unit :=
  match Roster.find cap_t.name name s.caps with
  | none => (s, .error .absent)
  | some _ =>
    match caller_of s.caps name with
    | some (caller, n) => (s, .error (.called_by caller n))
    | none =>
      let (d, rc) := file_unlink s.disk (name ++ CAP_SUFFIX)
      let (d, _) := file_unlink d (name ++ CAP_BAKSUFFIX)
      (⟨Roster.remove cap_t.name name s.caps, d⟩, if rc = CAP_OK then .ok () else .error .file_left)

end Operations

section Checks

variable {caps : List cap_t} {spec c : cap_t} {src : List UInt8}

/-- A body that can be saved: a source that assembles, or steps that fit what
    they call. -/
def GoodBody (caps : List cap_t) (spec : cap_t) (src : List UInt8) : Prop :=
  match spec.kind with
  | .program => src_ok src = .ok () ∧ (dvm.dvm_assemble (some src)).isOk = true
  | .compose => (1 ≤ spec.step.length ∧ spec.step.length ≤ CAP_MAX_STEPS) ∧ ∀ s ∈ spec.step,
      capability_name_ok s.call = .ok () ∧ ∃ b, callee caps spec s.call = some b ∧ b.nparam = s.narg
  | .other => False

/-- A capability that can be saved into a registry. -/
structure Acceptable (caps : List cap_t) (spec : cap_t) (src : List UInt8) : Prop where
  name : capability_name_ok spec.name = .ok ()
  doc : doc_ok spec.doc = .ok ()
  nparam : spec.nparam ≤ CAP_MAX_PARAMS
  param : ∀ p ∈ spec.param, param_name_ok p = .ok ()
  distinct : spec.param.Nodup
  room : Roster.find cap_t.name spec.name caps = none → caps.length < CAP_MAX
  body : GoodBody caps spec src
  callers : ∀ old, Roster.find cap_t.name spec.name caps = some old → old.nparam ≠ spec.nparam →
    ∀ b ∈ caps, b.kind = .compose → ∀ s ∈ b.step, s.call = spec.name → s.narg = spec.nparam

/-- The version after the one that there is. -/
def next_version (caps : List cap_t) (name : text_t) : UInt32 :=
  match Roster.find cap_t.name name caps with
  | none => 1
  | some old => old.version + 1

/-- The capability as it is written, with the size of its program. -/
def stored (caps : List cap_t) (spec : cap_t) (src : List UInt8) : cap_t :=
  let version := next_version caps spec.name
  match spec.kind, dvm.dvm_assemble (some src) with
  | .program, .ok prog => { spec with ninsn := prog.ninsn, src_len := src.length, step := [], version := version }
  | _, _ => { spec with src_len := 0, ninsn := 0, version := version }

/-- The entry is the capability of `spec`, as far as calls go. -/
structure Same (spec c : cap_t) : Prop where
  name : c.name = spec.name
  param : c.param = spec.param
  doc : c.doc = spec.doc
  kind : c.kind = spec.kind
  step : spec.kind = .compose → c.step = spec.step

theorem same_stored : Same spec (stored caps spec src) := by
  rw [stored]
  split
  · rename_i hkind _
    exact ⟨rfl, rfl, rfl, rfl, fun hcompose => cap_kind_t.noConfusion (hkind.symm.trans hcompose)⟩
  · exact ⟨rfl, rfl, rfl, rfl, fun _ => rfl⟩

theorem stored_version : (stored caps spec src).version = next_version caps spec.name := by
  rw [stored]
  split <;> rfl

/-- Parameters pass when each name does and none is repeated. -/
theorem params_ok_iff {seen ps} (hseen : seen.Nodup) : params_ok seen ps = .ok () ↔
    (∀ p ∈ ps, param_name_ok p = .ok ()) ∧ (seen ++ ps).Nodup := by
  induction ps generalizing seen with
  | nil => simp [params_ok, hseen]
  | cons p ps ih =>
    simp only [params_ok, except_seq_eq_ok_iff, mapError_eq_ok_iff, refuse_eq_ok_iff]
    by_cases hp : p ∈ seen
    · refine iff_of_false (fun h => h.2.1 hp) fun h => ?_
      exact (nodup_append.mp h.2).2.2 p hp p mem_cons_self rfl
    · have hnodup : (seen ++ [p]).Nodup := by
        rw [nodup_append]
        refine ⟨hseen, nodup_singleton p, fun a ha b hb heq => hp ?_⟩
        rwa [← mem_singleton.mp hb, ← heq]
      rw [ih hnodup, forall_mem_cons, append_assoc, singleton_append, and_iff_right hp, and_assoc]

/-- A step passes when its callee is known and gets as many arguments as it takes. -/
theorem step_ok_iff (i : Nat) (s : cap_step_t) : step_ok caps spec i s = .ok () ↔
    capability_name_ok s.call = .ok () ∧ ∃ b, callee caps spec s.call = some b ∧ b.nparam = s.narg := by
  rw [step_ok, except_seq_eq_ok_iff, mapError_eq_ok_iff]
  cases hcallee : callee caps spec s.call with
  | none => simp
  | some b =>
    have hcount : ¬ s.narg ≠ b.nparam ↔ b.nparam = s.narg := not_not.trans eq_comm
    simp only [refuse_eq_ok_iff, hcount, some.injEq, exists_eq_left']

/-- No caller is broken when every step that calls the name passes the same number
    of arguments. -/
theorem breaks_callers_iff {name} {nparam : Nat} : arity_change_breaks_callers caps name nparam = none ↔
    ∀ b ∈ caps, b.kind = .compose → ∀ s ∈ b.step, s.call = name → s.narg = nparam := by
  rw [arity_change_breaks_callers, findSome?_eq_none_iff]
  refine forall₂_congr fun b hb => ?_
  by_cases hkind : b.kind = .compose
  · rw [if_neg (not_not.mpr hkind), map_eq_none_iff, find?_eq_none, forall_prop_of_true hkind]
    have hfst (p : cap_step_t → Prop) : (∀ x ∈ b.step.zipIdx, p x.1) ↔ ∀ s ∈ b.step, p s := by
      rw [← List.forall_mem_map, zipIdx_map_fst]
    simpa using hfst fun s => s.call = name → s.narg = nparam
  · simp [hkind]

theorem arity_kept_iff {old} (hname : c.name = spec.name) (hparam : c.param = spec.param) :
    arity_kept caps old c = .ok () ↔ (old.nparam ≠ spec.nparam → ∀ b ∈ caps, b.kind = .compose →
      ∀ s ∈ b.step, s.call = spec.name → s.narg = spec.nparam) := by
  have hnparam : c.nparam = spec.nparam := congrArg length hparam
  rw [arity_kept, hname, hnparam, ← breaks_callers_iff]
  by_cases hsame : old.nparam = spec.nparam
  · simp [hsame]
  · cases hbreaks : arity_change_breaks_callers caps spec.name spec.nparam with
    | none => simp [hsame]
    | some caller => simp [hsame]

theorem body_ok_iff : body_ok caps spec src = .ok c ↔
    GoodBody caps spec src ∧ c = { stored caps spec src with version := spec.version } := by
  rw [body_ok, GoodBody, stored]
  cases hkind : spec.kind with
  | program =>
    simp only [except_seq_eq_ok_iff, mapError_eq_ok_iff]
    cases hassemble : dvm.dvm_assemble (some src) with
    | error err => simp [Except.isOk, Except.toBool]
    | ok prog => simp [Except.isOk, Except.toBool, eq_comm, pure, Except.pure]
  | compose =>
    have hlen : ¬ (spec.step.length < 1 ∨ CAP_MAX_STEPS < spec.step.length) ↔
        1 ≤ spec.step.length ∧ spec.step.length ≤ CAP_MAX_STEPS := by omega
    simp only [except_seq_eq_ok_iff, refuse_eq_ok_iff, checkFrom_eq_ok_iff step_ok_iff, hlen, and_assoc]
    simp [eq_comm, pure, Except.pure]
  | other => simp

/-- The checks pass exactly for what is acceptable, and stamp its version. -/
theorem save_checks_iff : save_checks caps spec src = .ok c ↔ Acceptable caps spec src ∧ c = stored caps spec src := by
  have hroom : ¬ (find cap_t.name spec.name caps = none ∧ CAP_MAX ≤ caps.length) ↔
      (find cap_t.name spec.name caps = none → caps.length < CAP_MAX) := by
    rw [not_and, Nat.not_le]
  simp only [save_checks, except_seq_eq_ok_iff, mapError_eq_ok_iff, refuse_eq_ok_iff, params_ok_iff nodup_nil,
    nil_append, hroom, Nat.not_lt]
  rw [except_bind_eq_ok_iff]
  simp only [body_ok_iff]
  have hrest : (match find cap_t.name spec.name caps with
      | none => pure { stored caps spec src with version := 1 }
      | some old => do
        arity_kept caps old { stored caps spec src with version := spec.version }
        pure { stored caps spec src with version := old.version + 1 } : Except refusal_t cap_t) = .ok c ↔
      (∀ old, find cap_t.name spec.name caps = some old → old.nparam ≠ spec.nparam →
        ∀ b ∈ caps, b.kind = .compose → ∀ s ∈ b.step, s.call = spec.name → s.narg = spec.nparam) ∧
      c = stored caps spec src := by
    have hversion := @stored_version caps spec src
    rw [next_version] at hversion
    cases hfind : find cap_t.name spec.name caps with
    | none =>
      rw [hfind] at hversion
      simp [← hversion, pure, Except.pure, eq_comm]
    | some old =>
      rw [hfind] at hversion
      rw [except_seq_eq_ok_iff, @arity_kept_iff caps spec _ old ?_ ?_]
      rotate_left
      · exact same_stored.name
      · exact same_stored.param
      simp [← hversion, pure, Except.pure, eq_comm]
  constructor
  · rintro ⟨hname, hdoc, hnparam, ⟨hparam, hdistinct⟩, hfull, body, ⟨hbody, rfl⟩, h⟩
    obtain ⟨hcallers, hc⟩ := hrest.mp h
    exact ⟨⟨hname, hdoc, hnparam, hparam, hdistinct, hfull, hbody, hcallers⟩, hc⟩
  · rintro ⟨h, hc⟩
    exact ⟨h.name, h.doc, h.nparam, ⟨h.param, h.distinct⟩, h.room, _, ⟨h.body, rfl⟩, hrest.mpr ⟨h.callers, hc⟩⟩

end Checks

section Edits

variable {s : state_t} {spec : cap_t} {src : List UInt8} {name : text_t}
variable {caps : List cap_t} {c : cap_t} {out : state_t × Except refusal_t Unit}

/-- A registry as it should be. -/
structure Sane (caps : List cap_t) : Prop where
  callable : Callable caps
  unique : Roster.Unique cap_t.name caps
  room : caps.length ≤ CAP_MAX

/-- The versions of the names that stay have not gone down. -/
def Monotone (caps caps' : List cap_t) : Prop :=
  ∀ c ∈ caps, ∀ c' ∈ caps', c'.name = c.name → c.version ≤ c'.version

theorem monotone_refl (h : Roster.Unique cap_t.name caps) : Monotone caps caps := by
  intro c hc c' hc' hname
  rw [h.eq_of_name hc' hc hname]
  exact UInt32.le_refl c.version

/-- An acceptable capability can be put in: its callers fit it, because they fitted
    the one before it. -/
theorem Sane.put (h : Sane caps) (hok : Acceptable caps spec src) (hc : Same spec c) :
    Sane (Roster.put cap_t.name c caps) := by
  have hnparam : c.nparam = spec.nparam := congrArg length hc.param
  have hself : Linkage.Resolves cap_t.name cap_t.nparam refs (Roster.put cap_t.name c caps) c := by
    rw [resolves_iff, hc.kind]
    intro hcompose s hs
    have hbody := hok.body
    rw [GoodBody, hcompose] at hbody
    obtain ⟨-, b, hb, hcount⟩ := hbody.2 s (hc.step hcompose ▸ hs)
    rw [callee] at hb
    split at hb
    · rename_i hcall
      obtain rfl := some.inj hb
      exact ⟨c, mem_put_self, hc.name.trans hcall.symm, hnparam.trans hcount⟩
    · rename_i hcall
      obtain ⟨hb, hname⟩ := mem_of_find hb
      exact ⟨b, mem_put_of_ne hb fun heq => hcall (hname.symm.trans (heq.trans hc.name)), hname, hcount⟩
  have hcallers : ∀ b ∈ caps, b.name ≠ c.name → ∀ r ∈ refs b, r.1 = c.name → c.nparam = r.2 := by
    intro b hb _
    rw [forall_refs]
    intro hcompose s hs hcall
    have hcall : s.call = spec.name := Eq.trans hcall hc.name
    obtain ⟨old, hold, holdname, holdcount⟩ := h.callable b hb hcompose s hs
    have hfind : find cap_t.name spec.name caps = some old :=
      h.unique.find_eq_some.mpr ⟨hold, holdname.trans hcall⟩
    rw [hnparam]
    by_cases hsame : old.nparam = spec.nparam
    · exact hsame.symm.trans holdcount
    · exact (hok.callers old hfind hsame b hb hcompose s hs hcall).symm
  refine ⟨callable_iff.mpr ((callable_iff.mp h.callable).put h.unique hself hcallers), h.unique.put, ?_⟩
  exact length_put_le_of_room h.room (hc.name ▸ hok.room)

theorem same_registered : Same c (registered c caps) ∧ (registered c caps).version = c.version := by
  rw [registered]
  split <;> exact ⟨⟨rfl, rfl, rfl, rfl, fun _ => rfl⟩, rfl⟩

/-- What a save registers. -/
theorem same_entry {crc : UInt64} {has_backup : Bool} : Same spec { registered (stored caps spec src) caps with
    crc := crc, has_backup := has_backup } := by
  have hsame := (@same_registered caps (stored caps spec src)).1
  refine ⟨hsame.name.trans same_stored.name, hsame.param.trans same_stored.param, hsame.doc.trans same_stored.doc,
    hsame.kind.trans same_stored.kind, fun hcompose => ?_⟩
  exact (hsame.step (same_stored.kind.trans hcompose)).trans (same_stored.step hcompose)

theorem room_load_files {d} : (load_files d).caps.length ≤ CAP_MAX := by
  refine load_files_rule (P := fun caps => caps.length ≤ CAP_MAX) (Nat.zero_le _) fun _ hroom hload => ?_
  simp only [load_one, except_bind_eq_ok_iff, refuse_eq_ok_iff] at hload
  obtain ⟨-, -, -, -, -, -, c, -, -, hfull, hload⟩ := hload
  cases hload
  refine length_put_le_of_room hroom fun hfind => Nat.not_le.mp fun hle => hfull ⟨?_, hle⟩
  rwa [← (@same_registered _ c).1.name]

theorem sane_init {d} (h : Callable (capability_init d).caps) : Sane (capability_init d).caps :=
  ⟨h, unique_load_files.sublist (init_sublist.map _), init_sublist.length_le.trans room_load_files⟩

/-- What a save can do to the registry: it is refused and changes nothing, or it
    puts in a capability that is acceptable. -/
inductive Put (s : state_t) (out : state_t × Except refusal_t Unit) : Prop
  | refused (why : refusal_t) (hout : out.2 = .error why) (hcaps : out.1.caps = s.caps)
  | saved (spec c : cap_t) (src : List UInt8) (hok : Acceptable s.caps spec src) (hc : Same spec c)
      (hcaps : out.1.caps = Roster.put cap_t.name c s.caps)

theorem put_write_record {d} {have_backup : Bool} (hok : Acceptable s.caps spec src) :
    Put s (write_record s d have_backup (stored s.caps spec src) src) := by
  rw [write_record]
  split
  · exact .refused .too_large rfl rfl
  · dsimp only
    split
    · exact .refused (.not_written have_backup) rfl rfl
    · exact .saved spec _ src hok same_entry rfl

theorem put_save_files (hok : Acceptable s.caps spec src) : Put s (save_files s (stored s.caps spec src) src) := by
  rw [save_files]
  generalize (if (find cap_t.name (stored s.caps spec src).name s.caps).isSome then
    back_up s.disk (stored s.caps spec src).name else (s.disk, some false)) = backup
  obtain ⟨d, made⟩ := backup
  cases made with
  | none => exact .refused .backup_not_written rfl rfl
  | some have_backup => exact put_write_record hok

/-- A save puts the acceptable capability in the table or leaves it. -/
theorem put_capability_save : Put s (capability_save spec src s) := by
  rw [capability_save]
  cases hchecks : save_checks s.caps spec src with
  | error why => exact .refused why rfl rfl
  | ok c =>
    obtain ⟨hok, rfl⟩ := save_checks_iff.mp hchecks
    exact put_save_files hok

/-- So does a revert. -/
theorem put_capability_revert : Put s (capability_revert name s) := by
  rw [capability_revert]
  cases backup_of s name with
  | error why => exact .refused why rfl rfl
  | ok backup => exact put_capability_save

theorem caller_of_eq_none_iff : caller_of caps name = none ↔ ∀ b ∈ caps, b.name ≠ name → ¬ Calls b name := by
  rw [caller_of, findSome?_eq_none_iff]
  refine forall₂_congr fun b hb => ?_
  by_cases hname : b.name = name
  · simp [hname]
  by_cases hkind : b.kind = .compose
  · simp [hname, hkind, Calls]
  · simp [hkind, Calls]

/-- Removing what nobody else calls leaves a sane table. -/
theorem Sane.remove (h : Sane caps) (hcallers : ∀ b ∈ caps, b.name ≠ name → ¬ Calls b name) :
    Sane (Roster.remove cap_t.name name caps) where
  callable := by
    refine callable_iff.mpr ((callable_iff.mp h.callable).remove h.unique fun b hb hne => ?_)
    rw [refers_iff]
    exact hcallers b hb hne
  unique := h.unique.remove
  room := remove_sublist.length_le.trans h.room

inductive op_t where
  | save (spec : cap_t) (src : List UInt8)
  | revert (name : text_t)
  | delete (name : text_t)

def state_t.apply (s : state_t) : op_t → state_t × Except refusal_t Unit
  | .save spec src => capability_save spec src s
  | .revert name => capability_revert name s
  | .delete name => capability_delete name s

/-- What a file of the store holds. -/
def disk_t.bytes (d : disk_t) (leaf : text_t) : Option (List UInt8) := (Roster.find Prod.fst leaf d.file).map Prod.snd

/-- How the `n`-th write to come ends. -/
def disk_t.write (d : disk_t) (n : Nat) : write_t := d.writes.getD n .whole

/-- What an operation owes: a sane registry, no version that went down, and
    nothing changed in the registry or the store when it is refused. -/
structure Orderly (s : state_t) (out : state_t × Except refusal_t Unit) : Prop where
  sane : Sane out.1.caps
  versions : Monotone s.caps out.1.caps
  refused : ∀ why, out.2 = .error why → out.1.caps = s.caps ∧ out.1.disk.bytes = s.disk.bytes

/-- The record that a save copies to the backup first: that of a registered
    capability, if it can be read and is not empty. -/
def current (s : state_t) (name : text_t) : Option (List UInt8) :=
  let (rc, file) := file_read_all s.disk (name ++ CAP_SUFFIX)
  if (Roster.find cap_t.name name s.caps).isSome ∧ rc = CAP_OK ∧ file ≠ [] then some file else none

/-- The capability is registered under the last version there is. -/
def Last (s : state_t) (name : text_t) : Prop := ∃ c ∈ s.caps, c.name = name ∧ c.version = 0xFFFFFFFF

/-- The write of the record, the `n`-th of a save, spoils it: it ends well and the
    version starts again, or it is cut off and leaves something else in the file. -/
def RecordSpoils (s : state_t) (name : text_t) (n : Nat) : Prop :=
  match s.disk.write n with
  | .whole => Last s name
  | .refused => False
  | .torn left => s.disk.bytes (name ++ CAP_SUFFIX) ≠ some left

/-- The store spoils a save: in one of its two writes, or by a failure after the
    first has replaced the backup. -/
def SaveSpoils (s : state_t) (spec : cap_t) (src : List UInt8) : Prop :=
  let fits := (record_write (stored s.caps spec src) src).isSome
  match current s spec.name with
  | none => fits ∧ RecordSpoils s spec.name 0
  | some file =>
    match s.disk.write 0 with
    | .whole => fits ∧ RecordSpoils s spec.name 1 ∨
        s.disk.bytes (spec.name ++ CAP_BAKSUFFIX) ≠ some file ∧ (fits = false ∨ s.disk.write 1 ≠ .whole)
    | .refused => False
    | .torn left => s.disk.bytes (spec.name ++ CAP_BAKSUFFIX) ≠ some left

/-- The states and operations that break the order. -/
def Spoils (s : state_t) : op_t → Prop
  | .save spec src => Acceptable s.caps spec src ∧ SaveSpoils s spec src
  | .revert name => ∃ cur file spec src, Roster.find cap_t.name name s.caps = some cur ∧
      file_read_all s.disk (name ++ CAP_BAKSUFFIX) = (CAP_OK, file) ∧ record_parse file = .ok (spec, src) ∧
      spec.name = name ∧ Acceptable s.caps spec src ∧ SaveSpoils s spec src
  | .delete name => (∃ c ∈ s.caps, c.name = name) ∧ (∀ b ∈ s.caps, b.name ≠ name → ¬ Calls b name) ∧
      (s.disk.bytes (name ++ CAP_SUFFIX) = none ∨ s.disk.unlinks.head? = some false)

theorem succ_version {v : UInt32} : v ≤ v + 1 ↔ v ≠ 0xFFFFFFFF := by
  have hv := v.toNat_lt
  rw [UInt32.le_iff_toNat_le, UInt32.toNat_add, ne_eq, ← UInt32.toNat_inj]
  have hone : (1 : UInt32).toNat = 1 := rfl
  have hlast : (0xFFFFFFFF : UInt32).toNat = 4294967295 := rfl
  rw [hone, hlast]
  omega

theorem orderly_of_refused {why} (h : Sane s.caps) (hcaps : out.1.caps = s.caps) (hout : out.2 = .error why) :
    Orderly s out ↔ out.1.disk.bytes = s.disk.bytes := by
  refine ⟨fun horderly => (horderly.refused why hout).2, fun hdisk => ⟨?_, ?_, fun _ _ => ⟨hcaps, hdisk⟩⟩⟩
  · rw [hcaps]
    exact h
  · rw [hcaps]
    exact monotone_refl h.unique

theorem orderly_of_saved (h : Sane s.caps) (hok : Acceptable s.caps spec src) (hc : Same spec c)
    (hversion : c.version = next_version s.caps spec.name) (hcaps : out.1.caps = Roster.put cap_t.name c s.caps)
    (hout : out.2 = .ok ()) : Orderly s out ↔ ¬ Last s spec.name := by
  have hnext {old : cap_t} (hold : old ∈ s.caps) (holdname : old.name = spec.name) : c.version = old.version + 1 := by
    rw [hversion, next_version, h.unique.find_eq_some.mpr ⟨hold, holdname⟩]
  constructor
  · rintro horderly ⟨old, hold, holdname, hlast⟩
    have hle := horderly.versions old hold c (hcaps ▸ mem_put_self) (hc.name.trans holdname.symm)
    rw [hnext hold holdname] at hle
    exact succ_version.mp hle hlast
  · intro hlast
    refine ⟨hcaps ▸ h.put hok hc, fun old hold b hb hbname => ?_, fun why hwhy => ?_⟩
    · rw [hcaps] at hb
      obtain rfl | ⟨hb, -⟩ := h.unique.mem_put.mp hb
      · have holdname := hbname.symm.trans hc.name
        rw [hnext hold holdname]
        exact succ_version.mpr fun hold' => hlast ⟨old, hold, holdname, hold'⟩
      · exact monotone_refl h.unique old hold b hb hbname
    · cases hout.symm.trans hwhy

/-- What a write leaves in its file. -/
def write_t.leaves (bytes : List UInt8) (old : Option (List UInt8)) : write_t → Option (List UInt8)
  | .whole => some bytes
  | .refused => old
  | .torn left => some left

theorem bytes_put {d : disk_t} {leaf bytes} {files} (hfiles : files = Roster.put Prod.fst (leaf, bytes) d.file) (x) :
    (Roster.find Prod.fst x files).map Prod.snd = Function.update d.bytes leaf (some bytes) x := by
  subst hfiles
  by_cases hx : x = leaf
  · subst hx
    rw [Function.update_self, @find_put_self _ _ _ Prod.fst (x, bytes)]
    rfl
  · rw [Function.update_of_ne hx, find_put_of_ne hx]
    rfl

/-- A write leaves the new bytes, or what its failure leaves of the file. -/
theorem file_write_all_spec (d : disk_t) (leaf bytes) :
    (file_write_all d leaf bytes).1.bytes = Function.update d.bytes leaf ((d.write 0).leaves bytes (d.bytes leaf)) ∧
    ((file_write_all d leaf bytes).2 = CAP_OK ↔ d.write 0 = .whole) ∧
    ∀ n, (file_write_all d leaf bytes).1.write n = d.write (n + 1) := by
  have hfail : ¬ CAP_EIO = CAP_OK := by decide
  rw [file_write_all, disk_t.write]
  cases hwrites : d.writes with
  | nil => exact ⟨funext (bytes_put rfl), iff_of_true rfl rfl, fun n => by simp [disk_t.write, hwrites]⟩
  | cons w rest =>
    have hnext (n : Nat) : rest.getD n .whole = d.write (n + 1) := by rw [disk_t.write, hwrites]; rfl
    cases w with
    | whole => exact ⟨funext (bytes_put rfl), iff_of_true rfl rfl, hnext⟩
    | refused => exact ⟨(Function.update_eq_self leaf d.bytes).symm, iff_of_false hfail write_t.noConfusion, hnext⟩
    | torn left => exact ⟨funext (bytes_put rfl), iff_of_false hfail write_t.noConfusion, hnext⟩

theorem update_bytes_eq {f : text_t → Option (List UInt8)} {leaf x} : Function.update f leaf x = f ↔ f leaf = x := by
  rw [Function.update_eq_iff]
  exact ⟨fun h => h.1.symm, fun h => ⟨h.symm, fun _ _ => rfl⟩⟩

/-- The record is written after a backup that has left `kept` in the backup's file. -/
theorem orderly_write_record {d : disk_t} {kept} {have_backup : Bool} (h : Sane s.caps)
    (hok : Acceptable s.caps spec src)
    (hd : d.bytes = Function.update s.disk.bytes (spec.name ++ CAP_BAKSUFFIX) kept) :
    Orderly s (write_record s d have_backup (stored s.caps spec src) src) ↔
      if (record_write (stored s.caps spec src) src).isSome then
        match d.write 0 with
        | .whole => ¬ Last s spec.name
        | .refused => s.disk.bytes (spec.name ++ CAP_BAKSUFFIX) = kept
        | .torn left => s.disk.bytes (spec.name ++ CAP_BAKSUFFIX) = kept ∧
            s.disk.bytes (spec.name ++ CAP_SUFFIX) = some left
      else s.disk.bytes (spec.name ++ CAP_BAKSUFFIX) = kept := by
  have hne : spec.name ++ CAP_SUFFIX ≠ spec.name ++ CAP_BAKSUFFIX := fun heq =>
    absurd (append_cancel_left heq) (by decide)
  have hsame : d.bytes = s.disk.bytes ↔ s.disk.bytes (spec.name ++ CAP_BAKSUFFIX) = kept := by rw [hd, update_bytes_eq]
  rw [write_record, same_stored.name]
  cases record_write (stored s.caps spec src) src with
  | none => exact (orderly_of_refused h rfl rfl).trans hsame
  | some file =>
    obtain ⟨hbytes, hrc, -⟩ := file_write_all_spec d (spec.name ++ CAP_SUFFIX) file
    dsimp only
    cases hw : d.write 0 with
    | whole =>
      rw [if_neg (not_not.mpr (hrc.mpr hw))]
      have hversion := (@same_registered s.caps (stored s.caps spec src)).2.trans stored_version
      refine orderly_of_saved h hok same_entry ?_ rfl rfl
      exact hversion
    | refused =>
      rw [hw, write_t.leaves, Function.update_eq_self] at hbytes
      rw [if_pos (mt hrc.mp (by rw [hw]; exact write_t.noConfusion))]
      refine (orderly_of_refused h rfl rfl).trans ?_
      dsimp only
      rw [hbytes]
      exact hsame
    | torn left =>
      rw [hw, write_t.leaves] at hbytes
      rw [if_pos (mt hrc.mp (by rw [hw]; exact write_t.noConfusion))]
      refine (orderly_of_refused h rfl rfl).trans ?_
      dsimp only
      rw [hbytes, hd, Function.update_eq_iff]
      constructor
      · rintro ⟨hcap, hrest⟩
        have hbak := hrest _ hne.symm
        rw [Function.update_self] at hbak
        exact ⟨hbak.symm, hcap.symm⟩
      · rintro ⟨hbak, hcap⟩
        exact ⟨hcap.symm, fun x _ => congrFun (update_bytes_eq.mpr hbak) x⟩

theorem save_files_eq : save_files s (stored s.caps spec src) src =
    match current s spec.name with
    | none => write_record s s.disk false (stored s.caps spec src) src
    | some file =>
      if (file_write_all s.disk (spec.name ++ CAP_BAKSUFFIX) file).2 = CAP_OK then
        write_record s (file_write_all s.disk (spec.name ++ CAP_BAKSUFFIX) file).1 true (stored s.caps spec src) src
      else ({ s with disk := (file_write_all s.disk (spec.name ++ CAP_BAKSUFFIX) file).1 }, .error .backup_not_written) := by
  rw [save_files, same_stored.name, current]
  by_cases hold : (find cap_t.name spec.name s.caps).isSome = true
  · rw [if_pos hold, back_up]
    by_cases hread : (file_read_all s.disk (spec.name ++ CAP_SUFFIX)).1 = CAP_OK ∧
        (file_read_all s.disk (spec.name ++ CAP_SUFFIX)).2 ≠ []
    · simp only [if_pos hread, if_pos (And.intro hold hread)]
      split
      · rename_i hnone
        split at hnone
        · cases hnone
        · rename_i hrc
          rw [if_neg hrc]
      · rename_i made hsome
        split at hsome
        · rename_i hrc
          rw [if_pos hrc, ← some.inj hsome]
        · cases hsome
    · simp only [if_neg hread, if_neg (fun h => hread (And.right h))]
  · simp only [if_neg hold, if_neg (fun h => hold (And.left h))]

theorem orderly_save_files (h : Sane s.caps) (hok : Acceptable s.caps spec src) :
    Orderly s (save_files s (stored s.caps spec src) src) ↔ ¬ SaveSpoils s spec src := by
  rw [save_files_eq, SaveSpoils]
  cases current s spec.name with
  | none =>
    dsimp only
    rw [orderly_write_record h hok (Function.update_eq_self _ _).symm, RecordSpoils]
    split
    · rename_i hfits
      rw [and_iff_right hfits]
      split
      · rfl
      · exact iff_of_true rfl not_false
      · rw [and_iff_right rfl, not_not]
    · rename_i hfits
      exact iff_of_true rfl fun hspoils => hfits hspoils.1
  | some file =>
    obtain ⟨hbytes, hrc, hnext⟩ := file_write_all_spec s.disk (spec.name ++ CAP_BAKSUFFIX) file
    dsimp only
    cases hw : s.disk.write 0 with
    | whole =>
      rw [hw, write_t.leaves] at hbytes
      rw [if_pos (hrc.mpr hw), orderly_write_record h hok hbytes, hnext, RecordSpoils]
      cases (record_write (stored s.caps spec src) src).isSome with
      | false => simp
      | true => cases s.disk.write 1 <;> simp [and_comm]
    | refused =>
      rw [hw, write_t.leaves, Function.update_eq_self] at hbytes
      rw [if_neg (mt hrc.mp (by rw [hw]; exact write_t.noConfusion)), orderly_of_refused h rfl rfl]
      exact iff_of_true hbytes not_false
    | torn left =>
      rw [hw, write_t.leaves] at hbytes
      rw [if_neg (mt hrc.mp (by rw [hw]; exact write_t.noConfusion)), orderly_of_refused h rfl rfl]
      dsimp only
      rw [hbytes, update_bytes_eq, not_not]

/-- A save is orderly exactly when no failing write spoils what it accepted. -/
theorem orderly_save (h : Sane s.caps) : Orderly s (capability_save spec src s) ↔
    ¬ (Acceptable s.caps spec src ∧ SaveSpoils s spec src) := by
  rw [capability_save]
  cases hchecks : save_checks s.caps spec src with
  | error why =>
    refine iff_of_true ((orderly_of_refused h rfl rfl).mpr rfl) fun hspoils => ?_
    cases hchecks.symm.trans (save_checks_iff.mpr ⟨hspoils.1, rfl⟩)
  | ok c =>
    obtain ⟨hok, rfl⟩ := save_checks_iff.mp hchecks
    rw [and_iff_right hok]
    exact orderly_save_files h hok

theorem backup_of_iff : backup_of s name = .ok (spec, src) ↔
    ∃ cur file, Roster.find cap_t.name name s.caps = some cur ∧
      file_read_all s.disk (name ++ CAP_BAKSUFFIX) = (CAP_OK, file) ∧ record_parse file = .ok (spec, src) ∧
      spec.name = name := by
  rw [backup_of]
  cases hfind : find cap_t.name name s.caps with
  | none => simp
  | some cur =>
    have hname := (mem_of_find hfind).2
    dsimp only
    rw [hname]
    cases hread : file_read_all s.disk (name ++ CAP_BAKSUFFIX) with
    | mk rc file =>
    have hexists (hrc : rc = CAP_OK) : file_exists s.disk (name ++ CAP_BAKSUFFIX) ≠ false := by
      intro hno
      rw [file_exists, isSome_eq_false_iff, isNone_iff_eq_none] at hno
      rw [file_read_all, hno] at hread
      exact absurd (((Prod.mk.inj hread).1).trans hrc) (by decide)
    simp only [refuse_eq_ok_iff, except_bind_eq_ok_iff, mapError_eq_ok_iff, not_not]
    constructor
    · rintro ⟨_, -, _, rfl, ⟨c, src'⟩, hparse, _, hname', heq⟩
      obtain ⟨rfl, rfl⟩ := Prod.mk.inj (Except.ok.inj heq)
      exact ⟨cur, file, rfl, rfl, hparse, hname'⟩
    · rintro ⟨_, _, -, heq, hparse, hname'⟩
      obtain ⟨rfl, rfl⟩ := Prod.mk.inj heq
      exact ⟨(), hexists rfl, (), rfl, _, hparse, (), hname', rfl⟩

/-- A revert is orderly exactly when it does not spoil the files. -/
theorem orderly_revert (h : Sane s.caps) : Orderly s (capability_revert name s) ↔ ¬ Spoils s (.revert name) := by
  rw [capability_revert]
  cases hbackup : backup_of s name with
  | error why =>
    refine iff_of_true ((orderly_of_refused h rfl rfl).mpr rfl) ?_
    rintro ⟨cur, file, spec, src, hfind, hread, hparse, hname, -⟩
    cases hbackup.symm.trans (backup_of_iff.mpr ⟨cur, file, hfind, hread, hparse, hname⟩)
  | ok backup =>
    obtain ⟨c, src⟩ := backup
    obtain ⟨cur, file, hfind, hread, hparse, hname⟩ := backup_of_iff.mp hbackup
    dsimp only
    rw [orderly_save h, Spoils]
    refine not_congr ⟨fun hspoils => ⟨cur, file, c, src, hfind, hread, hparse, hname, hspoils⟩, ?_⟩
    rintro ⟨cur', file', spec, src', -, hread', hparse', -, hspoils⟩
    obtain ⟨-, rfl⟩ := Prod.mk.inj (hread.symm.trans hread')
    obtain ⟨rfl, rfl⟩ := Prod.mk.inj (Except.ok.inj (hparse.symm.trans hparse'))
    exact hspoils

theorem file_unlink_ok {d : disk_t} {leaf} : (file_unlink d leaf).2 = CAP_OK ↔
    ¬ (d.bytes leaf = none ∨ d.unlinks.head? = some false) := by
  have hfail : ¬ CAP_EIO = CAP_OK := by decide
  rw [file_unlink, disk_t.bytes, map_eq_none_iff]
  split
  · rename_i hnone
    exact iff_of_false hfail (not_not_intro (.inl (isNone_iff_eq_none.mp hnone)))
  · rename_i hsome
    rw [isNone_iff_eq_none] at hsome
    rcases hunlinks : d.unlinks with _ | ⟨_ | _, rest⟩
    · simp [hsome]
    · simp [hfail]
    · simp [hsome]

/-- A deletion is orderly exactly when it does not spoil the files. -/
theorem orderly_delete (h : Sane s.caps) : Orderly s (capability_delete name s) ↔ ¬ Spoils s (.delete name) := by
  rw [capability_delete, Spoils]
  cases hfind : find cap_t.name name s.caps with
  | none =>
    refine iff_of_true ((orderly_of_refused h rfl rfl).mpr rfl) ?_
    rintro ⟨⟨c, hc, hname⟩, -⟩
    exact find_eq_none.mp hfind c hc hname
  | some c =>
    have hmem := mem_of_find hfind
    cases hcaller : caller_of s.caps name with
    | some caller =>
      refine iff_of_true ((orderly_of_refused h rfl rfl).mpr rfl) ?_
      rintro ⟨-, hcallers, -⟩
      cases hcaller.symm.trans (caller_of_eq_none_iff.mpr hcallers)
    | none =>
      have hcallers := caller_of_eq_none_iff.mp hcaller
      rw [and_iff_right ⟨c, hmem⟩, and_iff_right hcallers, ← file_unlink_ok]
      dsimp only
      constructor
      · intro horderly
        by_contra hrc
        -- the capability has gone, and the call reports a failure
        have hsame := (horderly.refused .file_left (if_neg hrc)).1
        have hgone : c ∈ remove cap_t.name name s.caps := by
          rw [show remove cap_t.name name s.caps = s.caps from hsame]
          exact hmem.1
        exact (h.unique.mem_remove.mp hgone).2 hmem.2
      · intro hrc
        refine ⟨h.remove hcallers, fun old hold b hb hbname => ?_, fun why hwhy => ?_⟩
        · exact monotone_refl h.unique old hold b (remove_sublist.subset hb) hbname
        · cases (if_pos hrc).symm.trans hwhy

/-- From any registry whose compositions are callable: every save, revert and
    delete leaves such a registry, with no version gone down and nothing changed
    by a refusal, exactly if it does not find one of the states that spoil it. -/
theorem edit_orderly_iff (s : state_t) (op : op_t) (h : Sane s.caps) : Orderly s (s.apply op) ↔ ¬ Spoils s op := by
  cases op with
  | save spec src => exact orderly_save h
  | revert name => exact orderly_revert h
  | delete name => exact orderly_delete h

/-- A store with two compositions: `a` calls `b`, and `b` itself. -/
def pair_store : disk_t :=
  ⟨[([0x61] ++ CAP_SUFFIX, (record_write (calling [0x61] [0x62]) []).getD []),
    ([0x62] ++ CAP_SUFFIX, (record_write (calling [0x62] [0x62]) []).getD [])], fun _ => false, [], []⟩

/-- The two as they are after the boot, with some writes to come. -/
def pair (writes : List write_t) : state_t := ⟨(capability_init pair_store).caps, { pair_store with writes := writes }⟩

theorem pair_caps : (capability_init pair_store).caps.map (fun c => (c.name, c.version, c.nparam, c.step)) =
    [([0x61], 1, 0, [⟨[0x62], [], .none, .lit 0, .lit 0⟩]), ([0x62], 1, 0, [⟨[0x62], [], .none, .lit 0, .lit 0⟩])] := by
  decide +kernel

theorem callable_of_pair (h : caps.map (fun c => (c.name, c.version, c.nparam, c.step)) =
    [([0x61], 1, 0, [⟨[0x62], [], .none, .lit 0, .lit 0⟩]), ([0x62], 1, 0, [⟨[0x62], [], .none, .lit 0, .lit 0⟩])]) :
    Callable caps ∧ ∀ c ∈ caps, c.version = 1 := by
  obtain ⟨a, rest, rfl, ha, hrest⟩ := map_eq_cons_iff.mp h
  obtain ⟨b, rest, rfl, hb, hnil⟩ := map_eq_cons_iff.mp hrest
  obtain rfl := map_eq_nil_iff.mp hnil
  simp only [Prod.mk.injEq] at ha hb
  have hstep : ∀ c ∈ [a, b], c.step = [⟨[0x62], [], .none, .lit 0, .lit 0⟩] ∧ c.version = 1 := by
    simp only [forall_mem_cons, ha, hb, and_self, not_mem_nil, false_implies, implies_true]
  refine ⟨?_, fun c hc => (hstep c hc).2⟩
  rintro c hc - s hs
  rw [(hstep c hc).1, mem_singleton] at hs
  refine ⟨b, mem_cons_of_mem a mem_cons_self, ?_, ?_⟩
  · rw [hs, hb.1]
  · rw [hs, hb.2.2.1]
    rfl

theorem sane_pair (writes : List write_t) : Sane (pair writes).caps := by
  have hsane : Sane (capability_init pair_store).caps := @sane_init pair_store (callable_of_pair pair_caps).1
  simpa only [pair] using hsane

theorem pair_not_last (writes : List write_t) (name : text_t) : ¬ Last (pair writes) name := by
  rintro ⟨c, hc, -, hlast⟩
  simp only [pair] at hc
  have hversion := (callable_of_pair pair_caps).2 c hc
  rw [hversion] at hlast
  exact absurd hlast (by decide)

/-- A save of an existing capability is not spoilt where no write fails, or the
    first one is refused. -/
theorem not_saveSpoils (hcurrent : (current s spec.name).isSome) (hlast : ¬ Last s spec.name)
    (hfits : (record_write (stored s.caps spec src) src).isSome)
    (hwrites : s.disk.writes = [] ∨ s.disk.writes = [.refused]) : ¬ SaveSpoils s spec src := by
  obtain ⟨file, hfile⟩ := Option.isSome_iff_exists.mp hcurrent
  obtain hwrites | hwrites := hwrites
  · simp [SaveSpoils, RecordSpoils, disk_t.write, hfile, hfits, hwrites, hlast]
  · simp [SaveSpoils, disk_t.write, hfile, hwrites]

/-- `a` is saved again, with its old record in the backup; the same save is refused
    where the backup cannot be written; and `a` is deleted. -/
theorem pair_orderly : Sane (pair []).caps ∧ Orderly (pair []) ((pair []).apply (.save (calling [0x61] [0x62]) [])) ∧
    Orderly (pair [.refused]) ((pair [.refused]).apply (.save (calling [0x61] [0x62]) [])) ∧
    Orderly (pair []) ((pair []).apply (.delete [0x61])) := by
  refine ⟨sane_pair _, (edit_orderly_iff _ _ (sane_pair _)).mpr ?_, (edit_orderly_iff _ _ (sane_pair _)).mpr ?_,
    (edit_orderly_iff _ _ (sane_pair _)).mpr ?_⟩
  · exact mt And.right (not_saveSpoils (by decide +kernel) (pair_not_last _ _) (by decide +kernel) (.inl rfl))
  · exact mt And.right (not_saveSpoils (by decide +kernel) (pair_not_last _ _) (by decide +kernel) (.inr rfl))
  · exact mt (fun h => h.2.2) (by decide +kernel)

/-- A registry with one composition, of the last version there is. -/
def last_version : state_t :=
  ⟨[{ calling [0x61] [0x61] with version := 0xFFFFFFFF }], ⟨[([0x61] ++ CAP_SUFFIX, [])], fun _ => false, [], [false]⟩⟩

theorem sane_self (version : UInt32) : Sane [{ calling [0x61] [0x61] with version := version }] := by
  refine ⟨?_, nodup_singleton _, by simp⟩
  rintro c hc - s hs
  obtain rfl := mem_singleton.mp hc
  obtain rfl := mem_singleton.mp hs
  exact ⟨_, hc, rfl, rfl⟩

/-- Saving it again gives it version 0, and deleting it reports a failure when it
    is gone. -/
theorem edits_out_of_order : Sane last_version.caps ∧
    ¬ Orderly last_version (last_version.apply (.save (calling [0x61] [0x61]) [])) ∧
    ¬ Orderly last_version (last_version.apply (.delete [0x61])) := by
  have hsave : (last_version.apply (.save (calling [0x61] [0x61]) [])).1.caps.map (fun c => (c.name, c.version)) =
      [([0x61], 0)] := by decide +kernel
  have hdelete : (last_version.apply (.delete [0x61])).2 = .error .file_left ∧
      (last_version.apply (.delete [0x61])).1.caps = [] := by decide +kernel
  refine ⟨sane_self 0xFFFFFFFF, fun horderly => ?_, fun horderly => ?_⟩
  · obtain ⟨c, hc, heq⟩ := mem_map.mp (hsave ▸ mem_singleton_self _)
    obtain ⟨hname, hversion⟩ := Prod.mk.inj heq
    have hle := horderly.versions _ (mem_singleton_self _) c hc hname
    rw [hversion] at hle
    exact absurd hle (by decide)
  · have hsame := (horderly.refused _ hdelete.1).1
    cases hdelete.2.symm.trans hsame

theorem Sane.of_put (h : Sane s.caps) (hput : Put s out) : Sane out.1.caps := by
  cases hput with
  | refused _ _ hcaps => exact hcaps ▸ h
  | saved _ _ _ hok hc hcaps => exact hcaps ▸ h.put hok hc

/-- Every operation keeps the table sane. -/
theorem Sane.apply (h : Sane s.caps) (op : op_t) : Sane (s.apply op).1.caps := by
  cases op with
  | save => exact h.of_put put_capability_save
  | revert => exact h.of_put put_capability_revert
  | delete name =>
    rw [state_t.apply, capability_delete]
    split
    · exact h
    split
    · exact h
    · rename_i hcaller
      exact h.remove (caller_of_eq_none_iff.mp hcaller)

/-- A boot and the edits after it, done or refused. -/
def session (d : disk_t) (ops : List op_t) : state_t :=
  ops.foldl (fun s op => (s.apply op).1) ⟨(capability_init d).caps, d⟩

/-- Whatever is on the disk and however its writes and removals end: if a boot
    has left compositions that can all be called, no sequence of edits makes a
    call hang, enters a name twice or overfills the table. -/
theorem session_sane (d : disk_t) (ops : List op_t) (h : Callable (capability_init d).caps) :
    Sane (session d ops).caps :=
  foldlRecOn (motive := fun s : state_t => Sane s.caps) ops _ (sane_init h) fun _ hs op _ => hs.apply op

/-- After the boot with two compositions a third is saved that calls the first; the
    first can then not be deleted, and the third is. -/
theorem pair_session_sane : (session pair_store [.save (calling [0x63] [0x61]) [], .delete [0x61]]).caps.map cap_t.name =
      [[0x61], [0x62], [0x63]] ∧
    Sane (session pair_store [.save (calling [0x63] [0x61]) [], .delete [0x61], .delete [0x63]]).caps :=
  ⟨by decide +kernel, session_sane _ _ (callable_of_pair pair_caps).1⟩

end Edits

end fable.capability
