import FableOs.Agenda.Store

namespace fable.agenda

/-! Editing the agenda, running one item, and the callers of the runner. -/

open fable.json List

abbrev TOOL_OK : Int := 0
abbrev TOOL_ENOENT : Int := -2
abbrev CHAT_EREENTER : Int := -103

section Editing

/-- What `agenda_save` reports, with the sentence it leaves in `why`. -/
inductive save_t where
  | ok
  | refused (why : refusal_t)
  | full
  | not_written
  deriving DecidableEq, Repr

def save_t.rc : save_t → Int
  | .ok => AGENDA_OK
  | .refused why => why.rc
  | .full => AGENDA_ENOSPC
  | .not_written => AGENDA_EIO

/-- The local copy that `agenda_save` makes of what it is given. -/
def normalised : Option agenda_item_t → agenda_item_t
  | none => zeroed
  | some given =>
    { zeroed with
      name := copy_text AGENDA_NAME_MAX given.name
      note := copy_text AGENDA_NOTE_MAX given.note
      tool := copy_text AGENDA_TOOL_MAX given.tool
      act := given.act
      arg := arg_copy AGENDA_ARG_MAX given.arg given.act
      when := given.when
      period_ms := if given.period_ms ≠ 0 then given.period_ms else AGENDA_MIN_PERIOD_MS
      max_runs := if given.max_runs ≠ 0 then given.max_runs else AGENDA_MAX_RUNS
      enabled := given.enabled }

def agenda_save (tools : List text_t) (given : Option agenda_item_t) (s : agenda_t) : agenda_t × save_t :=
  let it := normalised given
  match validate tools it with
  | .error why => (s, .refused why)
  | .ok () =>
    if Roster.find agenda_item_t.name it.name s.item = none ∧ AGENDA_MAX_ITEMS ≤ s.item.length then (s, .full)
    else
      let (s, rc) := agenda_flush ({ s with item := Roster.put agenda_item_t.name it s.item }.mark (.saved it.name))
      (s, if rc = AGENDA_OK then .ok else .not_written)

def agenda_remove (name : text_t) (s : agenda_t) : agenda_t × Int :=
  if Roster.find agenda_item_t.name name s.item = none then (s, AGENDA_ENOENT)
  else ((agenda_flush { s with item := Roster.remove agenda_item_t.name name s.item }).1, AGENDA_OK)

/-- `find_mut` as the index of the slot. -/
def find_mut (name : text_t) (s : agenda_t) : Option Nat := Roster.place agenda_item_t.name name s.item

/-- `it->...` through a pointer to a slot. A slot behind the last item reads as
    zeros: `agenda_remove` zeroes the one that it frees. -/
def agenda_t.slot (s : agenda_t) (i : Nat) : agenda_item_t := s.item.getD i zeroed

/-- `it->... = ...` through a pointer to a slot. Nobody reads what is stored
    behind the last item: the slot is zeroed before it is used again. -/
def agenda_t.write (s : agenda_t) (i : Nat) (f : agenda_item_t → agenda_item_t) : agenda_t :=
  { s with item := s.item.modify i f }

def agenda_set_enabled (name : text_t) (on : Bool) (s : agenda_t) : agenda_t × Int :=
  match find_mut name s with
  | none => (s, AGENDA_ENOENT)
  | some i =>
    let f (it : agenda_item_t) := { it with enabled := on, failures := if on then 0 else it.failures }
    ((agenda_flush (s.write i f)).1, AGENDA_OK)

def agenda_enable (on : Bool) (s : agenda_t) : agenda_t := { s with on := on }

end Editing

section Action

/-- How `fault_guard_run` comes back: without having run the body, out of a fatal
    fault, or with the body done. -/
inductive guard_t where
  | refused
  | escaped
  | done
  deriving DecidableEq, Repr

/-- What an action can do to the agenda while it runs. The runner itself is
    closed to it: `g_running` is set. -/
inductive edit_t where
  | save (given : Option agenda_item_t)
  | remove (name : text_t)
  | set_enabled (name : text_t) (on : Bool)
  | enable (on : Bool)
  deriving DecidableEq, Repr

/-- One performance of an action: how its guard came back, the edits it made on
    the way, what the tool or the sentence sink returned, and the tool's words. -/
structure deed_t where
  guard : guard_t
  edits : List edit_t
  rc : Int
  is_error : Bool
  result : text_t
  deriving DecidableEq, Repr

def agenda_t.edit (tools : List text_t) (s : agenda_t) : edit_t → agenda_t
  | .save given => (agenda_save tools given s).1
  | .remove name => (agenda_remove name s).1
  | .set_enabled name on => (agenda_set_enabled name on s).1
  | .enable on => agenda_enable on s

def agenda_t.edited (tools : List text_t) (s : agenda_t) (edits : List edit_t) : agenda_t :=
  edits.foldl (agenda_t.edit tools) s

/-- What `run_body` leaves in `c`. -/
structure outcome_t where
  guard : guard_t
  rc : Int
  result : text_t
  marked : Bool
  deriving DecidableEq, Repr

def say_rc (rc : Int) : Int :=
  if rc = 0 then AGENDA_OK else if rc = CHAT_EREENTER then AGENDA_EBUSY else AGENDA_ESAY

def tool_rc (rc : Int) (is_error : Bool) : Int :=
  if rc = TOOL_ENOENT then AGENDA_ENOTOOL
  else if rc ≠ TOOL_OK then AGENDA_EINVAL
  else if is_error then AGENDA_EINVAL
  else AGENDA_OK

/-- The agenda, the code and the words of the tool after the body. -/
def run_body (tools : List text_t) (it : agenda_item_t) (deed : deed_t) (s : agenda_t) : agenda_t × Int × text_t :=
  if it.act = .say then
    if s.say = false then (s, AGENDA_ENOSAY, []) else (s.edited tools deed.edits, say_rc deed.rc, [])
  else (s.edited tools deed.edits, tool_rc deed.rc deed.is_error, deed.result)

/-- The durable marker of a boot item, and whether it is in the store. -/
def mark_attempt (i : Nat) (s : agenda_t) : agenda_t × Bool :=
  if (s.slot i).when = .boot then
    let (s, rc) := agenda_flush (s.write i fun it => { it with attempting := true })
    if rc = AGENDA_OK then (s, true) else (s.write i fun it => { it with attempting := false }, false)
  else (s, false)

/-- `it->runs++; it->last_ms = now_ms;` -/
def counted (now_ms : UInt64) (it : agenda_item_t) : agenda_item_t :=
  { it with runs := it.runs + 1, last_ms := now_ms }

def begin_run (i : Nat) (entry : entry_t) (now_ms : UInt64) (deed : deed_t) (s : agenda_t) : agenda_t :=
  let it := s.slot i
  let s := { s with running := true, runs := s.runs + 1 }.write i (counted now_ms)
  if deed.guard = .refused then s else s.mark (.run ⟨it, entry, now_ms⟩)

/-- `run_item` from the latch to the return of `fault_guard_run`. -/
def act (tools : List text_t) (i : Nat) (entry : entry_t) (now_ms : UInt64) (deed : deed_t) (s : agenda_t) :
    agenda_t × outcome_t :=
  let (s, marked) := mark_attempt i (begin_run i entry now_ms deed s)
  match deed.guard with
  | .refused => (s, ⟨.refused, AGENDA_OK, [], marked⟩)
  | guard =>
    let (s, rc, result) := run_body tools (s.slot i) deed s
    (s, ⟨guard, rc, result, marked⟩)

end Action

section Accounting

/-- The first line of a text, clipped and defanged. -/
def first_line (src : text_t) : text_t :=
  ((src.takeWhile fun c => c ≠ 0 && c ≠ 0x0A).take (AGENDA_WHY_MAX - 1)).map text_byte

/-- `c.rc` once the guard has come back. -/
def outcome_t.code (out : outcome_t) : Int :=
  match out.guard with
  | .refused => AGENDA_EBUSY
  | .escaped => AGENDA_EFAULT
  | .done => out.rc

def last_why (out : outcome_t) (it : agenda_item_t) : why_t :=
  match out.guard with
  | .refused => .unguarded
  | .escaped => .escaped
  | .done =>
    if out.rc = AGENDA_OK then if it.act = .tool then .line (first_line out.result) else .delivered
    else if out.result ≠ [] then .line (first_line out.result)
    else .code out.rc

/-- The last result and the failures, as the runner enters them. -/
def enter (out : outcome_t) (it : agenda_item_t) : agenda_item_t :=
  { it with
    escapes := if out.guard = .escaped then it.escapes + 1 else it.escapes
    last_why := last_why out it
    last_rc := out.code
    failures := if out.code = AGENDA_OK then 0 else it.failures + 1
    total_failures := if out.code = AGENDA_OK then it.total_failures else it.total_failures + 1 }

/-- Which branch of the retirement an item takes. -/
inductive verdict_t where
  | failed
  | spent
  | once
  | boot
  | again
  deriving DecidableEq, Repr

def verdict (it : agenda_item_t) : verdict_t :=
  if AGENDA_MAX_FAILURES ≤ it.failures then .failed
  else if it.max_runs ≤ it.runs then .spent
  else if it.when = .once then .once
  else if it.when = .boot then .boot
  else .again

def verdict_t.durable (v : verdict_t) : Bool := v = .failed || v = .once

def retire (now_ms : UInt64) (it : agenda_item_t) : agenda_item_t :=
  if verdict it = .again then { it with next_ms := now_ms + it.period_ms.toUInt64 } else { it with enabled := false }

/-- The bookkeeping of a run whose guard was not armed. -/
def unrun (out : outcome_t) (it : agenda_item_t) : agenda_item_t :=
  { it with runs := it.runs - 1, last_why := last_why out it, last_rc := out.code }

/-- Clearing the marker, in memory and in the store. -/
def clear_attempt (i : Nat) (marked : Bool) (s : agenda_t) : agenda_t :=
  if marked then
    (agenda_flush ((s.write i fun it => { it with attempting := false }).mark (.cleared (s.slot i).name))).1
  else s

/-- The accounting of a run that was performed, up to the last write. -/
def settled (i : Nat) (now_ms : UInt64) (out : outcome_t) (s : agenda_t) : agenda_t :=
  let it := enter out (s.slot i)
  let s : agenda_t := { s with
    escapes := if out.guard = .escaped then s.escapes + 1 else s.escapes
    fails := if out.code = AGENDA_OK then s.fails else s.fails + 1 }
  let s := (s.write i fun it => retire now_ms (enter out it)).mark (.done it.name)
  if verdict it = .again then s.mark (.due it.name now_ms) else s

/-- The accounting of a run that was performed. -/
def settle (i : Nat) (now_ms : UInt64) (out : outcome_t) (s : agenda_t) : agenda_t :=
  if (verdict (enter out (s.slot i))).durable then (agenda_flush (settled i now_ms out s)).1 else settled i now_ms out s

/-- `run_item` behind `fault_guard_run`. -/
def book (i : Nat) (now_ms : UInt64) (out : outcome_t) (s : agenda_t) : agenda_t × Int :=
  let s := { clear_attempt i out.marked s with running := false }
  if out.guard = .refused then
    ({ s with runs := if s.runs ≠ 0 then s.runs - 1 else s.runs }.write i (unrun out), out.code)
  else (settle i now_ms out s, out.code)

/-- `run_item` for the item in slot `i`. `entry` and `deed` are for the record:
    who calls, and what the action is going to do. -/
def run_item (tools : List text_t) (i : Nat) (entry : entry_t) (now_ms : UInt64) (deed : deed_t) (s : agenda_t) :
    agenda_t × Int :=
  if s.on = false then (s, AGENDA_EOFF)
  else if s.running then (s, AGENDA_EBUSY)
  else if AGENDA_MAX_RUNS_TOTAL ≤ s.runs then (s.write i fun it => { it with enabled := false }, AGENDA_ERETIRED)
  else
    let (s, out) := act tools i entry now_ms deed s
    book i now_ms out s

end Accounting

section Callers

def agenda_run_now (tools : List text_t) (name : text_t) (now_ms : UInt64) (deed : deed_t) (s : agenda_t) :
    agenda_t × Int :=
  match find_mut name s with
  | none => (s, AGENDA_ENOENT)
  | some i => run_item tools i .now now_ms deed s

/-- The tests of `pick_due` on one item. -/
def due (now_ms : UInt64) (it : agenda_item_t) : Bool :=
  it.enabled && !(it.max_runs ≤ it.runs) && it.when ≠ .boot &&
    (it.when = .once || it.next_ms = 0 || it.next_ms ≤ now_ms)

def pick_due (now_ms : UInt64) (s : agenda_t) : Option Nat := s.item.findIdx? (due now_ms)

def agenda_tick (tools : List text_t) (now_ms : UInt64) (deed : deed_t) (s : agenda_t) : agenda_t × Nat :=
  if s.on = false ∨ s.running then (s, 0)
  else
    match pick_due now_ms s with
    | none => (s, 0)
    | some i => ((run_item tools i .tick now_ms deed s).1, 1)

/-- The loop of `agenda_run_boot` from slot `i` on, with a turn for each slot.
    `deeds` tells what the item of a name is going to do. -/
def run_boot_from (tools : List text_t) (now_ms : UInt64) (deeds : text_t → deed_t) :
    Nat → Nat → agenda_t → Nat → agenda_t × Nat
  | 0, _, s, n => (s, n)
  | left + 1, i, s, n =>
    if s.item.length ≤ i then (s, n)
    else
      let it := s.slot i
      if it.enabled ∧ it.when = .boot then
        run_boot_from tools now_ms deeds left (i + 1) (run_item tools i .boot now_ms (deeds it.name) s).1 (n + 1)
      else run_boot_from tools now_ms deeds left (i + 1) s n

def agenda_run_boot (tools : List text_t) (now_ms : UInt64) (deeds : text_t → deed_t) (s : agenda_t) : agenda_t × Nat :=
  if s.on = false then (s, 0) else run_boot_from tools now_ms deeds AGENDA_MAX_ITEMS 0 s 0

def agenda_bringup (tools : List text_t) (now_ms : UInt64) (deeds : text_t → deed_t) (s : agenda_t) : agenda_t × Nat :=
  agenda_run_boot tools now_ms deeds (agenda_load tools s).1

end Callers

section Frames

variable {s : agenda_t} {i : Nat} {m : mark_t} {f : agenda_item_t → agenda_item_t}
variable {l : List agenda_item_t}

@[simp] theorem mark_item : (s.mark m).item = s.item := rfl

@[simp] theorem mark_log : (s.mark m).log = m :: s.log := rfl

@[simp] theorem mark_on : (s.mark m).on = s.on := rfl

@[simp] theorem mark_running : (s.mark m).running = s.running := rfl

@[simp] theorem mark_runs : (s.mark m).runs = s.runs := rfl

@[simp] theorem write_item : (s.write i f).item = s.item.modify i f := rfl

@[simp] theorem write_log : (s.write i f).log = s.log := rfl

@[simp] theorem write_on : (s.write i f).on = s.on := rfl

@[simp] theorem write_running : (s.write i f).running = s.running := rfl

@[simp] theorem write_runs : (s.write i f).runs = s.runs := rfl

/-- A flush touches nothing but the file and what stands for it. -/
theorem agenda_flush_eq (s : agenda_t) :
    ∃ store disk log, (agenda_flush s).1 = { s with store := store, disk := disk, log := log } ∧
      (log = s.log ∨ log = .wrote :: s.log) := by
  rw [agenda_flush]
  split
  · exact ⟨s.store, s.disk, s.log, rfl, Or.inl rfl⟩
  · rw [file_write]
    split
    · exact ⟨_, s.disk, _, rfl, Or.inr rfl⟩
    · exact ⟨_, _, _, rfl, Or.inr rfl⟩
    · exact ⟨s.store, _, s.log, rfl, Or.inl rfl⟩
    · exact ⟨_, _, s.log, rfl, Or.inl rfl⟩

@[simp] theorem flush_item : (agenda_flush s).1.item = s.item := by
  obtain ⟨_, _, _, h, -⟩ := agenda_flush_eq s
  rw [h]

@[simp] theorem flush_running : (agenda_flush s).1.running = s.running := by
  obtain ⟨_, _, _, h, -⟩ := agenda_flush_eq s
  rw [h]

@[simp] theorem flush_runs : (agenda_flush s).1.runs = s.runs := by
  obtain ⟨_, _, _, h, -⟩ := agenda_flush_eq s
  rw [h]

/-- A flush enters at most that it wrote. -/
theorem flush_log : (agenda_flush s).1.log = s.log ∨ (agenda_flush s).1.log = .wrote :: s.log := by
  obtain ⟨_, _, _, h, hlog⟩ := agenda_flush_eq s
  rwa [h]

theorem slot_eq_of_getElem? {it} (h : s.item[i]? = some it) : s.slot i = it := by
  rw [agenda_t.slot, getD_eq_getElem?_getD, h]
  rfl

theorem modify_modify {g} : (l.modify i f).modify i g = l.modify i fun it => g (f it) := modify_modify_eq f g i l

theorem modify_same (h : ∀ it, f it = it) : l.modify i f = l := by
  rw [show f = id from funext h, modify_id]

theorem modify_congr {g} (h : ∀ it, l[i]? = some it → f it = g it) : l.modify i f = l.modify i g := by
  induction l generalizing i with
  | nil => cases i <;> rfl
  | cons a l ih =>
    cases i with
    | zero => rw [modify_zero_cons, modify_zero_cons, h a rfl]
    | succ i => rw [modify_succ_cons, modify_succ_cons, ih fun it hit => h it hit]

theorem mark_attempt_item : ∃ g : agenda_item_t → agenda_item_t, (mark_attempt i s).1.item = s.item.modify i g ∧
    ((g = fun it => { it with attempting := (mark_attempt i s).2 }) ∨ g = id) := by
  rw [mark_attempt]
  split
  · dsimp only
    split
    · refine ⟨fun it => { it with attempting := true }, ?_, Or.inl rfl⟩
      rw [flush_item, write_item]
    · refine ⟨fun it => { it with attempting := false }, ?_, Or.inl rfl⟩
      rw [write_item, flush_item, write_item, modify_modify]
  · refine ⟨id, ?_, Or.inr rfl⟩
    rw [modify_id]

@[simp] theorem mark_attempt_runs : (mark_attempt i s).1.runs = s.runs := by
  rw [mark_attempt]
  split
  · dsimp only
    split <;> simp
  · rfl

@[simp] theorem clear_attempt_runs {marked : Bool} : (clear_attempt i marked s).runs = s.runs := by
  rw [clear_attempt]
  split <;> simp

theorem agenda_remove_item {name} : (agenda_remove name s).1.item = Roster.remove agenda_item_t.name name s.item := by
  rw [agenda_remove]
  split
  · rename_i hfind
    exact (Roster.remove_of_find_eq_none hfind).symm
  · exact flush_item

end Frames

end fable.agenda
