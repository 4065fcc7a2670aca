import FableOs.Agenda.Books

namespace fable.agenda

/-! The bounds on unattended work: how often an item runs while it is on the
agenda, how many actions a boot takes, and how soon a tick starts an item again. -/

open List Roster

section Moves

variable {log : List mark_t} {out : outcome_t}

/-- What was asked for, without what has happened since. -/
def asked (it : agenda_item_t) : agenda_item_t :=
  { it with
    enabled := false, attempting := false, runs := 0, failures := 0, total_failures := 0, escapes := 0, last_ms := 0
    next_ms := 0, last_rc := 0, last_why := .nothing }

/-- An update that leaves alone what the bounds are about. -/
def Keeps (f : agenda_item_t → agenda_item_t) : Prop :=
  ∀ it, asked (f it) = asked it ∧ (f it).runs = it.runs ∧ (f it).next_ms = it.next_ms

/-- Only store writes and cleared markers were put on the record. -/
def Wrote (log log' : List mark_t) : Prop :=
  ∃ rest, (∀ m ∈ rest, m = .wrote ∨ ∃ name, m = .cleared name) ∧ log' = rest ++ log

theorem wrote_refl : Wrote log log := ⟨[], forall_mem_nil _, rfl⟩

theorem Wrote.cleared {log'} (h : Wrote log log') (name : text_t) : Wrote log (.cleared name :: log') := by
  obtain ⟨rest, hrest, rfl⟩ := h
  exact ⟨.cleared name :: rest, forall_mem_cons.mpr ⟨Or.inr ⟨name, rfl⟩, hrest⟩, rfl⟩

/-- One change of the table and the record at a time: nothing but notes, an item
    that is saved, one that is removed, an update of no concern, a start, a new
    due time. -/
inductive Move (tools : List text_t) (now_ms : UInt64) (s s' : agenda_t) : Prop
  | noted (hitem : s'.item = s.item) (hruns : s'.runs = s.runs)
      (hlog : Wrote s.log s'.log ∨ ∃ name, s'.log = .done name :: s.log)
  | saved (it : agenda_item_t) (hsound : Sound tools it) (hnew : Untouched it)
      (hitem : s'.item = Roster.put agenda_item_t.name it s.item) (hruns : s'.runs = s.runs)
      (hlog : s'.log = .saved it.name :: s.log)
  | removed (name : text_t) (hitem : s'.item = Roster.remove agenda_item_t.name name s.item) (hruns : s'.runs = s.runs)
      (hlog : s'.log = s.log)
  | updated (i : Nat) (f : agenda_item_t → agenda_item_t) (hf : Keeps f) (hitem : s'.item = s.item.modify i f)
      (hruns : s'.runs = s.runs) (hlog : s'.log = s.log)
  | started (i : Nat) (it : agenda_item_t) (entry : entry_t) (hit : s.item[i]? = some it)
      (htick : entry = .tick → due now_ms it = true) (hroom : s.runs < AGENDA_MAX_RUNS_TOTAL)
      (hitem : s'.item = s.item.modify i (counted now_ms))
      (hruns : s'.runs = s.runs + 1) (hlog : s'.log = .run ⟨it, entry, now_ms⟩ :: s.log)
  | scheduled (i : Nat) (it : agenda_item_t) (hit : s.item[i]? = some it)
      (hitem : s'.item = s.item.modify i fun it => { it with next_ms := now_ms + it.period_ms.toUInt64 })
      (hruns : s'.runs = s.runs) (hlog : s'.log = .due it.name now_ms :: s.log)

def Moves (tools : List text_t) (now_ms : UInt64) : agenda_t → agenda_t → Prop :=
  Relation.ReflTransGen (Move tools now_ms)

variable {tools : List text_t} {now_ms : UInt64} {s s' : agenda_t} {i : Nat} {entry : entry_t} {deed : deed_t}

theorem Move.moves (h : Move tools now_ms s s') : Moves tools now_ms s s' := Relation.ReflTransGen.single h

theorem moves_refl : Moves tools now_ms s s := Relation.ReflTransGen.refl

theorem Moves.trans {s''} (h : Moves tools now_ms s s') (h' : Moves tools now_ms s' s'') :
    Moves tools now_ms s s'' := Relation.ReflTransGen.trans h h'

theorem moves_of_same (hitem : s'.item = s.item) (hruns : s'.runs = s.runs) (hlog : s'.log = s.log) :
    Moves tools now_ms s s' := Move.moves (.noted hitem hruns (Or.inl (hlog ▸ wrote_refl)))

theorem Wrote.flush (h : Wrote log s.log) : Wrote log (agenda_flush s).1.log := by
  obtain ⟨rest, hrest, hlog⟩ := h
  obtain heq | heq := @flush_log s
  · exact ⟨rest, hrest, heq.trans hlog⟩
  · exact ⟨.wrote :: rest, forall_mem_cons.mpr ⟨Or.inl rfl, hrest⟩, by rw [heq, hlog, cons_append]⟩

theorem Moves.flush (h : Moves tools now_ms s s') : Moves tools now_ms s (agenda_flush s').1 :=
  h.trans (Move.moves (.noted flush_item flush_runs (Or.inl wrote_refl.flush)))

theorem Moves.write {f} (h : Moves tools now_ms s s') (hf : Keeps f) : Moves tools now_ms s (s'.write i f) :=
  h.trans (Move.moves (.updated i f hf rfl rfl rfl))

theorem sound_normalised {given} (h : Valid tools (normalised given)) :
    Sound tools (normalised given) ∧ Untouched (normalised given) := by
  cases given with
  | none => exact absurd h.name (by decide)
  | some given =>
    refine ⟨⟨h, ?_, ⟨prose_copy_text, length_copied (by decide)⟩, ⟨prose_copy_text, length_copied (by decide)⟩, ?_⟩,
      rfl, rfl, rfl, rfl⟩
    · simp only [normalised]
      split
      · assumption
      · decide
    · simp only [normalised, arg_copy]
      split
      · rename_i hact
        exact ⟨payload_copy_payload, fun hne => absurd hact hne, length_copied (by decide)⟩
      · exact ⟨prose_copy_text.payload, fun _ => prose_copy_text, length_copied (by decide)⟩

/-- What an edit does: nothing, or one change that is written. -/
inductive Edit (tools : List text_t) (s : agenda_t) : edit_t → agenda_t → Prop
  | refused (e : edit_t) : Edit tools s e s
  | saved {given : Option agenda_item_t} (hsound : Sound tools (normalised given)) (hnew : Untouched (normalised given))
      (hroom : ¬ (Roster.find agenda_item_t.name (normalised given).name s.item = none ∧ AGENDA_MAX_ITEMS ≤ s.item.length)) :
      Edit tools s (.save given) (agenda_flush ({ s with
        item := Roster.put agenda_item_t.name (normalised given) s.item }.mark (.saved (normalised given).name))).1
  | removed (name : text_t) :
      Edit tools s (.remove name) (agenda_flush { s with item := Roster.remove agenda_item_t.name name s.item }).1
  | switched {name : text_t} {i : Nat} {it : agenda_item_t} (on : Bool) (hit : s.item[i]? = some it)
      (hname : it.name = name) :
      Edit tools s (.set_enabled name on) (agenda_flush (s.write i fun it =>
        { it with enabled := on, failures := if on then 0 else it.failures })).1
  | enabled (on : Bool) : Edit tools s (.enable on) { s with on := on }

/-- What an edit can do, by its kind. -/
theorem edit_cases (e : edit_t) : Edit tools s e (s.edit tools e) := by
  cases e with
  | save given =>
    rw [agenda_t.edit, agenda_save]
    split
    · exact .refused _
    rename_i hvalid
    obtain ⟨hsound, hnew⟩ := sound_normalised (validate_eq_ok.mp hvalid)
    split
    · exact .refused _
    · rename_i hroom
      exact .saved hsound hnew hroom
  | remove name =>
    rw [agenda_t.edit, agenda_remove]
    split
    · exact .refused _
    · exact .removed name
  | set_enabled name on =>
    rw [agenda_t.edit, agenda_set_enabled]
    split
    · exact .refused _
    · rename_i i hfind
      obtain ⟨it, hit, hname⟩ := place_eq_some hfind
      exact .switched on hit hname
  | enable on => exact .enabled on

/-- What every edit keeps, a list of edits keeps. -/
@[elab_as_elim]
theorem edited_rule {P : agenda_t → Prop} {edits} (h : P s)
    (hedit : ∀ t t' e, e ∈ edits → Edit tools t e t' → P t → P t') : P (s.edited tools edits) :=
  foldlRecOn edits _ h fun t ht e he => hedit t _ e he (edit_cases e) ht

/-- Edits by an action are moves. -/
theorem moves_edited {edits : List edit_t} : Moves tools now_ms s (s.edited tools edits) := by
  refine edited_rule moves_refl fun t t' e _ hedit h => h.trans ?_
  cases hedit with
  | refused => exact moves_refl
  | saved hsound hnew => exact Moves.flush (Move.moves (.saved _ hsound hnew rfl rfl rfl))
  | removed name => exact Moves.flush (Move.moves (.removed name rfl rfl rfl))
  | switched on => exact Moves.flush (Moves.write moves_refl fun it => ⟨rfl, rfl, rfl⟩)
  | enabled on => exact moves_of_same rfl rfl rfl

theorem edited_runs {edits : List edit_t} : (s.edited tools edits).runs = s.runs := by
  refine edited_rule rfl fun t t' e _ hedit h => ?_
  cases hedit with
  | refused | enabled => exact h
  | saved | removed | switched => exact flush_runs.trans h

theorem keeps_attempting (b : Bool) : Keeps fun it => { it with attempting := b } := fun _ => ⟨rfl, rfl, rfl⟩

/-- Marking an attempt, with its write of the store, is a series of moves. -/
theorem moves_mark_attempt : Moves tools now_ms s (mark_attempt i s).1 := by
  have hflush : Moves tools now_ms s (agenda_flush (s.write i fun it => { it with attempting := true })).1 :=
    Moves.flush (Moves.write moves_refl (keeps_attempting true))
  rw [mark_attempt]
  split
  · dsimp only
    split
    · exact hflush
    · exact hflush.write (keeps_attempting false)
  · exact moves_refl

theorem moves_clear_attempt {marked : Bool} : Moves tools now_ms s (clear_attempt i marked s) := by
  rw [clear_attempt]
  split
  · have hwrite : Moves tools now_ms s (s.write i fun it => { it with attempting := false }) :=
      moves_refl.write (keeps_attempting false)
    exact Moves.flush (hwrite.trans (Move.moves (.noted rfl rfl (Or.inl (wrote_refl.cleared _)))))
  · exact moves_refl

theorem keeps_enter (out : outcome_t) : Keeps (enter out) := fun _ => ⟨rfl, rfl, rfl⟩

theorem keeps_disable : Keeps fun it => { it with enabled := false } := fun _ => ⟨rfl, rfl, rfl⟩

/-- A slot that was emptied under the run is not rescheduled. -/
theorem verdict_zeroed (out : outcome_t) : verdict (enter out zeroed) ≠ .again := by
  have hspent : (enter out zeroed).max_runs ≤ (enter out zeroed).runs := by simp [enter, zeroed]
  rw [verdict, if_pos hspent]
  split <;> decide

theorem settled_log : (settled i now_ms out s).log =
    (if verdict (enter out (s.slot i)) = .again then [.due (s.slot i).name now_ms] else []) ++ .done (s.slot i).name :: s.log := by
  rw [settled]
  split <;> rfl

theorem settled_counters : (settled i now_ms out s).runs = s.runs ∧ (settled i now_ms out s).running = s.running := by
  rw [settled]
  split <;> exact ⟨rfl, rfl⟩

/-- The result is entered and noted, then the item is retired or gets its due
    time. -/
theorem moves_settled : Moves tools now_ms s (settled i now_ms out s) := by
  let s₁ := (s.write i (enter out)).mark (.done (s.slot i).name)
  have h₁ : Moves tools now_ms s s₁ :=
    (moves_refl.write (keeps_enter out)).trans (Move.moves (.noted rfl rfl (Or.inr ⟨_, rfl⟩)))
  refine h₁.trans ?_
  by_cases hagain : verdict (enter out (s.slot i)) = .again
  · obtain ⟨it, hit⟩ : ∃ it, s.item[i]? = some it := by
      cases hit : s.item[i]? with
      | some it => exact ⟨it, rfl⟩
      | none =>
        rw [agenda_t.slot, getD_eq_getElem?_getD, hit] at hagain
        exact absurd hagain (verdict_zeroed out)
    have hslot := slot_eq_of_getElem? hit
    refine Move.moves (.scheduled i (enter out it) ?_ ?_ settled_counters.1 ?_)
    · simp [s₁, hit]
    · rw [settled_item]
      simp only [s₁, mark_item, write_item, modify_modify]
      refine modify_congr fun a ha => ?_
      rw [← slot_eq_of_getElem? ha, retire, if_pos hagain]
    · rw [settled_log, if_pos hagain, hslot]
      simp only [s₁, mark_log, write_log, hslot]
      rfl
  · refine Move.moves (.updated i (fun it => { it with enabled := false }) keeps_disable ?_ settled_counters.1 ?_)
    · rw [settled_item]
      simp only [s₁, mark_item, write_item, modify_modify]
      refine modify_congr fun a ha => ?_
      rw [← slot_eq_of_getElem? ha, retire, if_neg hagain]
    · rw [settled_log, if_neg hagain]
      rfl

/-- Settling a run is a move, whatever the verdict. -/
theorem moves_settle : Moves tools now_ms s (settle i now_ms out s) := by
  rw [settle]
  split
  · exact moves_settled.flush
  · exact moves_settled

theorem wrote_mark_attempt : Wrote s.log (mark_attempt i s).1.log := by
  have hflush : Wrote s.log (agenda_flush (s.write i fun it => { it with attempting := true })).1.log :=
    Wrote.flush wrote_refl
  rw [mark_attempt]
  split
  · dsimp only
    split <;> exact hflush
  · exact wrote_refl

theorem Wrote.clear_attempt {marked : Bool} (h : Wrote log s.log) : Wrote log (clear_attempt i marked s).log := by
  rw [agenda.clear_attempt]
  split
  · exact Wrote.flush (h.cleared _)
  · exact h

/-- A refusal by the guard leaves the item marked and performs nothing. -/
theorem act_refused (h : deed.guard = .refused) : act tools i entry now_ms deed s =
    ((mark_attempt i (begin_run i entry now_ms deed s)).1,
      ⟨.refused, AGENDA_OK, [], (mark_attempt i (begin_run i entry now_ms deed s)).2⟩) := by
  rw [act, h]

/-- Otherwise the action's edits are applied, or none of them. -/
theorem act_performed (h : deed.guard ≠ .refused) : ∃ edits, (edits = [] ∨ edits = deed.edits) ∧
    (act tools i entry now_ms deed s).1 = (mark_attempt i (begin_run i entry now_ms deed s)).1.edited tools edits ∧
    (act tools i entry now_ms deed s).2.guard = deed.guard ∧
    (act tools i entry now_ms deed s).2.marked = (mark_attempt i (begin_run i entry now_ms deed s)).2 := by
  have hbody (it : agenda_item_t) (t : agenda_t) :
      ∃ edits, (edits = [] ∨ edits = deed.edits) ∧ (run_body tools it deed t).1 = t.edited tools edits := by
    rw [run_body]
    split
    · split
      · exact ⟨[], Or.inl rfl, rfl⟩
      · exact ⟨deed.edits, Or.inr rfl, rfl⟩
    · exact ⟨deed.edits, Or.inr rfl, rfl⟩
  obtain ⟨edits, hedits, heq⟩ := hbody ((mark_attempt i (begin_run i entry now_ms deed s)).1.slot i)
    (mark_attempt i (begin_run i entry now_ms deed s)).1
  refine ⟨edits, hedits, ?_⟩
  rw [act]
  cases hguard : deed.guard with
  | refused => exact absurd hguard h
  | escaped | done => exact ⟨heq, rfl, rfl⟩

/-- Besides its outcome an action leaves what its edits make of the agenda. -/
theorem act_edited : ∃ edits ⊆ deed.edits,
    (act tools i entry now_ms deed s).1 = (mark_attempt i (begin_run i entry now_ms deed s)).1.edited tools edits := by
  by_cases hrefused : deed.guard = .refused
  · exact ⟨[], nil_subset _, by rw [act_refused hrefused]; rfl⟩
  · obtain ⟨edits, hedits, heq, -, -⟩ := @act_performed tools now_ms s i entry deed hrefused
    exact ⟨edits, hedits.elim (fun hnil => hnil ▸ nil_subset _) fun hall => hall ▸ List.Subset.refl _, heq⟩

theorem begin_run_refused (h : deed.guard = .refused) : begin_run i entry now_ms deed s =
    { s with running := true, runs := s.runs + 1 }.write i (counted now_ms) := by
  rw [begin_run, if_pos h]

theorem begin_run_performed (h : deed.guard ≠ .refused) : begin_run i entry now_ms deed s =
    ({ s with running := true, runs := s.runs + 1 }.write i (counted now_ms)).mark (.run ⟨s.slot i, entry, now_ms⟩) := by
  rw [begin_run, if_neg h]

theorem moves_of_wrote {f} (hf : Keeps f) (hitem : s'.item = s.item.modify i f) (hruns : s'.runs = s.runs)
    (hlog : Wrote s.log s'.log) : Moves tools now_ms s s' :=
  Moves.trans (moves_refl.write hf) (Move.moves (.noted hitem hruns (Or.inl hlog)))

theorem toNat_succ_runs {n : UInt32} (h : n < AGENDA_MAX_RUNS_TOTAL) : (n + 1).toNat = n.toNat + 1 := by
  have hlt : n.toNat < 256 := UInt32.lt_iff_toNat_lt.mp h
  rw [UInt32.toNat_add]
  exact Nat.mod_eq_of_lt (by simp; omega)

theorem succ_runs_ne_zero {n : UInt32} (h : n < AGENDA_MAX_RUNS_TOTAL) : n + 1 ≠ 0 := by
  intro hzero
  have hnat := congrArg UInt32.toNat hzero
  rw [toNat_succ_runs h] at hnat
  exact absurd hnat (Nat.succ_ne_zero _)

theorem moves_refused (h : deed.guard = .refused) (hroom : s.runs < AGENDA_MAX_RUNS_TOTAL) :
    Moves tools now_ms s (book i now_ms (act tools i entry now_ms deed s).2 (act tools i entry now_ms deed s).1).1 := by
  have hitem := @book_item i now_ms (act tools i entry now_ms deed s).2 (act tools i entry now_ms deed s).1
  rw [act_refused h, begin_run_refused h] at hitem ⊢
  generalize hbegin : agenda_t.write { s with running := true, runs := s.runs + 1 } i (counted now_ms) = t at hitem ⊢
  obtain ⟨g, hg, hcase⟩ := @mark_attempt_item t i
  have hruns : t.runs = s.runs + 1 := by rw [← hbegin]; rfl
  have hlog : t.log = s.log := by rw [← hbegin]; rfl
  have ht : t.item = s.item.modify i (counted now_ms) := by rw [← hbegin]; rfl
  rw [hg, ht, modify_modify, modify_modify] at hitem
  refine moves_of_wrote ?_ hitem ?_ ?_
  · intro it
    have hback : it.runs + 1 - 1 = it.runs := UInt32.add_sub_cancel _ _
    simp only [account, if_true]
    obtain rfl | rfl := hcase
    · split <;> exact ⟨rfl, hback, rfl⟩
    · split <;> exact ⟨rfl, hback, rfl⟩
  · rw [book, if_pos rfl]
    simp only [write_runs, clear_attempt_runs, mark_attempt_runs, hruns]
    rw [if_pos (succ_runs_ne_zero hroom), UInt32.add_sub_cancel]
  · rw [book, if_pos rfl, ← hlog]
    exact wrote_mark_attempt.clear_attempt

/-- Booking a run is a series of moves. -/
theorem moves_book (h : out.guard ≠ .refused) : Moves tools now_ms s (book i now_ms out s).1 := by
  rw [book, if_neg h]
  have hclear := @moves_clear_attempt tools now_ms s i out.marked
  refine hclear.trans (Moves.trans ?_ moves_settle)
  exact moves_of_same rfl rfl rfl

/-- Everything that a run does to the table and the record. -/
theorem moves_run_item {it} (hit : s.item[i]? = some it) (htick : entry = .tick → due now_ms it = true) :
    Moves tools now_ms s (run_item tools i entry now_ms deed s).1 := by
  by_cases hstart : s.on = false ∨ s.running ∨ AGENDA_MAX_RUNS_TOTAL ≤ s.runs
  · obtain heq | heq := @run_item_refused tools i entry now_ms deed s hstart <;> rw [heq]
    · exact moves_refl
    · exact moves_refl.write keeps_disable
  have hroom : s.runs < AGENDA_MAX_RUNS_TOTAL := by
    rw [not_or, not_or] at hstart
    exact UInt32.not_le.mp hstart.2.2
  rw [run_item_started hstart]
  by_cases hguard : deed.guard = .refused
  · exact moves_refused hguard hroom
  obtain ⟨edits, -, hact, hout, -⟩ := @act_performed tools now_ms s i entry deed hguard
  have hbegin : Moves tools now_ms s (begin_run i entry now_ms deed s) := by
    rw [begin_run_performed hguard, slot_eq_of_getElem? hit]
    exact Move.moves (.started i it entry hit htick hroom rfl rfl rfl)
  have hbody : Moves tools now_ms s (act tools i entry now_ms deed s).1 := by
    rw [hact]
    exact (hbegin.trans moves_mark_attempt).trans moves_edited
  exact hbody.trans (moves_book (by rw [hout]; exact hguard))

/-- What every run of the bring-up keeps, the bring-up keeps. -/
theorem run_boot_rule {P : agenda_t → Prop} {deeds} {left n : Nat} (h : P s)
    (hrun : ∀ {t : agenda_t} {i : Nat} {it : agenda_item_t}, t.item[i]? = some it → it.enabled = true → it.when = .boot → P t → P (run_item tools i .boot now_ms (deeds it.name) t).1) :
    P (run_boot_from tools now_ms deeds left i s n).1 := by
  induction left generalizing i s n with
  | zero => exact h
  | succ left ih =>
    rw [run_boot_from]
    split
    · exact h
    rename_i hlt
    have hit : s.item[i]? = some s.item[i] := getElem?_eq_getElem (Nat.not_le.mp hlt)
    dsimp only
    rw [slot_eq_of_getElem? hit]
    split
    · rename_i hcalled
      exact ih (hrun hit hcalled.1 hcalled.2 h)
    · exact ih h

/-- So is the bring-up from any slot on. -/
theorem moves_run_boot_from {deeds : text_t → deed_t} {left n : Nat} :
    Moves tools now_ms s (run_boot_from tools now_ms deeds left i s n).1 :=
  run_boot_rule moves_refl fun hit _ _ h => h.trans (moves_run_item hit fun htick => by cases htick)

/-- The log only grows. -/
theorem Moves.suffix (h : Moves tools now_ms s s') : s.log <:+ s'.log := by
  induction h with
  | refl => exact suffix_refl _
  | tail _ hmove ih =>
    refine ih.trans ?_
    cases hmove with
    | noted _ _ hlog =>
      obtain ⟨rest, -, hlog⟩ | ⟨name, hlog⟩ := hlog
      · exact hlog ▸ suffix_append _ _
      · exact hlog ▸ suffix_cons _ _
    | saved _ _ _ _ _ hlog => exact hlog ▸ suffix_cons _ _
    | removed _ _ _ hlog | updated _ _ _ _ _ hlog => exact hlog ▸ suffix_refl _
    | started _ _ _ _ _ _ _ _ hlog | scheduled _ _ _ _ _ hlog => exact hlog ▸ suffix_cons _ _

end Moves

section Record

/-- The actions of the record. -/
def performed : List mark_t → List run_t
  | [] => []
  | .run r :: log => r :: performed log
  | _ :: log => performed log

/-- The actions of the item of a name. -/
def runs_of (name : text_t) (log : List mark_t) : List run_t := (performed log).filter fun r => r.item.name = name

/-- Its actions since it was last saved. -/
def since (name : text_t) : List mark_t → List run_t
  | [] => []
  | .saved n :: log => if n = name then [] else since name log
  | .run r :: log => if r.item.name = name then r :: since name log else since name log
  | _ :: log => since name log

/-- A due time given at `now_ms` need not lie a period behind the action: the
    clock stood earlier than at the action, or is about to run over. -/
def unreached (now_ms : UInt64) (r : run_t) : Bool := now_ms < r.now_ms || 2 ^ 64 ≤ now_ms.toNat + 2 ^ 32

/-- The actions of the item of a name that no due time keeps it away from: it
    was saved anew after them, or has not been given a due time since. -/
def undue (name : text_t) : List mark_t → List run_t
  | [] => []
  | .saved n :: log => if n = name then runs_of name log else undue name log
  | .due n now_ms :: log => if n = name then (runs_of name log).filter (unreached now_ms) else undue name log
  | .run r :: log => if r.item.name = name then r :: undue name log else undue name log
  | _ :: log => undue name log

/-- Each action of the record, with what was on it before. -/
def EachRun (P : run_t → List mark_t → Prop) : List mark_t → Prop
  | [] => True
  | .run r :: log => P r log ∧ EachRun P log
  | _ :: log => EachRun P log

/-- When a tick starts an item that is due every so often, the starts by a tick
    among the earlier ones are a period ago. -/
def Paced (r : run_t) (earlier : List run_t) : Prop :=
  r.entry = .tick → r.item.when = .every → ∀ r' ∈ earlier, r'.entry = .tick →
    r'.now_ms.toNat + r.item.period_ms.toNat ≤ r.now_ms.toNat

/-- What the agenda promises about an action: the item has not had its runs yet,
    and no tick has started it within the period. -/
def Within (r : run_t) (earlier : List mark_t) : Prop :=
  (since r.item.name earlier).length + 1 ≤ r.item.max_runs.toNat ∧ Paced r (runs_of r.item.name earlier)

/-- What is left to the callers: a run by hand or at boot is not asked of an item
    that has had its runs, and a tick does not come within the period of a start
    that no due time keeps the item away from. -/
def Orderly (r : run_t) (earlier : List mark_t) : Prop :=
  (r.entry ≠ .tick → r.item.runs < r.item.max_runs) ∧ Paced r (undue r.item.name earlier)

instance (r : run_t) (earlier : List run_t) : Decidable (Paced r earlier) :=
  inferInstanceAs (Decidable (_ → _ → ∀ r' ∈ earlier, _ → _))

instance (r : run_t) (earlier : List mark_t) : Decidable (Within r earlier) := inferInstanceAs (Decidable (_ ∧ _))

instance EachRun.decidable (P : run_t → List mark_t → Prop) [∀ r earlier, Decidable (P r earlier)] :
    (log : List mark_t) → Decidable (EachRun P log)
  | [] => isTrue trivial
  | .run r :: log => @instDecidableAnd _ _ (inferInstanceAs (Decidable (P r log))) (EachRun.decidable P log)
  | .saved _ :: log => EachRun.decidable P log
  | .due _ _ :: log => EachRun.decidable P log
  | .cleared _ :: log => EachRun.decidable P log
  | .done _ :: log => EachRun.decidable P log
  | .wrote :: log => EachRun.decidable P log

variable {name : text_t} {log log' : List mark_t} {r r' : run_t}

theorem runs_of_cons : runs_of name (.run r :: log) =
    if r.item.name = name then r :: runs_of name log else runs_of name log := by
  simp [runs_of, performed, filter_cons]

theorem mem_runs_of_undue (h : r ∈ undue name log) : r ∈ runs_of name log := by
  induction log with
  | nil => cases h
  | cons m log ih =>
    cases m with
    | saved n =>
      rw [undue] at h
      split at h
      · exact h
      · exact ih h
    | run r' =>
      rw [undue] at h
      rw [runs_of_cons]
      split at h
      · rename_i hn
        rw [if_pos hn]
        exact mem_cons.mpr ((mem_cons.mp h).imp_right ih)
      · rename_i hn
        rw [if_neg hn]
        exact ih h
    | due n now_ms =>
      rw [undue] at h
      split at h
      · exact mem_of_mem_filter h
      · exact ih h
    | cleared n | done n | wrote => exact ih h

theorem length_since_le : (since name log).length ≤ (performed log).length := by
  induction log with
  | nil => exact le_rfl
  | cons m log ih =>
    cases m with
    | saved n =>
      rw [since]
      split
      · exact Nat.zero_le _
      · exact ih
    | run r =>
      rw [since, performed, length_cons]
      split
      · exact Nat.succ_le_succ ih
      · exact Nat.le_succ_of_le ih
    | due n now_ms | cleared n | done n | wrote => exact ih

theorem eachRun_congr {P Q} (h : EachRun (fun r earlier => P r earlier ↔ Q r earlier) log) :
    EachRun P log ↔ EachRun Q log := by
  induction log with
  | nil => exact Iff.rfl
  | cons m log ih =>
    cases m with
    | run r => exact and_congr h.1 (ih h.2)
    | saved n | due n now_ms | cleared n | done n | wrote => exact ih h

/-- Two records of the same starts, saves and due times. -/
structure Alike (log log' : List mark_t) : Prop where
  performed : performed log' = performed log
  since : ∀ name, since name log' = since name log
  undue : ∀ name, undue name log' = undue name log
  each : ∀ P, EachRun P log' ↔ EachRun P log

theorem Wrote.alike (h : Wrote log log') : Alike log log' := by
  obtain ⟨rest, hrest, rfl⟩ := h
  induction rest with
  | nil => exact ⟨rfl, fun _ => rfl, fun _ => rfl, fun _ => Iff.rfl⟩
  | cons m rest ih =>
    obtain ⟨hperformed, hsince, hundue, heach⟩ := ih (forall_mem_cons.mp hrest).2
    obtain rfl | ⟨name, rfl⟩ := (forall_mem_cons.mp hrest).1
    all_goals exact ⟨hperformed, hsince, hundue, heach⟩

theorem alike_done : Alike log (.done name :: log) := ⟨rfl, fun _ => rfl, fun _ => rfl, fun _ => Iff.rfl⟩

end Record

section Ledger

variable {tools : List text_t} {now_ms : UInt64} {s s' : agenda_t} {it : agenda_item_t}
variable {it' : agenda_item_t} {f : agenda_item_t → agenda_item_t} {entry : entry_t}

/-- An item agrees with the record. -/
structure Entered (tools : List text_t) (log : List mark_t) (it : agenda_item_t) : Prop where
  sound : Sound tools it
  runs : it.runs.toNat = (since it.name log).length
  next : ∀ r ∈ runs_of it.name log, r ∈ undue it.name log ∨ r.now_ms.toNat + it.period_ms.toNat ≤ it.next_ms.toNat

/-- The table agrees with the record. -/
structure Ledger (tools : List text_t) (s : agenda_t) : Prop where
  items : ∀ it ∈ s.item, Entered tools s.log it
  unique : Roster.Unique agenda_item_t.name s.item
  total : s.runs.toNat = (performed s.log).length
  bound : s.runs ≤ AGENDA_MAX_RUNS_TOTAL
  each : EachRun (fun r earlier => Orderly r earlier ↔ Within r earlier) s.log

theorem sound_of_asked (h : asked it' = asked it) (hsound : Sound tools it) : Sound tools it' := by
  have hsame (it : agenda_item_t) : Sound tools (asked it) ↔ Sound tools it := by
    constructor
    all_goals
      rintro ⟨⟨hname, hwhen, hact, hperiod, hmax, harg, htool⟩, hperiod', hnote', htool', harg'⟩
      exact ⟨⟨hname, hwhen, hact, hperiod, hmax, harg, htool⟩, hperiod', hnote', htool', harg'⟩
  rwa [← hsame, h, hsame]

theorem name_of_asked (h : asked it' = asked it) : it'.name = it.name := by
  have hname : (asked it').name = (asked it).name := by rw [h]
  exact hname

theorem period_of_asked (h : asked it' = asked it) : it'.period_ms = it.period_ms := by
  have hperiod : (asked it').period_ms = (asked it).period_ms := by rw [h]
  exact hperiod

theorem Keeps.name (hf : Keeps f) (it : agenda_item_t) : (f it).name = it.name :=
  name_of_asked (hf it).1

/-- An update of the item's state keeps its entry. -/
theorem Entered.keeps (h : Entered tools log it) (hf : Keeps f) : Entered tools log (f it) := by
  obtain ⟨hasked, hruns, hnext⟩ := hf it
  refine ⟨sound_of_asked hasked h.sound, ?_, ?_⟩
  · rw [hruns, name_of_asked hasked]
    exact h.runs
  · rw [name_of_asked hasked, period_of_asked hasked, hnext]
    exact h.next

theorem Entered.other (h : Entered tools log it) (hsince : since it.name log' = since it.name log)
    (hundue : undue it.name log' = undue it.name log) (hruns : runs_of it.name log' = runs_of it.name log) :
    Entered tools log' it := by
  refine ⟨h.sound, ?_, ?_⟩
  · rw [hsince]
    exact h.runs
  · rw [hundue, hruns]
    exact h.next

theorem Entered.alike (h : Entered tools log it) (hlog : Alike log log') : Entered tools log' it :=
  h.other (hlog.since _) (hlog.undue _) (by rw [runs_of, runs_of, hlog.performed])

theorem Entered.saved (hsound : Sound tools it) (hnew : Untouched it) : Entered tools (.saved it.name :: log) it := by
  refine ⟨hsound, ?_, fun r hr => Or.inl ?_⟩
  · rw [hnew.runs, since, if_pos rfl]
    rfl
  · rw [undue, if_pos rfl]
    exact hr

/-- The item that is started has one run more, and no due time yet that keeps it
    away from this one. -/
theorem Entered.counted (h : Entered tools log it) (hroom : it.runs < AGENDA_MAX_RUNS_TOTAL) :
    Entered tools (.run ⟨it, entry, now_ms⟩ :: log) (counted now_ms it) := by
  have hasked : asked (agenda.counted now_ms it) = asked it := rfl
  refine ⟨sound_of_asked hasked h.sound, ?_, ?_⟩
  · have hsince : since it.name (.run ⟨it, entry, now_ms⟩ :: log) = ⟨it, entry, now_ms⟩ :: since it.name log := by
      rw [since, if_pos rfl]
    change (it.runs + 1).toNat = (since it.name _).length
    rw [toNat_succ_runs hroom, hsince, length_cons, h.runs]
  · intro r hr
    have hruns : runs_of it.name (.run ⟨it, entry, now_ms⟩ :: log) = ⟨it, entry, now_ms⟩ :: runs_of it.name log := by
      rw [runs_of_cons, if_pos rfl]
    have hundue : undue it.name (.run ⟨it, entry, now_ms⟩ :: log) = ⟨it, entry, now_ms⟩ :: undue it.name log := by
      rw [undue, if_pos rfl]
    change r ∈ runs_of it.name _ at hr
    change r ∈ undue it.name _ ∨ _
    rw [hundue, mem_cons]
    rw [hruns, mem_cons] at hr
    obtain rfl | hr := hr
    · exact Or.inl (Or.inl rfl)
    · exact (h.next r hr).imp_left Or.inr

/-- A due time keeps the item away from every action that it reaches. -/
theorem Entered.scheduled (h : Entered tools log it) : Entered tools (.due it.name now_ms :: log)
    { it with next_ms := now_ms + it.period_ms.toUInt64 } := by
  have hasked : asked { it with next_ms := now_ms + it.period_ms.toUInt64 } = asked it := rfl
  refine ⟨sound_of_asked hasked h.sound, h.runs, fun r hr => ?_⟩
  change r ∈ undue it.name _ ∨ r.now_ms.toNat + it.period_ms.toNat ≤ (now_ms + it.period_ms.toUInt64).toNat
  rw [undue, if_pos rfl]
  by_cases hlate : unreached now_ms r = true
  · exact Or.inl (mem_filter.mpr ⟨hr, hlate⟩)
  · right
    simp only [unreached, Bool.or_eq_true, decide_eq_true_eq, not_or, UInt64.lt_iff_toNat_lt] at hlate
    have hperiod : it.period_ms.toNat < 2 ^ 32 := it.period_ms.toNat_lt
    rw [UInt64.toNat_add, UInt32.toNat_toUInt64, Nat.mod_eq_of_lt (by omega)]
    omega

/-- The tests of `pick_due`, and what they are worth. -/
theorem orderly_iff_within (h : Entered tools log it) (htick : entry = .tick → due now_ms it = true) :
    Orderly ⟨it, entry, now_ms⟩ log ↔ Within ⟨it, entry, now_ms⟩ log := by
  have hleft : (since it.name log).length + 1 ≤ it.max_runs.toNat ↔ it.runs < it.max_runs := by
    rw [← h.runs, UInt32.lt_iff_toNat_lt, Nat.succ_le_iff]
  refine and_congr ?_ ?_
  · refine Iff.trans ?_ hleft.symm
    refine ⟨fun hentry => ?_, fun hruns _ => hruns⟩
    by_cases hentry' : entry = .tick
    · have hdue := htick hentry'
      simp only [due, Bool.and_eq_true, Bool.not_eq_true', decide_eq_false_iff_not] at hdue
      exact UInt32.not_le.mp hdue.1.1.2
    · exact hentry hentry'
  · refine ⟨fun hpaced hentry hwhen r hr hr' => ?_, fun hpaced hentry hwhen r hr => ?_⟩
    · obtain hr | hnext := h.next r hr
      · exact hpaced hentry hwhen r hr hr'
      · have hdue := htick hentry
        simp only [due, Bool.and_eq_true, Bool.or_eq_true, decide_eq_true_eq] at hdue
        obtain (honce | hzero) | hle := hdue.2
        · cases hwhen.symm.trans honce
        · rw [hzero] at hnext
          exact hnext.trans (Nat.zero_le _)
        · exact hnext.trans (UInt64.le_iff_toNat_le.mp hle)
    · exact hpaced hentry hwhen r (mem_runs_of_undue hr)

variable {i : Nat}

theorem Ledger.of_items (h : Ledger tools s) (hruns : s'.runs = s.runs) (hlog : performed s'.log = performed s.log ∧
    ∀ P, EachRun P s'.log ↔ EachRun P s.log) (hunique : Roster.Unique agenda_item_t.name s'.item)
    (hitems : ∀ it ∈ s'.item, Entered tools s'.log it) : Ledger tools s' where
  items := hitems
  unique := hunique
  total := by rw [hruns, hlog.1]; exact h.total
  bound := hruns ▸ h.bound
  each := (hlog.2 _).mpr h.each

/-- A run that starts is entered in the ledger. -/
theorem Ledger.started (h : Ledger tools s) (hit : s.item[i]? = some it)
    (htick : entry = .tick → due now_ms it = true) (hroom : s.runs < AGENDA_MAX_RUNS_TOTAL)
    (hitem : s'.item = s.item.modify i (counted now_ms)) (hruns : s'.runs = s.runs + 1)
    (hlog : s'.log = .run ⟨it, entry, now_ms⟩ :: s.log) : Ledger tools s' := by
  have hentered := h.items it (mem_of_getElem? hit)
  -- The runs of an item are among those of the boot, so its counter has room too.
  have hleft : it.runs < AGENDA_MAX_RUNS_TOTAL := by
    rw [UInt32.lt_iff_toNat_lt] at hroom ⊢
    rw [hentered.runs]
    rw [h.total] at hroom
    exact length_since_le.trans_lt hroom
  refine ⟨fun it' hit' => ?_, hitem ▸ h.unique.modify fun _ => rfl, ?_, ?_, ?_⟩
  · rw [hitem] at hit'
    rw [hlog]
    obtain rfl | ⟨hit', hne⟩ := h.unique.mem_modify hit hit'
    · exact hentered.counted hleft
    · refine (h.items it' hit').other ?_ ?_ ?_
      · rw [since, if_neg hne.symm]
      · rw [undue, if_neg hne.symm]
      · rw [runs_of_cons, if_neg hne.symm]
  · rw [hruns, hlog, toNat_succ_runs hroom, h.total]
    rfl
  · rw [hruns, UInt32.le_iff_toNat_le, toNat_succ_runs hroom]
    exact UInt32.lt_iff_toNat_lt.mp hroom
  · rw [hlog]
    exact ⟨orderly_iff_within hentered htick, h.each⟩

/-- A move keeps the ledger. -/
theorem Ledger.move (h : Ledger tools s) (hmove : Move tools now_ms s s') : Ledger tools s' := by
  cases hmove with
  | noted hitem hruns hlog =>
    have halike : Alike s.log s'.log := by
      obtain hlog | ⟨name, hlog⟩ := hlog
      · exact hlog.alike
      · exact hlog ▸ alike_done
    refine h.of_items hruns ⟨halike.performed, halike.each⟩ (hitem ▸ h.unique) fun it hit => ?_
    exact (h.items it (hitem ▸ hit)).alike halike
  | saved it hsound hnew hitem hruns hlog =>
    refine h.of_items hruns (hlog ▸ ⟨rfl, fun _ => Iff.rfl⟩) (hitem ▸ h.unique.put) fun it' hit' => ?_
    rw [hitem, h.unique.mem_put] at hit'
    rw [hlog]
    obtain rfl | ⟨hit', hne⟩ := hit'
    · exact Entered.saved hsound hnew
    · refine (h.items it' hit').other ?_ ?_ rfl
      · rw [since, if_neg hne.symm]
      · rw [undue, if_neg hne.symm]
  | removed name hitem hruns hlog =>
    refine h.of_items hruns (hlog ▸ ⟨rfl, fun _ => Iff.rfl⟩) (hitem ▸ h.unique.remove) fun it hit => ?_
    rw [hitem] at hit
    rw [hlog]
    exact h.items it (remove_sublist.subset hit)
  | updated i f hf hitem hruns hlog =>
    refine h.of_items hruns (hlog ▸ ⟨rfl, fun _ => Iff.rfl⟩) (hitem ▸ h.unique.modify hf.name) fun it hit => ?_
    rw [hitem] at hit
    rw [hlog]
    obtain hit | ⟨it', hit', rfl⟩ := mem_modify hit
    · exact h.items it hit
    · exact (h.items it' (mem_of_getElem? hit')).keeps hf
  | started i it entry hit htick hroom hitem hruns hlog => exact h.started hit htick hroom hitem hruns hlog
  | scheduled i it hit hitem hruns hlog =>
    refine h.of_items hruns (hlog ▸ ⟨rfl, fun _ => Iff.rfl⟩) (hitem ▸ h.unique.modify fun _ => rfl) fun it' hit' => ?_
    rw [hitem] at hit'
    rw [hlog]
    obtain rfl | ⟨hit', hne⟩ := h.unique.mem_modify hit hit'
    · exact (h.items it (mem_of_getElem? hit)).scheduled
    · refine (h.items it' hit').other rfl ?_ rfl
      rw [undue, if_neg hne.symm]

/-- Any number of moves keep it. -/
theorem Ledger.moves (h : Ledger tools s) (hmoves : Moves tools now_ms s s') : Ledger tools s' := by
  induction hmoves with
  | refl => exact h
  | tail _ hmove ih => exact ih.move hmove

end Ledger

section Boot

/-- What happens to the agenda after it was loaded. The time of a tick or a run
    and what the action does come from outside. -/
inductive event_t where
  | tick (now_ms : UInt64) (deed : deed_t)
  | run_now (name : text_t) (now_ms : UInt64) (deed : deed_t)
  | run_boot (now_ms : UInt64) (deeds : text_t → deed_t)
  | edit (e : edit_t)

def agenda_t.step (tools : List text_t) (s : agenda_t) : event_t → agenda_t
  | .tick now_ms deed => (agenda_tick tools now_ms deed s).1
  | .run_now name now_ms deed => (agenda_run_now tools name now_ms deed s).1
  | .run_boot now_ms deeds => (agenda_run_boot tools now_ms deeds s).1
  | .edit e => s.edit tools e

/-- The agenda's memory when the machine comes up; the file is where it was. -/
def power_on (s : agenda_t) : agenda_t :=
  { s with item := [], on := true, running := false, runs := 0, fails := 0, escapes := 0, log := [] }

/-- One boot: the store is loaded, and then whatever happens. -/
def boot (tools : List text_t) (s : agenda_t) (events : List event_t) : agenda_t :=
  events.foldl (agenda_t.step tools) (agenda_load tools (power_on s)).1

variable {tools : List text_t} {s : agenda_t}

/-- The run that an event asks of an item. -/
inductive Called (it : agenda_item_t) : event_t → entry_t → UInt64 → deed_t → Prop
  | tick {now_ms : UInt64} {deed : deed_t} (hdue : due now_ms it = true) : Called it (.tick now_ms deed) .tick now_ms deed
  | now (now_ms : UInt64) (deed : deed_t) : Called it (.run_now it.name now_ms deed) .now now_ms deed
  | boot {now_ms : UInt64} {deeds : text_t → deed_t} (henabled : it.enabled = true) (hboot : it.when = .boot) :
      Called it (.run_boot now_ms deeds) .boot now_ms (deeds it.name)

/-- What every run that an event asks for keeps and every edit, the event keeps. -/
theorem step_rule {P : agenda_t → Prop} {e} (h : P s)
    (hrun : ∀ {t : agenda_t} {i : Nat} {it : agenda_item_t} {entry : entry_t} {now_ms : UInt64} {deed : deed_t}, Called it e entry now_ms deed → t.item[i]? = some it → P t → P (run_item tools i entry now_ms deed t).1)
    (hedit : ∀ {t : agenda_t} {e' : edit_t}, e = .edit e' → P t → P (t.edit tools e')) : P (s.step tools e) := by
  cases e with
  | tick now_ms deed =>
    rw [agenda_t.step, agenda_tick]
    split
    · exact h
    split
    · exact h
    · rename_i i hpick
      obtain ⟨hlt, hdue, -⟩ := findIdx?_eq_some_iff_getElem.mp hpick
      exact hrun (.tick hdue) (getElem?_eq_getElem hlt) h
  | run_now name now_ms deed =>
    rw [agenda_t.step, agenda_run_now]
    split
    · exact h
    · rename_i i hfind
      obtain ⟨it, hit, rfl⟩ := place_eq_some hfind
      exact hrun (.now now_ms deed) hit h
  | run_boot now_ms deeds =>
    rw [agenda_t.step, agenda_run_boot]
    split
    · exact h
    · exact run_boot_rule h fun hit henabled hboot => hrun (.boot henabled hboot) hit
  | edit e' => exact hedit rfl h

def event_t.now_ms : event_t → UInt64
  | .tick now_ms _ | .run_now _ now_ms _ | .run_boot now_ms _ => now_ms
  | .edit _ => 0

/-- Every event is a series of moves. -/
theorem moves_step (e : event_t) : Moves tools e.now_ms s (s.step tools e) := by
  refine step_rule moves_refl (fun hcalled hit h => h.trans ?_) fun {t e'} _ h => h.trans (@moves_edited tools _ t [e'])
  cases hcalled with
  | tick hdue => exact moves_run_item hit fun _ => hdue
  | now | boot => exact moves_run_item hit fun htick => by cases htick

/-- A freshly loaded table has no runs and no due times. -/
theorem ledger_load : Ledger tools (agenda_load tools (power_on s)).1 := by
  have hstart {s' : agenda_t} (hitem : ∀ it ∈ s'.item, Sound tools it ∧ Untouched it)
      (hunique : Roster.Unique agenda_item_t.name s'.item) (hruns : s'.runs = 0) (hlog : s'.log = []) :
      Ledger tools s' := by
    refine ⟨fun it hit => ⟨(hitem it hit).1, ?_, fun r hr => ?_⟩, hunique, ?_, ?_, ?_⟩
    · rw [(hitem it hit).2.runs, hlog]
      rfl
    · rw [hlog] at hr
      cases hr
    · rw [hruns, hlog]
      rfl
    · rw [hruns]
      decide
    · rw [hlog]
      trivial
  obtain ⟨table, htable, hunique, -, hload⟩ := agenda_load_eq tools (power_on s)
  have hloaded : Ledger tools { power_on s with item := table } := hstart htable hunique rfl rfl
  obtain heq | heq := hload
  · exact heq ▸ hloaded
  · exact heq ▸ hloaded.moves (@Moves.flush tools 0 _ _ moves_refl)

/-- The ledger holds after every boot. -/
theorem ledger_boot {events} : Ledger tools (boot tools s events) := by
  exact foldlRecOn events _ ledger_load fun t h e _ => h.moves (moves_step e)

/-- Whatever store a boot starts from and whatever happens in it: the bounds on
    the actions hold exactly when no run by hand or at boot is asked of an item
    that has had its runs, and no tick comes within the period of a start that
    the item was not given a due time for. The bound on their total always does. -/
theorem actions_bounded_iff (tools : List text_t) (s : agenda_t) (events : List event_t) :
    (EachRun Within (boot tools s events).log ∧
        (performed (boot tools s events).log).length ≤ AGENDA_MAX_RUNS_TOTAL.toNat) ↔
      EachRun Orderly (boot tools s events).log := by
  have hledger := @ledger_boot tools s events
  have htotal : (performed (boot tools s events).log).length ≤ AGENDA_MAX_RUNS_TOTAL.toNat := by
    rw [← hledger.total]
    exact UInt32.le_iff_toNat_le.mp hledger.bound
  rw [and_iff_left htotal]
  exact (eachRun_congr hledger.each).symm

/-- A machine without an agenda on its disk. -/
def no_store : agenda_t := ⟨[], true, false, 0, 0, 0, true, none, true, [], []⟩

/-- An action that changes nothing on the agenda, with the code it returns. -/
def plain (rc : Int) : deed_t := ⟨.done, [], rc, false, []⟩

/-- An item with one run is saved and asked for twice. -/
def by_hand : List event_t :=
  [.edit (.save (some { every_item [0x61] with max_runs := 1 })), .run_now [0x61] 5 (plain 0), .run_now [0x61] 6 (plain 0)]

/-- An item fails at three ticks, a period apart. The third time it is retired
    without a due time; it is enabled again, and the next tick starts it. -/
def enabled_again : List event_t :=
  [.edit (.save (some (every_item [0x61]))), .tick 1000 (plain 1), .tick 11000 (plain 1), .tick 21000 (plain 1),
    .edit (.set_enabled [0x61] true), .tick 21001 (plain 0)]

/-- Neither bound is kept: the runner does not look at `max_runs`, and a retired
    item keeps the due time of the run before. -/
theorem bounds_are_passed : ¬ EachRun Within (boot [] no_store by_hand).log ∧
    ¬ EachRun Within (boot [] no_store enabled_again).log := by
  refine ⟨?_, ?_⟩
  all_goals decide +kernel

end Boot

end fable.agenda
