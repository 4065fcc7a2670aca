import FableOs.Agenda.Run

namespace fable.agenda

/-! The bookkeeping of a run: which item the runner's pointer reaches when the
action has come back. -/

section Books

variable {tools : List text_t} {i : Nat} {entry : entry_t} {now_ms : UInt64} {deed : deed_t} {out : outcome_t} {s : agenda_t}

/-- All that the runner writes through its pointer behind `fault_guard_run`: the
    marker, and the bookkeeping of the run. -/
def account (now_ms : UInt64) (out : outcome_t) (it : agenda_item_t) : agenda_item_t :=
  let it := if out.marked then { it with attempting := false } else it
  if out.guard = .refused then unrun out it else retire now_ms (enter out it)

theorem clear_attempt_item : (clear_attempt i out.marked s).item =
    s.item.modify i fun it => if out.marked then { it with attempting := false } else it := by
  cases hmarked : out.marked with
  | true => simp [clear_attempt]
  | false =>
    rw [modify_same fun it => if_neg Bool.false_ne_true]
    rfl

theorem settled_item : (settled i now_ms out s).item = s.item.modify i fun it => retire now_ms (enter out it) := by
  rw [settled]
  split <;> rfl

theorem settle_item : (settle i now_ms out s).item = s.item.modify i fun it => retire now_ms (enter out it) := by
  rw [settle]
  split
  · rw [flush_item, settled_item]
  · exact settled_item

/-- The bookkeeping is one update of one slot, whatever that slot holds by now. -/
theorem book_item : (book i now_ms out s).1.item = s.item.modify i (account now_ms out) := by
  rw [book]
  split
  · rename_i hguard
    rw [write_item, clear_attempt_item, modify_modify]
    congr 1
    funext it
    rw [account, if_pos hguard]
  · rename_i hguard
    rw [settle_item, clear_attempt_item, modify_modify]
    congr 1
    funext it
    rw [account, if_neg hguard]

/-- The agenda when the action has come back and nothing has been entered yet;
    the agenda itself when nothing is run. -/
def after_action (tools : List text_t) (i : Nat) (entry : entry_t) (now_ms : UInt64) (deed : deed_t) (s : agenda_t) :
    agenda_t :=
  if s.on = false ∨ s.running ∨ AGENDA_MAX_RUNS_TOTAL ≤ s.runs then s else (act tools i entry now_ms deed s).1

/-- A run that is not refused books where its action has left the slot. -/
theorem run_item_started (hstart : ¬ (s.on = false ∨ s.running ∨ AGENDA_MAX_RUNS_TOTAL ≤ s.runs)) :
    (run_item tools i entry now_ms deed s) =
      book i now_ms (act tools i entry now_ms deed s).2 (act tools i entry now_ms deed s).1 := by
  obtain ⟨hon, hrunning, hruns⟩ : ¬ s.on = false ∧ ¬ s.running = true ∧ ¬ AGENDA_MAX_RUNS_TOTAL ≤ s.runs := by
    simpa only [not_or] using hstart
  rw [run_item, if_neg hon, if_neg hrunning, if_neg hruns]

/-- A run that is refused switches its slot off if the actions of the boot are spent. -/
theorem run_item_refused (hrefused : s.on = false ∨ s.running ∨ AGENDA_MAX_RUNS_TOTAL ≤ s.runs) :
    (run_item tools i entry now_ms deed s).1 = s ∨
      (run_item tools i entry now_ms deed s).1 = s.write i fun it => { it with enabled := false } := by
  rw [run_item]
  split
  · exact .inl rfl
  split
  · exact .inl rfl
  split
  · exact .inr rfl
  · rename_i hon hrunning hruns
    simp [hon, hrunning, hruns] at hrefused

/-- The bookkeeping of a run reaches no other item exactly when the slot still
    holds the item that was started, or nothing, or an item that reads already as
    the bookkeeping would leave it. -/
theorem bookkeeping_reaches_only_started_iff (tools : List text_t) (i : Nat) (entry : entry_t) (now_ms : UInt64)
    (deed : deed_t) (s : agenda_t) :
    (∀ (j : Nat) (it : agenda_item_t), (after_action tools i entry now_ms deed s).item[j]? = some it →
      it.name ≠ (s.slot i).name → (run_item tools i entry now_ms deed s).1.item[j]? = some it) ↔
    ∀ it : agenda_item_t, (after_action tools i entry now_ms deed s).item[i]? = some it →
      it.name = (s.slot i).name ∨ account now_ms (act tools i entry now_ms deed s).2 it = it := by
  by_cases hstart : s.on = false ∨ s.running ∨ AGENDA_MAX_RUNS_TOTAL ≤ s.runs
  · -- nothing was run: the pointer is as good as when it was taken
    rw [after_action, if_pos hstart]
    refine iff_of_true (fun j it hj hname => ?_) fun it hi => Or.inl (by rw [slot_eq_of_getElem? hi])
    obtain heq | heq := @run_item_refused tools i entry now_ms deed s hstart <;> rw [heq]
    · exact hj
    by_cases hij : i = j
    · subst hij
      rw [slot_eq_of_getElem? hj] at hname
      exact absurd rfl hname
    · rw [write_item, List.getElem?_modify_ne _ _ hij, hj]
  · rw [after_action, if_neg hstart, run_item_started hstart, book_item]
    constructor
    · intro h it hi
      by_cases hname : it.name = (s.slot i).name
      · exact Or.inl hname
      · have hkept := h i it hi hname
        rw [List.getElem?_modify, hi] at hkept
        exact Or.inr (by simpa using hkept)
    · intro h j it hj hname
      by_cases hij : i = j
      · subst hij
        have hsame := (h it hj).resolve_left hname
        rw [List.getElem?_modify, hj]
        simpa using hsame
      · rw [List.getElem?_modify_ne _ _ hij, hj]

/-- A sentence that is said every ten seconds. -/
def every_item (name : text_t) : agenda_item_t :=
  { zeroed with
    name := name, when := .every, act := .say, arg := [0x68, 0x69], enabled := true
    period_ms := AGENDA_MIN_PERIOD_MS, max_runs := AGENDA_MAX_RUNS }

/-- Three such items, at rest. -/
def three_items : agenda_t :=
  ⟨[every_item [0x61], every_item [0x62], every_item [0x63]], true, false, 0, 0, 0, true, none, true, [], []⟩

/-- The action takes the first item off the agenda and succeeds. -/
def removes_first : deed_t := ⟨.done, [.remove [0x61]], 0, false, []⟩

/-- The second of three items is run, and its action removes the first. The
    pointer then stands on the third: the result, the failures and the next due
    time are entered there, and the item that ran keeps no record of its run. -/
theorem removal_moves_the_books :
    (after_action [] 1 .tick 5 removes_first three_items).item[1]? = some (every_item [0x63]) ∧
      (every_item [0x63]).name ≠ (three_items.slot 1).name ∧
      (run_item [] 1 .tick 5 removes_first three_items).1.item[1]? =
        some { every_item [0x63] with last_why := .delivered, next_ms := 10005 } := by
  have hact : (act [] 1 .tick 5 removes_first three_items).1.item =
      [{ every_item [0x62] with runs := 1, last_ms := 5 }, every_item [0x63]] := by
    have hbegin : mark_attempt 1 (begin_run 1 .tick 5 removes_first three_items) =
        (begin_run 1 .tick 5 removes_first three_items, false) := rfl
    have hsay : (begin_run 1 .tick 5 removes_first three_items).say = true := rfl
    have hslot : ((begin_run 1 .tick 5 removes_first three_items).slot 1).act = .say := rfl
    rw [act, hbegin]
    simp only [removes_first, run_body] at hsay hslot ⊢
    simp only [hslot, hsay, if_true, Bool.true_eq_false, if_false, agenda_t.edited, List.foldl_cons, List.foldl_nil,
      agenda_t.edit, agenda_remove_item]
    decide
  have hout : (act [] 1 .tick 5 removes_first three_items).2 = ⟨.done, AGENDA_OK, [], false⟩ := rfl
  have hstart : ¬ (three_items.on = false ∨ three_items.running ∨ AGENDA_MAX_RUNS_TOTAL ≤ three_items.runs) := by decide
  rw [after_action, if_neg hstart, run_item_started hstart, book_item, hout, hact]
  decide

end Books

end fable.agenda
