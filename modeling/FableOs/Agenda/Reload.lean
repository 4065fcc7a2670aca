import FableOs.Agenda.Boots

namespace fable.agenda

/-! What the next boot reads back of the table that was last written. -/

section Tables

variable {tools : List text_t} {P : agenda_item_t → Prop} {s s' : agenda_t} {e : edit_t}

/-- The edit brings in no item without the property, and takes it from none. -/
def edit_t.Allows (P : agenda_item_t → Prop) : edit_t → Prop
  | .save given => P (normalised given)
  | .remove _ => True
  | .set_enabled name on => ∀ it : agenda_item_t, it.name = name → P it →
      P { it with enabled := on, failures := if on then 0 else it.failures }
  | .enable _ => True

/-- A table in order, all of whose items have the property. -/
def Holds (tools : List text_t) (P : agenda_item_t → Prop) (items : List agenda_item_t) : Prop :=
  Table tools items ∧ ∀ it ∈ items, P it

/-- An edit does nothing to the table, or changes it and writes it. -/
theorem Edit.holds (hedit : Edit tools s e s') (h : Holds tools P s.item) (he : e.Allows P) :
    (∃ on, s' = { s with on := on }) ∨
      ∃ items log, s' = (agenda_flush { s with item := items, log := log }).1 ∧ Holds tools P items := by
  cases hedit with
  | refused => exact .inl ⟨s.on, rfl⟩
  | saved hsound hnew hroom =>
    refine .inr ⟨_, _, rfl, h.1.put hsound hroom, fun it hit => ?_⟩
    obtain rfl | hit := Roster.mem_of_mem_put hit
    · exact he
    · exact h.2 it hit
  | removed name => exact .inr ⟨_, _, rfl, h.1.remove, fun it hit => h.2 it (Roster.remove_sublist.subset hit)⟩
  | @switched name i it on hit hname =>
    refine .inr ⟨_, _, rfl, h.1.modify fun _ => rfl, fun it' hit' => ?_⟩
    obtain hit' | ⟨it'', hit'', rfl⟩ := Roster.mem_modify hit'
    · exact h.2 it' hit'
    · cases hit.symm.trans hit''
      exact he it hname (h.2 it (List.mem_of_getElem? hit))
  | enabled on => exact .inl ⟨on, rfl⟩

theorem Holds.edited {edits} (h : Holds tools P s.item) (hedits : ∀ e ∈ edits, e.Allows P) :
    Holds tools P (s.edited tools edits).item := by
  refine edited_rule h fun t t' e he hedit h => ?_
  obtain ⟨on, rfl⟩ | ⟨items, log, rfl, hitems⟩ := hedit.holds h (hedits e he)
  · exact h
  · rwa [flush_item]

theorem Table.edited {edits} (h : Table tools s.item) : Table tools (s.edited tools edits).item := by
  have hall (e : edit_t) : e.Allows fun _ => True := by
    cases e <;> simp [edit_t.Allows]
  exact (Holds.edited ⟨h, fun _ _ => trivial⟩ fun e _ => hall e).1

theorem Table.run_item {i entry now_ms deed} (h : Table tools s.item) :
    Table tools (run_item tools i entry now_ms deed s).1.item := by
  by_cases hstart : s.on = false ∨ s.running ∨ AGENDA_MAX_RUNS_TOTAL ≤ s.runs
  · obtain heq | heq := @run_item_refused tools i entry now_ms deed s hstart <;> rw [heq]
    · exact h
    · exact h.modify fun _ => rfl
  · obtain ⟨edits, -, hact⟩ := @act_edited tools now_ms s i entry deed
    obtain ⟨g, hg, hcase⟩ := @mark_attempt_item (begin_run i entry now_ms deed s) i
    have hmark : Table tools (mark_attempt i (begin_run i entry now_ms deed s)).1.item := by
      rw [hg, begin_run_item]
      refine Table.modify (h.modify (f := counted now_ms) fun _ => rfl) fun it => ?_
      obtain rfl | rfl := hcase <;> rfl
    rw [run_item_started hstart, book_item, hact]
    exact hmark.edited.modify fun it => asked_account

theorem table_boot {events} : Table tools (boot tools s events).item := by
  refine List.foldlRecOn (motive := fun t : agenda_t => Table tools t.item) events _ ?_ fun t h e _ =>
    step_rule (P := fun t => Table tools t.item) h (fun _ _ h => h.run_item) fun {_ e'} _ h => @Table.edited tools _ [e'] h
  obtain ⟨table, htable, hunique, hroom, hload⟩ := agenda_load_eq tools (power_on s)
  have hloaded : Table tools table := ⟨fun it hit => (htable it hit).1, hunique, hroom⟩
  obtain heq | heq := hload <;> rw [heq]
  · exact hloaded
  · rwa [flush_item]

end Tables

section RoundTrip

variable {tools : List text_t} {it : agenda_item_t}

/-- What was asked for, and whether the item is on. -/
def kept (it : agenda_item_t) : agenda_item_t := { asked it with enabled := it.enabled }

/-- The next boot makes the same item of one without a marker, unless its period
    is too long to be read back or it names a tool without calling one. -/
theorem kept_reload_iff (h : it.attempting = false) :
    kept (reload it) = kept it ↔ it.period_ms < 0x7FFFFFFF ∧ (it.act = .tool ∨ it.tool = []) := by
  have hperiod : (if it.period_ms < 0x7FFFFFFF then it.period_ms else AGENDA_MIN_PERIOD_MS) = it.period_ms ↔
      it.period_ms < 0x7FFFFFFF := by
    split
    · rename_i hlt
      exact iff_of_true rfl hlt
    · rename_i hlt
      exact iff_of_false (fun heq => hlt (heq ▸ by decide)) hlt
  have htool : (if it.act = .tool then it.tool else []) = it.tool ↔ it.act = .tool ∨ it.tool = [] := by
    split
    · rename_i hact
      exact iff_of_true rfl (.inl hact)
    · rename_i hact
      rw [or_iff_right hact]
      exact eq_comm
  simp [kept, asked, reload, h, hperiod, htool, and_comm]

theorem flush_store {s} (h : (agenda_flush s).2 = AGENDA_OK) : (agenda_flush s).1.store = some (render s.item) := by
  rw [agenda_flush] at h ⊢
  split at h
  · cases h
  · rename_i hroom
    rw [if_neg hroom, file_write]
    rw [file_write] at h
    split at h
    · rfl
    · rfl
    · cases h
    · cases h

/-- A table that was built by edits and is written and read again comes back in
    its order and as it was asked for exactly when no period is beyond what the
    loader takes and no item names a tool that it does not call. -/
theorem table_reproduced_iff (tools : List text_t) (edits : List edit_t) (s t : agenda_t) (hempty : s.item = [])
    (hbuilt : s.edited tools edits = t) (hwritten : (agenda_flush t).2 = AGENDA_OK) (hread : t.readable = true) :
    (agenda_load tools (agenda_flush t).1).1.item.map kept = t.item.map kept ↔
      ∀ it ∈ t.item, it.period_ms < 0x7FFFFFFF ∧ (it.act = .tool ∨ it.tool = []) := by
  have hstart : Holds tools (fun it => it.attempting = false) s.item := by
    rw [hempty]
    exact ⟨⟨List.forall_mem_nil _, List.nodup_nil, Nat.zero_le _⟩, List.forall_mem_nil _⟩
  have hallows (e : edit_t) : e.Allows fun it => it.attempting = false := by
    cases e with
    | save given =>
      cases given <;> rfl
    | remove name => trivial
    | set_enabled name on => exact fun it _ h => h
    | enable on => trivial
  obtain ⟨htable, hattempting⟩ := hbuilt ▸ hstart.edited fun e _ => hallows e
  have hreadable : (agenda_flush t).1.readable = true := by
    obtain ⟨_, _, _, heq, -⟩ := agenda_flush_eq t
    rw [heq, hread]
  have hload := agenda_load_render (flush_store hwritten) hreadable htable.sound htable.unique htable.room
  have hany : t.item.any agenda_item_t.attempting = false := by
    simpa using hattempting
  rw [hload, hany, if_neg Bool.false_ne_true, List.map_map, List.map_inj_left]
  exact forall₂_congr fun it hit => kept_reload_iff (hattempting it hit)

/-- An item that is due every twenty-five days. -/
def slow_item : agenda_item_t := { every_item [0x61] with period_ms := 0x7FFFFFFF }

/-- The item is accepted and comes back with a period of ten seconds. -/
theorem slow_item_hurried :
    (agenda_save [] (some slow_item) no_store).2 = .ok ∧
      (agenda_load [] (agenda_flush (agenda_save [] (some slow_item) no_store).1).1).1.item.map agenda_item_t.period_ms =
        [AGENDA_MIN_PERIOD_MS] := by
  refine ⟨?_, ?_⟩
  all_goals decide +kernel

/-- Two sentences every ten seconds, a tool call at boot with quotes in its
    argument, and then one of the sentences switched off. -/
def mixed_edits : List edit_t :=
  [.save (some (every_item [0x61])), .save (some (every_item [0x62])),
    .save (some { every_item [0x63] with when := .boot, act := .tool, tool := [0x74], arg := [0x7B, 0x22, 0x22, 0x3A, 0x31, 0x7D] }),
    .set_enabled [0x61] false]

/-- The three items come back in order and as they were. -/
theorem mixed_table_reproduced :
    (agenda_load [[0x74]] (agenda_flush (no_store.edited [[0x74]] mixed_edits)).1).1.item.map kept =
      (no_store.edited [[0x74]] mixed_edits).item.map kept ∧
    (no_store.edited [[0x74]] mixed_edits).item.map agenda_item_t.enabled = [false, true, true] :=
  ⟨(table_reproduced_iff [[0x74]] mixed_edits no_store _ rfl rfl (by decide +kernel) (by decide +kernel)).mpr
    (by decide +kernel), by decide +kernel⟩

/-- Whatever the store holds that a boot starts from, whatever becomes of the
    writes and whatever happens: the table is in order and fits the file, and of a
    write that is done the next boot makes one item each in the same order. -/
theorem boot_table_stored (tools : List text_t) (s : agenda_t) (events : List event_t) :
    Table tools (boot tools s events).item ∧ (render (boot tools s events).item).length + 1 < AGENDA_FILE_MAX ∧
      ((agenda_flush (boot tools s events)).2 = AGENDA_OK → (boot tools s events).readable = true →
        (agenda_load tools (power_on (agenda_flush (boot tools s events)).1)).1.item =
          (boot tools s events).item.map reload) := by
  have htable := @table_boot tools s events
  refine ⟨htable, length_render htable.sound htable.room, fun hwritten hread => ?_⟩
  have hstore : (power_on (agenda_flush (boot tools s events)).1).store = some (render (boot tools s events).item) :=
    flush_store hwritten
  have hreadable : (power_on (agenda_flush (boot tools s events)).1).readable = true := by
    obtain ⟨_, _, _, heq, -⟩ := agenda_flush_eq (boot tools s events)
    rw [heq]
    exact hread
  rw [agenda_load_render hstore hreadable htable.sound htable.unique htable.room]
  split
  · exact flush_item
  · rfl

end RoundTrip

end fable.agenda
