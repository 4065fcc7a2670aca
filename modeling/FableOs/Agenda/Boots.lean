import FableOs.Agenda.Bounds

namespace fable.agenda

/-! A boot item over many boots. The memory is lost at each of them; what is left
is the store, and every write of the store takes the whole table as it stands. -/

open List Roster Option

variable {tools : List text_t} {a : Bool} {x : text_t} {s s' : agenda_t} {i p : Nat} {it : agenda_item_t} {entry : entry_t}

section Standing

/-- The marker of the item's attempt is up. -/
def afoot (x : text_t) : List mark_t → Bool
  | [] => false
  | .run r :: log => r.item.name = x || afoot x log
  | .cleared n :: log => n ≠ x && afoot x log
  | _ :: log => afoot x log

/-- The record up to the last write of the store. -/
def written (log : List mark_t) : List mark_t := log.dropWhile (· ≠ .wrote)

/-- The boot item of a name, as the record of the boot leaves it: it is enabled
    until a result is entered under its name, if it was when the boot began. -/
structure Stands (a : Bool) (x : text_t) (log : List mark_t) (it : agenda_item_t) : Prop where
  name : it.name = x
  when : it.when = .boot
  enabled : it.enabled = true ↔ a = true ∧ .done x ∉ log
  attempting : it.attempting = afoot x log

/-- A table that can be written and read back. -/
structure Table (tools : List text_t) (items : List agenda_item_t) : Prop where
  sound : ∀ it ∈ items, Sound tools it
  unique : Roster.Unique agenda_item_t.name items
  room : items.length ≤ AGENDA_MAX_ITEMS

/-- The item stands in the table as the record has it, and in the store as the
    record had it at the last write. -/
structure Standing (tools : List text_t) (a : Bool) (x : text_t) (s : agenda_t) : Prop where
  table : Table tools s.item
  disk : s.disk = []
  readable : s.readable = true
  on : s.on = true
  item : ∃ it ∈ s.item, Stands a x s.log it
  stored : .wrote ∈ s.log → ∃ items, s.store = some (render items) ∧ Table tools items ∧
    ∃ it ∈ items, Stands a x (written s.log) it

/-- All but the table, the record and the counters is as it was. -/
structure Beside (s s' : agenda_t) : Prop where
  disk : s'.disk = s.disk
  readable : s'.readable = s.readable
  on : s'.on = s.on
  store : s'.store = s.store

variable {log ms : List mark_t}
  {f : agenda_item_t → agenda_item_t}

theorem written_append (h : .wrote ∉ ms) : written (ms ++ log) = written log := by
  rw [written, dropWhile_append_of_pos]
  · rfl
  · intro m hm
    have hne : m ≠ .wrote := fun heq => h (heq ▸ hm)
    simpa using hne

/-- The table and the record move on together between two writes. -/
theorem Standing.next (h : Standing tools a x s) (hbeside : Beside s s') (htable : Table tools s'.item)
    (hlog : s'.log = ms ++ s.log) (hms : .wrote ∉ ms) (hitem : ∃ it ∈ s'.item, Stands a x s'.log it) :
    Standing tools a x s' where
  table := htable
  disk := hbeside.disk.trans h.disk
  readable := hbeside.readable.trans h.readable
  on := hbeside.on.trans h.on
  item := hitem
  stored hwrote := by
    rw [hlog, mem_append] at hwrote
    rw [hlog, written_append hms, hbeside.store]
    exact h.stored (hwrote.resolve_left hms)

theorem flush_whole (h : Table tools s.item) (hdisk : s.disk = []) :
    agenda_flush s = ({ s with store := some (render s.item) }.mark .wrote, AGENDA_OK) := by
  have hroom := length_render h.sound h.room
  rw [agenda_flush, if_neg (by omega), file_write, hdisk]

/-- Writing the store keeps the item standing. -/
theorem Standing.flush (h : Standing tools a x s) : Standing tools a x (agenda_flush s).1 := by
  obtain ⟨it, hit, hstands⟩ := h.item
  have hstands' : Stands a x (.wrote :: s.log) it :=
    { hstands with enabled := by simpa using hstands.enabled }
  rw [flush_whole h.table h.disk]
  exact ⟨h.table, h.disk, h.readable, h.on, ⟨it, hit, hstands'⟩, fun _ => ⟨s.item, rfl, h.table, it, hit, hstands'⟩⟩

theorem Table.modify {items} (h : Table tools items) (hf : ∀ it, asked (f it) = asked it) :
    Table tools (items.modify i f) where
  sound it hit := by
    obtain hit | ⟨it', hit', rfl⟩ := mem_modify hit
    · exact h.sound it hit
    · exact sound_of_asked (hf it') (h.sound it' (mem_of_getElem? hit'))
  unique := h.unique.modify fun it => name_of_asked (hf it)
  room := (length_modify f items i).trans_le h.room

theorem Table.put {items} (h : Table tools items) (hsound : Sound tools it)
    (hroom : ¬ (Roster.find agenda_item_t.name it.name items = none ∧ AGENDA_MAX_ITEMS ≤ items.length)) :
    Table tools (Roster.put agenda_item_t.name it items) where
  sound it' hit := by
    obtain rfl | hit := mem_of_mem_put hit
    · exact hsound
    · exact h.sound it' hit
  unique := h.unique.put
  room := by
    by_cases hfind : find agenda_item_t.name it.name items = none
    · have hlen : ¬ AGENDA_MAX_ITEMS ≤ items.length := fun hle => hroom ⟨hfind, hle⟩
      exact length_put_le.trans (Nat.not_le.mp hlen)
    · exact (length_put_of_find hfind).trans_le h.room

theorem Table.remove {items name} (h : Table tools items) :
    Table tools (Roster.remove agenda_item_t.name name items) where
  sound it hit := h.sound it (remove_sublist.subset hit)
  unique := h.unique.remove
  room := remove_sublist.length_le.trans h.room

/-- A write through a pointer, with the marks that go with it: one thing is to be
    seen to if the slot holds the item, another if it does not. -/
theorem Standing.touch (h : Standing tools a x s) (i : Nat) (f : agenda_item_t → agenda_item_t) (hbeside : Beside s s') (hf : ∀ it, asked (f it) = asked it)
    (hitem : s'.item = s.item.modify i f) (hlog : s'.log = ms ++ s.log) (hms : .wrote ∉ ms)
    (hself : ∀ it, s.item[i]? = some it → it.name = x → Stands a x s.log it → Stands a x s'.log (f it))
    (hother : (∀ it, s.item[i]? = some it → it.name ≠ x) → ∀ it, Stands a x s.log it → Stands a x s'.log it) :
    Standing tools a x s' := by
  refine h.next hbeside (hitem ▸ h.table.modify hf) hlog hms ?_
  obtain ⟨it, hit, hstands⟩ := h.item
  obtain ⟨p, hp⟩ := mem_iff_getElem?.mp hit
  rw [hitem]
  by_cases hi : i = p
  · subst hi
    refine ⟨f it, ?_, hself it hp hstands.name hstands⟩
    exact mem_of_getElem? (by rw [getElem?_modify_eq, hp]; rfl)
  · refine ⟨it, mem_of_getElem? ((getElem?_modify_ne f _ hi).trans hp), hother (fun it' hit' hname => hi ?_) it hstands⟩
    exact h.table.unique.index_eq hit' hp (hname.trans hstands.name.symm)

theorem Stands.cons {m} (h : Stands a x log it) (hdone : m ≠ .done x) (hafoot : afoot x (m :: log) = afoot x log) :
    Stands a x (m :: log) it where
  name := h.name
  when := h.when
  enabled := by
    rw [h.enabled, mem_cons, not_or]
    exact and_congr_right fun _ => ⟨fun hlog => ⟨hdone.symm, hlog⟩, fun hlog => hlog.2⟩
  attempting := h.attempting.trans hafoot.symm

end Standing

section Edits

/-- The edit is about another item, and does not switch the agenda off. -/
def edit_t.Spares (x : text_t) : edit_t → Prop
  | .save given => (normalised given).name ≠ x
  | .remove name => name ≠ x
  | .set_enabled name _ => name ≠ x
  | .enable on => on = true

/-- So do edits that spare it. -/
theorem Standing.edited {edits} (h : Standing tools a x s) (hspares : ∀ e ∈ edits, e.Spares x) :
    Standing tools a x (s.edited tools edits) := by
  refine edited_rule h fun t t' e he hedit h => ?_
  have hspared := hspares e he
  obtain ⟨it, hit, hstands⟩ := h.item
  cases hedit with
  | refused => exact h
  | @saved given hsound _ hroom =>
    have hput : it ∈ put agenda_item_t.name (normalised given) t.item :=
      mem_put_of_ne hit fun heq => hspared (heq.symm.trans hstands.name)
    refine Standing.flush (h.next ⟨rfl, rfl, rfl, rfl⟩ (h.table.put hsound hroom) singleton_append.symm (by simp) ?_)
    exact ⟨it, hput, hstands.cons (by simp) rfl⟩
  | removed name =>
    have hkept : it ∈ remove agenda_item_t.name name t.item :=
      mem_remove_of_ne hit fun heq => hspared (heq.symm.trans hstands.name)
    refine Standing.flush (h.next ⟨rfl, rfl, rfl, rfl⟩ h.table.remove (nil_append _).symm not_mem_nil ?_)
    exact ⟨it, hkept, hstands⟩
  | @switched name i it on hit' hname =>
    let f (it : agenda_item_t) : agenda_item_t := { it with enabled := on, failures := if on then 0 else it.failures }
    refine Standing.flush (h.touch i f ⟨rfl, rfl, rfl, rfl⟩ (fun _ => rfl) rfl (nil_append _).symm not_mem_nil ?_
      fun _ it hstands => hstands)
    intro it' hget hname'
    cases hit'.symm.trans hget
    exact absurd (hname.symm.trans hname') hspared
  | enabled on => exact { h with on := hspared }

end Edits

section Runs

variable {now_ms : UInt64} {deed : deed_t} {out : outcome_t}

theorem begin_run_item : (begin_run i entry now_ms deed s).item = s.item.modify i (counted now_ms) := by
  rw [begin_run]
  split <;> rfl

theorem begin_run_beside : Beside s (begin_run i entry now_ms deed s) := by
  rw [begin_run]
  split <;> exact ⟨rfl, rfl, rfl, rfl⟩

theorem begin_run_log (hit : s.item[i]? = some it) : (begin_run i entry now_ms deed s).log =
    (if deed.guard = .refused then [] else [.run ⟨it, entry, now_ms⟩]) ++ s.log := by
  rw [begin_run, slot_eq_of_getElem? hit]
  split <;> rfl

/-- The start of an item up to its action. The item itself has its marker in the
    store by then. -/
theorem Standing.launch (h : Standing tools a x s) (hit : s.item[i]? = some it)
    (hguard : it.name = x → deed.guard ≠ .refused) :
    Standing tools a x (mark_attempt i (begin_run i entry now_ms deed s)).1 ∧
      (it.when = .boot → .wrote ∈ (mark_attempt i (begin_run i entry now_ms deed s)).1.log) := by
  have hlog := @begin_run_log s i it entry now_ms deed hit
  have hwrote : .wrote ∉ (if deed.guard = .refused then [] else [mark_t.run ⟨it, entry, now_ms⟩]) := by
    split <;> simp
  have hother (it' : agenda_item_t) (hname : it.name ≠ x) (hstands : Stands a x s.log it') :
      Stands a x (begin_run i entry now_ms deed s).log it' := by
    rw [hlog]
    split
    · exact hstands
    · exact hstands.cons (by simp) (by simp [afoot, hname])
  have hslot : ((begin_run i entry now_ms deed s).slot i).when = it.when := by
    have hget : (begin_run i entry now_ms deed s).item[i]? = some (counted now_ms it) := by
      rw [begin_run_item, getElem?_modify_eq, hit]
      rfl
    rw [slot_eq_of_getElem? hget]
    rfl
  rw [mark_attempt, hslot]
  by_cases hboot : it.when = .boot
  · have hpending : Standing tools a x ((begin_run i entry now_ms deed s).write i fun it => { it with attempting := true }) := by
      have hbeside := @begin_run_beside s i entry now_ms deed
      refine h.touch i (fun it => { counted now_ms it with attempting := true })
        { hbeside with } (fun _ => rfl) ?_ hlog hwrote ?_ ?_
      · rw [write_item, begin_run_item, modify_modify]
      · intro it' hit' hname hstands
        obtain rfl : it = it' := some.inj (hit.symm.trans hit')
        rw [write_log, hlog, if_neg (hguard hname)]
        refine ⟨hname, hboot, ?_, ?_⟩
        · simpa [counted] using hstands.enabled
        · simp [afoot, hname]
      · exact fun hne it' hstands => hother it' (hne it hit) hstands
    rw [if_pos hboot, flush_whole hpending.table hpending.disk]
    have hflush := hpending.flush
    rw [flush_whole hpending.table hpending.disk] at hflush
    exact ⟨hflush, fun _ => mem_cons_self⟩
  · rw [if_neg hboot]
    have hname : it.name ≠ x := by
      intro hname
      obtain ⟨it', hit', hstands⟩ := h.item
      have heq := h.table.unique.eq_of_name (mem_of_getElem? hit) hit' (hname.trans hstands.name.symm)
      exact hboot (heq ▸ hstands.when)
    refine ⟨?_, fun hwhen => absurd hwhen hboot⟩
    refine h.touch i (counted now_ms) begin_run_beside (fun _ => rfl) begin_run_item hlog hwrote ?_ ?_
    · intro it' hit' hname'
      obtain rfl : it = it' := some.inj (hit.symm.trans hit')
      exact absurd hname' hname
    · exact fun _ it' hstands => hother it' hname hstands

/-- So does an action, its own included. -/
theorem Standing.act (h : Standing tools a x s) (hit : s.item[i]? = some it)
    (hguard : it.name = x → deed.guard ≠ .refused) (hspares : ∀ e ∈ deed.edits, e.Spares x) :
    Standing tools a x (act tools i entry now_ms deed s).1 := by
  obtain ⟨edits, hsub, heq⟩ := @act_edited tools now_ms s i entry deed
  rw [heq]
  exact (h.launch hit hguard).1.edited fun e he => hspares e (hsub he)

/-- A slot that does not hold the item goes under another name. -/
theorem Standing.slot_ne (h : Standing tools a x s) (hne : ∀ it, s.item[i]? = some it → it.name ≠ x) :
    (s.slot i).name ≠ x := by
  cases hit : s.item[i]? with
  | some it =>
    rw [slot_eq_of_getElem? hit]
    exact hne it hit
  | none =>
    obtain ⟨it, hit', hstands⟩ := h.item
    rw [agenda_t.slot, getD_eq_getElem?_getD, hit]
    rintro rfl
    have hname := (h.table.sound it hit').valid.name
    rw [hstands.name] at hname
    exact absurd hname (by decide)

theorem Standing.clear_attempt {marked : Bool} (h : Standing tools a x s) :
    Standing tools a x (clear_attempt i marked s) := by
  rw [agenda.clear_attempt]
  split
  · refine Standing.flush (h.touch i (fun it => { it with attempting := false }) ⟨rfl, rfl, rfl, rfl⟩ (fun _ => rfl) rfl
      singleton_append.symm (by simp) ?_ ?_)
    · intro it hit hname hstands
      have hslot : (s.slot i).name = x := by rw [slot_eq_of_getElem? hit, hname]
      exact ⟨hname, hstands.when, by simpa using hstands.enabled, by simp [afoot, hslot]⟩
    · intro hne it hstands
      have hslot := h.slot_ne hne
      exact hstands.cons (by simp) (by simp [afoot, hslot])
  · exact h

/-- A boot item that has a result is off until the next boot. -/
theorem retire_boot (hboot : it.when = .boot) : (retire now_ms (enter out it)).enabled = false := by
  have hagain : verdict (enter out it) ≠ .again := by
    have hwhen : (enter out it).when = .boot := hboot
    rw [verdict]
    split
    · decide
    split
    · decide
    rw [hwhen]
    decide
  rw [retire, if_neg hagain]

theorem asked_retire : asked (retire now_ms (enter out it)) = asked it := by
  rw [retire]
  split <;> rfl

theorem attempting_retire : (retire now_ms (enter out it)).attempting = it.attempting := by
  rw [retire]
  split <;> rfl

theorem settled_beside : Beside s (settled i now_ms out s) := by
  rw [settled]
  split <;> exact ⟨rfl, rfl, rfl, rfl⟩

theorem Standing.settled (h : Standing tools a x s) : Standing tools a x (settled i now_ms out s) := by
  have hlog : (agenda.settled i now_ms out s).log =
      ((if verdict (enter out (s.slot i)) = .again then [.due (s.slot i).name now_ms] else []) ++
        [.done (s.slot i).name]) ++ s.log := by
    rw [settled_log, append_assoc]
    rfl
  refine h.touch i _ settled_beside (fun _ => asked_retire) settled_item hlog ?_ ?_ ?_
  · split <;> simp
  · intro it hit hname hstands
    have hslot : (s.slot i).name = x := by rw [slot_eq_of_getElem? hit, hname]
    rw [hlog, hslot]
    refine ⟨(name_of_asked asked_retire).trans hname, ?_, ?_, ?_⟩
    · have hwhen : (asked (retire now_ms (enter out it))).when = (asked it).when := by rw [asked_retire]
      exact hwhen.trans hstands.when
    · rw [retire_boot hstands.when]
      simp
    · rw [attempting_retire, hstands.attempting]
      split <;> rfl
  · intro hne it hstands
    have hslot := h.slot_ne hne
    have hdone : Stands a x (.done (s.slot i).name :: s.log) it := hstands.cons (by simpa using hslot) rfl
    rw [hlog]
    split
    · exact hdone.cons (by simp) rfl
    · exact hdone

/-- So does the booking of a run. -/
theorem Standing.book (h : Standing tools a x s) : Standing tools a x (book i now_ms out s).1 := by
  have hclear := @Standing.clear_attempt tools a x s i out.marked h
  have hidle : Standing tools a x { agenda.clear_attempt i out.marked s with running := false } := { hclear with }
  rw [agenda.book]
  split
  · refine hidle.touch i (unrun out) ⟨rfl, rfl, rfl, rfl⟩ (fun _ => rfl) rfl (nil_append _).symm not_mem_nil ?_ ?_
    · exact fun it _ _ hstands => { hstands with }
    · exact fun _ it hstands => hstands
  · have hsettled := @Standing.settled tools a x _ i now_ms out hidle
    rw [settle]
    split
    · exact hsettled.flush
    · exact hsettled

/-- So does a whole run. -/
theorem Standing.run_item (h : Standing tools a x s) (hit : s.item[i]? = some it)
    (hself : it.name = x → deed.guard ≠ .refused ∧ s.runs < AGENDA_MAX_RUNS_TOTAL)
    (hspares : ∀ e ∈ deed.edits, e.Spares x) : Standing tools a x (run_item tools i entry now_ms deed s).1 := by
  rw [agenda.run_item]
  split
  · exact h
  split
  · exact h
  split
  · rename_i hfull
    have hname : it.name ≠ x := fun hname => UInt32.not_le.mpr (hself hname).2 hfull
    refine h.touch i (fun it => { it with enabled := false }) ⟨rfl, rfl, rfl, rfl⟩ (fun _ => rfl) rfl
      (nil_append _).symm not_mem_nil ?_ ?_
    · intro it' hit' hname'
      obtain rfl : it = it' := some.inj (hit.symm.trans hit')
      exact absurd hname' hname
    · exact fun _ it hstands => hstands
  · exact (h.act hit (fun hname => (hself hname).1) hspares).book

end Runs

section Record

/-- Nothing was started, and no result was entered. -/
structure Hush (log log' : List mark_t) : Prop where
  performed : performed log' = performed log
  done : ∀ n, .done n ∈ log' → .done n ∈ log

variable {log log' log'' : List mark_t}

theorem hush_refl : Hush log log := ⟨rfl, fun _ h => h⟩

theorem Hush.trans (h : Hush log log') (h' : Hush log' log'') : Hush log log'' :=
  ⟨h'.performed.trans h.performed, fun n hn => h.done n (h'.done n hn)⟩

theorem Wrote.hush (h : Wrote log log') : Hush log log' := by
  refine ⟨h.alike.performed, fun n hn => ?_⟩
  obtain ⟨rest, hrest, rfl⟩ := h
  refine (mem_append.mp hn).resolve_left fun hmem => ?_
  obtain hwrote | ⟨name, hcleared⟩ := hrest _ hmem
  · cases hwrote
  · cases hcleared

theorem Hush.flush (h : Hush log s.log) : Hush log (agenda_flush s).1.log := h.trans wrote_refl.flush.hush

theorem hush_edited {edits} : Hush s.log (s.edited tools edits).log := by
  refine edited_rule hush_refl fun t t' e _ hedit hhush => hhush.trans ?_
  cases hedit with
  | refused | enabled => exact hush_refl
  | saved => exact Hush.flush ⟨rfl, fun n hn => by simpa using hn⟩
  | removed | switched => exact Hush.flush hush_refl

variable {now_ms : UInt64} {deed : deed_t} {out : outcome_t}

theorem hush_act (hit : s.item[i]? = some it) :
    Hush ((if deed.guard = .refused then [] else [.run ⟨it, entry, now_ms⟩]) ++ s.log)
      (act tools i entry now_ms deed s).1.log := by
  obtain ⟨edits, -, heq⟩ := @act_edited tools now_ms s i entry deed
  rw [← begin_run_log hit, heq]
  exact wrote_mark_attempt.hush.trans hush_edited

/-- The books of a run name the item in the slot, and start nothing. -/
theorem book_record : performed (book i now_ms out s).1.log = performed s.log ∧
    ∀ n, .done n ∈ (book i now_ms out s).1.log → .done n ∈ s.log ∨ n = (s.slot i).name := by
  have hclear := (@Wrote.clear_attempt s.log s i out.marked wrote_refl).hush
  let t : agenda_t := { clear_attempt i out.marked s with running := false }
  have hslot : (t.slot i).name = (s.slot i).name := by
    have hitem : t.item = s.item.modify i fun it => if out.marked then { it with attempting := false } else it :=
      clear_attempt_item
    rw [agenda_t.slot, agenda_t.slot, hitem, getD_eq_getElem?_getD, getD_eq_getElem?_getD,
      getElem?_modify]
    cases s.item[i]? with
    | none => simp
    | some it =>
      simp only [if_true, Option.map_eq_map, Option.map_some, Option.getD_some]
      split <;> rfl
  have hsettled : performed (settled i now_ms out t).log = performed s.log ∧
      ∀ n, .done n ∈ (settled i now_ms out t).log → .done n ∈ s.log ∨ n = (s.slot i).name := by
    rw [settled_log, hslot]
    refine ⟨?_, fun n hn => ?_⟩
    · rw [← hclear.performed]
      split <;> rfl
    · have hn : n = (s.slot i).name ∨ .done n ∈ t.log := by
        split at hn <;> simpa using hn
      exact hn.elim Or.inr fun hn => Or.inl (hclear.done n hn)
  rw [book]
  split
  · exact ⟨hclear.performed, fun n hn => Or.inl (hclear.done n hn)⟩
  · rw [settle]
    split
    · have hflush : Hush (settled i now_ms out t).log (agenda_flush (settled i now_ms out t)).1.log :=
        wrote_refl.flush.hush
      exact ⟨hflush.performed.trans hsettled.1, fun n hn => hsettled.2 n (hflush.done n hn)⟩
    · exact hsettled

end Record

section Places

/-- The slot of the item of a name. -/
def At (x : text_t) (p : Nat) (s : agenda_t) : Prop := ∃ it, s.item[p]? = some it ∧ it.name = x

theorem At.modify {f} (h : At x p s) (hitem : s'.item = s.item.modify i f) (hf : ∀ it, (f it).name = it.name) :
    At x p s' := by
  obtain ⟨it, hit, hname⟩ := h
  by_cases hi : i = p
  · subst hi
    exact ⟨f it, by rw [hitem, getElem?_modify_eq, hit]; rfl, (hf it).trans hname⟩
  · exact ⟨it, by rw [hitem, getElem?_modify_ne f _ hi, hit], hname⟩

/-- Edits that spare the item can only move it forward. -/
theorem At.edited {edits} (h : At x p s) (hspares : ∀ e ∈ edits, e.Spares x) :
    ∃ p' ≤ p, At x p' (s.edited tools edits) := by
  refine edited_rule ⟨p, Nat.le_refl p, h⟩ fun t t' e he hedit ⟨q, hq, it, hit, hname⟩ => ?_
  suffices hstep : ∃ p' ≤ q, At x p' t' from hstep.imp fun p' hp' => ⟨hp'.1.trans hq, hp'.2⟩
  have hspared := hspares e he
  cases hedit with
  | refused | enabled => exact ⟨q, Nat.le_refl q, it, hit, hname⟩
  | saved =>
    have hput := getElem?_put_of_ne hit fun heq => hspared (heq.symm.trans hname)
    exact ⟨q, Nat.le_refl q, it, (congrArg (·[q]?) flush_item).trans hput, hname⟩
  | removed name =>
    obtain ⟨p', hp', hget⟩ := getElem?_remove_of_ne hit fun heq => hspared (heq.symm.trans hname)
    exact ⟨p', hp', it, (congrArg (·[p']?) flush_item).trans hget, hname⟩
  | switched on => exact ⟨q, Nat.le_refl q, At.modify ⟨it, hit, hname⟩ flush_item fun _ => rfl⟩

variable {now_ms : UInt64} {deed : deed_t}

theorem At.act (h : At x p s) (hspares : ∀ e ∈ deed.edits, e.Spares x) :
    ∃ p' ≤ p, At x p' (act tools i entry now_ms deed s).1 := by
  have hbegin : At x p (begin_run i entry now_ms deed s) := h.modify begin_run_item fun _ => rfl
  have hmark : At x p (mark_attempt i (begin_run i entry now_ms deed s)).1 := by
    obtain ⟨g, hg, hcase⟩ := @mark_attempt_item (begin_run i entry now_ms deed s) i
    refine hbegin.modify hg fun it => ?_
    obtain rfl | rfl := hcase
    all_goals rfl
  obtain ⟨edits, hsub, heq⟩ := @act_edited tools now_ms s i entry deed
  rw [heq]
  exact hmark.edited fun e he => hspares e (hsub he)

theorem asked_account {out} : asked (account now_ms out it) = asked it := by
  rw [account]
  split <;> split <;> first | rfl | exact asked_retire

theorem At.run_item (h : At x p s) (hspares : ∀ e ∈ deed.edits, e.Spares x) :
    ∃ p' ≤ p, At x p' (run_item tools i entry now_ms deed s).1 := by
  by_cases hstart : s.on = false ∨ s.running ∨ AGENDA_MAX_RUNS_TOTAL ≤ s.runs
  · refine ⟨p, Nat.le_refl p, ?_⟩
    obtain heq | heq := @run_item_refused tools i entry now_ms deed s hstart <;> rw [heq]
    · exact h
    · exact h.modify rfl fun _ => rfl
  · obtain ⟨p', hp', hat⟩ := @At.act tools x s i p entry now_ms deed h hspares
    rw [run_item_started hstart]
    exact ⟨p', hp', hat.modify book_item fun _ => name_of_asked asked_account⟩

end Places

section Turns

variable {now_ms : UInt64} {deed : deed_t}

theorem At.eq {q : Nat} (h : Standing tools a x s) (hp : At x p s) (hq : At x q s) : p = q := by
  obtain ⟨a, ha, haname⟩ := hp
  obtain ⟨b, hb, hbname⟩ := hq
  exact h.table.unique.index_eq ha hb (haname.trans hbname.symm)

theorem Standing.at (h : Standing tools a x s) : ∃ p, At x p s := by
  obtain ⟨it, hit, hstands⟩ := h.item
  obtain ⟨p, hp⟩ := mem_iff_getElem?.mp hit
  exact ⟨p, it, hp, hstands.name⟩

theorem Standing.stands (h : Standing tools a x s) (hit : s.item[i]? = some it) (hname : it.name = x) :
    Stands a x s.log it := by
  obtain ⟨it', hit', hstands⟩ := h.item
  rwa [h.table.unique.eq_of_name (mem_of_getElem? hit) hit' (hname.trans hstands.name.symm)]

/-- The counters of a run: it leaves the runner idle, and takes at most one of
    the boot's actions. -/
theorem run_item_counters (hidle : s.running = false) : (run_item tools i entry now_ms deed s).1.running = false ∧
    (run_item tools i entry now_ms deed s).1.runs.toNat ≤ s.runs.toNat + 1 := by
  by_cases hstart : s.on = false ∨ s.running ∨ AGENDA_MAX_RUNS_TOTAL ≤ s.runs
  · obtain heq | heq := @run_item_refused tools i entry now_ms deed s hstart <;> rw [heq]
    all_goals exact ⟨hidle, Nat.le_succ _⟩
  have hroom : s.runs < AGENDA_MAX_RUNS_TOTAL := by
    rw [not_or, not_or] at hstart
    exact UInt32.not_le.mp hstart.2.2
  have hact : (act tools i entry now_ms deed s).1.runs = s.runs + 1 := by
    have hbegin : (begin_run i entry now_ms deed s).runs = s.runs + 1 := by
      rw [begin_run]
      split <;> rfl
    obtain ⟨edits, -, heq⟩ := @act_edited tools now_ms s i entry deed
    rw [heq, edited_runs, mark_attempt_runs, hbegin]
  rw [run_item_started hstart, book]
  split
  · refine ⟨by rw [write_running], ?_⟩
    simp only [clear_attempt_runs, hact]
    rw [if_pos (succ_runs_ne_zero hroom), UInt32.add_sub_cancel]
    exact Nat.le_succ _
  · have hsettle (t : agenda_t) (out : outcome_t) :
        (settle i now_ms out t).runs = t.runs ∧ (settle i now_ms out t).running = t.running := by
      rw [settle]
      split
      · exact ⟨flush_runs.trans settled_counters.1, flush_running.trans settled_counters.2⟩
      · exact settled_counters
    refine ⟨(hsettle _ _).2, ?_⟩
    rw [(hsettle _ _).1]
    simp only [clear_attempt_runs, hact]
    rw [toNat_succ_runs hroom]

theorem runs_of_eq {log log'} (h : performed log' = performed log) : runs_of x log' = runs_of x log := by
  rw [runs_of, runs_of, h]

theorem runs_of_append_ne_nil {log ms} (h : runs_of x log ≠ []) : runs_of x (ms ++ log) ≠ [] := by
  induction ms with
  | nil => exact h
  | cons m ms ih =>
    cases m with
    | run r =>
      rw [cons_append, runs_of_cons]
      split
      · exact cons_ne_nil _ _
      · exact ih
    | saved n | cleared n | done n | due n now_ms | wrote => exact ih

/-- The run of another item starts nothing else, and enters a result on the item
    only if that stands in the slot by then. -/
theorem run_item_other (h : Standing tools a x s) (hit : s.item[i]? = some it) (hname : it.name ≠ x)
    (hspares : ∀ e ∈ deed.edits, e.Spares x) :
    runs_of x (run_item tools i entry now_ms deed s).1.log = runs_of x s.log ∧
      (.done x ∈ (run_item tools i entry now_ms deed s).1.log →
        .done x ∈ s.log ∨ At x i (run_item tools i entry now_ms deed s).1) := by
  by_cases hstart : s.on = false ∨ s.running ∨ AGENDA_MAX_RUNS_TOTAL ≤ s.runs
  · obtain heq | heq := @run_item_refused tools i entry now_ms deed s hstart <;> rw [heq]
    all_goals exact ⟨rfl, Or.inl⟩
  have hact := @hush_act tools s i it entry now_ms deed hit
  have hstanding := @Standing.act tools a x s i it entry now_ms deed h hit (fun heq => absurd heq hname) hspares
  rw [run_item_started hstart]
  obtain ⟨hperformed, hdone⟩ := @book_record (act tools i entry now_ms deed s).1 i now_ms (act tools i entry now_ms deed s).2
  refine ⟨?_, fun hx => ?_⟩
  · rw [runs_of_eq (hperformed.trans hact.performed)]
    split
    · rfl
    · exact runs_of_cons.trans (if_neg hname)
  · obtain hx | hx := hdone x hx
    · refine Or.inl ?_
      have hx := hact.done x hx
      split at hx <;> simpa using hx
    · right
      have hat : At x i (act tools i entry now_ms deed s).1 := by
        by_contra hat
        exact hstanding.slot_ne (fun it' hit' hname' => hat ⟨it', hit', hname'⟩) hx.symm
      exact hat.modify book_item fun _ => name_of_asked asked_account

/-- The run of the item itself is on the record once, and its marker has been
    written. -/
theorem run_item_self (h : Standing tools a x s) (hit : s.item[i]? = some it) (hname : it.name = x)
    (hidle : s.running = false) (hroom : s.runs < AGENDA_MAX_RUNS_TOTAL) (hguard : deed.guard ≠ .refused) :
    runs_of x (run_item tools i entry now_ms deed s).1.log = ⟨it, entry, now_ms⟩ :: runs_of x s.log ∧
      .wrote ∈ (run_item tools i entry now_ms deed s).1.log := by
  have hstart : ¬ (s.on = false ∨ s.running ∨ AGENDA_MAX_RUNS_TOTAL ≤ s.runs) := by
    simpa [h.on, hidle] using hroom
  have hact := @hush_act tools s i it entry now_ms deed hit
  rw [if_neg hguard] at hact
  obtain ⟨edits, -, heq, hout, -⟩ := @act_performed tools now_ms s i entry deed hguard
  rw [run_item_started hstart]
  refine ⟨?_, ?_⟩
  · rw [runs_of_eq (book_record.1.trans hact.performed)]
    exact runs_of_cons.trans (if_pos hname)
  · have hlaunch := (@Standing.launch tools a x s i it entry now_ms deed h hit fun _ => hguard).2
      (h.stands hit hname).when
    have hedited : (mark_attempt i (begin_run i entry now_ms deed s)).1.log <:+ (act tools i entry now_ms deed s).1.log := by
      rw [heq]
      exact Moves.suffix (@moves_edited tools now_ms _ edits)
    have hbook := Moves.suffix (@moves_book _ tools now_ms (act tools i entry now_ms deed s).1 i (hout ▸ hguard))
    exact hbook.subset (hedited.subset hlaunch)

/-- One turn of `agenda_run_boot`. -/
def turn (tools : List text_t) (now_ms : UInt64) (deeds : text_t → deed_t) (i : Nat) (s : agenda_t) : agenda_t :=
  if (s.slot i).enabled ∧ (s.slot i).when = .boot then (run_item tools i .boot now_ms (deeds (s.slot i).name) s).1 else s

/-- The turns of `agenda_run_boot`, each with its slot and what it leaves. -/
def turns (tools : List text_t) (now_ms : UInt64) (deeds : text_t → deed_t) : Nat → Nat → agenda_t → List (Nat × agenda_t)
  | 0, _, _ => []
  | left + 1, i, s =>
    if s.item.length ≤ i then []
    else (i, turn tools now_ms deeds i s) :: turns tools now_ms deeds left (i + 1) (turn tools now_ms deeds i s)

/-- The item has been started, or its turn is still to come. -/
def Ahead (x : text_t) (t : Nat × agenda_t) : Prop := runs_of x t.2.log ≠ [] ∨ ∃ p, t.1 < p ∧ At x p t.2

def deed_t.Spares (x : text_t) (deed : deed_t) : Prop := ∀ e ∈ deed.edits, e.Spares x

variable {deeds : text_t → deed_t} {left n : Nat}

theorem run_boot_from_succ (hlt : i < s.item.length) : ∃ n', (run_boot_from tools now_ms deeds (left + 1) i s n).1 =
    (run_boot_from tools now_ms deeds left (i + 1) (turn tools now_ms deeds i s) n').1 := by
  rw [run_boot_from, if_neg (Nat.not_le.mpr hlt), turn]
  dsimp only
  split
  · exact ⟨n + 1, rfl⟩
  · exact ⟨n, rfl⟩

theorem turn_suffix (hlt : i < s.item.length) : s.log <:+ (turn tools now_ms deeds i s).log := by
  rw [turn]
  split
  · exact Moves.suffix (moves_run_item (getElem?_eq_getElem hlt) fun htick => by cases htick)
  · exact suffix_refl _

/-- The turn of another item keeps it standing. -/
theorem turn_other (h : Standing tools a x s) (hit : s.item[i]? = some it) (hname : it.name ≠ x)
    (hspares : ∀ n, (deeds n).Spares x) :
    Standing tools a x (turn tools now_ms deeds i s) ∧
      runs_of x (turn tools now_ms deeds i s).log = runs_of x s.log ∧
      (∀ p, At x p s → ∃ p' ≤ p, At x p' (turn tools now_ms deeds i s)) ∧
      (.done x ∈ (turn tools now_ms deeds i s).log → .done x ∈ s.log ∨ At x i (turn tools now_ms deeds i s)) := by
  rw [turn, slot_eq_of_getElem? hit]
  split
  · obtain ⟨hruns, hdone⟩ := @run_item_other tools a x s i it .boot now_ms (deeds it.name) h hit hname (hspares it.name)
    refine ⟨h.run_item hit (fun heq => absurd heq hname) (hspares it.name), hruns, fun p hp => ?_, hdone⟩
    exact hp.run_item (hspares it.name)
  · exact ⟨h, rfl, fun p hp => ⟨p, Nat.le_refl p, hp⟩, Or.inl⟩

theorem turn_counters (hidle : s.running = false) : (turn tools now_ms deeds i s).running = false ∧
    (turn tools now_ms deeds i s).runs.toNat ≤ s.runs.toNat + 1 := by
  rw [turn]
  split
  · exact run_item_counters hidle
  · exact ⟨hidle, Nat.le_succ _⟩

/-- Behind the item's slot, the bring-up does not start it any more. -/
theorem passed (h : Standing tools a x s) (hat : At x p s) (hp : p < i) (hspares : ∀ n, (deeds n).Spares x) :
    Standing tools a x (run_boot_from tools now_ms deeds left i s n).1 ∧
      runs_of x (run_boot_from tools now_ms deeds left i s n).1.log = runs_of x s.log := by
  induction left generalizing i s n p with
  | zero => exact ⟨h, rfl⟩
  | succ left ih =>
    by_cases hlt : i < s.item.length
    · obtain ⟨n', heq⟩ := @run_boot_from_succ tools s i now_ms deeds left n hlt
      have hit : s.item[i]? = some s.item[i] := getElem?_eq_getElem hlt
      have hname : s.item[i].name ≠ x := fun hname => hp.ne (hat.eq h ⟨_, hit, hname⟩)
      obtain ⟨hturn, hruns, hplace, -⟩ := @turn_other tools a x s i _ now_ms deeds h hit hname hspares
      obtain ⟨p', hp', hat'⟩ := hplace p hat
      obtain ⟨hrest, hruns'⟩ := @ih (turn tools now_ms deeds i s) (i + 1) p' n' hturn hat' (by omega)
      rw [heq]
      exact ⟨hrest, hruns'.trans hruns⟩
    · rw [run_boot_from, if_pos (Nat.not_lt.mp hlt)]
      exact ⟨h, rfl⟩

/-- A start stays on the record. -/
theorem ahead_of_started (h : runs_of x s.log ≠ []) : ∀ t ∈ turns tools now_ms deeds left i s, Ahead x t := by
  induction left generalizing i s with
  | zero => exact forall_mem_nil _
  | succ left ih =>
    rw [turns]
    split
    · exact forall_mem_nil _
    · rename_i hlt
      have hgrown : runs_of x (turn tools now_ms deeds i s).log ≠ [] := by
        obtain ⟨ms, hms⟩ := @turn_suffix tools s i now_ms deeds (Nat.not_le.mp hlt)
        rw [← hms]
        exact runs_of_append_ne_nil h
      exact forall_mem_cons.mpr ⟨Or.inl hgrown, ih hgrown⟩

/-- The bring-up of an item whose turn is to come: if it is enabled it runs once,
    unless an action of an earlier item moves it out of its turn. -/
theorem waiting (h : Standing tools a x s) (hidle : s.running = false) (hruns : s.runs.toNat ≤ i)
    (hturns : AGENDA_MAX_ITEMS ≤ i + left) (hat : At x p s) (hp : i ≤ p) (hnone : runs_of x s.log = [])
    (hdone : .done x ∉ s.log) (hguard : (deeds x).guard ≠ .refused) (hspares : ∀ n, (deeds n).Spares x) :
    Standing tools a x (run_boot_from tools now_ms deeds left i s n).1 ∧
      ((runs_of x (run_boot_from tools now_ms deeds left i s n).1.log).length = 1 ↔
        a = true ∧ ∀ t ∈ turns tools now_ms deeds left i s, Ahead x t) ∧
      ((runs_of x (run_boot_from tools now_ms deeds left i s n).1.log).length = 1 →
        .wrote ∈ (run_boot_from tools now_ms deeds left i s n).1.log) := by
  have hlast : p < s.item.length := by
    obtain ⟨it, hit, -⟩ := hat
    exact (List.getElem?_eq_some_iff.mp hit).1
  have hfew : p < 8 := hlast.trans_le h.table.room
  induction left generalizing i s n p with
  | zero =>
    have hturns : 8 ≤ i := hturns
    omega
  | succ left ih =>
    have hlt : i < s.item.length := hp.trans_lt hlast
    obtain ⟨n', heq⟩ := @run_boot_from_succ tools s i now_ms deeds left n hlt
    have hit : s.item[i]? = some s.item[i] := getElem?_eq_getElem hlt
    have hcounters := @turn_counters tools s i now_ms deeds hidle
    rw [heq, turns, if_neg (Nat.not_le.mpr hlt), forall_mem_cons]
    obtain rfl | hp := hp.eq_or_lt
    · -- its own turn
      have hname : s.item[i].name = x := by
        obtain ⟨it, hit', hname⟩ := hat
        rwa [some.inj (hit.symm.trans hit')]
      have hstands := h.stands hit hname
      by_cases ha : a = true
      · have hruns : s.runs.toNat < 256 := by omega
        have hroom : s.runs < AGENDA_MAX_RUNS_TOTAL := UInt32.lt_iff_toNat_lt.mpr hruns
        have hturn : turn tools now_ms deeds i s = (run_item tools i .boot now_ms (deeds x) s).1 := by
          rw [turn, slot_eq_of_getElem? hit, if_pos ⟨hstands.enabled.mpr ⟨ha, hdone⟩, hstands.when⟩, hname]
        have hstanding : Standing tools a x (turn tools now_ms deeds i s) :=
          hturn ▸ h.run_item hit (fun _ => ⟨hguard, hroom⟩) (hspares x)
        obtain ⟨hself, hwrote⟩ := @run_item_self tools a x s i _ .boot now_ms (deeds x) h hit hname hidle hroom hguard
        rw [← hturn] at hself hwrote
        have hstarted : runs_of x (turn tools now_ms deeds i s).log ≠ [] := by
          rw [hself]
          exact cons_ne_nil _ _
        obtain ⟨p', hp', hat'⟩ : ∃ p' ≤ i, At x p' (turn tools now_ms deeds i s) := hturn ▸ hat.run_item (hspares x)
        obtain ⟨hrest, hruns'⟩ :=
          @passed tools a x _ (i + 1) p' now_ms deeds left n' hstanding hat' (Nat.lt_succ_of_le hp') hspares
        refine ⟨hrest, iff_of_true ?_ ⟨ha, Or.inl hstarted, ahead_of_started hstarted⟩, fun _ => ?_⟩
        · rw [hruns', hself, hnone]
          rfl
        · exact (Moves.suffix moves_run_boot_from).subset hwrote
      · have hturn : turn tools now_ms deeds i s = s := by
          rw [turn, slot_eq_of_getElem? hit, if_neg fun hrun => ha (hstands.enabled.mp hrun.1).1]
        rw [hturn]
        obtain ⟨hrest, hruns'⟩ := @passed tools a x s (i + 1) i now_ms deeds left n' h hat (Nat.lt_succ_self i) hspares
        have hzero : (runs_of x (run_boot_from tools now_ms deeds left (i + 1) s n').1.log).length ≠ 1 := by
          rw [hruns', hnone]
          decide
        exact ⟨hrest, iff_of_false hzero fun hboth => ha hboth.1, fun hone => absurd hone hzero⟩
    · -- the turn of another item, which leaves the item behind its slot or not
      have hname : s.item[i].name ≠ x := fun hname => hp.ne (At.eq h ⟨_, hit, hname⟩ hat)
      obtain ⟨hturn, hruns', hplace, hdone'⟩ := @turn_other tools a x s i _ now_ms deeds h hit hname hspares
      obtain ⟨p', -, hat'⟩ := hplace p hat
      by_cases hp' : i < p'
      · have hdone'' : .done x ∉ (turn tools now_ms deeds i s).log := fun hx =>
          (hdone' hx).elim hdone fun hati => hp'.ne (hati.eq hturn hat')
        have hlast' : p' < (turn tools now_ms deeds i s).item.length := by
          obtain ⟨it, hit, -⟩ := hat'
          exact (List.getElem?_eq_some_iff.mp hit).1
        obtain ⟨hrest, hiff, hwrote⟩ := @ih (turn tools now_ms deeds i s) (i + 1) p' n' hturn hcounters.1
          (by omega) (by omega) hat' hp' (hruns'.trans hnone) hdone'' hlast' (hlast'.trans_le hturn.table.room)
        have hahead : Ahead x (i, turn tools now_ms deeds i s) := Or.inr ⟨p', hp', hat'⟩
        exact ⟨hrest, hiff.trans (and_congr_right fun _ => (and_iff_right hahead).symm), hwrote⟩
      · obtain ⟨hrest, hruns''⟩ := @passed tools a x _ (i + 1) p' now_ms deeds left n' hturn hat' (by omega) hspares
        have hzero : (runs_of x (run_boot_from tools now_ms deeds left (i + 1) (turn tools now_ms deeds i s) n').1.log).length ≠ 1 := by
          rw [hruns'', hruns', hnone]
          decide
        refine ⟨hrest, iff_of_false hzero ?_, fun hone => absurd hone hzero⟩
        rintro ⟨-, hstarted | ⟨q, hq, hatq⟩, -⟩
        · exact hstarted (hruns'.trans hnone)
        · exact hp' (hat'.eq hturn hatq ▸ hq)

end Turns

section Boots

/-- One boot: when it is brought up, what the boot items will do, and what
    happens afterwards until the machine goes off. -/
structure boot_t where
  now_ms : UInt64
  deeds : text_t → deed_t
  events : List event_t

def bring_up (tools : List text_t) (b : boot_t) (s : agenda_t) : agenda_t :=
  (agenda_bringup tools b.now_ms b.deeds (power_on s)).1

def live (tools : List text_t) (b : boot_t) (s : agenda_t) : agenda_t :=
  b.events.foldl (agenda_t.step tools) (bring_up tools b s)

/-- Each boot of a series, with what it starts from and what comes after it. -/
def EachBoot (tools : List text_t) (P : agenda_t → boot_t → List boot_t → Prop) : agenda_t → List boot_t → Prop
  | _, [] => True
  | s, b :: boots => P s b boots ∧ EachBoot tools P (live tools b s) boots

/-- The next boot loads the boot item, enabled or not. -/
def Loads (tools : List text_t) (a : Bool) (x : text_t) (s : agenda_t) : Prop :=
  ∃ it ∈ (agenda_load tools (power_on s)).1.item, it.name = x ∧ it.when = .boot ∧ it.enabled = a

/-- The event is about other items. -/
def event_t.Spares (x : text_t) : event_t → Prop
  | .tick _ deed => deed.Spares x
  | .run_now name _ deed => name ≠ x ∧ deed.Spares x
  | .run_boot _ _ => False
  | .edit e => e.Spares x

/-- The operator leaves the item alone, and its action gets its guard. -/
structure boot_t.Spares (x : text_t) (b : boot_t) : Prop where
  guard : (b.deeds x).guard ≠ .refused
  deeds : ∀ n, (b.deeds n).Spares x
  events : ∀ e ∈ b.events, e.Spares x

/-- The actions of the earlier items of a bring-up leave the item's turn to come. -/
def Unmoved (tools : List text_t) (x : text_t) (b : boot_t) (s : agenda_t) : Prop :=
  ∀ t ∈ turns tools b.now_ms b.deeds AGENDA_MAX_ITEMS 0 (agenda_load tools (power_on s)).1, Ahead x t

/-- When the store was last written, the marker of the item's attempt was cleared
    and no result had been entered for it. -/
def Unspent (x : text_t) (log : List mark_t) : Prop := .done x ∉ written log ∧ afoot x (written log) = false

variable {b : boot_t}

/-- A boot loads it from the store. -/
theorem standing_load (hdisk : s.disk = []) (hread : s.readable = true) (hloads : Loads tools a x s) :
    Standing tools a x (agenda_load tools (power_on s)).1 ∧ (agenda_load tools (power_on s)).1.running = false ∧
      (agenda_load tools (power_on s)).1.runs = 0 ∧ runs_of x (agenda_load tools (power_on s)).1.log = [] ∧
      .done x ∉ (agenda_load tools (power_on s)).1.log := by
  obtain ⟨table, htable, hunique, hroom, hload⟩ := agenda_load_eq tools (power_on s)
  obtain ⟨it, hit, hname, hwhen, henabled⟩ := hloads
  have hit : it ∈ table := by
    obtain heq | heq := hload
    · rwa [heq] at hit
    · rwa [heq, flush_item] at hit
  have hloaded : Standing tools a x { power_on s with item := table } := by
    refine ⟨⟨fun it hit => (htable it hit).1, hunique, hroom⟩, hdisk, hread, rfl, ⟨it, hit, hname, hwhen, ?_, ?_⟩, ?_⟩
    · rw [henabled]
      exact (and_iff_left not_mem_nil).symm
    · exact (htable it hit).2.attempting
    · exact fun hwrote => absurd hwrote not_mem_nil
  obtain heq | heq := hload
  · rw [heq]
    exact ⟨hloaded, rfl, rfl, rfl, not_mem_nil⟩
  · rw [heq]
    refine ⟨hloaded.flush, ?_⟩
    rw [flush_whole hloaded.table hloaded.disk]
    exact ⟨rfl, rfl, rfl, by simp [power_on]⟩

theorem bring_up_spec (hdisk : s.disk = []) (hread : s.readable = true) (hloads : Loads tools a x s) (hb : b.Spares x) :
    Standing tools a x (bring_up tools b s) ∧
      ((runs_of x (bring_up tools b s).log).length = 1 ↔ a = true ∧ Unmoved tools x b s) ∧
      ((runs_of x (bring_up tools b s).log).length = 1 → .wrote ∈ (bring_up tools b s).log) := by
  obtain ⟨hstanding, hidle, hruns, hnone, hdone⟩ := standing_load hdisk hread hloads
  obtain ⟨p, hat⟩ := hstanding.at
  rw [bring_up, agenda_bringup, agenda_run_boot, if_neg (by rw [hstanding.on]; decide)]
  exact waiting hstanding hidle (by rw [hruns]; decide) le_rfl hat (Nat.zero_le p) hnone hdone hb.guard hb.deeds

theorem Standing.step {e} (h : Standing tools a x s) (he : e.Spares x) : Standing tools a x (s.step tools e) := by
  refine step_rule h (fun hcalled hit h => ?_) fun {t e'} heq h =>
    @Standing.edited tools a x t [e'] h (forall_mem_singleton.mpr (by rwa [heq] at he))
  cases hcalled with
  | tick hdue =>
    refine h.run_item hit (fun hname => ?_) he
    -- a tick never picks a boot item
    have hboot := (h.stands hit hname).when
    simp [due, hboot] at hdue
  | now => exact h.run_item hit (fun hx => absurd hx he.1) he.2
  | boot => exact he.elim

/-- It stands after any events that spare it. -/
theorem Standing.steps {events : List event_t} (h : Standing tools a x s) (hevents : ∀ e ∈ events, e.Spares x) :
    Standing tools a x (events.foldl (agenda_t.step tools) s) ∧ s.log <:+ (events.foldl (agenda_t.step tools) s).log := by
  let P (t : agenda_t) : Prop := Standing tools a x t ∧ s.log <:+ t.log
  have hstart : P s := ⟨h, suffix_refl _⟩
  exact foldlRecOn events _ hstart fun t ht e he => ⟨ht.1.step (hevents e he), ht.2.trans (moves_step e).suffix⟩

/-- The next boot finds the item as the last write showed it. -/
theorem Standing.loads (h : Standing tools true x s) (hwrote : .wrote ∈ s.log) :
    ∃ a, Loads tools a x s ∧ (a = true ↔ Unspent x s.log) := by
  obtain ⟨items, hstore, htable, it, hit, hstands⟩ := h.stored hwrote
  have hload : (agenda_load tools (power_on s)).1.item = items.map reload := by
    rw [@agenda_load_render tools (power_on s) items hstore h.readable htable.sound htable.unique htable.room]
    split
    · exact flush_item
    · rfl
  refine ⟨it.enabled && !it.attempting, ⟨reload it, ?_, hstands.name, hstands.when, rfl⟩, ?_⟩
  · rw [hload]
    exact mem_map_of_mem hit
  · rw [Unspent, ← hstands.attempting, Bool.and_eq_true, hstands.enabled, Bool.not_eq_true', and_iff_right rfl]

/-- A boot item that the operator leaves alone runs exactly once in the bring-up
    of every boot exactly when no earlier item's action moves it out of its turn,
    and in every boot but the last the store is not written any more once the
    item's own result has been entered. -/
theorem runs_at_every_boot_iff (tools : List text_t) (x : text_t) (s : agenda_t) (boots : List boot_t)
    (hdisk : s.disk = []) (hread : s.readable = true) (hloads : Loads tools true x s)
    (hboots : ∀ b ∈ boots, b.Spares x) :
    EachBoot tools (fun s b _ => (runs_of x (bring_up tools b s).log).length = 1) s boots ↔
      EachBoot tools (fun s b rest => Unmoved tools x b s ∧ (rest ≠ [] → Unspent x (live tools b s).log)) s boots := by
  induction boots generalizing s with
  | nil => exact Iff.rfl
  | cons b boots ih =>
    obtain ⟨hb, hrest⟩ := forall_mem_cons.mp hboots
    obtain ⟨hstanding, honce, hwrote⟩ := bring_up_spec hdisk hread hloads hb
    obtain ⟨hlive, hsuffix⟩ := hstanding.steps hb.events
    rw [and_iff_right rfl] at honce
    rw [EachBoot, EachBoot, ← honce, and_assoc]
    refine and_congr_right fun hone => ?_
    obtain ⟨a, hnext, ha⟩ := hlive.loads (hsuffix.subset (hwrote hone))
    cases boots with
    | nil => exact iff_of_true trivial ⟨fun hne => absurd rfl hne, trivial⟩
    | cons b' boots =>
      by_cases hunspent : Unspent x (live tools b s).log
      · rw [ih (live tools b s) hlive.disk hlive.readable (ha.mpr hunspent ▸ hnext) hrest]
        exact (and_iff_right fun _ => hunspent).symm
      · refine iff_of_false (fun hruns => hunspent (ha.mp ?_)) fun h => hunspent (h.1 (cons_ne_nil _ _))
        exact ((bring_up_spec hlive.disk hlive.readable hnext (hrest b' mem_cons_self)).2.1.mp hruns.1).1

def boot_item (name : text_t) : agenda_item_t :=
  { zeroed with
    name := name, when := .boot, act := .say, arg := [0x68, 0x69], enabled := true
    period_ms := AGENDA_MIN_PERIOD_MS, max_runs := AGENDA_MAX_RUNS }

/-- A disk with an agenda on it. -/
def on_disk (items : List agenda_item_t) : agenda_t := { no_store with store := some (render items) }

/-- A boot in which every action succeeds and nothing else happens. -/
def quiet_boot : boot_t := ⟨5, fun _ => plain 0, []⟩

theorem quiet_boot_spares {x} : quiet_boot.Spares x :=
  ⟨guard_t.noConfusion, fun _ => forall_mem_nil _, forall_mem_nil _⟩

/-- Of two boot items the second runs at every boot, at the first one behind the
    other. -/
theorem second_of_two_runs : EachBoot [] (fun s b _ => (runs_of [0x61] (bring_up [] b s).log).length = 1)
      (on_disk [boot_item [0x62], boot_item [0x61]]) [quiet_boot, quiet_boot] ∧
    (runs_of [0x62] (bring_up [] quiet_boot (on_disk [boot_item [0x62], boot_item [0x61]])).log).length = 1 ∧
    Unmoved [] [0x61] quiet_boot (on_disk [boot_item [0x62], boot_item [0x61]]) ∧
    Unspent [0x61] (live [] quiet_boot (on_disk [boot_item [0x62], boot_item [0x61]])).log := by
  have hiff := runs_at_every_boot_iff [] [0x61] (on_disk [boot_item [0x62], boot_item [0x61]])
    [quiet_boot, quiet_boot] rfl rfl ⟨boot_item [0x61], by decide +kernel, rfl, rfl, rfl⟩ (by simp [quiet_boot_spares])
  have hruns : EachBoot [] (fun s b _ => (runs_of [0x61] (bring_up [] b s).log).length = 1)
      (on_disk [boot_item [0x62], boot_item [0x61]]) [quiet_boot, quiet_boot] := by
    refine ⟨?_, ?_, trivial⟩
    all_goals decide +kernel
  have hcond := hiff.mp hruns
  exact ⟨hruns, by decide +kernel, hcond.1.1, hcond.1.2 (cons_ne_nil _ _)⟩

/-- Of two boot items the first runs once and never again: the marker of the
    second is written when the first is off in memory, and the next boot loads it
    disabled. -/
theorem first_of_two_runs_once :
    Loads [] true [0x61] (on_disk [boot_item [0x61], boot_item [0x62]]) ∧ quiet_boot.Spares [0x61] ∧
      (runs_of [0x61] (bring_up [] quiet_boot (on_disk [boot_item [0x61], boot_item [0x62]])).log).length = 1 ∧
      runs_of [0x61] (bring_up [] quiet_boot
        (live [] quiet_boot (on_disk [boot_item [0x61], boot_item [0x62]]))).log = [] := by
  refine ⟨⟨boot_item [0x61], ?_, rfl, rfl, rfl⟩, quiet_boot_spares, ?_, ?_⟩
  all_goals decide +kernel

end Boots

end fable.agenda
