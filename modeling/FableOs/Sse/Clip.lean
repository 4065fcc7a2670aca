import FableOs.Sse.Finish
import FableOs.Sse.Sequence

namespace fable.sse

open fable.json List

/-! A message whose document is frozen: its events are still read, and nothing
of them is written. -/

/-- What an event leaves as it is. -/
structure Keeps (m m' : sse_msg_t) : Prop where
  w : m'.w = m.w
  started : m'.started = m.started
  frozen : m'.frozen = m.frozen
  closed : m'.closed = m.closed
  err : m'.err = m.err
  stop : m'.stop = m.stop

section Frozen

variable {m m' m'' : sse_msg_t}

theorem Keeps.refl : Keeps m m := ⟨rfl, rfl, rfl, rfl, rfl, rfl⟩

theorem Keeps.trans (h : Keeps m m') (h' : Keeps m' m'') : Keeps m m'' :=
  ⟨h'.w.trans h.w, h'.started.trans h.started, h'.frozen.trans h.frozen, h'.closed.trans h.closed, h'.err.trans h.err,
    h'.stop.trans h.stop⟩

theorem mneed_of_frozen (h : m.frozen = true) (n : Nat) : mneed m n = (false, m) := if_pos (Or.inl h)

theorem mput_n_of_frozen (h : m.frozen = true) (s : List UInt8) : mput_n m s = m := by
  simp [mput_n, mneed_of_frozen h]

theorem begin_message_of_frozen (h : m.frozen = true) (msg : Option json_value_t) : begin_message m msg = m := by
  simp [begin_message, mneed_of_frozen h]

theorem keeps_close_block (h : m.frozen = true) : Keeps m (close_block m) := by
  rw [close_block, write_close_of_frozen h]
  exact ⟨rfl, rfl, rfl, rfl, rfl, rfl⟩

theorem keeps_start_block (h : m.frozen = true) (ev : json_value_t) : Keeps m (start_block m ev) := by
  have hclosed : Keeps m (if m.block ≠ .none then close_block m else m) := by
    split
    · exact keeps_close_block h
    · exact Keeps.refl
  rw [start_block]
  revert hclosed
  generalize (if m.block ≠ .none then close_block m else m) = m'
  intro hclosed
  have hfrozen := hclosed.frozen.trans h
  refine hclosed.trans ?_
  simp only [begin_message_of_frozen hfrozen]
  split
  · exact ⟨rfl, rfl, rfl, rfl, rfl, rfl⟩
  · cases block_kind (json_get (some ev) (some K_CONTENT_BLOCK)).2 with
    | text => simp only [open_text, mneed_of_frozen hfrozen]; exact ⟨rfl, rfl, rfl, rfl, rfl, rfl⟩
    | tool => simp only [open_tool, mneed_of_frozen hfrozen]; exact ⟨rfl, rfl, rfl, rfl, rfl, rfl⟩
    | none | other => simp only [open_other, mneed_of_frozen hfrozen]; exact ⟨rfl, rfl, rfl, rfl, rfl, rfl⟩

theorem keeps_text_delta (h : m.frozen = true) (d : json_value_t) : Keeps m (text_delta m d) := by
  rw [text_delta]
  simp only
  split
  · exact ⟨rfl, rfl, rfl, rfl, rfl, rfl⟩
  · rename_i inner _
    rw [@mput_n_of_frozen { m with deltas := m.deltas + 1 } h inner]
    split <;> exact ⟨rfl, rfl, rfl, rfl, rfl, rfl⟩

theorem keeps_input_delta (d : json_value_t) : Keeps m (input_delta m d) := by
  rw [input_delta]
  simp only
  split_ifs <;> exact ⟨rfl, rfl, rfl, rfl, rfl, rfl⟩

theorem keeps_apply_delta (h : m.frozen = true) (ev : json_value_t) : Keeps m (apply_delta m ev) := by
  rw [apply_delta]
  simp only
  split_ifs
  · exact ⟨rfl, rfl, rfl, rfl, rfl, rfl⟩
  · exact ⟨rfl, rfl, rfl, rfl, rfl, rfl⟩
  · exact ⟨rfl, rfl, rfl, rfl, rfl, rfl⟩
  · exact keeps_text_delta h _
  · exact keeps_input_delta _
  · exact ⟨rfl, rfl, rfl, rfl, rfl, rfl⟩

/-- The events that a block is made of. -/
def Inner (ev : sse_event_t) : Prop :=
  ∃ kind root, Carries ev kind root ∧ (kind = K_CONTENT_BLOCK_START ∨ kind = K_CONTENT_BLOCK_DELTA ∨ kind = K_CONTENT_BLOCK_STOP)

/-- A frozen document stays as it is at every event of a block. -/
theorem keeps_event (h : m.frozen = true) (hclosed : m.closed = false) {ev} (hinner : Inner ev) :
    Keeps m (sse_msg_event m ev) := by
  obtain ⟨kind, root, hcarries, rfl | rfl | rfl⟩ := hinner
  · rw [sse_msg_event_eq hclosed hcarries.1, hcarries.2, apply_event_start rfl]
    exact keeps_start_block h root
  · rw [sse_msg_event_eq hclosed hcarries.1, hcarries.2, apply_event, if_pos rfl]
    exact keeps_apply_delta h root
  · rw [sse_msg_event_eq hclosed hcarries.1, hcarries.2, apply_event_stop rfl]
    split
    · exact (⟨rfl, rfl, rfl, rfl, rfl, rfl⟩ : Keeps m { m with stray_deltas := m.stray_deltas + 1 }).trans
        (keeps_close_block h)
    · exact keeps_close_block h

/-- And over any number of them. -/
theorem keeps_events (h : m.frozen = true) (hclosed : m.closed = false) {evs : List sse_event_t}
    (hinner : ∀ ev ∈ evs, Inner ev) : Keeps m (evs.foldl sse_msg_event m) := by
  induction evs generalizing m with
  | nil => exact Keeps.refl
  | cons ev evs ih =>
    have hstep := keeps_event h hclosed (hinner ev mem_cons_self)
    exact hstep.trans (ih (hstep.frozen.trans h) (hstep.closed.trans hclosed) fun ev' hev' => hinner ev' (mem_cons_of_mem _ hev'))

theorem Opens.inner {ev cb} (h : Opens ev cb) : Inner ev := by
  obtain ⟨root, hcarries, -⟩ := h
  exact ⟨_, root, hcarries, Or.inl rfl⟩

theorem DeltaOf.inner {ev d dt} (h : DeltaOf ev d dt) : Inner ev := by
  obtain ⟨root, hcarries, -⟩ := h
  exact ⟨_, root, hcarries, Or.inr (Or.inl rfl)⟩

theorem TextDelta.inner {ev raw} (h : TextDelta ev raw) : Inner ev := by
  obtain ⟨d, v, ⟨dt, hdelta, -⟩, -⟩ := h
  exact hdelta.inner

theorem InputDelta.inner {ev raw} (h : InputDelta ev raw) : Inner ev := by
  obtain ⟨d, v, ⟨dt, hdelta, -⟩, -⟩ := h
  exact hdelta.inner

theorem OtherDelta.inner {ev raw} (h : OtherDelta ev raw) : Inner ev := by
  obtain ⟨d, dt, key, v, hdelta, -⟩ := h
  exact hdelta.inner

theorem Stops.inner {ev} (h : Stops ev) : Inner ev := by
  obtain ⟨root, hcarries⟩ := h
  exact ⟨_, root, hcarries, Or.inr (Or.inr rfl)⟩

theorem inner_of_forall₂ {P : sse_event_t → List UInt8 → Prop} (hP : ∀ {ev raw}, P ev raw → Inner ev) {evs raws}
    (h : List.Forall₂ P evs raws) : ∀ ev ∈ evs, Inner ev := by
  induction h with
  | nil => exact forall_mem_nil _
  | cons hdelta _ ih => exact forall_mem_cons.mpr ⟨hP hdelta, ih⟩

theorem BlockEvents.inner {b evs} (h : BlockEvents b evs) : ∀ ev ∈ evs, Inner ev := by
  have hall {first last : sse_event_t} {evs : List sse_event_t} (hfirst : Inner first) (hevs : ∀ ev ∈ evs, Inner ev)
      (hlast : Inner last) : ∀ ev ∈ first :: (evs ++ [last]), Inner ev :=
    forall_mem_cons.mpr ⟨hfirst, forall_mem_append.mpr ⟨hevs, forall_mem_singleton.mpr hlast⟩⟩
  cases h with
  | text hfirst hdeltas hlast =>
    obtain ⟨cb, hopens, -⟩ := hfirst
    exact hall hopens.inner (inner_of_forall₂ TextDelta.inner hdeltas) hlast.inner
  | tool hfirst hinputs hlast =>
    obtain ⟨cb, hopens, -⟩ := hfirst
    exact hall hopens.inner (inner_of_forall₂ InputDelta.inner hinputs) hlast.inner
  | other hfirst hrest hdeltas hlast =>
    obtain ⟨cb, hopens, -⟩ := hfirst
    exact hall hopens.inner (inner_of_forall₂ OtherDelta.inner hdeltas) hlast.inner

end Frozen

/-- Nothing goes into the document any more but its tail. -/
structure Ended (m : sse_msg_t) (cap : Nat) (text : List UInt8) (started : Bool) (stop : List UInt8) : Prop where
  w : m.w = ⟨true, cap, text, false⟩
  started_eq : m.started = started
  closed : m.closed = false
  err : m.err = SSE_OK
  stop_eq : m.stop = stop
  quiet : m.frozen = true ∨ m.block = .none

/-- The document is frozen. -/
structure Frozen (m : sse_msg_t) (cap : Nat) (text : List UInt8) (started : Bool) (stop : List UInt8) : Prop
    extends Ended m cap text started stop where
  frozen : m.frozen = true

/-- The stop reason can go out between two quotes. -/
def StopOk (stop : List UInt8) : Prop := (∃ us, Units stop us) ∧ stop.length < SSE_STOP_MAX

/-- The stop reason that is kept, event by event. -/
def stop_after (stop : List UInt8) (stops : List (Option (List UInt8))) : List UInt8 :=
  stops.foldl (fun stop reason =>
    match reason with
    | none => stop
    | some raw => if raw.length < SSE_STOP_MAX then raw else []) stop

/-- What stands in front of the tail. -/
def front (started : Bool) (text : List UInt8) : List UInt8 := if started then text else EMPTY_MSG.bytes

section Ended

variable {m : sse_msg_t} {cap : Nat} {text stop : List UInt8} {started : Bool} {evs : List sse_event_t}

theorem Frozen.events (h : Frozen m cap text started stop) (hinner : ∀ ev ∈ evs, Inner ev) :
    Frozen (evs.foldl sse_msg_event m) cap text started stop := by
  have hkeeps := keeps_events h.frozen h.closed hinner
  have hfrozen := hkeeps.frozen.trans h.frozen
  exact ⟨⟨hkeeps.w.trans h.w, hkeeps.started.trans h.started_eq, hkeeps.closed.trans h.closed, hkeeps.err.trans h.err,
    hkeeps.stop.trans h.stop_eq, Or.inl hfrozen⟩, hfrozen⟩

theorem Ended.event (h : Ended m cap text started stop) {ev kind root} (hcarries : Carries ev kind root) :
    sse_msg_event m ev = apply_event m kind.bytes root := by
  rw [sse_msg_event_eq h.closed hcarries.1, hcarries.2]

theorem Ended.message_deltas (h : Ended m cap text started stop) (hok : StopOk stop) {stops}
    (hstops : List.Forall₂ MessageDelta evs stops) :
    Ended (evs.foldl sse_msg_event m) cap text started (stop_after stop stops) ∧ StopOk (stop_after stop stops) := by
  induction hstops generalizing m stop with
  | nil => exact ⟨h, hok⟩
  | @cons ev reason evs stops hdelta _ ih =>
    obtain ⟨root, hcarries, rfl⟩ := hdelta
    have hroot := found_of_json_parse hcarries.1.1
    have hevent : sse_msg_event m ev = stop_delta m root := by
      rw [h.event hcarries, apply_event, if_neg (by decide), if_neg (by decide), if_neg (by decide),
        if_neg (by decide), if_pos rfl]
    rw [foldl_cons, stop_after, foldl_cons, ← stop_after, hevent, stop_delta_eq]
    cases hreason : stop_of root with
    | none => exact ih h hok
    | some raw =>
      have hunits := stop_of_units (by decide) hroot hreason
      simp only
      by_cases hlength : raw.length < SSE_STOP_MAX
      · simp only [if_pos hlength]
        exact ih { h with stop_eq := rfl } ⟨hunits, hlength⟩
      · simp only [if_neg hlength]
        exact ih { h with stop_eq := rfl } ⟨⟨[], .nil⟩, Nat.succ_pos 31⟩

theorem Ended.message_stop {ev} (h : Ended m cap text started stop) (hends : Ends ev) :
    Ended (sse_msg_event m ev) cap text started stop := by
  obtain ⟨root, hcarries⟩ := hends
  rw [h.event hcarries, apply_event, if_neg (by decide), if_neg (by decide), if_neg (by decide), if_neg (by decide),
    if_neg (by decide), if_pos rfl]
  exact { h with }

theorem Ended.shut (h : Ended m cap text started stop) :
    shut m = { m with closed := true, block := .none, tool := [], tool_over := false } := by
  rw [sse.shut, close_block]
  rcases h.quiet with hfrozen | hblock
  · rw [@write_close_of_frozen { m with closed := true } hfrozen]
  · rw [write_close]
    simp only [hblock]

theorem Ended.begun (h : Ended m cap text started stop) (hcap : EMPTY_MSG.bytes.length < cap) :
    begun (sse.shut m) = ⟨true, cap, front started text, false⟩ := by
  rw [h.shut, sse.begun, h.started_eq, h.w]
  cases started with
  | true => rfl
  | false =>
    have hinit : (json_writer_init true cap).overflow = false := decide_eq_false (by omega)
    have hput := json_put_n_of_room (w := json_writer_init true cap) (s := EMPTY_MSG.bytes) hinit (by
      change 0 + _ < cap
      omega)
    rw [if_neg Bool.false_ne_true]
    refine hput.trans ?_
    rw [json_writer_t.push, hinit]
    rfl

/-- What is there is completed with the tail. -/
theorem Ended.finish (h : Ended m cap text started stop) (hok : StopOk stop) (hcap : EMPTY_MSG.bytes.length < cap)
    (hroom : (front started text).length + 72 ≤ cap) :
    (sse_msg_finish m).2.2.w.text = front started text ++ tail (stop_text stop) ∧
      ((sse_msg_finish m).1 = SSE_OK ↔ (json_parse (some (front started text ++ tail (stop_text stop)))).1 = JSON_OK) := by
  obtain ⟨⟨us, hus⟩, hlength⟩ := hok
  have hbegun := h.begun hcap
  have hstop : (sse.shut m).stop = stop := close_block_keeps.1.trans h.stop_eq
  have htail := @put_tail_eq ⟨true, cap, front started text, false⟩ stop us rfl hus hlength hroom
  have hclose : (close_message m).w = ⟨true, cap, front started text ++ tail (stop_text stop), false⟩ := by
    rw [close_message_eq h.closed, hbegun, hstop, htail]
    rfl
  have herr := (close_message_err h.closed).trans h.err
  have hbuf : ¬ m.w.buf = false := by
    rw [h.w]
    exact Bool.noConfusion
  have hover : ¬ json_writer_ok (close_message m).w = false := by
    rw [hclose]
    exact Bool.noConfusion
  have htext : (close_message m).w.text = front started text ++ tail (stop_text stop) := by rw [hclose]
  have hproto : SSE_EPROTO ≠ SSE_OK := by decide
  rw [sse_msg_finish, if_neg hbuf]
  simp only [if_neg hover, htext, herr]
  by_cases hparse : (json_parse (some (front started text ++ tail (stop_text stop)))).1 = JSON_OK
  · rw [if_neg (not_not.mpr hparse)]
    exact ⟨htext, iff_of_true rfl hparse⟩
  · rw [if_pos hparse]
    exact ⟨htext, iff_of_false hproto hparse⟩

end Ended

end fable.sse
