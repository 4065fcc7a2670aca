import FableOs.Sse.Sequence

namespace fable.sse

open fable.json List

/-- No event reports an error, and neither an event nor the end of the stream
    spoils the document. -/
def Clean : sse_msg_t → List sse_event_t → Prop
  | m, [] => ¬ SpoilsClose m
  | m, ev :: evs => ¬ ReportsError ev ∧ ¬ Spoils m ev ∧ Clean (sse_msg_event m ev) evs

/-- `sse_msg_finish` has succeeded, and left a Messages response behind. -/
def ProducesMessage (r : Int × Nat × sse_msg_t) : Prop :=
  r.1 = SSE_OK ∧ MessageText r.2.2.w.text ∧
    json_parse (some r.2.2.w.text) = (JSON_OK, ⟨.object, some r.2.2.w.text, r.2.1⟩)

/-- What goes out for the stop reason. -/
def stop_text (stop : List UInt8) : List UInt8 := if stop = [] then NULL else QUOTE :: (stop ++ [QUOTE])

section Finish

variable {m : sse_msg_t}

theorem stop_text_value {stop us} (h : Units stop us) : stop_text stop ∈ string ∨ stop_text stop = NULL := by
  unfold stop_text
  split
  · exact Or.inr rfl
  · exact Or.inl (mem_string_iff.mpr ⟨stop, us, rfl, h⟩)

theorem cstr_of_bytes {s} (h : 0 ∉ s) : (cstr_of s).bytes = s := by
  have hall : ∀ c ∈ s, decide (c ≠ 0) = true := fun c hc => decide_eq_true fun hzero => h (hzero ▸ hc)
  exact takeWhile_eq_self_iff.mpr hall

theorem put_tail_eq {w stop us} (hok : w.overflow = false) (hstop : Units stop us)
    (hlength : stop.length < SSE_STOP_MAX) (hroom : w.len + 72 ≤ w.cap) :
    put_tail w stop = w.push (tail (stop_text stop)) := by
  have hbytes := cstr_of_bytes hstop.zero_not_mem
  have hput (s : List UInt8) (f : cstr_t) (hle : s.length + f.bytes.length ≤ 71) :
      json_put (w.push s) f = w.push (s ++ f.bytes) := by
    rw [json_put, json_put_n_of_room (w := w.push s) hok, push_push]
    simp only [push_len, push_cap]
    omega
  have hchar (s : List UInt8) (c : UInt8) (hle : s.length + 1 ≤ 71) :
      json_put_char (w.push s) c = w.push (s ++ [c]) := by
    rw [json_put_char_of_room (w := w.push s) hok, push_push]
    simp only [push_len, push_cap]
    omega
  have hopen : json_put w STOP_OPEN = w.push STOP_OPEN.bytes := json_put_n_of_room hok (by
    change w.len + 16 < w.cap
    omega)
  have hopenLength : STOP_OPEN.bytes.length = 16 := rfl
  have htailLength : TAIL.bytes.length = 22 := rfl
  have hmax : SSE_STOP_MAX = 32 := rfl
  unfold put_tail tail stop_text
  simp only [hopen, hbytes]
  by_cases hnil : stop = []
  · simp only [hnil, ne_eq, not_true_eq_false, if_false, if_true]
    rw [hput _ _ (by decide), hput _ _ (by decide), append_assoc]
    rfl
  · simp only [hnil, ne_eq, not_false_eq_true, if_true, if_false]
    rw [hchar _ _ (by decide), hput, hbytes, hchar, hput]
    · simp
    all_goals
      simp only [hbytes, length_append, length_singleton]
      omega

theorem mneed_keeps (n : Nat) : (mneed m n).2.stop = m.stop ∧ (mneed m n).2.err = m.err := by
  unfold mneed freeze
  split_ifs <;> exact ⟨rfl, rfl⟩

theorem close_block_keeps : (close_block m).stop = m.stop ∧ (close_block m).err = m.err := by
  have hneed := @mneed_keeps m (m.tool.length + 1)
  unfold close_block write_close
  cases m.block with
  | none | other => exact ⟨rfl, rfl⟩
  | text =>
    simp only
    split_ifs <;> exact ⟨rfl, rfl⟩
  | tool =>
    cases hinput : input_ok m with
    | true =>
      simp only [if_true]
      split_ifs
      · exact ⟨rfl, rfl⟩
      all_goals exact hneed
    | false =>
      simp only [Bool.false_eq_true, if_false]
      split_ifs <;> exact ⟨rfl, rfl⟩

theorem head_empty : EMPTY_MSG.bytes = head EMPTY_STRING.bytes ASSISTANT.bytes EMPTY_STRING.bytes := by decide

/-- `m` when the tail is about to be written. -/
def shut (m : sse_msg_t) : sse_msg_t := close_block { m with closed := true }

/-- The document in front of its tail: the one that is there, or the empty one. -/
def begun (m : sse_msg_t) : json_writer_t :=
  if m.started then m.w else json_put (json_writer_init m.w.buf m.w.cap) EMPTY_MSG

theorem close_message_eq (hclosed : m.closed = false) :
    close_message m = { shut m with started := true, w := put_tail (begun (shut m)) (shut m).stop } := by
  rw [close_message, if_neg (by rw [hclosed]; exact Bool.false_ne_true)]
  rfl

theorem Inv.before_tail (h : Inv m) (hblock : m.block = .none) :
    (begun m).overflow = false ∧ (begun m).len + 72 ≤ (begun m).cap ∧ ∃ id role model bs, Head id role model ∧
      GoodBlocks bs ∧ (begun m).text = head id role model ++ content bs := by
  have hcap := h.cap
  have hempty (hstarted : m.started = false) :
      (begun m).overflow = false ∧ (begun m).len + 72 ≤ (begun m).cap ∧ ∃ id role model bs, Head id role model ∧
        GoodBlocks bs ∧ (begun m).text = head id role model ++ content bs := by
    have hinit : (json_writer_init m.w.buf m.w.cap).overflow = false := decide_eq_false (by omega)
    have hput : begun m = (json_writer_init m.w.buf m.w.cap).push EMPTY_MSG.bytes := by
      rw [begun, if_neg (by rw [hstarted]; exact Bool.false_ne_true)]
      exact json_put_n_of_room hinit (by change 0 + 67 < m.w.cap; omega)
    have hnone : GoodBlocks [] := forall_mem_nil _
    rw [hput]
    refine ⟨hinit, ?_, _, _, _, [], ⟨empty_string_mem, assistant_mem, empty_string_mem⟩, hnone, ?_⟩
    · change 0 + 67 + 72 ≤ m.w.cap
      omega
    · rw [push_text, head_empty, content_nil, List.append_nil]
      rfl
  cases h.doc with
  | waiting hstarted | refused hstarted => exact hempty hstarted
  | closed hstarted hhead hbs htext hroom =>
    rw [begun, if_pos hstarted]
    exact ⟨h.ok, by omega, _, _, _, _, hhead, hbs, htext⟩
  | text _ _ _ _ _ _ hb | tool _ _ _ _ _ _ _ hb => cases hblock.symm.trans hb

/-- A document that nothing has spoilt is completed. -/
theorem close_message_text (h : Inv m) (hclosed : m.closed = false) (hspoils : ¬ SpoilsClose m) :
    (close_message m).w.overflow = false ∧ ∃ id role model bs, Head id role model ∧ GoodBlocks bs ∧
      (close_message m).w.text = head id role model ++ (content bs ++ tail (stop_text m.stop)) := by
  have hopen : Inv { m with closed := true } := h
  have hshut : Inv (shut m) := hopen.after_close hspoils
  have hstop : (shut m).stop = m.stop := close_block_keeps.1
  obtain ⟨hok, hroom, id, role, model, bs, hhead, hbs, htext⟩ := hshut.before_tail rfl
  obtain ⟨us, hus⟩ := hshut.stop
  have htail := put_tail_eq hok hus hshut.stop_length hroom
  rw [close_message_eq hclosed, htail, hstop]
  refine ⟨hok, id, role, model, bs, hhead, hbs, ?_⟩
  rw [push_text, htext, append_assoc]

theorem close_message_err (hclosed : m.closed = false) : (close_message m).err = m.err := by
  rw [close_message_eq hclosed]
  exact close_block_keeps.2

theorem produces_of_inv (h : Inv m) (hclosed : m.closed = false) (hspoils : ¬ SpoilsClose m) (herr : m.err = SSE_OK) :
    ProducesMessage (sse_msg_finish m) := by
  obtain ⟨hover, id, role, model, bs, hhead, hbs, htext⟩ := close_message_text h hclosed hspoils
  obtain ⟨us, hus⟩ := h.stop
  have hstop := stop_text_value hus
  have hvalue := message_accepted hhead hbs hstop
  rw [← htext] at hvalue
  have hparse : json_parse (some (close_message m).w.text) =
      (JSON_OK, ⟨.object, some (close_message m).w.text, (close_message m).w.text.length⟩) := by
    have haccepted := json_parse_complete ⟨nil_mem_ws, hvalue, nil_mem_ws⟩
    rwa [List.append_nil, List.nil_append] at haccepted
  have hfinish : sse_msg_finish m = (SSE_OK, (close_message m).w.text.length, close_message m) := by
    have hbuf : ¬ m.w.buf = false := by
      rw [h.buf]
      exact Bool.noConfusion
    rw [sse_msg_finish, if_neg hbuf]
    simp [json_writer_ok, hover, hparse, close_message_err hclosed, herr, json_writer_len]
  rw [hfinish]
  refine ⟨rfl, ⟨id, hhead.id_mem, role, hhead.role_mem, model, hhead.model_mem, bs, stop_text m.stop, ?_, hstop, htext⟩, hparse⟩
  exact fun b hb => ⟨_, hbs b hb⟩

theorem put_tail_begins (w : json_writer_t) (stop : List UInt8) : w.text <+: (put_tail w stop).text := by
  unfold put_tail
  simp only
  split
  · exact (json_put_n_begins w _).trans ((json_put_char_begins _ _).trans ((json_put_n_begins _ _).trans
      ((json_put_char_begins _ _).trans (json_put_n_begins _ _))))
  · exact (json_put_n_begins w _).trans ((json_put_n_begins _ _).trans (json_put_n_begins _ _))

theorem Doomed.shut (h : Doomed m) : Doomed (shut m) := by
  have hopen : Doomed { m with closed := true } := h
  exact hopen.grows close_block_grows

theorem doomed_close_message (h : Doomed (shut m)) (hclosed : m.closed = false) : Doomed (close_message m) := by
  rw [close_message_eq hclosed]
  rcases h with herr | ⟨hstarted, hrejected⟩
  · exact Or.inl herr
  · have hbegun : begun (shut m) = (shut m).w := by rw [begun, if_pos hstarted]
    obtain ⟨more, hmore⟩ := put_tail_begins (shut m).w (shut m).stop
    refine Or.inr ⟨rfl, ?_⟩
    rw [hbegun, ← hmore]
    exact hrejected.append more

/-- Once the document is doomed, `sse_msg_finish` fails. -/
theorem finish_of_doomed (h : Doomed (shut m)) (hclosed : m.closed = false) : (sse_msg_finish m).1 ≠ SSE_OK := by
  have hclose := doomed_close_message h hclosed
  have hspace : SSE_ENOSPC ≠ SSE_OK := by decide
  have hproto : SSE_EPROTO ≠ SSE_OK := by decide
  rw [sse_msg_finish]
  split
  · exact hspace
  simp only
  split
  · exact hspace
  split
  · exact hproto
  · rename_i hparse
    rcases hclose with herr | ⟨-, hrejected⟩
    · exact herr
    · have hreject := hrejected []
      rw [List.append_nil] at hreject
      exact absurd (not_not.mp hparse) hreject

end Finish

section Runs

variable {m : sse_msg_t}

/-- By induction over the events: as long as nothing goes wrong the document can
    be completed, and at the first thing that does it is doomed. -/
theorem produces_iff_clean (h : Inv m) (hclosed : m.closed = false) (herr : m.err = SSE_OK) (evs : List sse_event_t) :
    ProducesMessage (sse_msg_finish (evs.foldl sse_msg_event m)) ↔ Clean m evs := by
  induction evs generalizing m with
  | nil =>
    refine ⟨fun hproduces hspoils => ?_, fun hspoils => produces_of_inv h hclosed hspoils herr⟩
    have hopen : Inv { m with closed := true } := h
    exact finish_of_doomed (doomed_of_spoilsClose hopen hspoils) hclosed hproduces.1
  | cons ev evs ih =>
    have hlost (hdoomed : Doomed (sse_msg_event m ev)) :
        ¬ ProducesMessage (sse_msg_finish ((ev :: evs).foldl sse_msg_event m)) := by
      intro hproduces
      obtain ⟨hend, hclosed'⟩ := hdoomed.after_run (event_closed hclosed ev) evs
      exact finish_of_doomed hend.shut hclosed' hproduces.1
    rw [Clean]
    by_cases herror : ReportsError ev
    · exact iff_of_false (hlost (doomed_of_error hclosed herror).1) fun hclean => hclean.1 herror
    by_cases hspoils : Spoils m ev
    · exact iff_of_false (hlost (doomed_of_spoils h hclosed hspoils)) fun hclean => hclean.2.1 hspoils
    have hgrows := @sse_msg_event_grows m ev herror
    rw [foldl_cons, ih (h.after_event hspoils) (event_closed hclosed ev) (hgrows.err.trans herr)]
    exact ⟨fun hclean => ⟨herror, hspoils, hclean⟩, fun hclean => hclean.2.2⟩

end Runs

/-- `sse_msg_finish` succeeds and leaves a Messages response that `json_parse`
    accepts exactly when no event has reported an error and none has put a value
    where it is nested too deep, or a block without its comma, into the document.
    The levels of an echoed block and of a tool input are counted from their own
    beginning when they are accepted, and not from that of the document. -/
theorem finish_produces_message_iff (cap : Nat) (hcap : 192 ≤ cap) (evs : List sse_event_t) :
    ProducesMessage (sse_msg_finish (evs.foldl sse_msg_event (sse_msg_init true cap))) ↔
      Clean (sse_msg_init true cap) evs :=
  produces_iff_clean (inv_init hcap) rfl rfl evs

/-- A text, a tool call and a thought, with a text in front of the pieces of the
    first and pieces of the last that the document does not have. -/
theorem conversation_produces_message :
    ProducesMessage (sse_msg_finish ((conversation K_TEXT.bytes K_MESSAGE.bytes).foldl sse_msg_event (sse_msg_init true 4096))) ∧
      Clean (sse_msg_init true 4096) (conversation K_TEXT.bytes K_MESSAGE.bytes) := by
  have hproduces : ProducesMessage (sse_msg_finish ((conversation K_TEXT.bytes K_MESSAGE.bytes).foldl sse_msg_event
      (sse_msg_init true 4096))) := by
    refine ⟨by decide +kernel, ⟨_, @word_mem K_NAME (by decide), _, assistant_mem, _, empty_string_mem,
      (conversation_blocks [] []).map block_spec.meant, _, ?_, Or.inl (@word_mem K_TOOL_USE (by decide)), ?_⟩,
      by decide +kernel⟩
    · exact fun b hb => ⟨_, @conversation_value _ [] ⟨_, .nil⟩ empty_string_mem b hb⟩
    · rw [conversation_meant]
      decide +kernel
  exact ⟨hproduces, (finish_produces_message_iff 4096 (by decide) _).mp hproduces⟩

/-- A block of an unknown type, with arrays nested thirty deep in it. -/
def deep_block_event : sse_event_t where
  type := default_type
  data :=
    OPEN_BRACE :: (member_text (quoted K_TYPE) (quoted K_CONTENT_BLOCK_START) ++ COMMA ::
      (member_text (quoted K_CONTENT_BLOCK) (OPEN_BRACE :: (member_text (quoted K_TEXT)
        (List.replicate 30 OPEN_BRACKET ++ List.replicate 30 CLOSE_BRACKET) ++ [CLOSE_BRACE])) ++ [CLOSE_BRACE]))
  id := default_type

/-- The event is accepted whole, and the document it is echoed into is not. -/
theorem deep_block_not_accepted :
    (json_parse (some deep_block_event.data)).1 = JSON_OK ∧
      (sse_msg_finish ([deep_block_event].foldl sse_msg_event (sse_msg_init true 4096))).1 = SSE_EPROTO ∧
      ¬ ProducesMessage (sse_msg_finish ([deep_block_event].foldl sse_msg_event (sse_msg_init true 4096))) := by
  have hcode : (sse_msg_finish ([deep_block_event].foldl sse_msg_event (sse_msg_init true 4096))).1 = SSE_EPROTO := by
    decide +kernel
  refine ⟨by decide +kernel, hcode, fun hproduces => ?_⟩
  have hok := hproduces.1
  cases hcode.symm.trans hok

end fable.sse
