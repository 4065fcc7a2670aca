import FableOs.Sse.Invariant

namespace fable.sse

open fable.json List

/-! Nothing that is written is taken back: the document only grows. So a
beginning that no reader accepts is never repaired. -/

/-- What holds of the fields of a message before and after. -/
structure Extends (started : Bool) (w : json_writer_t) (err : Int) (closed : Bool) (started' : Bool) (w' : json_writer_t)
    (err' : Int) (closed' : Bool) : Prop where
  started : started = true → started' = true
  text : w.text <+: w'.text
  err : err' = err
  closed : closed' = closed

abbrev Grows (m m' : sse_msg_t) : Prop := Extends m.started m.w m.err m.closed m'.started m'.w m'.err m'.closed

section Grows

variable {m m' m'' : sse_msg_t}

theorem Grows.refl : Grows m m := ⟨id, prefix_rfl, rfl, rfl⟩

theorem Grows.trans (h : Grows m m') (h' : Grows m' m'') : Grows m m'' :=
  ⟨h'.started ∘ h.started, h.text.trans h'.text, h'.err.trans h.err, h'.closed.trans h.closed⟩

theorem Grows.of_text {w} (h : m.w.text <+: w.text) : Grows m { m with w := w } := ⟨id, h, rfl, rfl⟩

/-- The writer never takes back what it has written. -/
theorem json_put_n_begins (w : json_writer_t) (s : List UInt8) : w.text <+: (json_put_n w s).text := by
  unfold json_put_n
  split_ifs
  · exact prefix_rfl
  · exact prefix_rfl
  · exact prefix_append _ _

theorem json_put_char_begins (w : json_writer_t) (c : UInt8) : w.text <+: (json_put_char w c).text := by
  unfold json_put_char
  split_ifs
  · exact prefix_rfl
  · exact prefix_rfl
  · exact prefix_append _ _

/-- Freezing the builder keeps what is written. -/
theorem freeze_grows : Grows m (freeze m) := by
  unfold freeze
  split_ifs
  · exact Grows.refl
  · refine ⟨id, ?_, rfl, rfl⟩
    cases m.block with
    | text | tool => exact json_put_n_begins _ _
    | none | other => exact prefix_rfl

/-- Asking for room keeps what is written, room or not. -/
theorem mneed_grows (n : Nat) : Grows m (mneed m n).2 := by
  unfold mneed
  split_ifs
  · exact Grows.refl
  · exact freeze_grows
  · exact Grows.refl

theorem mput_n_grows (s : List UInt8) : Grows m (mput_n m s) := by
  have hneed := @mneed_grows m s.length
  unfold mput_n
  simp only
  split_ifs
  · exact hneed.trans (Grows.of_text (json_put_n_begins _ _))
  · exact hneed

theorem mput_comma_grows (n : Nat) : Grows m (mput_comma m n) := by
  unfold mput_comma
  split_ifs
  · exact mput_n_grows _
  · exact Grows.refl

/-- The head of the message goes behind what is there. -/
theorem begin_message_grows (msg : Option json_value_t) : Grows m (begin_message m msg) := by
  unfold begin_message
  simp only
  generalize span_or msg K_ID EMPTY_STRING = id
  generalize span_or msg K_ROLE ASSISTANT = role
  generalize span_or msg K_MODEL EMPTY_STRING = model
  have hneed := @mneed_grows m (52 + id.length + role.length + model.length)
  split_ifs
  · exact Grows.refl
  · obtain ⟨-, htext, herr, hclosed⟩ := hneed.trans ((mput_n_grows ID_OPEN.bytes).trans ((mput_n_grows id).trans
      ((mput_n_grows ROLE_OPEN.bytes).trans ((mput_n_grows role).trans ((mput_n_grows MODEL_OPEN.bytes).trans
        ((mput_n_grows model).trans (mput_n_grows CONTENT_OPEN.bytes)))))))
    exact ⟨fun _ => rfl, htext, herr, hclosed⟩
  · exact hneed

/-- The end of a block goes behind what is there, with a tool's input in front of it. -/
theorem write_close_grows : Grows m (write_close m) := by
  have hneed : Grows m (if input_ok m = true then mneed m (m.tool.length + 1) else (false, m)).2 := by
    split_ifs
    · exact mneed_grows _
    · exact Grows.refl
  unfold write_close
  split
  · split
    · exact Grows.refl
    · exact Grows.of_text (json_put_n_begins _ _)
  · split
    · exact Grows.refl
    · revert hneed
      generalize (if input_ok m = true then mneed m (m.tool.length + 1) else (false, m)) = asked
      intro hneed
      obtain ⟨ok, m'⟩ := asked
      simp only
      split
      · exact hneed.trans (Grows.of_text ((json_put_n_begins _ _).trans (json_put_char_begins _ _)))
      · split
        · exact hneed
        · exact hneed.trans (Grows.of_text (json_put_n_begins _ _))
  · exact Grows.refl

/-- Closing a block, open or not, adds at most its end. -/
theorem close_block_grows : Grows m (close_block m) := by
  exact @write_close_grows m

theorem ready_grows : Grows m (ready m) := by
  unfold ready
  split_ifs
  · exact close_block_grows.trans (begin_message_grows _)
  · exact begin_message_grows _

theorem open_text_grows (n : Nat) : Grows m (open_text m n) := by
  have hneed := @mneed_grows m (n + 23)
  unfold open_text
  simp only
  split_ifs
  · exact hneed.trans ((mput_comma_grows n).trans (mput_n_grows TEXT_OPEN.bytes))
  · exact hneed

/-- A tool block's head is added, and its input starts empty. -/
theorem open_tool_grows (n : Nat) (cb : json_value_t) : Grows m (open_tool m n cb) := by
  unfold open_tool
  simp only
  generalize span_or (some cb) K_ID EMPTY_STRING = id
  generalize span_or (some cb) K_NAME EMPTY_STRING = name
  have hneed := @mneed_grows m (n + 41 + id.length + name.length)
  split_ifs
  · exact hneed.trans ((mput_comma_grows n).trans ((mput_n_grows TOOL_OPEN.bytes).trans ((mput_n_grows id).trans
      ((mput_n_grows NAME_OPEN.bytes).trans ((mput_n_grows name).trans (mput_n_grows INPUT_OPEN.bytes))))))
  · exact hneed

theorem open_other_grows (n : Nat) (cb : json_value_t) : Grows m (open_other m n cb) := by
  have hneed := @mneed_grows m (n + cb.len)
  unfold open_other
  simp only
  split_ifs
  · exact hneed.trans ((mput_comma_grows n).trans (mput_n_grows cb.text))
  · exact hneed

/-- A block starts behind what closing the last one has left. -/
theorem start_block_behind_ready (ev : json_value_t) : Grows (ready m) (start_block m ev) := by
  rw [start_block, ← ready]
  cases json_get (some ev) (some K_CONTENT_BLOCK) with
  | mk rc cb =>
    simp only
    split
    · exact Grows.refl
    · generalize (if (ready m).blocks ≠ 0 then 1 else 0) = n
      cases block_kind cb with
      | text => exact @open_text_grows (ready m) n
      | tool => exact @open_tool_grows (ready m) n cb
      | none | other => exact @open_other_grows (ready m) n cb

/-- Starting a block adds to the text. -/
theorem start_block_grows (ev : json_value_t) : Grows m (start_block m ev) :=
  ready_grows.trans (start_block_behind_ready ev)

theorem text_delta_grows (d : json_value_t) : Grows m (text_delta m d) := by
  rw [text_delta]
  cases json_get (some d) (some K_TEXT) with
  | mk rc v =>
    simp only
    split
    · exact Grows.refl
    · rename_i inner _
      have hput := @mput_n_grows { m with deltas := m.deltas + 1 } inner
      split <;> exact hput

theorem input_delta_grows (d : json_value_t) : Grows m (input_delta m d) := by
  rw [input_delta]
  simp only
  split_ifs <;> exact Grows.refl

/-- A delta of any kind adds to the text or to the tool's input. -/
theorem apply_delta_grows (ev : json_value_t) : Grows m (apply_delta m ev) := by
  rw [apply_delta]
  simp only
  split_ifs
  · exact Grows.refl
  · exact Grows.refl
  · exact Grows.refl
  · exact text_delta_grows _
  · exact input_delta_grows _
  · exact Grows.refl

theorem stop_delta_grows (root : json_value_t) : Grows m (stop_delta m root) := by
  rw [stop_delta]
  simp only
  split
  · exact Grows.refl
  · split_ifs <;> exact Grows.refl

/-- An event of any kind but an error adds to what is written. -/
theorem apply_event_grows {kind} (hkind : kind ≠ K_ERROR.bytes) (root : json_value_t) :
    Grows m (apply_event m kind root) := by
  unfold apply_event
  split
  · exact apply_delta_grows _
  split
  · exact start_block_grows _
  split
  · split
    · exact @close_block_grows { m with stray_deltas := m.stray_deltas + 1 }
    · exact close_block_grows
  split
  · exact begin_message_grows _
  split
  · exact stop_delta_grows _
  split
  · exact Grows.refl
  split
  · exact Grows.refl
  exact Grows.refl

end Grows

end fable.sse
