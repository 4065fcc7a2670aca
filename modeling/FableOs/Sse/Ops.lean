import FableOs.Sse.Document

namespace fable.sse

open fable.json List

/-! What the operations of the reassembly layer do to the document: a fragment
is written whole, or the document is frozen. -/

@[simp] theorem length_QUOTE_BRACE : QUOTE_BRACE.bytes.length = 2 := rfl

@[simp] theorem length_EMPTY_INPUT : EMPTY_INPUT.bytes.length = 3 := rfl

/-- There is room for a fragment of `n` bytes, and it would be written. -/
def Fits (m : sse_msg_t) (n : Nat) : Prop :=
  m.frozen = false ∧ m.w.overflow = false ∧ m.w.len + n + SSE_TAIL_RESERVE < m.w.cap

instance (m : sse_msg_t) (n : Nat) : Decidable (Fits m n) := inferInstanceAs (Decidable (_ ∧ _ ∧ _))

def sse_msg_t.append (m : sse_msg_t) (s : List UInt8) : sse_msg_t := { m with w := m.w.push s }

section Fragments

variable {m : sse_msg_t} {n : Nat} {s s' : List UInt8}

@[simp] theorem append_w : (m.append s).w = m.w.push s := rfl

@[simp] theorem append_append : (m.append s).append s' = m.append (s ++ s') := by
  simp [sse_msg_t.append]

theorem append_nil : m.append [] = m := by
  simp [sse_msg_t.append, json_writer_t.push]

theorem Fits.room (h : Fits m n) : m.w.len + n + 128 < m.w.cap := h.2.2

/-- With enough room nothing happens. -/
theorem mneed_of_fits (h : Fits m n) : mneed m n = (true, m) := by
  obtain ⟨hfrozen, hok, hroom⟩ := h
  have hcap : ¬ m.w.cap ≤ m.w.len + n + SSE_TAIL_RESERVE := by omega
  simp [mneed, hfrozen, hok, hcap]

/-- Without it the builder is frozen. -/
theorem mneed_of_not_fits (hok : m.w.overflow = false) (h : ¬ Fits m n) : mneed m n = (false, freeze m) := by
  cases hfrozen : m.frozen with
  | true => simp [mneed, freeze, hfrozen]
  | false =>
    have hcap : m.w.cap ≤ m.w.len + n + SSE_TAIL_RESERVE := by
      by_contra hroom
      exact h ⟨hfrozen, hok, by omega⟩
    simp [mneed, hfrozen, hok, hcap]

/-- What fits is appended. -/
theorem mput_n_of_fits (h : Fits m s.length) : mput_n m s = m.append s := by
  have hroom : m.w.len + s.length < m.w.cap := by
    have hreserve := h.2.2
    omega
  simp only [mput_n, mneed_of_fits h, if_true]
  rw [json_put_n_of_room h.2.1 hroom]
  rfl

/-- What does not fit freezes the builder, and nothing of it is written. -/
theorem mput_n_of_not_fits (hok : m.w.overflow = false) (h : ¬ Fits m s.length) : mput_n m s = freeze m := by
  simp [mput_n, mneed_of_not_fits hok h]

/-- Two pieces that fit together are written one behind the other. -/
theorem mput_n_append (h : Fits m n) (hle : (s ++ s').length ≤ n) : mput_n (m.append s) s' = m.append (s ++ s') := by
  obtain ⟨hfrozen, hok, hroom⟩ := h
  rw [mput_n_of_fits, append_append]
  refine ⟨hfrozen, hok, ?_⟩
  rw [length_append] at hle
  simp only [append_w, push_len, push_cap]
  omega

theorem mput_append {f} (h : Fits m n) (hle : (s ++ f.bytes).length ≤ n) :
    mput (m.append s) f = m.append (s ++ f.bytes) := mput_n_append h hle

/-- The comma before a block that is not the first one, as it is written. -/
def comma_text (m : sse_msg_t) : List UInt8 := if m.blocks ≠ 0 then [COMMA] else []

/-- `size_t comma` -/
def comma (m : sse_msg_t) : Nat := if m.blocks ≠ 0 then 1 else 0

theorem length_comma_text : (comma_text m).length = comma m := by
  unfold comma_text comma
  split <;> rfl

theorem mput_comma_eq (h : Fits m n) (hle : (comma_text m).length ≤ n) : mput_comma m (comma m) = m.append (comma_text m) := by
  by_cases hblocks : m.blocks = 0
  · simp [mput_comma, comma, comma_text, hblocks, append_nil]
  · rw [comma_text, if_pos hblocks] at hle
    have hput := @mput_append m n [] COMMA_TEXT h hle
    rw [append_nil] at hput
    simp only [mput_comma, comma, comma_text, ne_eq, hblocks, not_false_eq_true, if_true, one_ne_zero]
    exact hput

end Fragments

section Operations

variable {m : sse_msg_t}

/-- The head of a message is written as one piece, or not at all. -/
theorem begin_message_eq (hok : m.w.overflow = false) (hstarted : m.started = false) (msg : Option json_value_t) :
    begin_message m msg =
      let s := head (span_or msg K_ID EMPTY_STRING) (span_or msg K_ROLE ASSISTANT) (span_or msg K_MODEL EMPTY_STRING)
      if Fits m s.length then { m.append s with started := true } else freeze m := by
  simp only [begin_message, hstarted, Bool.false_eq_true, if_false]
  generalize span_or msg K_ID EMPTY_STRING = id
  generalize span_or msg K_ROLE ASSISTANT = role
  generalize span_or msg K_MODEL EMPTY_STRING = model
  have hlength : 52 + id.length + role.length + model.length = (head id role model).length := by
    simp only [head, length_append]
    change _ = 6 + (id.length + (25 + (role.length + (9 + (model.length + 12)))))
    omega
  rw [hlength]
  by_cases h : Fits m (head id role model).length
  · simp only [mneed_of_fits h, if_pos h, if_true]
    rw [← append_nil (m := m)]
    rw [mput_append h, mput_n_append h, mput_append h, mput_n_append h, mput_append h, mput_n_append h, mput_append h]
    · simp [head]
    all_goals
      simp only [head, length_append, length_nil]
      omega
  · simp [mneed_of_not_fits hok h, if_neg h]

/-- The head of a text block is written as one piece, or not at all. -/
theorem open_text_eq (hok : m.w.overflow = false) :
    open_text m (comma m) = { mput_n m (comma_text m ++ TEXT_OPEN.bytes) with block := .text } := by
  have hlength : comma m + 23 = (comma_text m ++ TEXT_OPEN.bytes).length := by
    rw [length_append, length_comma_text]
    rfl
  rw [open_text, hlength]
  by_cases h : Fits m (comma_text m ++ TEXT_OPEN.bytes).length
  · simp only [mneed_of_fits h, mput_n_of_fits h, if_true]
    rw [mput_comma_eq h (by simp), mput_append h le_rfl]
  · simp only [mneed_of_not_fits hok h, mput_n_of_not_fits hok h, Bool.false_eq_true, if_false]

/-- A tool call is opened in one piece, with its input still to come. -/
theorem open_tool_eq (hok : m.w.overflow = false) (cb : json_value_t) :
    open_tool m (comma m) cb =
      { mput_n m (comma_text m ++ tool_head (span_or (some cb) K_ID EMPTY_STRING) (span_or (some cb) K_NAME EMPTY_STRING))
        with block := .tool, tool := [], tool_over := false } := by
  rw [open_tool]
  generalize span_or (some cb) K_ID EMPTY_STRING = id
  generalize span_or (some cb) K_NAME EMPTY_STRING = name
  have hlength : comma m + 41 + id.length + name.length = (comma_text m ++ tool_head id name).length := by
    simp only [tool_head, length_append, length_comma_text]
    change _ = comma m + (24 + (id.length + (8 + (name.length + 9))))
    omega
  rw [hlength]
  by_cases h : Fits m (comma_text m ++ tool_head id name).length
  · simp only [mneed_of_fits h, mput_n_of_fits h, if_true]
    rw [mput_comma_eq h (by simp), mput_append h, mput_n_append h, mput_append h, mput_n_append h, mput_append h]
    · simp [tool_head]
    all_goals
      simp only [tool_head, length_append]
      omega
  · simp only [mneed_of_not_fits hok h, mput_n_of_not_fits hok h, Bool.false_eq_true, if_false]

/-- Any other block is copied as it stands. -/
theorem open_other_eq (hok : m.w.overflow = false) {cb} (hlen : cb.len = cb.text.length) :
    open_other m (comma m) cb = { mput_n m (comma_text m ++ cb.text) with block := .other } := by
  have hlength : comma m + cb.len = (comma_text m ++ cb.text).length := by
    rw [length_append, length_comma_text, hlen]
  rw [open_other, hlength]
  by_cases h : Fits m (comma_text m ++ cb.text).length
  · simp only [mneed_of_fits h, mput_n_of_fits h, if_true]
    rw [mput_comma_eq h (by simp), mput_n_append h le_rfl]
  · simp only [mneed_of_not_fits hok h, mput_n_of_not_fits hok h, Bool.false_eq_true, if_false]

/-- What `start_block` writes first, by the kind of the block. -/
def opening (cb : json_value_t) : List UInt8 :=
  match block_kind cb with
  | .text => TEXT_OPEN.bytes
  | .tool => tool_head (span_or (some cb) K_ID EMPTY_STRING) (span_or (some cb) K_NAME EMPTY_STRING)
  | _ => cb.text

/-- `m` when a block is about to be opened. -/
def ready (m : sse_msg_t) : sse_msg_t := begin_message (if m.block ≠ .none then close_block m else m) none

/-- The tool input is cleared for a tool block only. -/
def open_block (m : sse_msg_t) (cb : json_value_t) : sse_msg_t :=
  let m' := mput_n m (comma_text m ++ opening cb)
  match block_kind cb with
  | .text => { m' with block := .text }
  | .tool => { m' with block := .tool, tool := [], tool_over := false }
  | _ => { m' with block := .other }

/-- A block with an object for its content is opened and counted. -/
theorem start_block_eq {ev cb} (hok : (ready m).w.overflow = false)
    (hget : json_get (some ev) (some K_CONTENT_BLOCK) = (JSON_OK, cb)) (htype : cb.type = .object)
    (hlen : cb.len = cb.text.length) :
    start_block m ev = { open_block (ready m) cb with blocks := (open_block (ready m) cb).blocks + 1 } := by
  have hgood : ¬ (JSON_OK ≠ JSON_OK ∨ cb.type ≠ .object) := by
    rintro (h | h)
    · exact h rfl
    · exact h htype
  have hcomma : (if (ready m).blocks ≠ 0 then 1 else 0) = comma (ready m) := rfl
  rw [start_block, ← ready, hget]
  simp only [if_neg hgood, hcomma]
  unfold open_block opening
  cases block_kind cb with
  | text => simp only [open_text_eq hok]
  | tool => simp only [open_tool_eq hok]
  | none | other => simp only [open_other_eq hok hlen]

/-- A block without one counts as a bad event and opens nothing. -/
theorem start_block_bad {ev} {rc : Int} {cb} (hget : json_get (some ev) (some K_CONTENT_BLOCK) = (rc, cb))
    (hbad : rc ≠ JSON_OK ∨ cb.type ≠ .object) :
    start_block m ev = { ready m with bad_events := (ready m).bad_events + 1 } := by
  rw [start_block, ← ready, hget]
  simp only [if_pos hbad]

end Operations

end fable.sse
