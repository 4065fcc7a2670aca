import FableOs.Sse.Clip

namespace fable.sse

open fable.json List

/-- Where a run is: the text of the document so far, the block that is open, the
    number of blocks and the stop reason. -/
structure At (m : sse_msg_t) (cap : Nat) (text : List UInt8) (block : block_t) (blocks : UInt32) (stop : List UInt8) :
    Prop where
  w : m.w = ⟨true, cap, text, false⟩
  started : m.started = true
  frozen : m.frozen = false
  closed : m.closed = false
  err : m.err = SSE_OK
  block_eq : m.block = block
  blocks_eq : m.blocks = blocks
  stop_eq : m.stop = stop

/-- The tool input so far, which is kept as long as it is not too long. -/
def Staged (m : sse_msg_t) (t : List UInt8) : Prop :=
  m.tool_over = false ∧ m.tool = t ∧ t.length ≤ SSE_TOOL_INPUT_MAX ∨ m.tool_over = true ∧ SSE_TOOL_INPUT_MAX < t.length

/-- A tool input that goes into the document as it is. -/
def usable (t : List UInt8) : Bool :=
  t.length ≤ SSE_TOOL_INPUT_MAX && (json_parse (some t)).1 = JSON_OK && (json_parse (some t)).2.type = .object

/-- The input that is written for the pieces of it. -/
def input_written (t : List UInt8) : List UInt8 := if usable t then t else [OPEN_BRACE, CLOSE_BRACE]

def comma_before (blocks : UInt32) : List UInt8 := if blocks ≠ 0 then [COMMA] else []

/-- The block that is written for a block of the message. -/
def block_spec.written : block_spec → List UInt8
  | .text _ deltas => text_block deltas.flatten
  | .tool id name inputs => tool_block id name (input_written inputs.flatten)
  | .other pieces rest => pieces.flatMap Prod.fst ++ rest

section Steps

variable {m : sse_msg_t} {cap : Nat} {text stop : List UInt8} {blocks : UInt32} {ev : sse_event_t}
variable {block : block_t} {t : List UInt8}

theorem At.event (h : At m cap text block blocks stop) {kind root} (hcarries : Carries ev kind root) :
    sse_msg_event m ev = apply_event m kind.bytes root := by
  rw [sse_msg_event_eq h.closed hcarries.1, hcarries.2]

theorem At.fits (h : At m cap text block blocks stop) {s : List UInt8}
    (hroom : text.length + s.length + SSE_TAIL_RESERVE < cap) : Fits m s.length := by
  refine ⟨h.frozen, ?_, ?_⟩
  · rw [h.w]
  · rw [h.w]
    exact hroom

theorem At.append (h : At m cap text block blocks stop) (s : List UInt8) :
    At (m.append s) cap (text ++ s) block blocks stop :=
  { h with w := by rw [append_w, h.w]; rfl }

theorem At.ended (h : At m cap text .none blocks stop) : Ended m cap text true stop :=
  ⟨h.w, h.started, h.closed, h.err, h.stop_eq, Or.inr h.block_eq⟩

/-- Where there is no room for a fragment the open block is closed. -/
theorem At.freeze (h : At m cap text block blocks stop) (hroom : text.length + 3 < cap) :
    Frozen (freeze m) cap (text ++ freeze_text block) true stop := by
  have hok : m.w.overflow = false := by rw [h.w]
  have hspace : m.w.len + 3 < m.w.cap := by
    rw [h.w]
    exact hroom
  have hclosed := h.append (freeze_text block)
  rw [freeze_eq h.frozen hok hspace, h.block_eq]
  exact ⟨⟨hclosed.w, hclosed.started, hclosed.closed, hclosed.err, hclosed.stop_eq, Or.inl rfl⟩, rfl⟩

theorem At.not_fits (h : At m cap text block blocks stop) {s : List UInt8}
    (hfull : cap ≤ text.length + s.length + SSE_TAIL_RESERVE) : ¬ Fits m s.length := by
  rintro ⟨-, -, hroom⟩
  rw [h.w] at hroom
  exact absurd hroom (Nat.not_lt.mpr hfull)

/-- What `start_block` does to a message with no open block. -/
theorem At.open_event (h : At m cap text .none blocks stop) {cb : json_value_t} (hopens : Opens ev cb) :
    comma_text m = comma_before blocks ∧
      sse_msg_event m ev = { open_block m cb with blocks := (open_block m cb).blocks + 1 } := by
  obtain ⟨root, hcarries, hget, htype⟩ := hopens
  have hready : ready m = m := by
    rw [ready, if_neg (not_not.mpr h.block_eq), begin_message_of_started h.started]
  have hcb := (found_of_json_parse hcarries.1.1).get (by decide) hget
  have hok : (ready m).w.overflow = false := by
    rw [hready, h.w]
  refine ⟨by rw [comma_text, comma_before, h.blocks_eq], ?_⟩
  rw [h.event hcarries, apply_event_start rfl, start_block_eq hok hget htype hcb.len_eq, hready]

theorem At.opened (h : At m cap text .none blocks stop) {cb : json_value_t} (hopens : Opens ev cb)
    (hroom : text.length + (comma_before blocks ++ opening cb).length + SSE_TAIL_RESERVE < cap) :
    At (sse_msg_event m ev) cap (text ++ (comma_before blocks ++ opening cb)) (block_kind cb) (blocks + 1) stop ∧
      (block_kind cb = .tool → Staged (sse_msg_event m ev) []) := by
  obtain ⟨hcomma, hevent⟩ := h.open_event hopens
  rw [hevent, open_block, hcomma]
  simp only [mput_n_of_fits (h.fits hroom)]
  have happend := h.append (comma_before blocks ++ opening cb)
  have hblocks : (m.append (comma_before blocks ++ opening cb)).blocks + 1 = blocks + 1 := by rw [happend.blocks_eq]
  cases hkind : block_kind cb with
  | none => exact absurd hkind block_kind_ne_none
  | text | other => exact ⟨{ happend with block_eq := rfl, blocks_eq := hblocks }, by rintro ⟨⟩⟩
  | tool =>
    exact ⟨{ happend with block_eq := rfl, blocks_eq := hblocks }, fun _ => Or.inl ⟨rfl, rfl, Nat.zero_le _⟩⟩

theorem At.open_refused (h : At m cap text .none blocks stop) {cb : json_value_t} (hopens : Opens ev cb)
    (hspace : text.length + 3 < cap)
    (hfull : cap ≤ text.length + (comma_before blocks ++ opening cb).length + SSE_TAIL_RESERVE) :
    Frozen (sse_msg_event m ev) cap text true stop := by
  obtain ⟨hcomma, hevent⟩ := h.open_event hopens
  have hok : m.w.overflow = false := by rw [h.w]
  have hfrozen := h.freeze hspace
  have hnone : freeze_text .none = [] := rfl
  rw [hnone, List.append_nil] at hfrozen
  rw [hevent, open_block, hcomma]
  simp only [mput_n_of_not_fits hok (h.not_fits hfull)]
  cases block_kind cb with
  | none | text | tool | other => exact { hfrozen with quiet := Or.inl hfrozen.frozen }

theorem At.delta (h : At m cap text block blocks stop) (hblock : block ≠ .none) {d dt} (hdelta : DeltaOf ev d dt) :
    sse_msg_event m ev =
      if json_str_eq (some dt) (some K_TEXT_DELTA) ∧ m.block = .text then text_delta m d
      else if json_str_eq (some dt) (some K_INPUT_JSON_DELTA) ∧ m.block = .tool then input_delta m d
      else { m with unknown_events := m.unknown_events + 1 } := by
  obtain ⟨root, hcarries, hget, htype, hget'⟩ := hdelta
  rw [h.event hcarries, apply_event, if_pos rfl, apply_delta, hget]
  simp [htype, h.block_eq, hblock, hget']

theorem DeltaOf.found {d dt} (h : DeltaOf ev d dt) : Found 31 d := by
  obtain ⟨root, hcarries, hget, -⟩ := h
  exact (found_of_json_parse hcarries.1.1).get (by decide) hget

/-- A piece of a text is put behind it, or there is no room for it and the block
    is closed. -/
theorem At.text_delta (h : At m cap text .text blocks stop) {raw : List UInt8} (hdelta : TextDelta ev raw)
    (hspace : text.length + 3 < cap) :
    text.length + raw.length + SSE_TAIL_RESERVE < cap ∧ At (sse_msg_event m ev) cap (text ++ raw) .text blocks stop ∨
      cap ≤ text.length + raw.length + SSE_TAIL_RESERVE ∧
        Frozen (sse_msg_event m ev) cap (text ++ QUOTE_BRACE.bytes) true stop := by
  obtain ⟨d, v, ⟨dt, hdelta, heq⟩, hget, hraw⟩ := hdelta
  rw [h.delta (by decide) hdelta, if_pos ⟨heq, h.block_eq⟩, sse.text_delta, hget]
  simp only [if_true, hraw]
  have hcount : At { m with deltas := m.deltas + 1 } cap text .text blocks stop := { h with }
  by_cases hroom : text.length + raw.length + SSE_TAIL_RESERVE < cap
  · left
    refine ⟨hroom, ?_⟩
    rw [mput_n_of_fits (hcount.fits hroom)]
    have happend := hcount.append raw
    split
    · exact { happend with }
    · exact happend
  · right
    have hok : ({ m with deltas := m.deltas + 1 } : sse_msg_t).w.overflow = false := by rw [hcount.w]
    have hfull := Nat.not_lt.mp hroom
    have hfrozen := hcount.freeze hspace
    rw [mput_n_of_not_fits hok (hcount.not_fits hfull)]
    refine ⟨hfull, ?_⟩
    split
    · exact { hfrozen with quiet := Or.inl hfrozen.frozen }
    · exact hfrozen

/-- A piece of a tool input is appended to what is staged, or the whole input
    has become too long for good. -/
theorem At.input_delta (h : At m cap text .tool blocks stop) {more} (hstaged : Staged m t)
    (hdelta : InputDelta ev more) :
    At (sse_msg_event m ev) cap text .tool blocks stop ∧ Staged (sse_msg_event m ev) (t ++ more) := by
  obtain ⟨d, v, ⟨dt, hdelta, heq⟩, hget, htype, us, hus, hmore⟩ := hdelta
  have hnot : ¬ (json_str_eq (some dt) (some K_TEXT_DELTA) ∧ m.block = .text) := by
    rw [h.block_eq]
    rintro ⟨-, hblock⟩
    cases hblock
  rw [h.delta (by decide) hdelta, if_neg hnot, if_pos ⟨heq, h.block_eq⟩, sse.input_delta, hget]
  have hv := hdelta.found.get (by decide) hget
  have hstr := hv.json_str htype ⟨us, hus, hmore⟩ (Nat.succ_pos SSE_DATA_MAX)
  have hgood : ¬ ((json_str (some v) (SSE_DATA_MAX + 1)).1 ≠ JSON_OK ∧
      (json_str (some v) (SSE_DATA_MAX + 1)).1 ≠ JSON_ENOSPC) := by
    rintro ⟨hok, hspace⟩
    rcases hstr with ⟨hrun, -⟩ | ⟨hrun, -⟩
    · rw [hrun] at hok
      exact hok rfl
    · exact hspace hrun
  simp only [ne_eq, not_true_eq_false, if_false] at hgood ⊢
  rw [if_neg hgood]
  refine ⟨{ h with }, ?_⟩
  rcases hstaged with ⟨hunder, htool, hlength⟩ | ⟨hover, hlength⟩
  · rcases hstr with ⟨hrun, -⟩ | ⟨hrun, hlong⟩
    · simp only [hrun, htool]
      by_cases hcut : SSE_TOOL_INPUT_MAX < t.length + more.length
      · right
        refine ⟨?_, by rw [length_append]; exact hcut⟩
        simp only [hcut, or_true, decide_true, Bool.or_true]
      · left
        refine ⟨?_, ?_, by rw [length_append]; omega⟩
        · have hok : JSON_OK ≠ JSON_ENOSPC := by decide
          simp only [hcut, hok, or_self, decide_false, Bool.or_false, hunder]
        · simp only
          rw [take_of_length_le (by omega)]
    · right
      refine ⟨?_, ?_⟩
      · simp only [hrun, true_or, decide_true, Bool.or_true]
      · rw [length_append]
        have hmax : SSE_DATA_MAX = SSE_TOOL_INPUT_MAX := rfl
        omega
  · right
    refine ⟨?_, by rw [length_append]; omega⟩
    simp [hover]

/-- The pieces of any other block are counted, and that is all. -/
theorem At.other_delta (h : At m cap text .other blocks stop) {raw} (hdelta : OtherDelta ev raw) :
    At (sse_msg_event m ev) cap text .other blocks stop := by
  obtain ⟨d, dt, key, v, hdelta, -⟩ := hdelta
  have hother (block : block_t) (hne : block_t.other ≠ block) (p : Prop) : ¬ (p ∧ m.block = block) := by
    rw [h.block_eq]
    rintro ⟨-, heq⟩
    exact hne heq
  rw [h.delta (by decide) hdelta, if_neg (hother _ (by decide) _), if_neg (hother _ (by decide) _)]
  exact { h with }

theorem At.stop_event (h : At m cap text block blocks stop) (hblock : block ≠ .none) (hstop : Stops ev) :
    sse_msg_event m ev = close_block m := by
  obtain ⟨root, hcarries⟩ := hstop
  rw [h.event hcarries, apply_event_stop rfl, if_neg (h.block_eq ▸ hblock)]

theorem At.text_stop (h : At m cap text .text blocks stop) (hstop : Stops ev) (hroom : text.length + 2 < cap) :
    At (sse_msg_event m ev) cap (text ++ QUOTE_BRACE.bytes) .none blocks stop := by
  have hok : m.w.overflow = false := by rw [h.w]
  have hspace : m.w.len + 2 < m.w.cap := by
    rw [h.w]
    exact hroom
  rw [h.stop_event (by decide) hstop, close_block,
    write_close_text h.block_eq h.frozen hok hspace]
  have happend := h.append QUOTE_BRACE.bytes
  exact { happend with block_eq := rfl }

theorem input_ok_eq (h : Staged m t) : input_ok m = usable t := by
  rcases h with ⟨hunder, rfl, hlength⟩ | ⟨hover, hlength⟩
  · have hempty : (json_parse (some [])).1 ≠ JSON_OK := by decide
    by_cases hnil : m.tool = []
    · simp [input_ok, usable, hnil, hempty]
    · simp [input_ok, usable, hunder, hnil, hlength]
  · have hlong : ¬ t.length ≤ SSE_TOOL_INPUT_MAX := by omega
    simp [input_ok, usable, hover, hlong]

theorem Staged.tool_eq (h : Staged m t) (husable : usable t = true) : m.tool = t := by
  rcases h with ⟨-, htool, -⟩ | ⟨-, hlength⟩
  · exact htool
  · have hlong : ¬ t.length ≤ SSE_TOOL_INPUT_MAX := by omega
    simp only [usable, hlong, decide_false, Bool.false_and] at husable
    cases husable

theorem At.write_input (h : At m cap text .tool blocks stop) (hstaged : Staged m t)
    (hroom : text.length + (input_written t).length + 1 + SSE_TAIL_RESERVE < cap ∨ usable t = false ∧ text.length + 3 < cap) :
    write_close m = m.append (input_written t ++ [CLOSE_BRACE]) := by
  have hok : m.w.overflow = false := by rw [h.w]
  cases husable : usable t with
  | true =>
    rw [input_written, husable, if_pos rfl] at hroom ⊢
    have htool := hstaged.tool_eq husable
    have hinput := (input_ok_eq hstaged).trans husable
    rw [← htool]
    refine write_close_input h.block_eq hinput ?_
    have hfits := h.fits (s := t ++ [CLOSE_BRACE]) (by
      rw [length_append]
      rcases hroom with hroom | ⟨hnot, -⟩
      · exact hroom
      · cases hnot)
    rwa [length_append, ← htool] at hfits
  | false =>
    have hinput := (input_ok_eq hstaged).trans husable
    have hspace : m.w.len + 3 < m.w.cap := by
      rw [h.w]
      change text.length + 3 < cap
      rcases hroom with hroom | ⟨-, hspace⟩
      · rw [input_written, husable] at hroom
        simp only [Bool.false_eq_true, if_false, length_cons, length_nil] at hroom
        omega
      · exact hspace
    rw [input_written, husable]
    exact write_close_empty h.block_eq h.frozen hok hspace hinput

/-- The staged input goes out whole, or there is no room for it and an empty one
    takes its place. -/
theorem At.tool_stop (h : At m cap text .tool blocks stop) (hstaged : Staged m t) (hstop : Stops ev)
    (hspace : text.length + SSE_TAIL_RESERVE < cap) :
    (text.length + (input_written t).length + 1 + SSE_TAIL_RESERVE < cap ∨ usable t = false) ∧
        At (sse_msg_event m ev) cap (text ++ (input_written t ++ [CLOSE_BRACE])) .none blocks stop ∨
      (cap ≤ text.length + (input_written t).length + 1 + SSE_TAIL_RESERVE ∧ usable t = true) ∧
        Frozen (sse_msg_event m ev) cap (text ++ EMPTY_INPUT.bytes) true stop := by
  have hreserve : SSE_TAIL_RESERVE = 128 := rfl
  rw [h.stop_event (by decide) hstop, close_block]
  by_cases hroom : text.length + (input_written t).length + 1 + SSE_TAIL_RESERVE < cap ∨ usable t = false
  · left
    refine ⟨hroom, ?_⟩
    rw [h.write_input hstaged (hroom.imp_right fun hnot => ⟨hnot, by omega⟩)]
    have happend := h.append (input_written t ++ [CLOSE_BRACE])
    exact { happend with block_eq := rfl }
  · right
    rw [not_or, Nat.not_lt, Bool.not_eq_false] at hroom
    obtain ⟨hfull, husable⟩ := hroom
    have hok : m.w.overflow = false := by rw [h.w]
    have hinput := (input_ok_eq hstaged).trans husable
    have htool : m.tool = input_written t := by
      rw [input_written, husable, if_pos rfl]
      exact hstaged.tool_eq husable
    have hnot := h.not_fits (s := input_written t ++ [CLOSE_BRACE]) (by rw [length_append]; exact hfull)
    rw [length_append, ← htool] at hnot
    rw [write_close_full h.block_eq h.frozen hok hinput hnot]
    have hfrozen := h.freeze (by omega)
    exact ⟨⟨hfull, husable⟩, { hfrozen with quiet := Or.inl hfrozen.frozen }⟩

theorem At.other_stop (h : At m cap text .other blocks stop) (hstop : Stops ev) :
    At (sse_msg_event m ev) cap text .none blocks stop := by
  have hwrite : write_close m = m := by simp only [write_close, h.block_eq]
  rw [h.stop_event (by decide) hstop, close_block, hwrite]
  exact { h with block_eq := rfl }

end Steps

/-- The blocks as they are written when there are `blocks` of them already. -/
def joined : UInt32 → List (List UInt8) → List UInt8
  | _, [] => []
  | blocks, b :: bs => comma_before blocks ++ b ++ joined (blocks + 1) bs

section Runs

variable {m : sse_msg_t} {cap : Nat} {text stop : List UInt8} {blocks : UInt32} {evs : List sse_event_t}

/-- The pieces of a text are put behind it, or the block is closed before all of
    them are there. -/
theorem At.text_deltas (h : At m cap text .text blocks stop) {deltas} (hdeltas : List.Forall₂ TextDelta evs deltas)
    (hspace : text.length + SSE_TAIL_RESERVE < cap) :
    (text ++ deltas.flatten).length + SSE_TAIL_RESERVE < cap ∧
        At (evs.foldl sse_msg_event m) cap (text ++ deltas.flatten) .text blocks stop ∨
      cap ≤ (text ++ deltas.flatten).length + SSE_TAIL_RESERVE ∧
        ∃ x, Frozen (evs.foldl sse_msg_event m) cap x true stop ∧ x.length < (text ++ deltas.flatten).length + 2 ∧
          x.length + SSE_TAIL_RESERVE < cap + 3 := by
  have hreserve : SSE_TAIL_RESERVE = 128 := rfl
  induction hdeltas generalizing m text with
  | nil =>
    rw [List.flatten_nil, List.append_nil]
    exact Or.inl ⟨hspace, h⟩
  | @cons ev raw evs deltas hdelta hdeltas ih =>
    rw [foldl_cons, flatten_cons, ← append_assoc]
    rcases h.text_delta hdelta (by omega) with ⟨hroom, hstep⟩ | ⟨hfull, hfrozen⟩
    · exact ih hstep (by rw [length_append]; exact hroom)
    · have hinner : ∀ ev ∈ evs, Inner ev := inner_of_forall₂ TextDelta.inner hdeltas
      refine Or.inr ⟨?_, _, hfrozen.events hinner, ?_, ?_⟩
      · simp only [length_append] at hfull ⊢
        omega
      · simp only [length_append, length_QUOTE_BRACE]
        omega
      · simp only [length_append, length_QUOTE_BRACE]
        omega

theorem At.input_deltas (h : At m cap text .tool blocks stop) {t} (hstaged : Staged m t) {inputs}
    (hinputs : List.Forall₂ InputDelta evs inputs) :
    At (evs.foldl sse_msg_event m) cap text .tool blocks stop ∧
      Staged (evs.foldl sse_msg_event m) (t ++ inputs.flatten) := by
  induction hinputs generalizing m t with
  | nil =>
    rw [List.flatten_nil, List.append_nil]
    exact ⟨h, hstaged⟩
  | @cons ev more evs inputs hinput _ ih =>
    obtain ⟨hat, hstaged'⟩ := h.input_delta hstaged hinput
    rw [foldl_cons, flatten_cons, ← append_assoc]
    exact ih hat hstaged'

theorem At.other_deltas (h : At m cap text .other blocks stop) {raws} (hdeltas : List.Forall₂ OtherDelta evs raws) :
    At (evs.foldl sse_msg_event m) cap text .other blocks stop := by
  induction hdeltas generalizing m with
  | nil => exact h
  | cons hdelta _ ih => exact ih (h.other_delta hdelta)

end Runs

/-- What a run of blocks leaves, where `text` is the document with all of them in
    it: that document, or one that is frozen and, but for an empty tool input at
    its end, not complete. The last `slack` bytes need no room of their own. -/
inductive Outcome (m : sse_msg_t) (cap : Nat) (text : List UInt8) (blocks : UInt32) (stop : List UInt8) (slack : Nat) : Prop
  | whole (hat : At m cap text .none blocks stop) (hroom : text.length + SSE_TAIL_RESERVE < cap + slack)
  | full (hfrozen : Frozen m cap text true stop) (hroom : text.length + SSE_TAIL_RESERVE < cap + slack)
      (hfull : cap ≤ text.length + SSE_TAIL_RESERVE)
  | short {x : List UInt8} (hfrozen : Frozen m cap x true stop) (hlt : x.length < text.length)
      (hfull : cap + slack ≤ text.length + SSE_TAIL_RESERVE) (hspace : x.length + SSE_TAIL_RESERVE < cap + 3)

section Blocks

variable {m : sse_msg_t} {cap slack : Nat} {text stop : List UInt8} {blocks : UInt32} {evs : List sse_event_t}
variable {b : block_spec} {t : List UInt8}

theorem usable_iff : usable t = true ↔ t.length ≤ SSE_TOOL_INPUT_MAX ∧
    ∃ before v after, Document JSON_MAX_DEPTH .object before v after ∧ t = before ++ (v ++ after) := by
  simp only [usable, Bool.and_eq_true, decide_eq_true_eq]
  constructor
  · rintro ⟨⟨hlength, hok⟩, htype⟩
    obtain ⟨before, v, after, type, hdocument, htext, hout⟩ := json_parse_sound (Prod.ext hok rfl)
    obtain rfl : type = .object := (congrArg json_value_t.type hout).symm.trans htype
    exact ⟨hlength, before, v, after, hdocument, htext⟩
  · rintro ⟨hlength, before, v, after, hdocument, rfl⟩
    rw [json_parse_complete hdocument]
    exact ⟨⟨hlength, rfl⟩, rfl⟩

theorem IsObject.of_usable (h : usable t = true) : IsObject t := by
  obtain ⟨-, before, v, after, hdocument, htext⟩ := usable_iff.mp h
  exact ⟨_, before, v, after, hdocument, htext⟩

theorem IsObject.two_le (h : IsObject t) : 2 ≤ t.length ∧ (t.length = 2 → t = [OPEN_BRACE, CLOSE_BRACE]) := by
  obtain ⟨depth, before, v, after, ⟨-, hv, -⟩, rfl⟩ := h
  obtain ⟨rest, hrest⟩ := object_head hv
  obtain ⟨u, hu⟩ := object_last hv
  cases u with
  | nil =>
    rw [hu] at hrest
    cases (cons.inj hrest).1
  | cons c u =>
    rw [hu, cons_append] at hrest
    obtain ⟨rfl, -⟩ := cons.inj hrest
    simp only [hu, length_append, length_cons, length_nil]
    refine ⟨by omega, fun htwo => ?_⟩
    have hbefore : before = [] := eq_nil_of_length_eq_zero (by omega)
    have hafter : after = [] := eq_nil_of_length_eq_zero (by omega)
    have hnil : u = [] := eq_nil_of_length_eq_zero (by omega)
    rw [hbefore, hafter, hnil]
    rfl

theorem slack_le : b.slack b.written ≤ b.written.length ∧ b.slack b.written ≤ 3 := by
  cases b with
  | text start deltas =>
    simp only [block_spec.slack, block_spec.written, text_block, length_append, length_QUOTE_BRACE]
    omega
  | tool id name inputs =>
    simp only [block_spec.slack]
    split
    · rename_i heq
      rw [heq]
      simp only [tool_block, length_append, length_EMPTY_INPUT, length_cons, length_nil]
      omega
    · exact ⟨Nat.zero_le _, Nat.zero_le _⟩
  | other pieces rest => exact ⟨Nat.zero_le _, Nat.zero_le _⟩

theorem written_pos (h : BlockEvents b evs) : 0 < b.written.length := by
  cases h with
  | text | tool => simp [block_spec.written, text_block, tool_block]
  | other _ hrest =>
    rw [block_spec.written, length_append]
    have hpos := length_pos_of_ne_nil hrest
    omega

/-- Behind a frozen document a block is missing. -/
theorem Outcome.short_of_frozen {x} (hfrozen : Frozen m cap x true stop) (hlt : x.length ≤ text.length)
    (hfull : cap ≤ text.length + SSE_TAIL_RESERVE) (hspace : x.length + SSE_TAIL_RESERVE < cap + 3)
    (hevents : BlockEvents b evs) :
    Outcome (evs.foldl sse_msg_event m) cap (text ++ (comma_before blocks ++ b.written)) (blocks + 1) stop
      (b.slack b.written) := by
  have hslack := @slack_le b
  have hpos := written_pos hevents
  refine .short (hfrozen.events hevents.inner) ?_ ?_ hspace
  · simp only [length_append]
    omega
  · simp only [length_append]
    omega

theorem At.text_events (h : At m cap text .none blocks stop) (hspace : text.length + SSE_TAIL_RESERVE < cap + 3) {first last start deltas}
    (hfirst : OpensText first start) (hdeltas : List.Forall₂ TextDelta evs deltas) (hlast : Stops last) :
    Outcome ((first :: (evs ++ [last])).foldl sse_msg_event m) cap
      (text ++ (comma_before blocks ++ (block_spec.text start deltas).written)) (blocks + 1) stop 2 := by
  have hreserve : SSE_TAIL_RESERVE = 128 := rfl
  have hinner : ∀ ev ∈ evs ++ [last], Inner ev :=
    forall_mem_append.mpr ⟨inner_of_forall₂ TextDelta.inner hdeltas, forall_mem_singleton.mpr hlast.inner⟩
  obtain ⟨cb, hopens, hkind, -⟩ := hfirst
  have hopening : opening cb = TEXT_OPEN.bytes := by simp only [opening, hkind]
  have hpos : 0 < TEXT_OPEN.bytes.length := by decide
  have hlength : (text ++ (comma_before blocks ++ (block_spec.text start deltas).written)).length =
      (text ++ (comma_before blocks ++ TEXT_OPEN.bytes) ++ deltas.flatten).length + 2 := by
    simp only [block_spec.written, text_block, length_append, length_QUOTE_BRACE]
    omega
  rw [foldl_cons]
  by_cases hroom : text.length + (comma_before blocks ++ opening cb).length + SSE_TAIL_RESERVE < cap
  · have hopen := (h.opened hopens hroom).1
    rw [hkind, hopening] at hopen
    rw [hopening, ← length_append] at hroom
    rw [foldl_append, foldl_cons, foldl_nil]
    rcases hopen.text_deltas hdeltas hroom with ⟨hroom', hrun⟩ | ⟨hfull, x, hfrozen, hlt, hshort⟩
    · have hstop := hrun.text_stop hlast (by omega)
      refine .whole ?_ (by omega)
      simpa only [block_spec.written, text_block, append_assoc] using hstop
    · have hend := @Frozen.events _ _ _ _ _ [last] hfrozen (forall_mem_singleton.mpr hlast.inner)
      exact .short hend (by omega) (by omega) hshort
  · have hfrozen := h.open_refused hopens (by omega) (Nat.not_lt.mp hroom)
    rw [hopening] at hroom
    simp only [length_append] at hroom hlength
    refine .short (hfrozen.events hinner) ?_ ?_ hspace
    · simp only [length_append]
      omega
    · simp only [length_append]
      omega

section ToolBlock

variable {id name : List UInt8} {inputs : List (List UInt8)}

theorem length_tool_written : (text ++ (comma_before blocks ++ (block_spec.tool id name inputs).written)).length =
    (text ++ (comma_before blocks ++ tool_head id name)).length + (input_written inputs.flatten).length + 1 := by
  simp only [block_spec.written, tool_block, length_append, length_singleton]
  omega

/-- An empty input may stand in the reserve. -/
theorem slack_tool_written : (block_spec.tool id name inputs).slack (block_spec.tool id name inputs).written =
    if input_written inputs.flatten = [OPEN_BRACE, CLOSE_BRACE] then 3 else 0 := by
  simp only [block_spec.slack, block_spec.written, tool_block, append_cancel_left_eq, append_cancel_right_eq,
    length_EMPTY_INPUT]

/-- The end of a tool call: its input is written, or the empty one takes its place
    in a document that is then full. -/
theorem At.tool_closed {last}
    (h : At m cap (text ++ (comma_before blocks ++ tool_head id name)) .tool (blocks + 1) stop)
    (hstaged : Staged m inputs.flatten) (hlast : Stops last)
    (hroom : (text ++ (comma_before blocks ++ tool_head id name)).length + SSE_TAIL_RESERVE < cap) :
    Outcome (sse_msg_event m last) cap
      (text ++ (comma_before blocks ++ (block_spec.tool id name inputs).written)) (blocks + 1) stop
      ((block_spec.tool id name inputs).slack (block_spec.tool id name inputs).written) := by
  have hlength := @length_tool_written text blocks id name inputs
  rw [slack_tool_written]
  rcases h.tool_stop hstaged hlast hroom with ⟨hroom', hstop⟩ | ⟨⟨hfull, husable⟩, hfrozen⟩
  · refine .whole ?_ ?_
    · simpa only [block_spec.written, tool_block, append_assoc] using hstop
    · rw [hlength]
      rcases hroom' with hroom' | hnot
      · omega
      · have hempty : input_written inputs.flatten = [OPEN_BRACE, CLOSE_BRACE] := by simp [input_written, hnot]
        rw [if_pos hempty, hempty]
        simp only [length_cons, length_nil]
        omega
  · by_cases hempty : input_written inputs.flatten = [OPEN_BRACE, CLOSE_BRACE]
    · -- the empty input that takes the place of the staged one is that one
      have htext : text ++ (comma_before blocks ++ (block_spec.tool id name inputs).written) =
          text ++ (comma_before blocks ++ tool_head id name) ++ EMPTY_INPUT.bytes := by
        simp only [block_spec.written, tool_block, hempty, append_assoc]
        rfl
      rw [if_pos hempty, htext]
      refine .full hfrozen ?_ ?_
      · rw [length_append, length_EMPTY_INPUT]
        omega
      · rw [← htext, hlength]
        omega
    · have hlong : 3 ≤ (input_written inputs.flatten).length := by
        rw [input_written, husable, if_pos rfl] at hempty ⊢
        obtain ⟨htwo, hshort⟩ := (IsObject.of_usable husable).two_le
        by_contra hlt
        exact hempty (hshort (by omega))
      rw [if_neg hempty]
      refine .short hfrozen ?_ ?_ (by rw [length_append, length_EMPTY_INPUT]; omega)
      · rw [hlength, length_append, length_EMPTY_INPUT]
        omega
      · rw [hlength]
        omega

end ToolBlock

theorem At.tool_events (h : At m cap text .none blocks stop) (hspace : text.length + SSE_TAIL_RESERVE < cap + 3)
    {first last id name inputs} (hfirst : OpensTool first id name) (hinputs : List.Forall₂ InputDelta evs inputs)
    (hlast : Stops last) :
    Outcome ((first :: (evs ++ [last])).foldl sse_msg_event m) cap
      (text ++ (comma_before blocks ++ (block_spec.tool id name inputs).written)) (blocks + 1) stop
      ((block_spec.tool id name inputs).slack (block_spec.tool id name inputs).written) := by
  have hreserve : SSE_TAIL_RESERVE = 128 := rfl
  have hinner : ∀ ev ∈ evs ++ [last], Inner ev :=
    forall_mem_append.mpr ⟨inner_of_forall₂ InputDelta.inner hinputs, forall_mem_singleton.mpr hlast.inner⟩
  obtain ⟨cb, hopens, hkind, rfl, rfl⟩ := hfirst
  have hopening : opening cb = tool_head (span_or (some cb) K_ID EMPTY_STRING) (span_or (some cb) K_NAME EMPTY_STRING) := by
    simp only [opening, hkind]
  revert hopening
  generalize span_or (some cb) K_ID EMPTY_STRING = id
  generalize span_or (some cb) K_NAME EMPTY_STRING = name
  intro hopening
  rw [foldl_cons]
  by_cases hroom : text.length + (comma_before blocks ++ opening cb).length + SSE_TAIL_RESERVE < cap
  · obtain ⟨hopen, hstaged⟩ := h.opened hopens hroom
    rw [hkind, hopening] at hopen
    rw [hopening, ← length_append] at hroom
    obtain ⟨hrun, hstaged'⟩ := hopen.input_deltas (hstaged hkind) hinputs
    rw [nil_append] at hstaged'
    rw [foldl_append, foldl_cons, foldl_nil]
    exact hrun.tool_closed hstaged' hlast hroom
  · have hfrozen := h.open_refused hopens (by omega) (Nat.not_lt.mp hroom)
    have hbound : (if input_written inputs.flatten = [OPEN_BRACE, CLOSE_BRACE] then 3 else 0) ≤
        (input_written inputs.flatten).length + 1 := by
      split
      · rename_i hempty
        rw [hempty]
        decide
      · exact Nat.zero_le _
    rw [hopening, Nat.not_lt] at hroom
    have hlength := @length_tool_written text blocks id name inputs
    have hlength' : (text ++ (comma_before blocks ++ tool_head id name)).length = _ := length_append
    refine .short (hfrozen.events hinner) (by omega) ?_ hspace
    rw [slack_tool_written]
    omega

theorem At.other_events (h : At m cap text .none blocks stop) (hspace : text.length + SSE_TAIL_RESERVE < cap + 3)
    {first last pieces rest} (hfirst : OpensOther first (pieces.flatMap Prod.fst ++ rest)) (hrest : rest ≠ [])
    (hdeltas : List.Forall₂ OtherDelta evs (pieces.map Prod.snd)) (hlast : Stops last) :
    Outcome ((first :: (evs ++ [last])).foldl sse_msg_event m) cap
      (text ++ (comma_before blocks ++ (block_spec.other pieces rest).written)) (blocks + 1) stop 0 := by
  have hreserve : SSE_TAIL_RESERVE = 128 := rfl
  have hinner : ∀ ev ∈ evs ++ [last], Inner ev :=
    forall_mem_append.mpr ⟨inner_of_forall₂ OtherDelta.inner hdeltas, forall_mem_singleton.mpr hlast.inner⟩
  obtain ⟨cb, hopens, hkind, htext⟩ := hfirst
  have hopening : opening cb = (block_spec.other pieces rest).written := by
    simp only [opening, hkind]
    exact htext.symm
  have hpos : 0 < (block_spec.other pieces rest).written.length := by
    rw [block_spec.written, length_append]
    have hpos := length_pos_of_ne_nil hrest
    omega
  rw [foldl_cons]
  by_cases hroom : text.length + (comma_before blocks ++ opening cb).length + SSE_TAIL_RESERVE < cap
  · have hopen := (h.opened hopens hroom).1
    rw [hkind, hopening] at hopen
    rw [hopening, ← length_append] at hroom
    rw [foldl_append, foldl_cons, foldl_nil]
    exact .whole ((hopen.other_deltas hdeltas).other_stop hlast) hroom
  · have hfrozen := h.open_refused hopens (by omega) (Nat.not_lt.mp hroom)
    rw [hopening, Nat.not_lt] at hroom
    refine .short (hfrozen.events hinner) ?_ (by rw [length_append]; exact hroom) hspace
    simp only [length_append]
    omega

/-- The events of one block put that block behind what is there, as far as there
    is room for it. -/
theorem Outcome.block_events (h : Outcome m cap text blocks stop slack) (hslack : slack ≤ 3) (hevents : BlockEvents b evs) :
    Outcome (evs.foldl sse_msg_event m) cap (text ++ (comma_before blocks ++ b.written)) (blocks + 1) stop
      (b.slack b.written) := by
  have hreserve : SSE_TAIL_RESERVE = 128 := rfl
  cases h with
  | whole hat hroom =>
    cases hevents with
    | text hfirst hdeltas hlast => exact hat.text_events (by omega) hfirst hdeltas hlast
    | tool hfirst hinputs hlast => exact hat.tool_events (by omega) hfirst hinputs hlast
    | other hfirst hrest hdeltas hlast => exact hat.other_events (by omega) hfirst hrest hdeltas hlast
  | full hfrozen hroom hfull => exact short_of_frozen hfrozen le_rfl hfull (by omega) hevents
  | short hfrozen hlt hfull hspace => exact short_of_frozen hfrozen hlt.le (by omega) hspace hevents

/-- By induction over the blocks. -/
theorem Outcome.blocks_events (h : Outcome m cap text blocks stop slack) (hslack : slack ≤ 3) {bs parts}
    (hparts : List.Forall₂ BlockEvents bs parts) :
    ∃ blocks', Outcome (parts.flatten.foldl sse_msg_event m) cap (text ++ joined blocks (bs.map block_spec.written)) blocks'
      stop (bs.foldl (fun _ b => b.slack b.written) slack) := by
  induction hparts generalizing m text blocks slack with
  | nil =>
    simp only [List.map_nil, joined, List.append_nil]
    exact ⟨blocks, h⟩
  | @cons b part bs parts hpart _ ih =>
    obtain ⟨blocks', hrest⟩ := ih (h.block_events hslack hpart) slack_le.2
    refine ⟨blocks', ?_⟩
    rw [List.flatten_cons, List.foldl_append, List.map_cons, joined, ← List.append_assoc]
    exact hrest

end Blocks

section Message

variable {cap : Nat} {id role model : List UInt8} {evs : List sse_event_t}

/-- The head of the message goes out, or there is no room for it and the message
    does not begin. -/
theorem message_started {ev} (hcap : 192 ≤ cap) (hstarts : Starts ev id role model) :
    (head id role model).length + SSE_TAIL_RESERVE < cap ∧
        At (sse_msg_event (sse_msg_init true cap) ev) cap (head id role model) .none 0 [] ∨
      cap ≤ (head id role model).length + SSE_TAIL_RESERVE ∧
        Frozen (sse_msg_event (sse_msg_init true cap) ev) cap [] false [] := by
  obtain ⟨root, msg, hcarries, hget, htype, rfl, rfl, rfl⟩ := hstarts
  have hok : (sse_msg_init true cap).w.overflow = false := decide_eq_false (by change cap ≠ 0; omega)
  have hevent : sse_msg_event (sse_msg_init true cap) ev = begin_message (sse_msg_init true cap) (some msg) := by
    rw [sse_msg_event_eq rfl hcarries.1, hcarries.2, apply_event, if_neg (by decide), if_neg (by decide),
      if_neg (by decide), if_pos rfl, hget]
    simp [htype]
  rw [hevent, begin_message_eq hok rfl]
  simp only
  by_cases hroom : (head (span_or (some msg) K_ID EMPTY_STRING) (span_or (some msg) K_ROLE ASSISTANT)
      (span_or (some msg) K_MODEL EMPTY_STRING)).length + SSE_TAIL_RESERVE < cap
  · left
    have hfits : Fits (sse_msg_init true cap) (head (span_or (some msg) K_ID EMPTY_STRING)
        (span_or (some msg) K_ROLE ASSISTANT) (span_or (some msg) K_MODEL EMPTY_STRING)).length := by
      refine ⟨rfl, hok, ?_⟩
      change 0 + _ + _ < cap
      omega
    rw [if_pos hfits]
    refine ⟨hroom, ?_, rfl, rfl, rfl, rfl, rfl, rfl, rfl⟩
    rw [append_w, json_writer_t.push, hok]
    rfl
  · right
    refine ⟨Nat.not_lt.mp hroom, ?_⟩
    have hfits : ¬ Fits (sse_msg_init true cap) (head (span_or (some msg) K_ID EMPTY_STRING)
        (span_or (some msg) K_ROLE ASSISTANT) (span_or (some msg) K_MODEL EMPTY_STRING)).length := by
      rintro ⟨-, -, hlt⟩
      change 0 + _ + _ < cap at hlt
      omega
    rw [if_neg hfits]
    have hw : (freeze (sse_msg_init true cap)).w = ⟨true, cap, [], false⟩ := by
      change json_writer_init true cap = _
      rw [← hok]
      rfl
    exact ⟨⟨hw, rfl, rfl, rfl, rfl, Or.inl rfl⟩, rfl⟩

/-- What stands in front of the tail after a whole message: all that is written
    for it, less than that, or nothing at all. -/
inductive Front (cap : Nat) (id role model : List UInt8) (bs : List block_spec) (x : List UInt8) : Prop
  | whole (htext : x = head id role model ++ joined 0 (bs.map block_spec.written))
      (hroom : x.length + SSE_TAIL_RESERVE < cap + bs.foldl (fun _ b => b.slack b.written) 0)
  | short (hlt : x.length < (head id role model ++ joined 0 (bs.map block_spec.written)).length)
      (hfull : cap + bs.foldl (fun _ b => b.slack b.written) 0 ≤
        (head id role model ++ joined 0 (bs.map block_spec.written)).length + SSE_TAIL_RESERVE) (hne : bs ≠ [])
  | empty (htext : x = EMPTY_MSG.bytes) (hfull : cap ≤ (head id role model).length + SSE_TAIL_RESERVE)

theorem inner_of_parts {bs parts} (h : List.Forall₂ BlockEvents bs parts) : ∀ ev ∈ parts.flatten, Inner ev := by
  induction h with
  | nil => exact forall_mem_nil _
  | cons hpart _ ih =>
    rw [flatten_cons]
    exact forall_mem_append.mpr ⟨hpart.inner, ih⟩

/-- The head and the blocks, before the stop reason and the tail. -/
theorem parts_run {first bs parts} (hcap : 192 ≤ cap) (hstarts : Starts first id role model)
    (hparts : List.Forall₂ BlockEvents bs parts) :
    ∃ started text, Ended (parts.flatten.foldl sse_msg_event (sse_msg_event (sse_msg_init true cap) first)) cap text started [] ∧
      Front cap id role model bs (front started text) ∧ (front started text).length + 72 ≤ cap := by
  have hreserve : SSE_TAIL_RESERVE = 128 := rfl
  rcases message_started hcap hstarts with ⟨hroom, hat⟩ | ⟨hfull, hfrozen⟩
  · obtain ⟨blocks', hrun⟩ := (Outcome.whole hat hroom : Outcome _ _ _ _ _ 0).blocks_events (Nat.zero_le 3) hparts
    have hslack : bs.foldl (fun _ b => b.slack b.written) 0 ≤ 3 := by
      cases bs using reverseRecOn with
      | nil => exact Nat.zero_le 3
      | append_singleton bs b =>
        rw [foldl_append]
        exact slack_le.2
    cases hrun with
    | whole hat' hroom' =>
      refine ⟨true, _, hat'.ended, .whole rfl hroom', ?_⟩
      rw [front, if_pos rfl]
      omega
    | full hfrozen' hroom' =>
      refine ⟨true, _, hfrozen'.toEnded, .whole rfl hroom', ?_⟩
      rw [front, if_pos rfl]
      omega
    | @short x hfrozen' hlt hfull hspace =>
      refine ⟨true, x, hfrozen'.toEnded, .short hlt hfull ?_, ?_⟩
      · rintro rfl
        simp only [List.map_nil, joined, List.append_nil, foldl_nil] at hfull
        omega
      · rw [front, if_pos rfl]
        omega
  · have hend := hfrozen.events (inner_of_parts hparts)
    refine ⟨false, [], hend.toEnded, .empty rfl hfull, ?_⟩
    change 67 + 72 ≤ cap
    omega

/-- A whole message: what stands in front of its tail, and the stop reason that
    is kept. -/
theorem message_run {bs stops} (hcap : 192 ≤ cap) (hevents : MessageEvents id role model bs stops evs) :
    let r := sse_msg_finish (evs.foldl sse_msg_event (sse_msg_init true cap))
    ∃ x, Front cap id role model bs x ∧ r.2.2.w.text = x ++ tail (stop_text (stop_after [] stops)) ∧
      (r.1 = SSE_OK ↔ (json_parse (some (x ++ tail (stop_text (stop_after [] stops))))).1 = JSON_OK) ∧
      StopOk (stop_after [] stops) := by
  obtain ⟨first, parts, deltas, last, hstarts, hparts, hdeltas, hends, rfl⟩ := hevents
  obtain ⟨started, text, hended, hfront, hroom⟩ := parts_run hcap hstarts hparts
  obtain ⟨hdelta, hok⟩ := hended.message_deltas ⟨⟨[], .nil⟩, Nat.succ_pos 31⟩ hdeltas
  have hend := hdelta.message_stop hends
  obtain ⟨htext, hcode⟩ := hend.finish hok (by change 67 < cap; omega) hroom
  rw [foldl_cons, foldl_append, foldl_append, foldl_cons, foldl_nil]
  exact ⟨_, hfront, htext, hcode, hok⟩

end Message

end fable.sse
