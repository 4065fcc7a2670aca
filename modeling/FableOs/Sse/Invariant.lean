import FableOs.Sse.Ops

namespace fable.sse

open fable.json List

/-- How far the document is. In every case it can still be completed: what is
    left of the reserve covers the end of an open block and the tail. -/
inductive Doc (w : json_writer_t) (started frozen : Bool) (block : block_t) (blocks : UInt32) : Prop
  | waiting (hstarted : started = false) (htext : w.text = []) (hblock : block = .none) (hfrozen : frozen = false)
      (hblocks : blocks = 0)
  | refused (hstarted : started = false) (htext : w.text = []) (hfrozen : frozen = true)
  | closed {id role model : List UInt8} {bs : List (List UInt8)} (hstarted : started = true)
      (hhead : Head id role model) (hbs : GoodBlocks bs) (htext : w.text = head id role model ++ content bs)
      (hroom : w.len + 125 < w.cap) (hblock : frozen = false → block = .none ∨ block = .other)
      (hfirst : frozen = false → bs = [] → blocks = 0)
  | text {id role model body : List UInt8} {bs : List (List UInt8)} {us : List unit_t} (hstarted : started = true)
      (hhead : Head id role model) (hbs : GoodBlocks bs) (hbody : Units body us)
      (htext : w.text = head id role model ++ (led COMMA bs ++ (TEXT_OPEN.bytes ++ body)))
      (hroom : w.len + 128 < w.cap) (hblock : block = .text) (hfrozen : frozen = false)
  | tool {id role model tool name : List UInt8} {bs : List (List UInt8)} (hstarted : started = true)
      (hhead : Head id role model) (hbs : GoodBlocks bs) (htool : tool ∈ string) (hname : name ∈ string)
      (htext : w.text = head id role model ++ (led COMMA bs ++ tool_head tool name))
      (hroom : w.len + 128 < w.cap) (hblock : block = .tool) (hfrozen : frozen = false)

/-- What holds of the fields of a message between two events. -/
structure Holds (w : json_writer_t) (started frozen : Bool) (block : block_t) (blocks : UInt32) (reason : List UInt8) :
    Prop where
  buf : w.buf = true
  cap : 192 ≤ w.cap
  ok : w.overflow = false
  stop : ∃ us, Units reason us
  stop_length : reason.length < SSE_STOP_MAX
  doc : Doc w started frozen block blocks

/-- It does not depend on the other fields. -/
abbrev Inv (m : sse_msg_t) : Prop := Holds m.w m.started m.frozen m.block m.blocks m.stop

/-- It holds at the start. -/
theorem inv_init {cap : Nat} (hcap : 192 ≤ cap) : Inv (sse_msg_init true cap) where
  buf := rfl
  cap := hcap
  ok := decide_eq_false (by change cap ≠ 0; omega)
  stop := ⟨[], .nil⟩
  stop_length := Nat.zero_lt_of_lt (Nat.lt_succ_self 31)
  doc := .waiting rfl rfl rfl rfl rfl

section Doc

variable {m m' : sse_msg_t} {w : json_writer_t} {started frozen : Bool} {block block' : block_t} {blocks blocks' : UInt32}

theorem Doc.of_frozen (h : Doc w started frozen block blocks) (hfrozen : frozen = true) :
    Doc w started frozen block' blocks' := by
  subst hfrozen
  cases h with
  | waiting _ _ _ hopen _ | text _ _ _ _ _ _ _ hopen | tool _ _ _ _ _ _ _ _ hopen => cases hopen
  | refused hstarted htext _ => exact .refused hstarted htext rfl
  | closed hstarted hhead hbs htext hroom _ _ => exact .closed hstarted hhead hbs htext hroom nofun nofun

/-- `m'` has more text than `m`, or as much, and is otherwise set up as `m` is. -/
structure Setup (m m' : sse_msg_t) : Prop where
  buf : m'.w.buf = m.w.buf
  cap : m'.w.cap = m.w.cap
  ok : m'.w.overflow = false
  stop : m'.stop = m.stop

theorem Inv.of_doc (h : Inv m) (hsetup : Setup m m') (hdoc : Doc m'.w m'.started m'.frozen m'.block m'.blocks) :
    Inv m' where
  buf := hsetup.buf.trans h.buf
  cap := hsetup.cap ▸ h.cap
  ok := hsetup.ok
  stop := hsetup.stop ▸ h.stop
  stop_length := hsetup.stop ▸ h.stop_length
  doc := hdoc

theorem goodBlocks_append {bs x} (hbs : GoodBlocks bs) (hx : Value BLOCK_DEPTH .object x) :
    GoodBlocks (bs ++ [x]) := by
  intro b hb
  rcases mem_append.mp hb with hb | hb
  · exact hbs b hb
  · rw [mem_singleton.mp hb]
    exact hx

theorem Doc.of_block {id role model x bs} (hstarted : started = true) (hhead : Head id role model)
    (hbs : GoodBlocks bs) (hx : Value BLOCK_DEPTH .object x)
    (htext : w.text = head id role model ++ (led COMMA bs ++ x)) (hroom : w.len + 125 < w.cap)
    (hblock : frozen = false → block = .none ∨ block = .other) : Doc w started frozen block blocks := by
  refine .closed hstarted hhead (goodBlocks_append hbs hx) (content_append ▸ htext) hroom hblock ?_
  intro _ hnil
  exact absurd hnil (append_ne_nil_of_right_ne_nil _ (cons_ne_nil _ _))

end Doc

section Freeze

variable {m : sse_msg_t}

theorem freeze_of_frozen (h : m.frozen = true) : freeze m = m := by
  rw [freeze, if_pos h]

theorem freeze_frozen : (freeze m).frozen = true := by
  rw [freeze]
  split
  · assumption
  · rfl

/-- What `freeze` closes an open block with. -/
def freeze_text : block_t → List UInt8
  | .text => QUOTE_BRACE.bytes
  | .tool => EMPTY_INPUT.bytes
  | _ => []

theorem freeze_eq (hfrozen : m.frozen = false) (hok : m.w.overflow = false) (hroom : m.w.len + 3 < m.w.cap) :
    freeze m = { m.append (freeze_text m.block) with frozen := true, clipped := true } := by
  have hput (f : cstr_t) (hlength : f.bytes.length ≤ 3) : json_put m.w f = m.w.push f.bytes :=
    json_put_n_of_room hok (by omega)
  rw [freeze, if_neg (by rw [hfrozen]; exact Bool.false_ne_true)]
  cases hblock : m.block with
  | text => simp only [hput QUOTE_BRACE (by decide), freeze_text, sse_msg_t.append, hblock]
  | tool => simp only [hput EMPTY_INPUT (by decide), freeze_text, sse_msg_t.append, hblock]
  | none | other => simp only [freeze_text, append_nil, hblock]

/-- There is always room for the end of a block. -/
theorem Inv.room (h : Inv m) : m.w.len + 3 < m.w.cap := by
  have hcap := h.cap
  cases h.doc with
  | waiting _ htext | refused _ htext => rw [json_writer_t.len, htext, length_nil]; omega
  | closed _ _ _ _ hroom | text _ _ _ _ _ hroom | tool _ _ _ _ _ _ hroom => omega

theorem Inv.freeze_setup (h : Inv m) : Setup m (freeze m) ∧ (freeze m).started = m.started ∧ (freeze m).blocks = m.blocks := by
  cases hfrozen : m.frozen with
  | true =>
    rw [freeze_of_frozen hfrozen]
    exact ⟨⟨rfl, rfl, h.ok, rfl⟩, rfl, rfl⟩
  | false =>
    rw [freeze_eq hfrozen h.ok h.room]
    exact ⟨⟨rfl, rfl, h.ok, rfl⟩, rfl, rfl⟩

/-- A document that is frozen is complete up to its tail. -/
theorem Inv.after_freeze (h : Inv m) : Inv (freeze m) := by
  refine h.of_doc h.freeze_setup.1 ?_
  cases hfrozen : m.frozen with
  | true =>
    rw [freeze_of_frozen hfrozen]
    exact h.doc
  | false =>
    rw [freeze_eq hfrozen h.ok h.room]
    cases h.doc with
    | waiting hstarted htext hblock _ _ =>
      refine .refused hstarted ?_ rfl
      simp [htext, hblock, freeze_text]
    | refused _ _ hfrozen' =>
      cases hfrozen.symm.trans hfrozen'
    | closed hstarted hhead hbs htext hroom hblock _ =>
      have hnil : freeze_text m.block = [] := by
        rcases hblock hfrozen with hb | hb <;> rw [hb] <;> rfl
      rw [hnil, append_nil]
      exact .closed hstarted hhead hbs htext hroom nofun nofun
    | @text id role model body bs us hstarted hhead hbs hbody htext hroom hblock _ =>
      refine .of_block hstarted hhead hbs (text_block_value hbody) ?_ ?_ nofun
      · simp [htext, hblock, freeze_text, text_block]
      · simp only [append_w, push_len, push_cap, hblock, freeze_text, length_QUOTE_BRACE]
        omega
    | tool hstarted hhead hbs htool hname htext hroom hblock _ =>
      refine .of_block hstarted hhead hbs (empty_tool_block_value htool hname) ?_ ?_ nofun
      · simp [htext, hblock, freeze_text]
      · simp only [append_w, push_len, push_cap, hblock, freeze_text, length_EMPTY_INPUT]
        omega

end Freeze

/-- The tool input is complete, but nested too deep for its place in the
    document, and it will be written there. -/
def SpoilsClose (m : sse_msg_t) : Prop :=
  m.block = .tool ∧ input_ok m = true ∧ Fits m (m.tool.length + 1) ∧
    ¬ ∃ before v after, Document INPUT_DEPTH .object before v after ∧ m.tool = before ++ (v ++ after)

section Close

variable {m : sse_msg_t}

/-- An accepted tool input is an object, with white space around it. -/
theorem input_ok_iff :
    input_ok m = true → ∃ before v after, Document JSON_MAX_DEPTH .object before v after ∧ m.tool = before ++ (v ++ after) := by
  intro h
  simp only [input_ok, Bool.and_eq_true, decide_eq_true_eq] at h
  obtain ⟨⟨-, hok⟩, htype⟩ := h
  obtain ⟨before, v, after, type, hdocument, htext, hout⟩ := json_parse_sound (Prod.ext hok rfl)
  obtain rfl : type = .object := (congrArg json_value_t.type hout).symm.trans htype
  exact ⟨before, v, after, hdocument, htext⟩

theorem write_close_of_frozen (h : m.frozen = true) : write_close m = m := by
  rw [write_close]
  split <;> simp [h]

theorem write_close_text (hblock : m.block = .text) (hfrozen : m.frozen = false) (hok : m.w.overflow = false)
    (hroom : m.w.len + 2 < m.w.cap) : write_close m = m.append QUOTE_BRACE.bytes := by
  have hput : json_put m.w QUOTE_BRACE = m.w.push QUOTE_BRACE.bytes := json_put_n_of_room hok hroom
  simp [write_close, hblock, hfrozen, hput, sse_msg_t.append]

theorem write_close_input (hblock : m.block = .tool) (hinput : input_ok m = true) (hfits : Fits m (m.tool.length + 1)) :
    write_close m = m.append (m.tool ++ [CLOSE_BRACE]) := by
  obtain ⟨hfrozen, hok, hroom⟩ := hfits
  have hput : json_put_n m.w m.tool = m.w.push m.tool := json_put_n_of_room hok (by omega)
  have hchar : json_put_char (m.w.push m.tool) CLOSE_BRACE = (m.w.push m.tool).push [CLOSE_BRACE] :=
    json_put_char_of_room hok (by simp only [push_len, push_cap]; omega)
  simp [write_close, hblock, hfrozen, hinput, mneed_of_fits ⟨hfrozen, hok, hroom⟩, hput, hchar, sse_msg_t.append]

theorem write_close_full (hblock : m.block = .tool) (hfrozen : m.frozen = false) (hok : m.w.overflow = false)
    (hinput : input_ok m = true) (hfits : ¬ Fits m (m.tool.length + 1)) : write_close m = freeze m := by
  simp [write_close, hblock, hfrozen, hinput, mneed_of_not_fits hok hfits, freeze_frozen]

theorem write_close_empty (hblock : m.block = .tool) (hfrozen : m.frozen = false) (hok : m.w.overflow = false)
    (hroom : m.w.len + 3 < m.w.cap) (hinput : input_ok m = false) : write_close m = m.append EMPTY_INPUT.bytes := by
  have hput : json_put m.w EMPTY_INPUT = m.w.push EMPTY_INPUT.bytes := json_put_n_of_room hok hroom
  simp [write_close, hblock, hfrozen, hinput, hput, sse_msg_t.append]

theorem Inv.closed_doc (h : Inv m) (hnone : m.frozen = true ∨ m.block = .none ∨ m.block = .other) :
    Doc m.w m.started m.frozen .none m.blocks := by
  cases h.doc with
  | waiting hstarted htext _ hfrozen hn => exact .waiting hstarted htext rfl hfrozen hn
  | refused hstarted htext hfrozen => exact .refused hstarted htext hfrozen
  | closed hstarted hhead hbs htext hroom _ hfirst =>
    exact .closed hstarted hhead hbs htext hroom (fun _ => Or.inl rfl) hfirst
  | text _ _ _ _ _ _ hb hfrozen | tool _ _ _ _ _ _ _ hb hfrozen =>
    rw [hb, hfrozen] at hnone
    rcases hnone with hnone | hnone | hnone <;> cases hnone

/-- The end of a block keeps the document completable, unless it spoils it. -/
theorem Inv.after_close (h : Inv m) (hspoils : ¬ SpoilsClose m) : Inv (close_block m) := by
  have hroom := h.room
  have hdone {m' : sse_msg_t} (hwrite : write_close m = m') (hsetup : Setup m m')
      (hdoc : Doc m'.w m'.started m'.frozen .none m'.blocks) : Inv (close_block m) := by
    rw [close_block, hwrite]
    exact h.of_doc ⟨hsetup.buf, hsetup.cap, hsetup.ok, hsetup.stop⟩ hdoc
  have hself : Setup m m := ⟨rfl, rfl, h.ok, rfl⟩
  cases hfrozen : m.frozen with
  | true =>
    exact hdone (write_close_of_frozen hfrozen) hself (h.closed_doc (Or.inl hfrozen))
  | false =>
    cases hdoc : h.doc with
    | waiting _ _ hblock _ _ =>
      have hwrite : write_close m = m := by simp only [write_close, hblock]
      exact hdone hwrite hself (h.closed_doc (Or.inr (Or.inl hblock)))
    | refused _ _ hfrozen' =>
      cases hfrozen.symm.trans hfrozen'
    | closed _ _ _ _ _ hblock _ =>
      have hwrite : write_close m = m := by
        rcases hblock hfrozen with hb | hb <;> simp only [write_close, hb]
      exact hdone hwrite hself (h.closed_doc (Or.inr (hblock hfrozen)))
    | text hstarted hhead hbs hbody htext hroom' hblock _ =>
      refine hdone (write_close_text hblock hfrozen h.ok (by omega)) ⟨rfl, rfl, h.ok, rfl⟩ ?_
      refine .of_block hstarted hhead hbs (text_block_value hbody) ?_ ?_ fun _ => Or.inl rfl
      · simp [htext, text_block]
      · simp only [append_w, push_len, push_cap, length_QUOTE_BRACE]
        omega
    | tool hstarted hhead hbs htool hname htext hroom' hblock _ =>
      cases hinput : input_ok m with
      | false =>
        refine hdone (write_close_empty hblock hfrozen h.ok hroom hinput) ⟨rfl, rfl, h.ok, rfl⟩ ?_
        refine .of_block hstarted hhead hbs (empty_tool_block_value htool hname) ?_ ?_ fun _ => Or.inl rfl
        · simp [htext]
        · simp only [append_w, push_len, push_cap, length_EMPTY_INPUT]
          omega
      | true =>
        by_cases hfits : Fits m (m.tool.length + 1)
        · have hshallow : ∃ before v after, Document INPUT_DEPTH .object before v after ∧ m.tool = before ++ (v ++ after) := by
            by_contra hdeep
            exact hspoils ⟨hblock, hinput, hfits, hdeep⟩
          obtain ⟨before, v, after, hdocument, htool'⟩ := hshallow
          refine hdone (write_close_input hblock hinput hfits) ⟨rfl, rfl, h.ok, rfl⟩ ?_
          refine .of_block hstarted hhead hbs (tool_block_value htool hname hdocument) ?_ ?_ fun _ => Or.inl rfl
          · simp [htext, tool_block, htool']
          · have hspace := hfits.room
            simp only [append_w, push_len, push_cap, length_append, length_singleton]
            omega
        · have hfreeze := h.after_freeze
          refine hdone (write_close_full hblock hfrozen h.ok hinput hfits) h.freeze_setup.1 ?_
          exact hfreeze.closed_doc (Or.inl freeze_frozen)

end Close

section Begin

variable {m : sse_msg_t}

theorem empty_string_mem : EMPTY_STRING.bytes ∈ string := mem_string_of_scan (by decide)

theorem assistant_mem : ASSISTANT.bytes ∈ string := mem_string_of_scan (by decide)

theorem span_or_mem {obj} {depth : Nat} (hdepth : depth + 1 ≤ JSON_MAX_DEPTH)
    (hobj : ∀ v ∈ obj, Found (depth + 1) v) {key fb} (hfb : fb.bytes ∈ string) : span_or obj key fb ∈ string := by
  cases obj with
  | none => exact hfb
  | some v =>
    cases hget : json_get (some v) (some key) with
    | mk rc out =>
      simp only [span_or, hget]
      split
      · rename_i h
        obtain ⟨rfl, htype, -⟩ := h
        obtain ⟨t, us, -, -, -, hmem⟩ := ((hobj v rfl).get hdepth hget).string htype
        exact hmem
      · exact hfb

theorem begin_message_of_started (h : m.started = true) (msg : Option json_value_t) : begin_message m msg = m := by
  rw [begin_message, if_pos h]

/-- It holds after the head of the message. -/
theorem Inv.after_begin (h : Inv m) {msg} {depth : Nat} (hdepth : depth + 1 ≤ JSON_MAX_DEPTH)
    (hmsg : ∀ v ∈ msg, Found (depth + 1) v) : Inv (begin_message m msg) := by
  cases hstarted : m.started with
  | true =>
    rw [begin_message_of_started hstarted]
    exact h
  | false =>
    rw [begin_message_eq h.ok hstarted]
    have hhead : Head (span_or msg K_ID EMPTY_STRING) (span_or msg K_ROLE ASSISTANT) (span_or msg K_MODEL EMPTY_STRING) :=
      ⟨span_or_mem hdepth hmsg empty_string_mem, span_or_mem hdepth hmsg assistant_mem,
        span_or_mem hdepth hmsg empty_string_mem⟩
    revert hhead
    generalize span_or msg K_ID EMPTY_STRING = id
    generalize span_or msg K_ROLE ASSISTANT = role
    generalize span_or msg K_MODEL EMPTY_STRING = model
    intro hhead
    by_cases hfits : Fits m (head id role model).length
    · simp only [if_pos hfits]
      refine h.of_doc ⟨rfl, rfl, h.ok, rfl⟩ ?_
      have hfrozen := hfits.1
      have hroom := hfits.room
      cases h.doc with
      | waiting _ htext hblock _ hblocks =>
        have hnone : GoodBlocks [] := forall_mem_nil _
        refine .closed rfl hhead hnone ?_ ?_ (fun _ => Or.inl hblock) fun _ _ => hblocks
        · simp [htext]
        · simp only [append_w, push_len, push_cap]
          omega
      | refused _ _ hfrozen' => cases hfrozen.symm.trans hfrozen'
      | closed hstarted' | text hstarted' | tool hstarted' => cases hstarted.symm.trans hstarted'
    · simp only [if_neg hfits]
      exact h.after_freeze

theorem begin_message_started_or_frozen (hok : m.w.overflow = false) (msg : Option json_value_t) :
    (begin_message m msg).started = true ∨ (begin_message m msg).frozen = true := by
  cases hstarted : m.started with
  | true =>
    rw [begin_message_of_started hstarted]
    exact Or.inl hstarted
  | false =>
    rw [begin_message_eq hok hstarted]
    simp only
    split
    · exact Or.inl rfl
    · exact Or.inr freeze_frozen

theorem begin_message_block (hok : m.w.overflow = false) (hblock : m.block = .none) (msg : Option json_value_t) :
    (begin_message m msg).block = .none := by
  cases hstarted : m.started with
  | true =>
    rw [begin_message_of_started hstarted]
    exact hblock
  | false =>
    rw [begin_message_eq hok hstarted]
    simp only
    split
    · exact hblock
    · rw [freeze]
      split <;> exact hblock

/-- Closing the open block keeps it, unless that spoils the document. -/
theorem Inv.after_ready (h : Inv m) (hspoils : ¬ SpoilsClose m) :
    Inv (ready m) ∧ (ready m).block = .none ∧ ((ready m).started = true ∨ (ready m).frozen = true) := by
  have hclosed : Inv (if m.block ≠ .none then close_block m else m) ∧
      (if m.block ≠ .none then close_block m else m).block = .none := by
    split
    · exact ⟨h.after_close hspoils, rfl⟩
    · rename_i hblock
      exact ⟨h, not_not.mp hblock⟩
  obtain ⟨hinv, hblock⟩ := hclosed
  have hdepth : 0 + 1 ≤ JSON_MAX_DEPTH := by decide
  exact ⟨hinv.after_begin hdepth nofun, begin_message_block hinv.ok hblock none,
    begin_message_started_or_frozen hinv.ok none⟩

end Begin

/-- A block is written that is nested too deep for its place in the document,
    or without the comma that belongs before it. -/
def SpoilsOpen (m : sse_msg_t) (cb : json_value_t) : Prop :=
  Fits m (comma_text m ++ opening cb).length ∧
    (block_kind cb = .other ∧ ¬ Value BLOCK_DEPTH .object cb.text ∨
      m.blocks = 0 ∧ m.w.text.getLast? ≠ some OPEN_BRACKET)

section Open

variable {m : sse_msg_t} {cb : json_value_t}

theorem object_last {depth : Nat} {v} (hv : Value depth .object v) : ∃ t, v = t ++ [CLOSE_BRACE] := by
  cases depth with
  | zero => exact hv.elim
  | succ depth =>
    cases hv with
    | @empty_object w h => exact ⟨OPEN_BRACE :: w, rfl⟩
    | @object items t h => exact ⟨OPEN_BRACE :: t, rfl⟩

theorem head_last (id role model : List UInt8) : ∃ t, head id role model = t ++ [OPEN_BRACKET] := by
  have hopen : CONTENT_OPEN.bytes = CONTENT_OPEN.bytes.dropLast ++ [OPEN_BRACKET] := by decide
  refine ⟨ID_OPEN.bytes ++ (id ++ (ROLE_OPEN.bytes ++ (role ++ (MODEL_OPEN.bytes ++ (model ++ CONTENT_OPEN.bytes.dropLast))))), ?_⟩
  rw [head, hopen]
  simp

/-- The last byte of the document tells whether there is a block in it. -/
theorem last_bracket_iff {id role model bs} (hbs : GoodBlocks bs) :
    (head id role model ++ content bs).getLast? = some OPEN_BRACKET ↔ bs = [] := by
  constructor
  · intro hlast
    rcases eq_nil_or_concat bs with rfl | ⟨bs', b, rfl⟩
    · rfl
    · rw [concat_eq_append] at hbs hlast
      obtain ⟨t, rfl⟩ := object_last (hbs b (mem_append_right _ (mem_singleton_self b)))
      rw [content_append, ← append_assoc, ← append_assoc, getLast?_concat] at hlast
      cases Option.some.inj hlast
  · rintro rfl
    obtain ⟨t, ht⟩ := head_last id role model
    rw [content_nil, List.append_nil, ht, List.getLast?_concat]

theorem content_comma {bs} (h : m.blocks = 0 ↔ bs = []) : content bs ++ comma_text m = led COMMA bs := by
  rcases eq_nil_or_concat bs with rfl | ⟨bs', b, rfl⟩
  · rw [comma_text, if_neg (not_not.mpr (h.mpr rfl))]
    rfl
  · have hblocks : m.blocks ≠ 0 := fun hzero => by
      rw [concat_eq_append] at h
      exact append_ne_nil_of_right_ne_nil _ (cons_ne_nil _ _) (h.mp hzero)
    rw [comma_text, if_pos hblocks, concat_eq_append, content_append, led_append, append_assoc, led_cons, led_nil]

/-- A document that takes another block: what stands before the comma. -/
theorem Inv.before_block (h : Inv m) (hblock : m.block = .none) (hbegun : m.started = true ∨ m.frozen = true)
    {n : Nat} (hfits : Fits m n) :
    m.started = true ∧ ∃ id role model bs, Head id role model ∧ GoodBlocks bs ∧
      m.w.text = head id role model ++ content bs ∧ (bs = [] → m.blocks = 0) := by
  have hfrozen := hfits.1
  cases h.doc with
  | waiting hstarted =>
    rw [hstarted, hfrozen] at hbegun
    rcases hbegun with hbegun | hbegun <;> cases hbegun
  | refused _ _ hfrozen' => cases hfrozen.symm.trans hfrozen'
  | closed hstarted hhead hbs htext _ _ hfirst => exact ⟨hstarted, _, _, _, _, hhead, hbs, htext, hfirst hfrozen⟩
  | text _ _ _ _ _ _ hb | tool _ _ _ _ _ _ _ hb => cases hblock.symm.trans hb

theorem block_kind_ne_none : block_kind cb ≠ .none := by
  unfold block_kind
  simp only
  split_ifs <;> decide

/-- A new block keeps the document completable, unless it spoils it. -/
theorem Inv.after_open (h : Inv m) (hblock : m.block = .none) (hbegun : m.started = true ∨ m.frozen = true)
    {depth : Nat} (hdepth : depth + 1 ≤ JSON_MAX_DEPTH) (hfound : Found (depth + 1) cb)
    (hspoils : ¬ SpoilsOpen m cb) :
    Inv { open_block m cb with blocks := (open_block m cb).blocks + 1 } := by
  by_cases hfits : Fits m (comma_text m ++ opening cb).length
  · obtain ⟨hstarted, id, role, model, bs, hhead, hbs, htext, hfirst⟩ := h.before_block hblock hbegun hfits
    have hblocks : m.blocks = 0 ↔ bs = [] := by
      refine ⟨fun hzero => ?_, hfirst⟩
      by_contra hne
      refine hspoils ⟨hfits, Or.inr ⟨hzero, fun hlast => hne ?_⟩⟩
      rw [htext] at hlast
      exact (last_bracket_iff hbs).mp hlast
    have hwhole : (m.w.push (comma_text m ++ opening cb)).text = head id role model ++ (led COMMA bs ++ opening cb) := by
      rw [push_text, htext, ← content_comma hblocks]
      simp
    have hroom : (m.w.push (comma_text m ++ opening cb)).len + 128 < m.w.cap := by
      have hspace := hfits.room
      rw [push_len]
      exact hspace
    rw [open_block]
    simp only [mput_n_of_fits hfits]
    cases hkind : block_kind cb with
    | none => exact absurd hkind block_kind_ne_none
    | text =>
      refine h.of_doc ⟨rfl, rfl, h.ok, rfl⟩ (.text hstarted hhead hbs .nil ?_ hroom rfl hfits.1)
      rw [List.append_nil]
      simpa only [opening, hkind, append_w] using hwhole
    | tool =>
      have hobj : ∀ v ∈ some cb, Found (depth + 1) v := by
        rintro _ ⟨⟩
        exact hfound
      have hspan (key : cstr_t) : span_or (some cb) key EMPTY_STRING ∈ string :=
        span_or_mem hdepth hobj empty_string_mem
      refine h.of_doc ⟨rfl, rfl, h.ok, rfl⟩
        (.tool hstarted hhead hbs (hspan K_ID) (hspan K_NAME) ?_ hroom rfl hfits.1)
      simpa only [opening, hkind, append_w] using hwhole
    | other =>
      have hvalue : Value BLOCK_DEPTH .object cb.text := by
        by_contra hdeep
        exact hspoils ⟨hfits, Or.inl ⟨hkind, hdeep⟩⟩
      refine h.of_doc ⟨rfl, rfl, h.ok, rfl⟩ (.of_block hstarted hhead hbs hvalue ?_ ?_ fun _ => Or.inr rfl)
      · simpa only [opening, hkind, append_w] using hwhole
      · exact Nat.lt_of_le_of_lt (Nat.add_le_add_left (by decide) _) hroom
  · have hfreeze := h.after_freeze
    rw [open_block]
    simp only [mput_n_of_not_fits h.ok hfits]
    cases block_kind cb <;>
      exact hfreeze.of_doc ⟨rfl, rfl, hfreeze.ok, rfl⟩ (hfreeze.doc.of_frozen freeze_frozen)

end Open

section Deltas

variable {m : sse_msg_t}

/-- The bytes between the quotes of a string are whole characters. -/
theorem str_inner_units {depth : Nat} {v} (hv : Found depth v) {inner} (h : str_inner v = some inner) :
    ∃ us, Units inner us := by
  unfold str_inner at h
  split at h
  · cases h
  · rename_i hstring
    have htype : v.type = .string := by
      by_contra hne
      exact hstring (Or.inl hne)
    obtain ⟨t, us, -, hbody, hus, -⟩ := hv.string htype
    rw [← Option.some.inj h, hbody]
    exact ⟨us, hus⟩

/-- More of the text of an open block, or the block is closed for good. -/
theorem Inv.after_put (h : Inv m) (hblock : m.block = .text) {inner us} (hinner : Units inner us) :
    Inv (mput_n m inner) := by
  by_cases hfits : Fits m inner.length
  · have hroom := hfits.room
    rw [mput_n_of_fits hfits]
    refine h.of_doc ⟨rfl, rfl, h.ok, rfl⟩ ?_
    cases h.doc with
    | waiting _ _ hb => cases hblock.symm.trans hb
    | refused _ _ hfrozen => cases hfits.1.symm.trans hfrozen
    | closed _ _ _ _ _ hb =>
      rw [hblock] at hb
      rcases hb hfits.1 with hb | hb <;> cases hb
    | text hstarted hhead hbs hbody htext _ _ hfrozen =>
      refine .text hstarted hhead hbs (hbody.append hinner) ?_ ?_ hblock hfrozen
      · simp [htext]
      · simp only [append_w, push_len, push_cap]
        omega
    | tool _ _ _ _ _ _ _ hb => cases hblock.symm.trans hb
  · rw [mput_n_of_not_fits h.ok hfits]
    exact h.after_freeze

/-- A piece of text keeps it. -/
theorem Inv.after_text_delta (h : Inv m) (hblock : m.block = .text) {d} {depth : Nat}
    (hdepth : depth + 1 ≤ JSON_MAX_DEPTH) (hd : Found (depth + 1) d) : Inv (text_delta m d) := by
  rw [text_delta]
  cases hget : json_get (some d) (some K_TEXT) with
  | mk rc v =>
    simp only
    split
    · exact h
    · rename_i inner hinner
      by_cases hrc : rc = JSON_OK
      · rw [if_pos hrc] at hinner
        subst hrc
        obtain ⟨us, hus⟩ := str_inner_units (hd.get hdepth hget) hinner
        have hcount : Inv { m with deltas := m.deltas + 1 } := h
        have hput := hcount.after_put hblock hus
        split
        · exact hput
        · exact hput
      · cases (if_neg hrc).symm.trans hinner

/-- So does a piece of a tool's input. -/
theorem Inv.after_input_delta (h : Inv m) (d : json_value_t) : Inv (input_delta m d) := by
  rw [input_delta]
  cases json_get (some d) (some K_PARTIAL_JSON) with
  | mk rc v =>
    simp only
    split
    · exact h
    · split <;> exact h

end Deltas

end fable.sse
