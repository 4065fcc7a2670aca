import FableOs.Json.RoundTrip
import FableOs.Sse.Spoils

namespace fable.sse

open fable.json List

/-! A message as a sequence of events, and the document that it means. -/

/-- The event is an object of a kind. -/
def Carries (ev : sse_event_t) (kind : cstr_t) (root : json_value_t) : Prop :=
  Reads ev root ∧ event_kind ev root = kind.bytes

/-- `message_start`, with the spans of three members of its message. -/
def Starts (ev : sse_event_t) (id role model : List UInt8) : Prop :=
  ∃ root msg, Carries ev K_MESSAGE_START root ∧ json_get (some root) (some K_MESSAGE) = (JSON_OK, msg) ∧
    msg.type = .object ∧ id = span_or (some msg) K_ID EMPTY_STRING ∧ role = span_or (some msg) K_ROLE ASSISTANT ∧
    model = span_or (some msg) K_MODEL EMPTY_STRING

/-- `content_block_start` -/
def Opens (ev : sse_event_t) (cb : json_value_t) : Prop :=
  ∃ root, Carries ev K_CONTENT_BLOCK_START root ∧ json_get (some root) (some K_CONTENT_BLOCK) = (JSON_OK, cb) ∧
    cb.type = .object

/-- The text that a block begins with, as it is written. -/
def start_text (cb : json_value_t) : List UInt8 :=
  let (rc, v) := json_get (some cb) (some K_TEXT)
  if rc = JSON_OK then (str_inner v).getD [] else []

def OpensText (ev : sse_event_t) (start : List UInt8) : Prop :=
  ∃ cb, Opens ev cb ∧ block_kind cb = .text ∧ start = start_text cb

def OpensTool (ev : sse_event_t) (id name : List UInt8) : Prop :=
  ∃ cb, Opens ev cb ∧ block_kind cb = .tool ∧ id = span_or (some cb) K_ID EMPTY_STRING ∧
    name = span_or (some cb) K_NAME EMPTY_STRING

def OpensOther (ev : sse_event_t) (text : List UInt8) : Prop :=
  ∃ cb, Opens ev cb ∧ block_kind cb = .other ∧ text = cb.text

/-- `content_block_delta`, with the type of its delta. -/
def DeltaOf (ev : sse_event_t) (d dt : json_value_t) : Prop :=
  ∃ root, Carries ev K_CONTENT_BLOCK_DELTA root ∧ json_get (some root) (some K_DELTA) = (JSON_OK, d) ∧
    d.type = .object ∧ json_get (some d) (some K_TYPE) = (JSON_OK, dt)

def HasDelta (ev : sse_event_t) (type : cstr_t) (d : json_value_t) : Prop :=
  ∃ dt, DeltaOf ev d dt ∧ json_str_eq (some dt) (some type) = true

/-- A piece of the text, as it is written. -/
def TextDelta (ev : sse_event_t) (raw : List UInt8) : Prop :=
  ∃ d v, HasDelta ev K_TEXT_DELTA d ∧ json_get (some d) (some K_TEXT) = (JSON_OK, v) ∧ str_inner v = some raw

/-- A piece of the tool input: what the string stands for. -/
def InputDelta (ev : sse_event_t) (text : List UInt8) : Prop :=
  ∃ d v, HasDelta ev K_INPUT_JSON_DELTA d ∧ json_get (some d) (some K_PARTIAL_JSON) = (JSON_OK, v) ∧ v.type = .string ∧
    Decodes v.body text

/-- A piece of any other block, such as a `thinking_delta`: a string that the
    delta carries beside its type, as it is written. -/
def OtherDelta (ev : sse_event_t) (raw : List UInt8) : Prop :=
  ∃ d dt key v, DeltaOf ev d dt ∧ key ≠ K_TYPE ∧ json_get (some d) (some key) = (JSON_OK, v) ∧ str_inner v = some raw

/-- `content_block_stop` -/
def Stops (ev : sse_event_t) : Prop := ∃ root, Carries ev K_CONTENT_BLOCK_STOP root

def MessageDelta (ev : sse_event_t) (stop : Option (List UInt8)) : Prop :=
  ∃ root, Carries ev K_MESSAGE_DELTA root ∧ stop = stop_of root

/-- `message_stop` -/
def Ends (ev : sse_event_t) : Prop := ∃ root, Carries ev K_MESSAGE_STOP root

/-- A content block by what its events say: a text with the pieces of it, a tool
    call with the pieces of its input, or any other block. That one is cut where
    its pieces belong: each stands behind a part of the text it begins with. -/
inductive block_spec where
  | text (start : List UInt8) (deltas : List (List UInt8))
  | tool (id name : List UInt8) (inputs : List (List UInt8))
  | other (pieces : List (List UInt8 × List UInt8)) (rest : List UInt8)

inductive BlockEvents : block_spec → List sse_event_t → Prop
  | text {first last : sse_event_t} {evs : List sse_event_t} {start : List UInt8} {deltas : List (List UInt8)}
      (hfirst : OpensText first start) (hdeltas : List.Forall₂ TextDelta evs deltas) (hlast : Stops last) :
      BlockEvents (.text start deltas) (first :: (evs ++ [last]))
  | tool {first last : sse_event_t} {evs : List sse_event_t} {id name : List UInt8} {inputs : List (List UInt8)}
      (hfirst : OpensTool first id name) (hinputs : List.Forall₂ InputDelta evs inputs) (hlast : Stops last) :
      BlockEvents (.tool id name inputs) (first :: (evs ++ [last]))
  | other {first last : sse_event_t} {evs : List sse_event_t} {pieces : List (List UInt8 × List UInt8)} {rest : List UInt8}
      (hfirst : OpensOther first (pieces.flatMap Prod.fst ++ rest)) (hrest : rest ≠ [])
      (hdeltas : List.Forall₂ OtherDelta evs (pieces.map Prod.snd)) (hlast : Stops last) :
      BlockEvents (.other pieces rest) (first :: (evs ++ [last]))

/-- One `message_start`, the events of each block, what is said about the whole
    message, and a `message_stop`. -/
def MessageEvents (id role model : List UInt8) (bs : List block_spec) (stops : List (Option (List UInt8)))
    (evs : List sse_event_t) : Prop :=
  ∃ first parts deltas last, Starts first id role model ∧ List.Forall₂ BlockEvents bs parts ∧
    List.Forall₂ MessageDelta deltas stops ∧ Ends last ∧ evs = first :: (parts.flatten ++ (deltas ++ [last]))

/-- A JSON object, at any depth. -/
def IsObject (text : List UInt8) : Prop :=
  ∃ depth before v after, Document depth .object before v after ∧ text = before ++ (v ++ after)

open Classical in
/-- The block that the events mean. -/
noncomputable def block_spec.meant : block_spec → List UInt8
  | .text start deltas => text_block (start ++ deltas.flatten)
  | .tool id name inputs => tool_block id name (if IsObject inputs.flatten then inputs.flatten else [OPEN_BRACE, CLOSE_BRACE])
  | .other pieces rest => pieces.flatMap (fun p => p.1 ++ p.2) ++ rest

/-- How much at the end of a block needs no room in front of the reserve: what
    closes a text, or an empty tool input with what closes the call. -/
def block_spec.slack (t : List UInt8) : block_spec → Nat
  | .text _ _ => QUOTE_BRACE.bytes.length
  | .tool id name _ => if t = tool_block id name [OPEN_BRACE, CLOSE_BRACE] then EMPTY_INPUT.bytes.length else 0
  | .other _ _ => 0

/-- The last stop reason that is reported. -/
def reported (stops : List (Option (List UInt8))) : Option (List UInt8) := (stops.filterMap id).getLast?

def stop_meant (stops : List (Option (List UInt8))) : List UInt8 :=
  match reported stops with
  | none => NULL
  | some stop => QUOTE :: (stop ++ [QUOTE])

/-- The document up to its tail. -/
noncomputable def body_meant (id role model : List UInt8) (bs : List block_spec) : List UInt8 :=
  head id role model ++ content (bs.map block_spec.meant)

/-- There is room for the head and the blocks in front of the reserve, or they
    are those of the empty message. -/
def Room (cap : Nat) (id role model : List UInt8) (bs : List block_spec) : Prop :=
  head id role model = EMPTY_MSG.bytes ∧ bs = [] ∨
    (body_meant id role model bs).length + SSE_TAIL_RESERVE < cap + bs.foldl (fun _ b => b.slack b.meant) 0

/-- The document that the message means. -/
noncomputable def document_meant (id role model : List UInt8) (bs : List block_spec) (stops : List (Option (List UInt8))) :
    List UInt8 :=
  body_meant id role model bs ++ tail (stop_meant stops)

section Conversation

/-! A message of three blocks: a text, a tool call and a thought. -/

def object_of (members : List (List UInt8)) : List UInt8 := OPEN_BRACE :: ([COMMA].intercalate members ++ [CLOSE_BRACE])

def event_of (kind : cstr_t) (members : List (List UInt8)) : sse_event_t :=
  ⟨default_type, object_of (member_text (quoted K_TYPE) (quoted kind) :: members), default_type⟩

/-- The string of a text that needs no escapes. -/
def string_of (text : List UInt8) : List UInt8 := QUOTE :: (text ++ [QUOTE])

def typed (type : cstr_t) (key : cstr_t) (text : List UInt8) : List UInt8 :=
  object_of [member_text (quoted K_TYPE) (quoted type), member_text (quoted key) (string_of text)]

def thinking : cstr_t := ⟨ascii ['t', 'h', 'i', 'n', 'k', 'i', 'n', 'g'], by decide⟩

def message_start : sse_event_t :=
  event_of K_MESSAGE_START [member_text (quoted K_MESSAGE) (object_of [member_text (quoted K_ID) (quoted K_NAME)])]

def text_start (start : List UInt8) : sse_event_t :=
  event_of K_CONTENT_BLOCK_START [member_text (quoted K_CONTENT_BLOCK) (typed K_TEXT K_TEXT start)]

def text_piece (text : cstr_t) : sse_event_t :=
  event_of K_CONTENT_BLOCK_DELTA [member_text (quoted K_DELTA) (typed K_TEXT_DELTA K_TEXT text.bytes)]

def tool_start : sse_event_t :=
  event_of K_CONTENT_BLOCK_START [member_text (quoted K_CONTENT_BLOCK)
    (object_of [member_text (quoted K_TYPE) (quoted K_TOOL_USE), member_text (quoted K_ID) (quoted K_ID),
      member_text (quoted K_NAME) (quoted K_NAME)])]

def input_piece (text : List UInt8) : sse_event_t :=
  event_of K_CONTENT_BLOCK_DELTA [member_text (quoted K_DELTA) (typed K_INPUT_JSON_DELTA K_PARTIAL_JSON (escaped text))]

def thought_start : sse_event_t :=
  event_of K_CONTENT_BLOCK_START [member_text (quoted K_CONTENT_BLOCK) (typed thinking thinking [])]

def thought_piece (thought : List UInt8) : sse_event_t :=
  event_of K_CONTENT_BLOCK_DELTA [member_text (quoted K_DELTA) (typed thinking thinking thought)]

def block_stop : sse_event_t := event_of K_CONTENT_BLOCK_STOP []

def message_delta (members : List (List UInt8)) : sse_event_t :=
  event_of K_MESSAGE_DELTA [member_text (quoted K_DELTA) (object_of members)]

def message_stop : sse_event_t := event_of K_MESSAGE_STOP []

/-- The two pieces of `{"id":"name"}`. -/
def input_pieces : List (List UInt8) :=
  [OPEN_BRACE :: (quoted K_ID ++ [COLON]), quoted K_NAME ++ [CLOSE_BRACE]]

def conversation (start thought : List UInt8) : List sse_event_t :=
  message_start :: ([[text_start start, text_piece K_TEXT, text_piece K_MESSAGE, block_stop],
    tool_start :: (input_pieces.map input_piece ++ [block_stop]), [thought_start, thought_piece thought, block_stop]].flatten ++
      ([message_delta [], message_delta [member_text (quoted K_STOP_REASON) (quoted K_TOOL_USE)]] ++ [message_stop]))

/-- `{"type":"thinking","thinking":"` -/
def thought_open : List UInt8 :=
  OPEN_BRACE :: (member_text (quoted K_TYPE) (quoted thinking) ++ COMMA :: member_text (quoted thinking) [QUOTE])

/-- The thought belongs between the quotes of the member that is for it. -/
def conversation_blocks (start thought : List UInt8) : List block_spec :=
  [.text start [K_TEXT.bytes, K_MESSAGE.bytes], .tool (quoted K_ID) (quoted K_NAME) input_pieces,
    .other [(thought_open, thought)] [QUOTE, CLOSE_BRACE]]

def root_of (ev : sse_event_t) : json_value_t := (json_parse (some ev.data)).2

def member_of (v : json_value_t) (key : cstr_t) : json_value_t := (json_get (some v) (some key)).2

/-- The block that an event opens, as it is found. -/
def block_of (ev : sse_event_t) : json_value_t := member_of (root_of ev) K_CONTENT_BLOCK

/-- The delta of an event, as it is found. -/
def delta_of (ev : sse_event_t) : json_value_t := member_of (root_of ev) K_DELTA

/-- An event of a kind, by the reader's own account. -/
abbrev IsEvent (ev : sse_event_t) (kind : cstr_t) : Prop :=
  (json_parse (some ev.data)).1 = JSON_OK ∧ (root_of ev).type = .object ∧ event_kind ev (root_of ev) = kind.bytes

abbrev HasMember (v : json_value_t) (key : cstr_t) : Prop := (json_get (some v) (some key)).1 = JSON_OK

abbrev IsDelta (ev : sse_event_t) : Prop :=
  IsEvent ev K_CONTENT_BLOCK_DELTA ∧ HasMember (root_of ev) K_DELTA ∧ (delta_of ev).type = .object ∧
    HasMember (delta_of ev) K_TYPE

theorem carries_of {ev kind} (h : IsEvent ev kind) : Carries ev kind (root_of ev) := ⟨⟨Prod.ext h.1 rfl, h.2.1⟩, h.2.2⟩

theorem member_of_eq {v key} (h : HasMember v key) : json_get (some v) (some key) = (JSON_OK, member_of v key) :=
  Prod.ext h rfl

theorem opens_of {ev} (hkind : IsEvent ev K_CONTENT_BLOCK_START) (hblock : HasMember (root_of ev) K_CONTENT_BLOCK)
    (htype : (block_of ev).type = .object) : Opens ev (block_of ev) := ⟨_, carries_of hkind, member_of_eq hblock, htype⟩

theorem delta_of_eq {ev} (h : IsDelta ev) : DeltaOf ev (delta_of ev) (member_of (delta_of ev) K_TYPE) :=
  ⟨_, carries_of h.1, member_of_eq h.2.1, h.2.2.1, member_of_eq h.2.2.2⟩

theorem text_piece_delta {text} (h : IsDelta (text_piece text))
    (htype : json_str_eq (some (member_of (delta_of (text_piece text)) K_TYPE)) (some K_TEXT_DELTA) = true)
    (hget : HasMember (delta_of (text_piece text)) K_TEXT)
    (hraw : str_inner (member_of (delta_of (text_piece text)) K_TEXT) = some text.bytes) :
    TextDelta (text_piece text) text.bytes := ⟨_, _, ⟨_, delta_of_eq h, htype⟩, member_of_eq hget, hraw⟩

theorem input_piece_delta {text} (h : IsDelta (input_piece text))
    (htype : json_str_eq (some (member_of (delta_of (input_piece text)) K_TYPE)) (some K_INPUT_JSON_DELTA) = true)
    (hget : HasMember (delta_of (input_piece text)) K_PARTIAL_JSON)
    (hstring : (member_of (delta_of (input_piece text)) K_PARTIAL_JSON).type = .string)
    (hbody : (member_of (delta_of (input_piece text)) K_PARTIAL_JSON).body = escaped text) :
    InputDelta (input_piece text) text :=
  ⟨_, _, ⟨_, delta_of_eq h, htype⟩, member_of_eq hget, hstring, hbody ▸ decodes_escaped text⟩

theorem thought_piece_delta {thought} (h : IsDelta (thought_piece thought))
    (hget : HasMember (delta_of (thought_piece thought)) thinking)
    (hraw : str_inner (member_of (delta_of (thought_piece thought)) thinking) = some thought) :
    OtherDelta (thought_piece thought) thought :=
  ⟨_, _, thinking, _, delta_of_eq h, by decide, member_of_eq hget, hraw⟩

theorem conversation_message {start thought} (hopens : OpensText (text_start start) start)
    (hthinks : OtherDelta (thought_piece thought) thought) :
    MessageEvents (quoted K_NAME) ASSISTANT.bytes EMPTY_STRING.bytes (conversation_blocks start thought)
      [none, some K_TOOL_USE.bytes] (conversation start thought) := by
  have hfirst : Starts message_start (quoted K_NAME) ASSISTANT.bytes EMPTY_STRING.bytes :=
    ⟨_, _, carries_of (by decide +kernel), member_of_eq (by decide +kernel), by decide +kernel, by decide +kernel,
      by decide +kernel, by decide +kernel⟩
  have htext := @text_piece_delta K_TEXT (by decide +kernel) (by decide +kernel) (by decide +kernel) (by decide +kernel)
  have hmessage := @text_piece_delta K_MESSAGE (by decide +kernel) (by decide +kernel) (by decide +kernel) (by decide +kernel)
  have hinputs : List.Forall₂ InputDelta (input_pieces.map input_piece) input_pieces :=
    .cons (input_piece_delta (by decide +kernel) (by decide +kernel) (by decide +kernel) (by decide +kernel) (by decide +kernel))
      (.cons (input_piece_delta (by decide +kernel) (by decide +kernel) (by decide +kernel) (by decide +kernel)
        (by decide +kernel)) .nil)
  have htool : OpensTool tool_start (quoted K_ID) (quoted K_NAME) :=
    ⟨_, opens_of (by decide +kernel) (by decide +kernel) (by decide +kernel), by decide +kernel, by decide +kernel, by decide +kernel⟩
  have hthought : OpensOther thought_start (typed thinking thinking []) :=
    ⟨_, opens_of (by decide +kernel) (by decide +kernel) (by decide +kernel), by decide +kernel, by decide +kernel⟩
  have hstop : Stops block_stop := ⟨_, carries_of (by decide +kernel)⟩
  have hnone : MessageDelta (message_delta []) none := ⟨_, carries_of (by decide +kernel), by decide +kernel⟩
  have hreason : MessageDelta (message_delta [member_text (quoted K_STOP_REASON) (quoted K_TOOL_USE)])
      (some K_TOOL_USE.bytes) := ⟨_, carries_of (by decide +kernel), by decide +kernel⟩
  have hlast : Ends message_stop := ⟨_, carries_of (by decide +kernel)⟩
  refine ⟨_, _, _, _, hfirst, .cons ?_ (.cons ?_ (.cons ?_ .nil)), .cons hnone (.cons hreason .nil), hlast, rfl⟩
  · exact @BlockEvents.text _ _ [_, _] _ _ hopens (.cons htext (.cons hmessage .nil)) hstop
  · exact .tool htool hinputs hstop
  · exact @BlockEvents.other _ _ [_] _ _ hthought (by decide) (.cons hthinks .nil) hstop

theorem word_mem {key : cstr_t} (h : scan_string (quoted key) = .ok []) : quoted key ∈ string := mem_string_of_scan h

theorem input_pieces_document : Document INPUT_DEPTH .object [] input_pieces.flatten [] :=
  ⟨nil_mem_ws, @object_of_members _ [] _ (forall_mem_nil _) _
    (member_of_values (@word_mem K_ID (by decide)) (string_values (@word_mem K_NAME (by decide)))), nil_mem_ws⟩

theorem conversation_meant (start thought : List UInt8) : (conversation_blocks start thought).map block_spec.meant =
    [text_block (start ++ (K_TEXT.bytes ++ K_MESSAGE.bytes)), tool_block (quoted K_ID) (quoted K_NAME) input_pieces.flatten,
      typed thinking thinking thought] := by
  have hobject : IsObject input_pieces.flatten := ⟨_, _, _, _, input_pieces_document, (List.append_nil _).symm⟩
  have hsplit : typed thinking thinking thought = thought_open ++ (thought ++ [QUOTE, CLOSE_BRACE]) := by
    simp [typed, thought_open, object_of, string_of, member_text, List.intercalate]
  simp [conversation_blocks, block_spec.meant, hobject, hsplit]

/-- The blocks are objects that are not too deep for their place. -/
theorem conversation_value {start thought} (hstart : ∃ us, Units start us) (hthought : string_of thought ∈ string) :
    ∀ b ∈ (conversation_blocks start thought).map block_spec.meant, Value BLOCK_DEPTH .object b := by
  rw [conversation_meant]
  simp only [forall_mem_cons]
  refine ⟨?_, ?_, ?_, forall_mem_nil _⟩
  · obtain ⟨us, hus⟩ := hstart
    have hplain : Units (K_TEXT.bytes ++ K_MESSAGE.bytes) _ := units_escaped (K_TEXT.bytes ++ K_MESSAGE.bytes)
    exact text_block_value (hus.append hplain)
  · have hblock := tool_block_value (@word_mem K_ID (by decide)) (@word_mem K_NAME (by decide)) input_pieces_document
    rwa [List.append_nil, List.nil_append] at hblock
  · have htype := @member_of_values 29 _ _ (@word_mem K_TYPE (by decide)) (string_values (@word_mem thinking (by decide)))
    have hobject := @object_of_members _ [member_text (quoted K_TYPE) (quoted thinking)] _
      (forall_mem_singleton.mpr ⟨_, htype⟩) _
      (member_of_values (@word_mem thinking (by decide)) (string_values hthought))
    simpa [typed, object_of, List.intercalate, led] using hobject

end Conversation

end fable.sse
