import FableOs.Json.Navigate
import FableOs.Json.Writer
import FableOs.Sse.Frame

namespace fable.sse

open fable.json

abbrev SSE_OK : Int := 0
abbrev SSE_ENOSPC : Int := -28
abbrev SSE_EPROTO : Int := -72
abbrev SSE_ESTREAM : Int := -73

abbrev SSE_TOOL_INPUT_MAX : Nat := 4096
abbrev SSE_ERR_MAX : Nat := 160
abbrev SSE_STOP_MAX : Nat := 32
abbrev SSE_TAIL_RESERVE : Nat := 128

/-! The fragments of the document, and the names of the members and the events. -/

/-- `"}` -/
def QUOTE_BRACE : cstr_t := ⟨ascii ['"', '}'], by decide⟩

/-- `{}}` -/
def EMPTY_INPUT : cstr_t := ⟨ascii ['{', '}', '}'], by decide⟩

/-- `{"id":` -/
def ID_OPEN : cstr_t := ⟨ascii ['{', '"', 'i', 'd', '"', ':'], by decide⟩

/-- `,"type":"message","role":` -/
def ROLE_OPEN : cstr_t :=
  ⟨ascii [',', '"', 't', 'y', 'p', 'e', '"', ':', '"', 'm', 'e', 's', 's', 'a', 'g', 'e', '"', ',', '"', 'r',
      'o', 'l', 'e', '"', ':'], by decide⟩

/-- `,"model":` -/
def MODEL_OPEN : cstr_t := ⟨ascii [',', '"', 'm', 'o', 'd', 'e', 'l', '"', ':'], by decide⟩

/-- `,"content":[` -/
def CONTENT_OPEN : cstr_t := ⟨ascii [',', '"', 'c', 'o', 'n', 't', 'e', 'n', 't', '"', ':', '['], by decide⟩

/-- `,` -/
def COMMA_TEXT : cstr_t := ⟨ascii [','], by decide⟩

/-- `{"type":"text","text":"` -/
def TEXT_OPEN : cstr_t :=
  ⟨ascii ['{', '"', 't', 'y', 'p', 'e', '"', ':', '"', 't', 'e', 'x', 't', '"', ',', '"', 't', 'e', 'x', 't',
      '"', ':', '"'], by decide⟩

/-- `{"type":"tool_use","id":` -/
def TOOL_OPEN : cstr_t :=
  ⟨ascii ['{', '"', 't', 'y', 'p', 'e', '"', ':', '"', 't', 'o', 'o', 'l', '_', 'u', 's', 'e', '"', ',', '"',
      'i', 'd', '"', ':'], by decide⟩

/-- `,"name":` -/
def NAME_OPEN : cstr_t := ⟨ascii [',', '"', 'n', 'a', 'm', 'e', '"', ':'], by decide⟩

/-- `,"input":` -/
def INPUT_OPEN : cstr_t := ⟨ascii [',', '"', 'i', 'n', 'p', 'u', 't', '"', ':'], by decide⟩

/-- `{"id":"","type":"message","role":"assistant","model":"","content":[` -/
def EMPTY_MSG : cstr_t :=
  ⟨ascii ['{', '"', 'i', 'd', '"', ':', '"', '"', ',', '"', 't', 'y', 'p', 'e', '"', ':', '"', 'm', 'e', 's',
      's', 'a', 'g', 'e', '"', ',', '"', 'r', 'o', 'l', 'e', '"', ':', '"', 'a', 's', 's', 'i', 's', 't', 'a',
      'n', 't', '"', ',', '"', 'm', 'o', 'd', 'e', 'l', '"', ':', '"', '"', ',', '"', 'c', 'o', 'n', 't', 'e',
      'n', 't', '"', ':', '['], by decide⟩

/-- `],"stop_reason":` -/
def STOP_OPEN : cstr_t :=
  ⟨ascii [']', ',', '"', 's', 't', 'o', 'p', '_', 'r', 'e', 'a', 's', 'o', 'n', '"', ':'], by decide⟩

/-- `null` -/
def NULL_TEXT : cstr_t := ⟨ascii ['n', 'u', 'l', 'l'], by decide⟩

/-- `,"stop_sequence":null}` -/
def TAIL : cstr_t :=
  ⟨ascii [',', '"', 's', 't', 'o', 'p', '_', 's', 'e', 'q', 'u', 'e', 'n', 'c', 'e', '"', ':', 'n', 'u', 'l',
      'l', '}'], by decide⟩

/-- `""` -/
def EMPTY_STRING : cstr_t := ⟨ascii ['"', '"'], by decide⟩

/-- `"assistant"` -/
def ASSISTANT : cstr_t := ⟨ascii ['"', 'a', 's', 's', 'i', 's', 't', 'a', 'n', 't', '"'], by decide⟩

/-- `[DONE]` -/
def DONE_TEXT : cstr_t := ⟨ascii ['[', 'D', 'O', 'N', 'E', ']'], by decide⟩

def K_ID : cstr_t := ⟨ascii ['i', 'd'], by decide⟩

def K_ROLE : cstr_t := ⟨ascii ['r', 'o', 'l', 'e'], by decide⟩

def K_MODEL : cstr_t := ⟨ascii ['m', 'o', 'd', 'e', 'l'], by decide⟩

def K_TYPE : cstr_t := ⟨ascii ['t', 'y', 'p', 'e'], by decide⟩

def K_TEXT : cstr_t := ⟨ascii ['t', 'e', 'x', 't'], by decide⟩

def K_TOOL_USE : cstr_t := ⟨ascii ['t', 'o', 'o', 'l', '_', 'u', 's', 'e'], by decide⟩

theorem name_no_nul : 0 ∉ ascii ['n', 'a', 'm', 'e'] := by decide

def K_NAME : cstr_t := ⟨ascii ['n', 'a', 'm', 'e'], name_no_nul⟩

def K_CONTENT_BLOCK : cstr_t :=
  ⟨ascii ['c', 'o', 'n', 't', 'e', 'n', 't', '_', 'b', 'l', 'o', 'c', 'k'], by decide⟩

def K_DELTA : cstr_t := ⟨ascii ['d', 'e', 'l', 't', 'a'], by decide⟩

def K_TEXT_DELTA : cstr_t := ⟨ascii ['t', 'e', 'x', 't', '_', 'd', 'e', 'l', 't', 'a'], by decide⟩

def K_INPUT_JSON_DELTA : cstr_t :=
  ⟨ascii ['i', 'n', 'p', 'u', 't', '_', 'j', 's', 'o', 'n', '_', 'd', 'e', 'l', 't', 'a'], by decide⟩

def K_PARTIAL_JSON : cstr_t := ⟨ascii ['p', 'a', 'r', 't', 'i', 'a', 'l', '_', 'j', 's', 'o', 'n'], by decide⟩

def K_MESSAGE : cstr_t := ⟨ascii ['m', 'e', 's', 's', 'a', 'g', 'e'], message_no_nul⟩

def K_STOP_REASON : cstr_t := ⟨ascii ['s', 't', 'o', 'p', '_', 'r', 'e', 'a', 's', 'o', 'n'], by decide⟩

def K_ERROR : cstr_t := ⟨ascii ['e', 'r', 'r', 'o', 'r'], by decide⟩

def K_CONTENT_BLOCK_DELTA : cstr_t :=
  ⟨ascii ['c', 'o', 'n', 't', 'e', 'n', 't', '_', 'b', 'l', 'o', 'c', 'k', '_', 'd', 'e', 'l', 't',
      'a'], by decide⟩

def K_CONTENT_BLOCK_START : cstr_t :=
  ⟨ascii ['c', 'o', 'n', 't', 'e', 'n', 't', '_', 'b', 'l', 'o', 'c', 'k', '_', 's', 't', 'a', 'r',
      't'], by decide⟩

def K_CONTENT_BLOCK_STOP : cstr_t :=
  ⟨ascii ['c', 'o', 'n', 't', 'e', 'n', 't', '_', 'b', 'l', 'o', 'c', 'k', '_', 's', 't', 'o', 'p'], by decide⟩

def K_MESSAGE_START : cstr_t :=
  ⟨ascii ['m', 'e', 's', 's', 'a', 'g', 'e', '_', 's', 't', 'a', 'r', 't'], by decide⟩

def K_MESSAGE_DELTA : cstr_t :=
  ⟨ascii ['m', 'e', 's', 's', 'a', 'g', 'e', '_', 'd', 'e', 'l', 't', 'a'], by decide⟩

def K_MESSAGE_STOP : cstr_t := ⟨ascii ['m', 'e', 's', 's', 'a', 'g', 'e', '_', 's', 't', 'o', 'p'], by decide⟩

def K_PING : cstr_t := ⟨ascii ['p', 'i', 'n', 'g'], by decide⟩

/-- `the stream reported an error` -/
def STREAM_ERROR : cstr_t :=
  ⟨ascii ['t', 'h', 'e', ' ', 's', 't', 'r', 'e', 'a', 'm', ' ', 'r', 'e', 'p', 'o', 'r', 't', 'e', 'd', ' ',
      'a', 'n', ' ', 'e', 'r', 'r', 'o', 'r'], by decide⟩

/-- `SSE_BLK_*` -/
inductive block_t where
  | none
  | text
  | tool
  | other
  deriving DecidableEq, Repr

/-- The reassembly layer. `tool` is the tool input up to `tool_len`, and `echo`
    is what `on_text` has been called with. -/
structure sse_msg_t where
  w : json_writer_t
  started : Bool
  block : block_t
  done : Bool
  closed : Bool
  clipped : Bool
  frozen : Bool
  tool_over : Bool
  tool_lost : Bool
  blocks : UInt32
  text_bytes : UInt32
  deltas : UInt32
  bad_events : UInt32
  unknown_events : UInt32
  stray_deltas : UInt32
  stop : List UInt8
  err : Int
  err_msg : List UInt8
  tool : List UInt8
  echo : List (List UInt8)
  deriving DecidableEq

/-- `out` says that there is a buffer. -/
def sse_msg_init (out : Bool) (cap : Nat) : sse_msg_t where
  w := json_writer_init out (if out then cap else 0)
  started := false
  block := .none
  done := false
  closed := false
  clipped := false
  frozen := false
  tool_over := false
  tool_lost := false
  blocks := 0
  text_bytes := 0
  deltas := 0
  bad_events := 0
  unknown_events := 0
  stray_deltas := 0
  stop := []
  err := SSE_OK
  err_msg := []
  tool := []
  echo := []

def freeze (m : sse_msg_t) : sse_msg_t :=
  if m.frozen then m
  else
    let w :=
      match m.block with
      | .text => json_put m.w QUOTE_BRACE
      | .tool => json_put m.w EMPTY_INPUT
      | _ => m.w
    { m with frozen := true, clipped := true, w := w }

/-- Room for a whole fragment, before any of it is written. -/
def mneed (m : sse_msg_t) (n : Nat) : Bool × sse_msg_t :=
  if m.frozen ∨ m.w.overflow then (false, m)
  else if m.w.cap ≤ m.w.len + n + SSE_TAIL_RESERVE then (false, freeze m)
  else (true, m)

def mput_n (m : sse_msg_t) (s : List UInt8) : sse_msg_t :=
  let (ok, m) := mneed m s.length
  if ok then { m with w := json_put_n m.w s } else m

def mput (m : sse_msg_t) (s : cstr_t) : sse_msg_t := mput_n m s.bytes

/-- A string member as its raw span, or a literal. -/
def span_or (obj : Option json_value_t) (key fb : cstr_t) : List UInt8 :=
  match obj with
  | none => fb.bytes
  | some obj =>
    let (rc, v) := json_get (some obj) (some key)
    if rc = JSON_OK ∧ v.type = .string ∧ 2 ≤ v.len then v.text else fb.bytes

/-- The bytes between the quotes of a string, as they are written. -/
def str_inner (v : json_value_t) : Option (List UInt8) :=
  if v.type ≠ .string ∨ v.len < 2 then none else some v.body

def set_err (m : sse_msg_t) (err : Int) (msg : cstr_t) : sse_msg_t :=
  if m.err ≠ SSE_OK then m else { m with err := err, err_msg := copy_clamped SSE_ERR_MAX msg.bytes }

def begin_message (m : sse_msg_t) (msg : Option json_value_t) : sse_msg_t :=
  if m.started then m
  else
    let id := span_or msg K_ID EMPTY_STRING
    let role := span_or msg K_ROLE ASSISTANT
    let model := span_or msg K_MODEL EMPTY_STRING
    let (ok, m) := mneed m (52 + id.length + role.length + model.length)
    if ok then
      let m := mput_n (mput m ID_OPEN) id
      let m := mput_n (mput m ROLE_OPEN) role
      let m := mput_n (mput m MODEL_OPEN) model
      { mput m CONTENT_OPEN with started := true }
    else m

/-- The tool input is a complete JSON object. -/
def input_ok (m : sse_msg_t) : Bool :=
  !m.tool_over && m.tool ≠ [] && (json_parse (some m.tool)).1 = JSON_OK && (json_parse (some m.tool)).2.type = .object

/-- What `close_block` writes, by the kind of the block. -/
def write_close (m : sse_msg_t) : sse_msg_t :=
  match m.block with
  | .text => if m.frozen then m else { m with w := json_put m.w QUOTE_BRACE }
  | .tool =>
    if m.frozen then m
    else
      let (ok, m) := if input_ok m then mneed m (m.tool.length + 1) else (false, m)
      if ok then { m with w := json_put_char (json_put_n m.w m.tool) CLOSE_BRACE }
      else if m.frozen then m
      else { m with w := json_put m.w EMPTY_INPUT }
  | _ => m

def close_block (m : sse_msg_t) : sse_msg_t :=
  { write_close m with block := .none, tool := [], tool_over := false }

/-- The comma before a block that is not the first one. -/
def mput_comma (m : sse_msg_t) (comma : Nat) : sse_msg_t := if comma ≠ 0 then mput m COMMA_TEXT else m

def open_text (m : sse_msg_t) (comma : Nat) : sse_msg_t :=
  let (ok, m) := mneed m (comma + 23)
  let m := if ok then mput (mput_comma m comma) TEXT_OPEN else m
  { m with block := .text }

def open_tool (m : sse_msg_t) (comma : Nat) (cb : json_value_t) : sse_msg_t :=
  let id := span_or (some cb) K_ID EMPTY_STRING
  let name := span_or (some cb) K_NAME EMPTY_STRING
  let (ok, m) := mneed m (comma + 41 + id.length + name.length)
  let m :=
    if ok then
      let m := mput_n (mput (mput_comma m comma) TOOL_OPEN) id
      let m := mput_n (mput m NAME_OPEN) name
      mput m INPUT_OPEN
    else m
  { m with block := .tool, tool := [], tool_over := false }

def open_other (m : sse_msg_t) (comma : Nat) (cb : json_value_t) : sse_msg_t :=
  let (ok, m) := mneed m (comma + cb.len)
  let m := if ok then mput_n (mput_comma m comma) cb.text else m
  { m with block := .other }

/-- The kind of a block by its `type` member. -/
def block_kind (cb : json_value_t) : block_t :=
  let (rc, type) := json_get (some cb) (some K_TYPE)
  if rc = JSON_OK ∧ json_str_eq (some type) (some K_TEXT) then .text
  else if rc = JSON_OK ∧ json_str_eq (some type) (some K_TOOL_USE) then .tool
  else .other

def start_block (m : sse_msg_t) (ev : json_value_t) : sse_msg_t :=
  let m := if m.block ≠ .none then close_block m else m
  let m := begin_message m none
  let (rc, cb) := json_get (some ev) (some K_CONTENT_BLOCK)
  if rc ≠ JSON_OK ∨ cb.type ≠ .object then { m with bad_events := m.bad_events + 1 }
  else
    let comma := if m.blocks ≠ 0 then 1 else 0
    let m :=
      match block_kind cb with
      | .text => open_text m comma
      | .tool => open_tool m comma cb
      | _ => open_other m comma cb
    { m with blocks := m.blocks + 1 }

/-- A `text_delta` inside a text block. -/
def text_delta (m : sse_msg_t) (d : json_value_t) : sse_msg_t :=
  let (rc, v) := json_get (some d) (some K_TEXT)
  match if rc = JSON_OK then str_inner v else none with
  | none => { m with bad_events := m.bad_events + 1 }
  | some inner =>
    let m := mput_n { m with deltas := m.deltas + 1 } inner
    let (rc, text) := json_str (some v) (SSE_DATA_MAX + 1)
    if (rc = JSON_OK ∨ rc = JSON_ENOSPC) ∧ text ≠ [] then
      { m with text_bytes := m.text_bytes + UInt32.ofNat text.length, echo := m.echo ++ [text] }
    else m

/-- An `input_json_delta` inside a tool block. -/
def input_delta (m : sse_msg_t) (d : json_value_t) : sse_msg_t :=
  let (rc, v) := json_get (some d) (some K_PARTIAL_JSON)
  if rc ≠ JSON_OK then { m with bad_events := m.bad_events + 1 }
  else
    let (rc, text) := json_str (some v) (SSE_DATA_MAX + 1)
    if rc ≠ JSON_OK ∧ rc ≠ JSON_ENOSPC then { m with bad_events := m.bad_events + 1 }
    else
      let cut := rc = JSON_ENOSPC ∨ SSE_TOOL_INPUT_MAX < m.tool.length + text.length
      { m with
        deltas := m.deltas + 1
        tool_over := m.tool_over || cut
        tool_lost := m.tool_lost || cut
        tool := m.tool ++ text.take (SSE_TOOL_INPUT_MAX - m.tool.length) }

def apply_delta (m : sse_msg_t) (ev : json_value_t) : sse_msg_t :=
  let (rc, d) := json_get (some ev) (some K_DELTA)
  if rc ≠ JSON_OK ∨ d.type ≠ .object then { m with bad_events := m.bad_events + 1 }
  else if m.block = .none then { m with stray_deltas := m.stray_deltas + 1 }
  else
    let (rc, dt) := json_get (some d) (some K_TYPE)
    if rc ≠ JSON_OK then { m with bad_events := m.bad_events + 1 }
    else if json_str_eq (some dt) (some K_TEXT_DELTA) ∧ m.block = .text then text_delta m d
    else if json_str_eq (some dt) (some K_INPUT_JSON_DELTA) ∧ m.block = .tool then input_delta m d
    else { m with unknown_events := m.unknown_events + 1 }

/-- `message_delta`: the raw span of the stop reason, if it fits whole. -/
def stop_delta (m : sse_msg_t) (root : json_value_t) : sse_msg_t :=
  let (rc, d) := json_get (some root) (some K_DELTA)
  let (rc', sr) := json_get (some d) (some K_STOP_REASON)
  match if rc = JSON_OK ∧ rc' = JSON_OK then str_inner sr else none with
  | none => m
  | some inner =>
    if inner.length < SSE_STOP_MAX then { m with stop := inner }
    else { m with stop := [], unknown_events := m.unknown_events + 1 }

/-- `error`: the message that goes with it, or a fixed one. -/
def stream_error (m : sse_msg_t) (root : json_value_t) : sse_msg_t :=
  let (rc, e) := json_get (some root) (some K_ERROR)
  let (rc', msg) := json_get (some e) (some K_MESSAGE)
  let buf := if rc = JSON_OK ∧ rc' = JSON_OK then cstr_of (json_str (some msg) SSE_ERR_MAX).2 else cstr_of []
  set_err m SSE_ESTREAM (if buf.bytes ≠ [] then buf else STREAM_ERROR)

/-- The kind of an event: its own `type`, or the name it was framed with. -/
def event_kind (ev : sse_event_t) (root : json_value_t) : List UInt8 :=
  let (rc, type) := json_get (some root) (some K_TYPE)
  let (rc', kind) := json_str (some type) 40
  if rc ≠ JSON_OK ∨ rc' ≠ JSON_OK ∨ (cstr_of kind).bytes = [] then (cstr_of (copy_clamped 40 ev.type.bytes)).bytes
  else (cstr_of kind).bytes

/-- The chain of `streq(kind, ...)`. -/
def apply_event (m : sse_msg_t) (kind : List UInt8) (root : json_value_t) : sse_msg_t :=
  if kind = K_CONTENT_BLOCK_DELTA.bytes then apply_delta m root
  else if kind = K_CONTENT_BLOCK_START.bytes then start_block m root
  else if kind = K_CONTENT_BLOCK_STOP.bytes then
    close_block (if m.block = .none then { m with stray_deltas := m.stray_deltas + 1 } else m)
  else if kind = K_MESSAGE_START.bytes then
    let (rc, msg) := json_get (some root) (some K_MESSAGE)
    begin_message m (if rc = JSON_OK ∧ msg.type = .object then some msg else none)
  else if kind = K_MESSAGE_DELTA.bytes then stop_delta m root
  else if kind = K_MESSAGE_STOP.bytes then { m with done := true }
  else if kind = K_PING.bytes then m
  else if kind = K_ERROR.bytes then stream_error m root
  else { m with unknown_events := m.unknown_events + 1 }

def sse_msg_event (m : sse_msg_t) (ev : sse_event_t) : sse_msg_t :=
  if m.closed then m
  else if ev.data = DONE_TEXT.bytes then { m with done := true }
  else
    let (rc, root) := json_parse (some ev.data)
    if rc ≠ JSON_OK ∨ root.type ≠ .object then { m with bad_events := m.bad_events + 1 }
    else apply_event m (event_kind ev root) root

/-- The tail of the document. -/
def put_tail (w : json_writer_t) (stop : List UInt8) : json_writer_t :=
  let w := json_put w STOP_OPEN
  let w :=
    if (cstr_of stop).bytes ≠ [] then json_put_char (json_put (json_put_char w QUOTE) (cstr_of stop)) QUOTE
    else json_put w NULL_TEXT
  json_put w TAIL

/-- The part of `sse_msg_finish` that is done once. -/
def close_message (m : sse_msg_t) : sse_msg_t :=
  if m.closed then m
  else
    let m := close_block { m with closed := true }
    let w := if m.started then m.w else json_put (json_writer_init m.w.buf m.w.cap) EMPTY_MSG
    { m with started := true, w := put_tail w m.stop }

/-- The code, `*out_len`, and the message. -/
def sse_msg_finish (m : sse_msg_t) : Int × Nat × sse_msg_t :=
  if m.w.buf = false then (SSE_ENOSPC, 0, m)
  else
    let m := close_message m
    if json_writer_ok m.w = false then (SSE_ENOSPC, 0, m)
    else if (json_parse (some m.w.text)).1 ≠ JSON_OK then (SSE_EPROTO, json_writer_len m.w, m)
    else (m.err, json_writer_len m.w, m)

def sse_msg_complete (m : sse_msg_t) : Bool := m.done

def sse_msg_clipped (m : sse_msg_t) : Bool := m.clipped

def sse_msg_lost (m : sse_msg_t) : Bool := m.bad_events ≠ 0 || m.stray_deltas ≠ 0 || m.tool_lost

end fable.sse
