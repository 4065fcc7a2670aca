import FableOs.Sse.Msg

namespace fable.sse

open fable.json

abbrev SSE_HDR_MAX : Nat := 2048
abbrev MODEL_STATUS_LINE_MAX : Nat := 96

/-- The state of the scan for the end of the headers: in a line, behind a `CR`,
    at the start of a line, behind a `CR` at the start of one. -/
inductive eoh_t where
  | mid_line
  | after_cr
  | line_start
  | cr_at_start
  deriving DecidableEq, Repr

/-- The response driver. `body` is what the raw path has stored in the caller's
    buffer; the streaming path writes through `m`. -/
structure sse_http_t where
  hdr : List UInt8
  hdr_over : Bool
  eoh : eoh_t
  in_body : Bool
  streaming : Bool
  status : Nat
  status_line : List UInt8
  buf : Bool
  cap : Nat
  body : List UInt8
  overflow : Bool
  p : sse_parser_t
  m : sse_msg_t
  deriving DecidableEq

def sse_http_init (buf : Bool) (cap : Nat) : sse_http_t where
  hdr := []
  hdr_over := false
  eoh := .mid_line
  in_body := false
  streaming := false
  status := 0
  status_line := []
  buf := buf
  cap := cap
  body := []
  overflow := false
  p := sse_parser_init
  m := sse_msg_init buf cap

def lower (c : UInt8) : UInt8 := if 0x41 ≤ c ∧ c ≤ 0x5A then c + 32 else c

/-- The needle is in front of `p`, whatever the case of the letters. -/
def iprefix (needle p : List UInt8) : Bool := (needle.map lower).isPrefixOf (p.map lower)

/-- The part of `p` from the first place on where the needle is. -/
def ifind (needle : List UInt8) : List UInt8 → Option (List UInt8)
  | [] => none
  | c :: p => if iprefix needle (c :: p) then some (c :: p) else ifind needle p

/-- The same, at the start of a line other than the first; `prev` is the byte
    before `p`. -/
def hdr_field_from (needle : List UInt8) : UInt8 → List UInt8 → Option (List UInt8)
  | _, [] => none
  | prev, c :: p => if prev = LF ∧ iprefix needle (c :: p) then some (c :: p) else hdr_field_from needle c p

def hdr_field (needle : List UInt8) : List UInt8 → Option (List UInt8)
  | [] => none
  | c :: p => hdr_field_from needle c p

/-- `while (eol < n && p[eol] != '\r' && p[eol] != '\n') eol++;` -/
def first_line (p : List UInt8) : List UInt8 := p.takeWhile fun c => c ≠ CR ∧ c ≠ LF

/-- The status: exactly three digits behind the first space of the line. -/
def status_code (line : List UInt8) : Nat :=
  match (line.dropWhile (· ≠ SPACE)).tail with
  | a :: b :: c :: rest =>
    if is_digit a ∧ is_digit b ∧ is_digit c ∧ ¬ rest.head?.any is_digit then
      (a.toNat - 0x30) * 100 + (b.toNat - 0x30) * 10 + (c.toNat - 0x30)
    else 0
  | _ => 0

/-- `content-type:` -/
def CONTENT_TYPE : List UInt8 := ascii ['c', 'o', 'n', 't', 'e', 'n', 't', '-', 't', 'y', 'p', 'e', ':']

/-- `text/event-stream` -/
def EVENT_STREAM : List UInt8 :=
  ascii ['t', 'e', 'x', 't', '/', 'e', 'v', 'e', 'n', 't', '-', 's', 't', 'r', 'e', 'a', 'm']

/-- The header says that the body is an event stream. -/
def is_stream (hdr : List UInt8) : Bool :=
  match hdr_field CONTENT_TYPE hdr with
  | none => false
  | some cp => (ifind EVENT_STREAM (first_line cp)).isSome

def headers_done (h : sse_http_t) : sse_http_t :=
  let line := first_line h.hdr
  let status := status_code line
  { h with
    status_line := copy_clamped MODEL_STATUS_LINE_MAX line
    status := status
    streaming := h.streaming || (status = 200 && is_stream h.hdr)
    in_body := true }

def raw_byte (h : sse_http_t) (c : UInt8) : sse_http_t :=
  if h.buf ∧ h.body.length + 1 < h.cap then { h with body := h.body ++ [c] } else { h with overflow := true }

/-- One byte of the headers. -/
def header_byte (h : sse_http_t) (c : UInt8) : sse_http_t :=
  let h := if h.hdr.length < SSE_HDR_MAX then { h with hdr := h.hdr ++ [c] } else { h with hdr_over := true }
  match h.eoh with
  | .mid_line => { h with eoh := if c = CR then .after_cr else if c = LF then .line_start else .mid_line }
  | .after_cr => { h with eoh := if c = LF then .line_start else if c = CR then .after_cr else .mid_line }
  | .line_start =>
    if c = LF then headers_done h else { h with eoh := if c = CR then .cr_at_start else .mid_line }
  | .cr_at_start => if c = LF then headers_done h else { h with eoh := if c = CR then .after_cr else .mid_line }

/-- The first loop of `sse_http_feed`: up to the body, or to the end of the
    bytes. -/
def feed_headers : sse_http_t → List UInt8 → sse_http_t × List UInt8
  | h, [] => (h, [])
  | h, c :: bytes => if h.in_body then (h, c :: bytes) else feed_headers (header_byte h c) bytes

/-- `sse_parser_feed` with `http_event_cb`. -/
def feed_stream (h : sse_http_t) (bytes : List UInt8) : sse_http_t :=
  let (p, evs) := sse_parser_feed h.p bytes
  { h with p := p, m := evs.foldl sse_msg_event h.m }

def sse_http_feed (h : sse_http_t) (bytes : List UInt8) : sse_http_t :=
  let (h, rest) := feed_headers h bytes
  if rest = [] then h
  else if h.streaming then feed_stream h rest
  else rest.foldl raw_byte h

/-- What one exchange produced. `body` is what the buffer holds up to
    `body_len`. -/
structure model_response_t where
  http_status : Nat
  status_line : List UInt8
  body : List UInt8
  truncated : Bool
  deriving DecidableEq

/-- The code, the response, and the driver after it. -/
def sse_http_finish (h : sse_http_t) : Int × model_response_t × sse_http_t :=
  let out : model_response_t := ⟨h.status, copy_clamped MODEL_STATUS_LINE_MAX (cstr_of h.status_line).bytes, [], false⟩
  if h.in_body = false then (SSE_EPROTO, out, h)
  else if h.streaming = false then (SSE_OK, { out with body := h.body, truncated := h.overflow }, h)
  else
    let (p, evs) := sse_parser_finish h.p
    let (rc, len, m) := sse_msg_finish (evs.foldl sse_msg_event h.m)
    let truncated := !sse_msg_complete m || sse_msg_clipped m || sse_msg_lost m || h.hdr_over || p.n_dropped ≠ 0 ||
      p.n_bad_lines ≠ 0
    (rc, { out with body := m.w.text.take len, truncated := truncated }, { h with p := p, m := m })

end fable.sse
