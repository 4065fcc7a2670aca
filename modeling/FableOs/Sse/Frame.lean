import FableOs.Json.Decode

namespace fable.sse

open fable.json

/-- The bytes of a literal. -/
def ascii (cs : List Char) : List UInt8 := cs.map fun c => UInt8.ofNat c.toNat

theorem message_no_nul : 0 ∉ ascii ['m', 'e', 's', 's', 'a', 'g', 'e'] := by decide

/-- The string that a buffer holds: its bytes up to the first zero. -/
def cstr_of (buf : List UInt8) : cstr_t :=
  ⟨buf.takeWhile (· ≠ 0), fun h => by simpa using List.all_eq_true.mp List.all_takeWhile 0 h⟩

abbrev SSE_LINE_MAX : Nat := 4096
abbrev SSE_DATA_MAX : Nat := 4096
abbrev SSE_NAME_MAX : Nat := 64
abbrev SSE_ID_MAX : Nat := 64

abbrev CR : UInt8 := 0x0D
abbrev LF : UInt8 := 0x0A
abbrev SPACE : UInt8 := 0x20

/-- One dispatched event. -/
structure sse_event_t where
  type : cstr_t
  data : List UInt8
  id : cstr_t
  deriving DecidableEq

/-- The framing layer. The buffers are what they hold up to their lengths;
    `name` and `id` are what was copied into them. -/
structure sse_parser_t where
  line : List UInt8
  line_over : Bool
  after_cr : Bool
  bom : Nat
  name : List UInt8
  id : List UInt8
  data : List UInt8
  ev_bad : Bool
  n_events : UInt32
  n_dropped : UInt32
  n_comments : UInt32
  n_bad_lines : UInt32
  n_bytes : UInt32
  deriving DecidableEq

def sse_parser_init : sse_parser_t := ⟨[], false, false, 0, [], [], [], false, 0, 0, 0, 0, 0⟩

abbrev SSE_BOM : List UInt8 := [0xEF, 0xBB, 0xBF]

/-- What `copy_clamped` leaves in a buffer of `cap` bytes, up to its zero. -/
def copy_clamped (cap : Nat) (src : List UInt8) : List UInt8 := src.take (cap - 1)

/-- `"message"` -/
def default_type : cstr_t := ⟨ascii ['m', 'e', 's', 's', 'a', 'g', 'e'], message_no_nul⟩

/-- The event that a blank line ends, without the last line feed. -/
def trim_data (data : List UInt8) : List UInt8 := if data.getLast? = some LF then data.dropLast else data

/-- A blank line ends the event. The call of `on_event` is the event in the
    result. -/
def dispatch (p : sse_parser_t) : sse_parser_t × List sse_event_t :=
  if p.data = [] then
    ({ p with n_dropped := if p.ev_bad then p.n_dropped + 1 else p.n_dropped, name := [], ev_bad := false }, [])
  else
    let data := trim_data p.data
    let cleared := { p with name := [], data := [], ev_bad := false }
    if p.ev_bad then ({ cleared with n_dropped := p.n_dropped + 1 }, [])
    else
      let type := if (cstr_of p.name).bytes ≠ [] then cstr_of p.name else default_type
      ({ cleared with n_events := p.n_events + 1 }, [⟨type, data, cstr_of p.id⟩])

/-- One data line's value, and the line feed that joins the lines. -/
def data_append (p : sse_parser_t) (v : List UInt8) : sse_parser_t :=
  let room := if p.data.length + 1 < SSE_DATA_MAX then SSE_DATA_MAX - p.data.length - 1 else 0
  let bad := p.ev_bad || room < v.length
  let data := p.data ++ v.take room
  if data.length + 1 < SSE_DATA_MAX then { p with data := data ++ [LF], ev_bad := bad }
  else { p with data := data, ev_bad := true }

/-- The value of a line behind its colon, without one optional space. -/
def field_value (line : List UInt8) : List UInt8 :=
  let val := (line.dropWhile (· ≠ 0x3A)).tail
  if val.head? = some SPACE then val.tail else val

/-- One complete line is in `p->line`. -/
def end_line (p : sse_parser_t) : sse_parser_t × List sse_event_t :=
  let l := p.line
  let p := { p with line := [] }
  if p.line_over then ({ p with line_over := false, n_bad_lines := p.n_bad_lines + 1, ev_bad := true }, [])
  else if l = [] then dispatch p
  else if l.head? = some 0x3A then ({ p with n_comments := p.n_comments + 1 }, [])
  else
    let field := l.takeWhile (· ≠ 0x3A)
    let val := field_value l
    if field = ascii ['d', 'a', 't', 'a'] then (data_append p val, [])
    else if field = ascii ['e', 'v', 'e', 'n', 't'] then
      ({ p with ev_bad := p.ev_bad || SSE_NAME_MAX - 1 < val.length, name := copy_clamped SSE_NAME_MAX val }, [])
    else if field = ascii ['i', 'd'] then
      (if 0 ∈ val then p else { p with id := copy_clamped SSE_ID_MAX val }, [])
    else (p, [])

def feed_byte (p : sse_parser_t) (c : UInt8) : sse_parser_t × List sse_event_t :=
  if p.after_cr ∧ c = LF then ({ p with after_cr := false }, [])
  else
    let p := { p with after_cr := false }
    if c = CR then end_line { p with after_cr := true }
    else if c = LF then end_line p
    else if p.line.length < SSE_LINE_MAX then ({ p with line := p.line ++ [c] }, [])
    else ({ p with line_over := true }, [])

/-- Bytes one after another, with the events of all of them in order. -/
def feed_all (step : sse_parser_t → UInt8 → sse_parser_t × List sse_event_t) :
    sse_parser_t → List UInt8 → sse_parser_t × List sse_event_t
  | p, [] => (p, [])
  | p, c :: bytes =>
    let (p, evs) := step p c
    let (p, evs') := feed_all step p bytes
    (p, evs ++ evs')

/-- A partly matched mark turned out to be data: replay it. -/
def bom_replay (p : sse_parser_t) : sse_parser_t × List sse_event_t :=
  feed_all feed_byte { p with bom := 3 } (SSE_BOM.take p.bom)

/-- One turn of the loop of `sse_parser_feed`. -/
def parser_byte (p : sse_parser_t) (c : UInt8) : sse_parser_t × List sse_event_t :=
  let p := { p with n_bytes := p.n_bytes + 1 }
  if p.bom < 3 then
    if SSE_BOM[p.bom]? = some c then ({ p with bom := p.bom + 1 }, [])
    else
      let (p, evs) := bom_replay p
      let (p, evs') := feed_byte p c
      (p, evs ++ evs')
  else feed_byte p c

def sse_parser_feed (p : sse_parser_t) (bytes : List UInt8) : sse_parser_t × List sse_event_t :=
  feed_all parser_byte p bytes

def sse_parser_finish (p : sse_parser_t) : sse_parser_t × List sse_event_t :=
  let (p, evs) := if p.bom < 3 then bom_replay p else (p, [])
  let (p, evs') := if p.line ≠ [] ∨ p.line_over then end_line p else (p, [])
  let (p, evs'') := if p.data ≠ [] then dispatch p else (p, [])
  (p, evs ++ evs' ++ evs'')

end fable.sse
