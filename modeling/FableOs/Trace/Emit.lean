import Mathlib

namespace fable.trace

/-! The kernel's trace lines: `[<op> <args> -> <result>]`. -/

open List

abbrev TRACE_LINE_MAX : Nat := 512

/-- The bytes of a text of the source. -/
def lit (cs : List Char) : List UInt8 := cs.map fun c => UInt8.ofNat c.toNat

/-- The string a buffer holds: its bytes up to the first NUL. -/
def c_string (bytes : List UInt8) : List UInt8 := bytes.takeWhile (· != 0)

/-- What `vsnprintf` leaves of a text in a buffer of `size` bytes. -/
def snprintf (size : Nat) (text : List UInt8) : List UInt8 := c_string (text.take (size - 1))

/-- The bytes that could forge the structure of a line. -/
def escape (c : UInt8) : Bool := c < 0x20 || c == 0x7F || c == 0x5B || c == 0x5D

def hex : List UInt8 := lit ['0', '1', '2', '3', '4', '5', '6', '7', '8', '9', 'a', 'b', 'c', 'd', 'e', 'f']

/-- The loop of `sanitize`, with `o` bytes written. -/
def sanitize_from (cap : Nat) : Nat → List UInt8 → List UInt8
  | _, [] => []
  | o, c :: src =>
    if c = 0 then []
    else if escape c then
      if cap ≤ o + 4 then []
      else
        0x5C :: 0x78 :: hex.getD ((c >>> 4) &&& 0xF).toNat 0 :: hex.getD (c &&& 0xF).toNat 0 ::
          sanitize_from cap (o + 4) src
    else if cap ≤ o + 1 then []
    else c :: sanitize_from cap (o + 1) src

def sanitize (cap : Nat) (src : List UInt8) : List UInt8 := sanitize_from cap 0 src

/-- The operation name, clipped to what the result leaves of the line. -/
def clip_op (avail : Nat) (sop : List UInt8) : List UInt8 :=
  if avail < sop.length + 1 then
    let keep := if 4 < avail then avail - 4 else 0
    if keep = 0 then [] else sop.take (keep - 1) ++ lit ['.']
  else sop

/-- `[<op> -> <result>]`. -/
def bare_line (sop result : List UInt8) : List UInt8 :=
  snprintf TRACE_LINE_MAX (lit ['['] ++ sop ++ lit [' ', '-', '>', ' '] ++ result ++ lit [']', '\n'])

/-- `[<op> <args> -> <result>]`. -/
def full_line (sop args result : List UInt8) : List UInt8 :=
  snprintf TRACE_LINE_MAX
    (lit ['['] ++ sop ++ lit [' '] ++ args ++ lit [' ', '-', '>', ' '] ++ result ++ lit [']', '\n'])

/-- The line `emit` prints. The arguments are the text their format produces,
    or nothing when there is no format. -/
def emit_line (op args result : Option (List UInt8)) : List UInt8 :=
  let result := c_string (result.getD (lit ['?']))
  let sop := sanitize 128 (op.getD (lit ['?']))
  let args := sanitize TRACE_LINE_MAX (snprintf TRACE_LINE_MAX (args.getD []))
  let reserve := 4 + result.length + 2 + 1
  let avail := if reserve + 2 < TRACE_LINE_MAX then TRACE_LINE_MAX - reserve - 1 else 0
  let sop := clip_op avail sop
  if args = [] then bare_line sop result
  else
    let room := if sop.length + 1 < avail then avail - sop.length - 1 else 0
    if room < args.length then
      let args := if 3 < room then args.take (room - 3) else []
      if args = [] then bare_line sop result else full_line sop (args ++ lit ['.', '.', '.']) result
    else full_line sop args result

/-- The tracer's counters, its switch, and what the console has shown. -/
structure tracer where
  trace_seq : UInt32
  trace_written : UInt64
  trace_is_on : Bool
  console : List UInt8

def emit (t : tracer) (op args result : Option (List UInt8)) : tracer :=
  let t := { t with trace_seq := t.trace_seq + 1 }
  if t.trace_is_on then
    { t with console := t.console ++ emit_line op args result, trace_written := t.trace_written + 1 }
  else t

def err_names : List (Int × List UInt8) :=
  [(-2, lit ['E', 'N', 'O', 'E', 'N', 'T']),
   (-17, lit ['E', 'E', 'X', 'I', 'S', 'T']),
   (-20, lit ['E', 'N', 'O', 'T', 'D', 'I', 'R']),
   (-22, lit ['E', 'I', 'N', 'V', 'A', 'L']),
   (-28, lit ['E', 'N', 'O', 'S', 'P', 'C']),
   (-70, lit ['E', 'T', 'R', 'A', 'N', 'S', 'P', 'O', 'R', 'T']),
   (-71, lit ['E', 'T', 'I', 'M', 'E', 'O', 'U', 'T']),
   (-72, lit ['E', 'P', 'R', 'O', 'T', 'O']),
   (-73, lit ['E', 'S', 'C', 'R', 'I', 'P', 'T'])]

def trace_errname (err : Int) : Option (List UInt8) := (err_names.find? (·.1 = err)).map Prod.snd

/-- The digits of a magnitude, the lowest first. No 64-bit value has more than
    twenty. -/
def digits : Nat → Nat → List UInt8
  | 0, _ => []
  | fuel + 1, v => if v = 0 then [] else UInt8.ofNat (0x30 + v % 10) :: digits fuel (v / 10)

/-- A plain `%d` or `%ld` conversion. -/
def emit_int (v : Int) : List UInt8 :=
  (if v < 0 then lit ['-'] else []) ++ (if v = 0 then lit ['0'] else (digits 20 v.natAbs).reverse)

/-- What the three entry points report. -/
inductive report where
  | ok
  | ret (ret : Int64)
  | err (err : Int32)

/-- The result text each entry point hands to `emit`. -/
def result_text : report → List UInt8
  | .ok => lit ['o', 'k']
  | .ret ret => snprintf 32 (emit_int ret.toInt)
  | .err err =>
    match trace_errname err.toInt with
    | some name => snprintf 32 name
    | none => if err = 0 then snprintf 32 (lit ['e', 'r', 'r', 'o', 'r']) else snprintf 32 (emit_int err.toInt)

/-- One use of the module, or a text that something else prints. -/
inductive action where
  | call (r : report) (op args : Option (List UInt8))
  | trace_reset
  | trace_set_enabled (on : Bool)
  | kputs (text : List UInt8)

def step (t : tracer) : action → tracer
  | .call r op args => emit t op args (some (result_text r))
  | .trace_reset => { t with trace_seq := 0 }
  | .trace_set_enabled on => { t with trace_is_on := on }
  | .kputs text => { t with console := t.console ++ text }

def run (t : tracer) (acts : List action) : tracer := acts.foldl step t

/-- A call that prints a line, with what the console shows before it. -/
structure printed_t where
  before : List UInt8
  r : report
  op : Option (List UInt8)
  args : Option (List UInt8)

def printed_t.line (c : printed_t) : List UInt8 := emit_line c.op c.args (some (result_text c.r))

/-- The calls of a run that print a line: those made while tracing is on. -/
def printed : tracer → List action → List printed_t
  | _, [] => []
  | t, act :: acts =>
    match act with
    | .call r op args =>
      if t.trace_is_on then ⟨t.console, r, op, args⟩ :: printed (step t act) acts else printed (step t act) acts
    | _ => printed (step t act) acts

/-- No byte that could forge the structure of a line. -/
def Clean (text : List UInt8) : Prop := ∀ c ∈ text, escape c = false

instance (text : List UInt8) : Decidable (Clean text) := inferInstanceAs (Decidable (∀ c ∈ text, escape c = false))

/-- A well-formed trace line for a result: a bracket, clean text
    that ends with the arrow and the whole result, a bracket and a newline, all
    within the limit. -/
def Line (result line : List UInt8) : Prop :=
  line.length < TRACE_LINE_MAX ∧
    ∃ body, line = lit ['['] ++ (body ++ lit [' ', '-', '>', ' '] ++ result) ++ lit [']', '\n'] ∧
      Clean (body ++ lit [' ', '-', '>', ' '] ++ result)

section Clean

variable {xs ys : List UInt8}

theorem Clean.take (h : Clean xs) (n : Nat) : Clean (xs.take n) := fun c hc => h c (mem_of_mem_take hc)

theorem Clean.snprintf (h : Clean xs) (size : Nat) : Clean (snprintf size xs) :=
  fun c hc => h.take _ c ((takeWhile_sublist _).mem hc)

end Clean

section Layout

variable {sop args result : List UInt8}

end Layout

section Results

end Results

section Runs

theorem Line.last {result line} (h : Line result line) : ∃ front, line = front ++ [0x0A] := by
  obtain ⟨-, body, rfl, -⟩ := h
  exact ⟨lit ['['] ++ (body ++ lit [' ', '-', '>', ' '] ++ result) ++ [0x5D], (append_assoc _ [0x5D] [0x0A]).symm⟩

end Runs

end fable.trace
