import FableOs.Lib.Scanner

namespace fable.json

abbrev JSON_OK : Int := 0
abbrev JSON_EINVAL : Int := -22
abbrev JSON_EDEPTH : Int := -40

/-- Not a code of the reader: a loop is still running after more turns than
    there are bytes. -/
abbrev JSON_ENDLESS : Int := 1

abbrev JSON_MAX_DEPTH : Nat := 32

inductive json_type_t where
  | invalid
  | null
  | bool
  | number
  | string
  | array
  | object
  deriving DecidableEq, Repr

/-- A pointer into a buffer: the bytes from there to the buffer's end. -/
abbrev ptr_t := List UInt8

/-- A located value: a bounded span of the caller's buffer. -/
structure json_value_t where
  type : json_type_t
  start : Option ptr_t
  len : Nat
  deriving DecidableEq, Repr

abbrev QUOTE : UInt8 := 0x22
abbrev BACKSLASH : UInt8 := 0x5C
abbrev OPEN_BRACKET : UInt8 := 0x5B
abbrev CLOSE_BRACKET : UInt8 := 0x5D
abbrev OPEN_BRACE : UInt8 := 0x7B
abbrev CLOSE_BRACE : UInt8 := 0x7D
abbrev COMMA : UInt8 := 0x2C
abbrev COLON : UInt8 := 0x3A
abbrev MINUS : UInt8 := 0x2D
abbrev PLUS : UInt8 := 0x2B
abbrev DOT : UInt8 := 0x2E
abbrev ZERO : UInt8 := 0x30
abbrev LOWER_E : UInt8 := 0x65
abbrev UPPER_E : UInt8 := 0x45
abbrev LOWER_U : UInt8 := 0x75

/-- The bytes of `true`, `false` and `null`. -/
abbrev TRUE : List UInt8 := [0x74, 0x72, 0x75, 0x65]
abbrev FALSE : List UInt8 := [0x66, 0x61, 0x6C, 0x73, 0x65]
abbrev NULL : List UInt8 := [0x6E, 0x75, 0x6C, 0x6C]

def is_ws (c : UInt8) : Bool := c = 0x20 || c = 0x09 || c = 0x0A || c = 0x0D

def is_digit (c : UInt8) : Bool := 0x30 ≤ c && c ≤ 0x39

/-- `hexval(c) >= 0` -/
def is_hex (c : UInt8) : Bool :=
  (0x30 ≤ c && c ≤ 0x39) || (0x61 ≤ c && c ≤ 0x66) || (0x41 ≤ c && c ≤ 0x46)

def skip_ws (p : ptr_t) : ptr_t := p.dropWhile is_ws

def skip_digits (p : ptr_t) : ptr_t := p.dropWhile is_digit

/-- The escapes of one letter: a quote, a backslash, a slash, and `bfnrt`. -/
def is_escape (c : UInt8) : Bool :=
  c = QUOTE || c = BACKSLASH || c = 0x2F || c = 0x62 || c = 0x66 || c = 0x6E || c = 0x72 || c = 0x74

/-- The loop of `scan_string`, behind the opening quote. -/
def scan_chars : Scanner Int UInt8
  | [] => .error JSON_EINVAL
  | ch :: p =>
    if ch = QUOTE then .ok p
    else if ch < 0x20 then .error JSON_EINVAL
    else if ch = BACKSLASH then
      match p with
      | [] => .error JSON_EINVAL
      | e :: p =>
        if is_escape e then scan_chars p
        else if e = LOWER_U then
          match p with
          | a :: b :: c :: d :: p =>
            if is_hex a && is_hex b && is_hex c && is_hex d then scan_chars p else .error JSON_EINVAL
          | _ => .error JSON_EINVAL
        else .error JSON_EINVAL
    else scan_chars p

def scan_string : Scanner Int UInt8
  | [] => .error JSON_EINVAL
  | c :: p => if c = QUOTE then scan_chars p else .error JSON_EINVAL

/-- `if (p < end && *p == '-') p++;` -/
def skip_minus : ptr_t → ptr_t
  | [] => []
  | c :: p => if c = MINUS then p else c :: p

def skip_sign : ptr_t → ptr_t
  | [] => []
  | c :: p => if c = PLUS ∨ c = MINUS then p else c :: p

def scan_int : Scanner Int UInt8
  | [] => .error JSON_EINVAL
  | c :: p =>
    if c = ZERO then .ok p
    else if is_digit c then .ok (skip_digits (c :: p))
    else .error JSON_EINVAL

/-- At least one digit. -/
def scan_digits : Scanner Int UInt8
  | [] => .error JSON_EINVAL
  | c :: p => if is_digit c then .ok (skip_digits (c :: p)) else .error JSON_EINVAL

def scan_frac : Scanner Int UInt8
  | [] => .ok []
  | c :: p => if c = DOT then scan_digits p else .ok (c :: p)

def scan_exp : Scanner Int UInt8
  | [] => .ok []
  | c :: p => if c = LOWER_E ∨ c = UPPER_E then scan_digits (skip_sign p) else .ok (c :: p)

def scan_number : Scanner Int UInt8 := fun s => do
  let p ← scan_int (skip_minus s)
  let p ← scan_frac p
  let p ← scan_exp p
  if p.length = s.length then .error JSON_EINVAL else .ok p

def scan_lit (lit : List UInt8) : Scanner Int UInt8 := fun p =>
  if lit.isPrefixOf p then .ok (p.drop lit.length) else .error JSON_EINVAL

/-- The `for (;;)` of an object or an array: an item, and then a comma or the
    closing bracket. -/
def scan_items (item : Scanner Int UInt8) (close : UInt8) : Nat → Scanner Int UInt8
  | 0, _ => .error JSON_ENDLESS
  | fuel + 1, p => do
    let p ← item p
    match skip_ws p with
    | [] => .error JSON_EINVAL
    | c :: q =>
      if c = COMMA then scan_items item close fuel q
      else if c = close then .ok q
      else .error JSON_EINVAL

/-- One member of an object. -/
def scan_member (value : Scanner Int UInt8) : Scanner Int UInt8 := fun p => do
  let p ← scan_string (skip_ws p)
  match skip_ws p with
  | [] => .error JSON_EINVAL
  | c :: q => if c = COLON then value q else .error JSON_EINVAL

/-- The rest of an object or an array, behind its opening bracket. -/
def scan_container (item : Scanner Int UInt8) (close : UInt8) : Scanner Int UInt8 := fun p =>
  let p := skip_ws p
  match p with
  | [] => scan_items item close (p.length + 1) p
  | c :: q => if c = close then .ok q else scan_items item close (p.length + 1) p

/-- The `switch` over the first byte of a value. -/
def scan_body (value : Scanner Int UInt8) (c : UInt8) (p : ptr_t) : Except Int (json_type_t × ptr_t) :=
  if c = QUOTE then (scan_string (c :: p)).map (.string, ·)
  else if c = OPEN_BRACE then (scan_container (scan_member value) CLOSE_BRACE p).map (.object, ·)
  else if c = OPEN_BRACKET then (scan_container value CLOSE_BRACKET p).map (.array, ·)
  else if c = 0x74 then (scan_lit TRUE (c :: p)).map (.bool, ·)
  else if c = 0x66 then (scan_lit FALSE (c :: p)).map (.bool, ·)
  else if c = 0x6E then (scan_lit NULL (c :: p)).map (.null, ·)
  else (scan_number (c :: p)).map (.number, ·)

/-- `scan_value` with the number of levels that are left instead of the depth:
    `JSON_MAX_DEPTH + 1 - depth`. -/
def scan_value_within : Nat → ptr_t → Except Int (json_value_t × ptr_t)
  | 0, _ => .error JSON_EDEPTH
  | levels + 1, p =>
    match skip_ws p with
    | [] => .error JSON_EINVAL
    | c :: q => do
      let (type, rest) ← scan_body (fun p => (scan_value_within levels p).map Prod.snd) c q
      .ok (⟨type, some (c :: q), (c :: q).length - rest.length⟩, rest)

def scan_value (p : ptr_t) (depth : Nat) : Except Int (json_value_t × ptr_t) :=
  scan_value_within (JSON_MAX_DEPTH + 1 - depth) p

def json_parse (text : Option ptr_t) : Int × json_value_t :=
  match text with
  | none => (JSON_EINVAL, ⟨.invalid, none, 0⟩)
  | some text =>
    match scan_value text 1 with
    | .error err => (err, ⟨.invalid, none, 0⟩)
    | .ok (v, p) => if skip_ws p ≠ [] then (JSON_EINVAL, { v with type := .invalid }) else (JSON_OK, v)

end fable.json
