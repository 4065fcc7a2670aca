import FableOs.Json.Scan

namespace fable.json

abbrev JSON_ENOENT : Int := -2
abbrev JSON_ETYPE : Int := -21
abbrev JSON_ENOSPC : Int := -28

/-- A string of the source language: its bytes up to the terminating zero. -/
structure cstr_t where
  bytes : List UInt8
  no_nul : (0 : UInt8) ∉ bytes
  deriving DecidableEq

/-- `-1` is `none`. -/
def hexval (c : UInt8) : Option Nat :=
  if 0x30 ≤ c ∧ c ≤ 0x39 then some (c.toNat - 0x30)
  else if 0x61 ≤ c ∧ c ≤ 0x66 then some (c.toNat - 0x61 + 10)
  else if 0x41 ≤ c ∧ c ≤ 0x46 then some (c.toNat - 0x41 + 10)
  else none

def utf8_encode (cp : Nat) : List UInt8 :=
  if cp < 0x80 then [UInt8.ofNat cp]
  else if cp < 0x800 then [UInt8.ofNat (0xC0 ||| (cp >>> 6)), UInt8.ofNat (0x80 ||| (cp &&& 0x3F))]
  else if cp < 0x10000 then
    [UInt8.ofNat (0xE0 ||| (cp >>> 12)), UInt8.ofNat (0x80 ||| ((cp >>> 6) &&& 0x3F)),
      UInt8.ofNat (0x80 ||| (cp &&& 0x3F))]
  else
    [UInt8.ofNat (0xF0 ||| (cp >>> 18)), UInt8.ofNat (0x80 ||| ((cp >>> 12) &&& 0x3F)),
      UInt8.ofNat (0x80 ||| ((cp >>> 6) &&& 0x3F)), UInt8.ofNat (0x80 ||| (cp &&& 0x3F))]

/-- Four hexadecimal digits; `-1` is `none`. -/
def hex4 : ptr_t → Option Nat
  | a :: b :: c :: d :: _ => do
    let v ← hexval a
    let v := (v <<< 4) ||| (← hexval b)
    let v := (v <<< 4) ||| (← hexval c)
    some ((v <<< 4) ||| (← hexval d))
  | _ => none

def is_high (cp : Nat) : Bool := 0xD800 ≤ cp && cp ≤ 0xDBFF

def is_low (cp : Nat) : Bool := 0xDC00 ≤ cp && cp ≤ 0xDFFF

/-- The low half of a surrogate pair, if it is what comes next. -/
def low_half (p : ptr_t) : Option Nat :=
  match p with
  | a :: b :: q => if 6 ≤ p.length ∧ a = BACKSLASH ∧ b = LOWER_U then (hex4 q).filter is_low else none
  | _ => none

/-- `case 'u'` of `decode_one`, behind the `u`. -/
def decode_u (p : ptr_t) : Option (List UInt8 × ptr_t) :=
  match hex4 p with
  | none => none
  | some cp =>
    let p := p.drop 4
    if is_high cp then
      match low_half p with
      | some lo => some (utf8_encode (0x10000 + ((cp - 0xD800) <<< 10) + (lo - 0xDC00)), p.drop 6)
      | none => some (utf8_encode 0xFFFD, p)
    else if is_low cp then some (utf8_encode 0xFFFD, p)
    else some (utf8_encode cp, p)

/-- The `switch` over the letter of an escape, `u` aside. -/
def unescape (e : UInt8) : Option UInt8 :=
  if e = QUOTE then some QUOTE
  else if e = BACKSLASH then some BACKSLASH
  else if e = 0x2F then some 0x2F
  else if e = 0x62 then some 0x08
  else if e = 0x66 then some 0x0C
  else if e = 0x6E then some 0x0A
  else if e = 0x72 then some 0x0D
  else if e = 0x74 then some 0x09
  else none

/-- One character of a string body: its bytes, and what is left behind it. A
    return of `0` is `none`. -/
def decode_one : ptr_t → Option (List UInt8 × ptr_t)
  | [] => none
  | c :: p =>
    if c ≠ BACKSLASH then some ([c], p)
    else
      match p with
      | [] => none
      | e :: p => if e = LOWER_U then decode_u p else (unescape e).map fun b => ([b], p)

/-- The bytes of a located value. -/
def json_value_t.text (v : json_value_t) : List UInt8 := (v.start.getD []).take v.len

/-- What stands between the first and the last byte of a located value. -/
def json_value_t.body (v : json_value_t) : List UInt8 := v.text.tail.dropLast

/-- The loop of `json_str`; `dst` is what it has stored so far. -/
def str_chars (cap : Nat) : Nat → ptr_t → List UInt8 → Int × List UInt8
  | 0, _, dst => (JSON_ENDLESS, dst)
  | fuel + 1, p, dst =>
    if p = [] then (JSON_OK, dst)
    else
      match decode_one p with
      | none => (JSON_EINVAL, dst)
      | some (buf, q) => if cap ≤ dst.length + buf.length then (JSON_ENOSPC, dst) else str_chars cap fuel q (dst ++ buf)

/-- The code, and what `dst` holds up to its terminating zero. -/
def json_str (v : Option json_value_t) (cap : Nat) : Int × List UInt8 :=
  match v with
  | none => (JSON_EINVAL, [])
  | some v =>
    if cap = 0 then (JSON_EINVAL, [])
    else if v.type ≠ .string ∨ v.len < 2 then (JSON_ETYPE, [])
    else str_chars cap (v.body.length + 1) v.body []

/-- The bytes of one character against a string: what is left of it. -/
def match_bytes : List UInt8 → List UInt8 → Option (List UInt8)
  | [], s => some s
  | _ :: _, [] => none
  | b :: buf, c :: s => if c = b then match_bytes buf s else none

/-- The loop of `json_str_eq`. -/
def str_eq_chars : Nat → ptr_t → List UInt8 → Bool
  | 0, _, _ => false
  | fuel + 1, p, s =>
    if p = [] then s = []
    else
      match decode_one p with
      | none => false
      | some (buf, q) =>
        match match_bytes buf s with
        | none => false
        | some s => str_eq_chars fuel q s

def json_str_eq (v : Option json_value_t) (s : Option cstr_t) : Bool :=
  match v, s with
  | some v, some s =>
    if v.type ≠ .string ∨ v.len < 2 then false else str_eq_chars (v.body.length + 1) v.body s.bytes
  | _, _ => false

/-- The digits of `json_int`: the magnitude, whether there was a digit, and what
    is left; `none` is an overflow. -/
def int_digits (limit : Nat) : ptr_t → Nat → Bool → Option (Nat × Bool × ptr_t)
  | [], mag, any => some (mag, any, [])
  | c :: p, mag, any =>
    if is_digit c then
      if limit / 10 < mag then none
      else
        let mag := mag * 10 + (c.toNat - 0x30)
        if limit < mag then none else int_digits limit p mag true
    else some (mag, any, c :: p)

/-- `if (p < end && *p == '.') { p++; while (p < end && is_digit(*p)) p++; }` -/
def skip_fraction : ptr_t → ptr_t
  | [] => []
  | c :: p => if c = DOT then skip_digits p else c :: p

/-- The code, and what it stores; nothing is stored with a code other than
    `JSON_OK`. -/
def json_int (v : Option json_value_t) : Int × Option Int :=
  match v with
  | none => (JSON_EINVAL, none)
  | some v =>
    if v.type ≠ .number then (JSON_ETYPE, none)
    else
      let p := v.text
      let neg := p.head? = some MINUS
      let limit := if neg then 0x8000000000000000 else 0x7FFFFFFFFFFFFFFF
      match int_digits limit (if neg then p.tail else p) 0 false with
      | none => (JSON_EINVAL, none)
      | some (mag, any, p) =>
        if any = false then (JSON_EINVAL, none)
        else if skip_fraction p ≠ [] then (JSON_EINVAL, none)
        else (JSON_OK, some (if neg then -(mag : Int) else mag))

end fable.json
