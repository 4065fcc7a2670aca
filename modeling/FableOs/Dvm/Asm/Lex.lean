import FableOs.Dvm.OpTable

namespace fable.dvm

/-- The bytes of a text of the program. -/
def bytes_of (text : String) : List UInt8 := text.toList.map fun c => UInt8.ofNat c.toNat

abbrev QUOTE : UInt8 := 0x22
abbrev BACKSLASH : UInt8 := 0x5C
abbrev OPEN_BRACKET : UInt8 := 0x5B
abbrev CLOSE_BRACKET : UInt8 := 0x5D
abbrev NEWLINE : UInt8 := 0x0A

/-- A token: the bytes between `s` and `s + len`. -/
abbrev tok_t := List UInt8

abbrev MAXTOK : Nat := 8

def is_digit (c : UInt8) : Bool := 0x30 ≤ c && c ≤ 0x39

def is_ident_start (c : UInt8) : Bool :=
  (0x61 ≤ c && c ≤ 0x7A) || (0x41 ≤ c && c ≤ 0x5A) || c = 0x5F || c = 0x2E

def is_ident_char (c : UInt8) : Bool := is_ident_start c || is_digit c

def tok_ieq : tok_t → List UInt8 → Bool
  | [], word => word.isEmpty
  | _ :: _, [] => false
  | c :: t, w :: word => dlower c = dlower w && tok_ieq t word

/-- What `reg_index` tells apart: a register, a register this machine does
    not have, and no register name at all. -/
inductive reg_index_t where
  | reg (index : Nat)
  | missing
  | not_reg
  deriving DecidableEq, Repr

/-- The digit loop; it gives up as soon as the number passes 999. -/
def reg_digits (v : Nat) : List UInt8 → reg_index_t
  | [] => if v < DVM_NREGS then .reg v else .missing
  | c :: rest =>
    if !is_digit c then .not_reg
    else
      let v' := v * 10 + (c.toNat - 0x30)
      if 999 < v' then .missing else reg_digits v' rest

def reg_index (t : tok_t) : reg_index_t :=
  match t with
  | r :: d :: rest => if r = 0x72 ∨ r = 0x52 then reg_digits 0 (d :: rest) else .not_reg
  | _ => .not_reg

inductive parse_num_t where
  | num (v : UInt64)
  | overflow
  | not_num
  deriving DecidableEq, Repr

def hex_digit (c : UInt8) : Option Nat :=
  let c := dlower c
  if is_digit c then some (c.toNat - 0x30)
  else if 0x61 ≤ c ∧ c ≤ 0x66 then some (c.toNat - 0x61 + 10)
  else none

/-- The digit loop of `parse_num`: the value so far and the digits seen. -/
def num_digits (neg : Bool) (base : Nat) (v digits : Nat) : List UInt8 → parse_num_t
  | [] =>
    if digits = 0 then .not_num
    else .num (if neg then 0 - UInt64.ofNat v else UInt64.ofNat v)
  | c :: rest =>
    if dlower c = 0x5F then num_digits neg base v digits rest
    else
      match hex_digit c with
      | none => .not_num
      | some d =>
        if base ≤ d then .not_num
        else if (2 ^ 64 - 1 - d) / base < v then .overflow
        else num_digits neg base (v * base + d) (digits + 1) rest

/-- The base a literal announces, and what is left of it. -/
def num_base (t : tok_t) : Nat × tok_t :=
  match t with
  | z :: x :: d :: rest =>
    if z = 0x30 ∧ (x = 0x78 ∨ x = 0x58) then (16, d :: rest)
    else if z = 0x30 ∧ (x = 0x62 ∨ x = 0x42) then (2, d :: rest)
    else (10, t)
  | _ => (10, t)

def parse_num (t : tok_t) : parse_num_t :=
  match t with
  | [] => .not_num
  | c :: rest =>
    let signed := c = 0x2D ∨ c = 0x2B
    let body := if signed then rest else t
    if body = [] then .not_num
    else
      let (base, digits) := num_base body
      num_digits (c = 0x2D) base 0 0 digits

/-- At most `count` hexadecimal digits: how many there were, their value, and
    what follows them. -/
def hex_run : Nat → Nat → Nat → List UInt8 → Nat × Nat × List UInt8
  | 0, n, v, s => (n, v, s)
  | _ + 1, n, v, [] => (n, v, [])
  | count + 1, n, v, c :: rest =>
    match hex_digit c with
    | none => (n, v, c :: rest)
    | some d => hex_run count (n + 1) (v * 16 + d) rest

/-- "00:03.0", as `pci_list` prints an address. -/
def parse_bdf (t : tok_t) : Option UInt64 :=
  match hex_run 2 0 0 t with
  | (_ + 1, bus, colon :: s) =>
    if colon ≠ 0x3A then none
    else
      match hex_run 2 0 0 s with
      | (_ + 1, dev, dot :: s') =>
        if dot ≠ 0x2E ∨ 31 < dev then none
        else
          match s' with
          | [f] =>
            if f < 0x30 ∨ 0x37 < f then none
            else some (UInt64.ofNat (bus <<< 8 ||| dev <<< 3 ||| (f.toNat - 0x30)))
          | _ => none
      | _ => none
  | _ => none

/-- `strip_comment`, inside a string when `q` is set and after a backslash of
    one when `esc` is. -/
def strip_comment_from (q esc : Bool) : List UInt8 → List UInt8
  | [] => []
  | c :: rest =>
    if q then
      if esc then c :: strip_comment_from true false rest
      else if c = BACKSLASH then c :: strip_comment_from true true rest
      else if c = QUOTE then c :: strip_comment_from false false rest
      else c :: strip_comment_from true false rest
    else if c = QUOTE then c :: strip_comment_from true false rest
    else if c = 0x3B ∨ c = 0x23 ∨ (c = 0x2F ∧ rest.head? = some 0x2F) then []
    else c :: strip_comment_from false false rest

def strip_comment (s : List UInt8) : List UInt8 := strip_comment_from false false s

def is_space (c : UInt8) : Bool := c = 0x20 || c = 0x09 || c = 0x0D || c = 0x2C

/-- A string literal up to its closing quote, and what follows it. -/
def string_end (esc : Bool) : List UInt8 → Option (List UInt8 × List UInt8)
  | [] => none
  | c :: rest =>
    if !esc && c = QUOTE then some ([c], rest)
    else (string_end (!esc && c = BACKSLASH) rest).map fun (text, rest) => (c :: text, rest)

def word_char (c : UInt8) : Bool := !is_space c && c ≠ QUOTE && c ≠ OPEN_BRACKET

/-- `tokenise` after `n` tokens; each round consumes at least one byte. -/
def tokenise_from : Nat → Nat → List UInt8 → Except String (List tok_t)
  | 0, _, _ => .ok []
  | _ + 1, _, [] => .ok []
  | fuel + 1, n, c :: rest =>
    if is_space c then tokenise_from fuel n rest
    else if MAXTOK ≤ n then .error s!"too many operands (at most {MAXTOK - 1} per instruction)"
    else if c = QUOTE then
      match string_end false rest with
      | none => .error "unterminated string literal"
      | some (text, rest) => do
        let more ← tokenise_from fuel (n + 1) rest
        pure ((c :: text) :: more)
    else if c = OPEN_BRACKET then
      match rest.dropWhile (· != CLOSE_BRACKET) with
      | [] => .error "unterminated '[' - write an address as [r1+0x10]"
      | close :: after => do
        let more ← tokenise_from fuel (n + 1) after
        pure ((c :: rest.takeWhile (· != CLOSE_BRACKET) ++ [close]) :: more)
    else do
      let more ← tokenise_from fuel (n + 1) (rest.dropWhile word_char)
      pure ((c :: rest.takeWhile word_char) :: more)

def tokenise (s : List UInt8) : Except String (List tok_t) := tokenise_from s.length 0 s

/-- The lines of a source text. A last line without a newline still counts,
    an empty one does not. -/
def source_lines_from (line : List UInt8) : List UInt8 → List (List UInt8)
  | [] => if line = [] then [] else [line]
  | c :: rest =>
    if c = NEWLINE then line :: source_lines_from [] rest else source_lines_from (line ++ [c]) rest

def source_lines (src : List UInt8) : List (List UInt8) := source_lines_from [] src

/-- The tokens of one line. A NUL ends the line early. -/
def line_tokens (raw : List UInt8) : Except String (List tok_t) :=
  if DVM_LINE_MAX ≤ raw.length then
    .error s!"line is {raw.length} characters; the limit is {DVM_LINE_MAX - 1}"
  else tokenise (strip_comment (raw.takeWhile (· != 0)))

end fable.dvm
