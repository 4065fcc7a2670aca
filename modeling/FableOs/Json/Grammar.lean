import FableOs.Json.Scan

namespace fable.json

/-! The grammar of RFC 8259, over bytes. -/

/-- `ws`: space, tab, line feed and carriage return. -/
def IsWs (c : UInt8) : Prop := c = 0x20 ∨ c = 0x09 ∨ c = 0x0A ∨ c = 0x0D

def Digit (c : UInt8) : Prop := 0x30 ≤ c ∧ c ≤ 0x39

def Digit19 (c : UInt8) : Prop := 0x31 ≤ c ∧ c ≤ 0x39

def HexDigit (c : UInt8) : Prop := Digit c ∨ (0x61 ≤ c ∧ c ≤ 0x66) ∨ (0x41 ≤ c ∧ c ≤ 0x46)

def ws : Language UInt8 := letters IsWs

/-- `1*DIGIT` -/
def digits : Language UInt8 := letter Digit * letters Digit

/-- `zero / ( digit1-9 *DIGIT )` -/
def int : Language UInt8 := word [0x30] + letter Digit19 * letters Digit

/-- `decimal-point 1*DIGIT` -/
def frac : Language UInt8 := word [0x2E] * digits

/-- `e [ minus / plus ] 1*DIGIT` -/
def exp : Language UInt8 := letter (fun c => c = 0x65 ∨ c = 0x45) * ((letter (fun c => c = 0x2B ∨ c = 0x2D) + 1) * digits)

/-- `[ minus ] int [ frac ] [ exp ]` -/
def number : Language UInt8 := (word [0x2D] + 1) * (int * ((frac + 1) * (exp + 1)))

/-- A byte that stands for itself: no control character, quote or backslash.
    Bytes from `0x80` on are taken as they are. -/
def unescaped : Language UInt8 := letter fun c => 0x20 ≤ c ∧ c ≠ 0x22 ∧ c ≠ 0x5C

/-- A backslash and one of `"`, `\`, `/`, `b`, `f`, `n`, `r`, `t`. -/
def escape : Language UInt8 :=
  word [0x5C] * letter fun c => c ∈ [(0x22 : UInt8), 0x5C, 0x2F, 0x62, 0x66, 0x6E, 0x72, 0x74]

/-- A backslash, a `u` and four hexadecimal digits. -/
def unicode : Language UInt8 :=
  word [0x5C, 0x75] * (letter HexDigit * (letter HexDigit * (letter HexDigit * letter HexDigit)))

/-- `quotation-mark *char quotation-mark` -/
def string : Language UInt8 := word [0x22] * (KStar.kstar (unescaped + escape + unicode) * word [0x22])

/-- An element of an array, with the white space around it. -/
def element (value : Language UInt8) (v : List UInt8) : Language UInt8 :=
  ws * (only value v * ws)

/-- A member of an object: the name, a colon and the value, with the white
    space around them. -/
def member (value : Language UInt8) (kv : List UInt8 × List UInt8) : Language UInt8 :=
  ws * (only string kv.1 * (ws * (word [0x3A] * element value kv.2)))

/-- The productions for a value, given those for the values inside it. -/
inductive Production (value : Language UInt8) : json_type_t → List UInt8 → Prop
  | literal_null : Production value .null [0x6E, 0x75, 0x6C, 0x6C]
  | literal_true : Production value .bool [0x74, 0x72, 0x75, 0x65]
  | literal_false : Production value .bool [0x66, 0x61, 0x6C, 0x73, 0x65]
  | number {v : List UInt8} (h : v ∈ json.number) : Production value .number v
  | string {v : List UInt8} (h : v ∈ json.string) : Production value .string v
  | empty_array {w : List UInt8} (h : w ∈ ws) : Production value .array (0x5B :: (w ++ [0x5D]))
  | array {items : List (List UInt8)} {t : List UInt8} (h : SepBy (element value) 0x2C items t) :
      Production value .array (0x5B :: (t ++ [0x5D]))
  | empty_object {w : List UInt8} (h : w ∈ ws) : Production value .object (0x7B :: (w ++ [0x7D]))
  | object {items : List (List UInt8 × List UInt8)} {t : List UInt8} (h : SepBy (member value) 0x2C items t) :
      Production value .object (0x7B :: (t ++ [0x7D]))

/-- The values of a type that are nested at most `depth` deep; one that has no
    other value inside it is one deep. -/
def Value : Nat → json_type_t → List UInt8 → Prop
  | 0, _, _ => False
  | depth + 1, type, v => Production {x | ∃ inner, Value depth inner x} type v

/-- `JSON-text`: one value, with white space around it. -/
def Document (depth : Nat) (type : json_type_t) (before v after : List UInt8) : Prop :=
  before ∈ ws ∧ Value depth type v ∧ after ∈ ws

end fable.json
