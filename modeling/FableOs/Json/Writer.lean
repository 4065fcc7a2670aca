import FableOs.Json.Decode

namespace fable.json

open List

/-- The appender. `text` is the buffer up to `len`, where it holds a zero; `buf`
    says that there is a buffer at all. -/
structure json_writer_t where
  buf : Bool
  cap : Nat
  text : List UInt8
  overflow : Bool
  deriving DecidableEq, Repr

/-- `w->len` -/
abbrev json_writer_t.len (w : json_writer_t) : Nat := w.text.length

/-- What `json_escape_n` has stored, and the bytes a large enough buffer would
    hold by now. -/
structure emit_t where
  dst : List UInt8
  need : Nat
  deriving DecidableEq, Repr

def emit (cap : Nat) (out : emit_t) (c : UInt8) : emit_t :=
  { dst := if out.need + 1 < cap then out.dst ++ [c] else out.dst, need := out.need + 1 }

/-- `"0123456789abcdef"` -/
def hex : List UInt8 :=
  [0x30, 0x31, 0x32, 0x33, 0x34, 0x35, 0x36, 0x37, 0x38, 0x39, 0x61, 0x62, 0x63, 0x64, 0x65, 0x66]

def hex_digit (n : Nat) : UInt8 := hex.getD n 0

/-- The bytes that the `switch` of `json_escape_n` emits for one byte. -/
def escape_byte (c : UInt8) : List UInt8 :=
  if c = QUOTE then [BACKSLASH, QUOTE]
  else if c = BACKSLASH then [BACKSLASH, BACKSLASH]
  else if c = 0x08 then [BACKSLASH, 0x62]
  else if c = 0x0C then [BACKSLASH, 0x66]
  else if c = 0x0A then [BACKSLASH, 0x6E]
  else if c = 0x0D then [BACKSLASH, 0x72]
  else if c = 0x09 then [BACKSLASH, 0x74]
  else if c < 0x20 then
    [BACKSLASH, LOWER_U, ZERO, ZERO, hex_digit ((c.toNat >>> 4) &&& 0xF), hex_digit (c.toNat &&& 0xF)]
  else [c]

def json_escape_n (cap : Nat) (src : List UInt8) : emit_t :=
  src.foldl (fun out c => (escape_byte c).foldl (emit cap) out) ⟨[], 0⟩

def json_escape (cap : Nat) (src : cstr_t) : emit_t := json_escape_n cap src.bytes

def json_writer_init (buf : Bool) (cap : Nat) : json_writer_t := ⟨buf, cap, [], cap = 0⟩

def json_put_char (w : json_writer_t) (c : UInt8) : json_writer_t :=
  if w.overflow then w
  else if w.cap ≤ w.len + 1 then { w with overflow := true }
  else { w with text := w.text ++ [c] }

def json_put_n (w : json_writer_t) (s : List UInt8) : json_writer_t :=
  if w.overflow then w
  else if w.cap ≤ w.len + s.length then { w with overflow := true }
  else { w with text := w.text ++ s }

def json_put (w : json_writer_t) (s : cstr_t) : json_writer_t := json_put_n w s.bytes

/-- The digits that the first loop of `json_put_uint` leaves in `t`, a turn for
    each byte of `t`. -/
def uint_digits : Nat → Nat → List UInt8
  | 0, _ => []
  | fuel + 1, v => if v = 0 then [] else UInt8.ofNat (0x30 + v % 10) :: uint_digits fuel (v / 10)

def json_put_uint (w : json_writer_t) (v : Nat) : json_writer_t :=
  let t := if v = 0 then [ZERO] else uint_digits 20 v
  t.reverse.foldl json_put_char w

def json_put_int (w : json_writer_t) (v : Int64) : json_writer_t :=
  if v.toInt < 0 then json_put_uint (json_put_char w MINUS) ((-(v.toInt + 1)).toNat + 1)
  else json_put_uint w v.toInt.toNat

def json_put_string (w : json_writer_t) (s : cstr_t) : json_writer_t :=
  if w.overflow then w
  else
    let w := json_put_char w QUOTE
    if w.overflow then w
    else
      let room := w.cap - w.len
      let out := json_escape room s
      if room ≤ out.need + 1 then { w with overflow := true }
      else json_put_char { w with text := w.text ++ out.dst } QUOTE

def json_writer_ok (w : json_writer_t) : Bool := !w.overflow

def json_writer_len (w : json_writer_t) : Nat := w.len

section Push

variable {w : json_writer_t} {s s' : List UInt8}

/-- The writer `w` with `s` behind what it holds. -/
def json_writer_t.push (w : json_writer_t) (s : List UInt8) : json_writer_t := { w with text := w.text ++ s }

@[simp] theorem push_text : (w.push s).text = w.text ++ s := rfl

@[simp] theorem push_cap : (w.push s).cap = w.cap := rfl

@[simp] theorem push_overflow : (w.push s).overflow = w.overflow := rfl

@[simp] theorem push_len : (w.push s).len = w.len + s.length := length_append

@[simp] theorem push_push : (w.push s).push s' = w.push (s ++ s') := by
  simp [json_writer_t.push]

/-- With room for the text and a final zero it is appended. -/
theorem json_put_n_of_room (hok : w.overflow = false) (hroom : w.len + s.length < w.cap) :
    json_put_n w s = w.push s := by
  rw [json_put_n, if_neg (by rw [hok]; exact Bool.false_ne_true), if_neg (by omega)]
  rfl

theorem json_put_char_of_room {c} (hok : w.overflow = false) (hroom : w.len + 1 < w.cap) :
    json_put_char w c = w.push [c] := by
  rw [json_put_char, if_neg (by rw [hok]; exact Bool.false_ne_true), if_neg (by omega)]
  rfl

/-- No overflow after a byte means that there was room for it. -/
theorem room_of_json_put_char {c} (h : (json_put_char w c).overflow = false) :
    w.overflow = false ∧ w.len + 1 < w.cap := by
  rw [json_put_char] at h
  split at h
  · rename_i hover
    cases h.symm.trans hover
  split at h
  · cases h
  · rename_i hover hroom
    exact ⟨Bool.eq_false_iff.mpr hover, by omega⟩

/-- Byte by byte, a text with room is appended. -/
theorem foldl_json_put_char (hok : w.overflow = false) (hroom : w.len + s.length < w.cap) :
    s.foldl json_put_char w = w.push s := by
  induction s generalizing w with
  | nil => simp [json_writer_t.push]
  | cons c s ih =>
    rw [length_cons] at hroom
    have hrest := @ih (w.push [c]) hok (by rw [push_len, push_cap, length_singleton]; omega)
    rw [foldl_cons, json_put_char_of_room hok (by omega), hrest, push_push, singleton_append]

/-- No overflow after a text means that there was room for all of it. -/
theorem room_of_foldl_json_put_char (hne : s ≠ []) (h : (s.foldl json_put_char w).overflow = false) :
    w.overflow = false ∧ w.len + s.length < w.cap := by
  induction s generalizing w with
  | nil => exact absurd rfl hne
  | cons c s ih =>
    rw [foldl_cons] at h
    by_cases hs : s = []
    · subst hs
      exact room_of_json_put_char h
    · obtain ⟨hok, hroom⟩ := ih hs h
      obtain ⟨hok', hroom'⟩ := room_of_json_put_char hok
      rw [json_put_char_of_room hok' hroom', push_len, push_cap, length_singleton] at hroom
      exact ⟨hok', by rw [length_cons]; omega⟩

end Push

end fable.json
