import FableOs.Json.Data
import FableOs.Lib.Digest
import FableOs.Sse.Frame

namespace fable.record

/-! What the stores share: their records are JSON objects in one line, and the
checksum of that line stands in front of it. -/

open fable.json List
open fable.sse (cstr_of)

/-- What a character array holds up to its terminating zero. -/
abbrev text_t := List UInt8

/-- A buffer as the string that it holds. -/
def zstr (buf : List UInt8) : text_t := buf.takeWhile (· ≠ 0)

section Characters

def lower (c : UInt8) : Bool := 0x61 ≤ c && c ≤ 0x7A

def name_char (c : UInt8) : Bool := lower c || (0x30 ≤ c && c ≤ 0x39) || c = 0x5F

def printable (c : UInt8) : Bool := 0x20 ≤ c && c < 0x7F

end Characters

section Texts

/-- A text that an array of `cap` characters takes as it is. -/
def Holds (cap : Nat) (s : text_t) : Prop := s.length < cap ∧ 0 ∉ s

/-- A text whose characters are all of one kind, zero not among them, is held. -/
theorem holds_of_chars {s} {cap : Nat} {good : UInt8 → Bool} (hzero : good 0 = false) (hlen : s.length < cap)
    (h : ∀ c ∈ s, good c = true) : Holds cap s := by
  refine ⟨hlen, fun hmem => ?_⟩
  have hgood := h 0 hmem
  cases hzero.symm.trans hgood

end Texts

section Reading

def ensure {E A : Type} (e : E) : Option A → Except E A
  | none => .error e
  | some a => .ok a

def value_at (root : json_value_t) (key : cstr_t) : Option json_value_t :=
  match json_get (some root) (some key) with
  | (rc, v) => if rc ≠ JSON_OK then none else some v

/-- The text of a member, where it is a string that fits. -/
def text_at (root : json_value_t) (key : cstr_t) (cap : Nat) : Option text_t :=
  match json_get_str (some root) (some key) cap with
  | (rc, s) => if rc ≠ JSON_OK then none else some (zstr s)

def int_at (root : json_value_t) (key : cstr_t) : Option Int :=
  match json_get (some root) (some key) with
  | (rc, v) =>
    if rc ≠ JSON_OK then none
    else
      match json_int (some v) with
      | (rc, n) => if rc ≠ JSON_OK then none else n

/-- The string at an index of an array, where it is one and fits. -/
def string_at (arr : json_value_t) (i cap : Nat) : Option text_t :=
  match json_at (some arr) i with
  | (rc, v) =>
    if rc ≠ JSON_OK then none
    else
      match json_str (some v) cap with
      | (rc, s) => if rc ≠ JSON_OK then none else some (zstr s)

/-- `left` entries of the array from index `i` on, in order. -/
def each_at {E A : Type} (f : Nat → Except E A) : Nat → Nat → Except E (List A)
  | 0, _ => .ok []
  | left + 1, i => do
    let a ← f i
    let rest ← each_at f left (i + 1)
    pure (a :: rest)

theorem zstr_eq {s : text_t} (h : 0 ∉ s) : zstr s = s := by
  refine takeWhile_eq_self_iff.mpr fun c hc => ?_
  rw [decide_eq_true_eq]
  rintro rfl
  exact h hc

section Members

variable {ms : List member_t} {v : json_value_t} {key : cstr_t} {m : member_t}

/-- The first member with the name is the one that is found. -/
theorem value_at_of_member (h : IsObject ms v) (hfind : ms.find? (fun m => m.key = key) = some m) :
    ∃ val, value_at v key = some val ∧ m.means val := by
  obtain ⟨val, hget, hmeans⟩ := h.get hfind
  exact ⟨val, by simp [value_at, hget], hmeans⟩

/-- A string that was written is read back by its member's name. -/
theorem text_at_of_member {s : text_t} {cap : Nat} (h : IsObject ms v)
    (hfind : ms.find? (fun m => m.key = key) = some m) (hmeans : m.means = IsString (zstr s)) (hs : Holds cap s) :
    text_at v key cap = some s := by
  obtain ⟨val, hget, hval⟩ := h.get hfind
  rw [hmeans, zstr_eq hs.2] at hval
  simp [text_at, json_get_str, hget, hval.2 cap hs.1, zstr_eq hs.2]

/-- A number that was written is read back by its member's name. -/
theorem int_at_of_member {n : Nat} (h : IsObject ms v) (hfind : ms.find? (fun m => m.key = key) = some m)
    (hmeans : m.means = IsNumber n) : int_at v key = some (n : Int) := by
  obtain ⟨val, hget, hval⟩ := h.get hfind
  rw [hmeans] at hval
  simp [int_at, hget, hval.2]

/-- A string that was written is read back by its place. -/
theorem string_at_of_element {items} {i cap : Nat} {a} {s : text_t} (h : IsArray items v) (ha : items[i]? = some a)
    (hmeans : a.means = IsString (zstr s)) (hs : Holds cap s) : string_at v i cap = some s := by
  obtain ⟨val, hat, hval⟩ := h.2.2 i a ha
  rw [hmeans, zstr_eq hs.2] at hval
  simp [string_at, hat, hval.2 cap hs.1, zstr_eq hs.2]

/-- If every place can be read, so can the list. -/
theorem each_at_eq {E A : Type} {f : Nat → Except E A} {as} {i : Nat}
    (h : ∀ k a, as[k]? = some a → f (i + k) = .ok a) : each_at f as.length i = .ok as := by
  induction as generalizing i with
  | nil => rfl
  | cons a as ih =>
    have hhead : f i = .ok a := h 0 a rfl
    have hrest : each_at f as.length (i + 1) = .ok as := by
      refine ih fun k b hk => ?_
      rw [Nat.add_assoc, Nat.add_comm 1 k]
      exact h (k + 1) b hk
    rw [length_cons, each_at, hhead]
    exact congrArg (fun x : Except E (List A) => x.bind fun rest => .ok (a :: rest)) hrest

/-- A list that was read holds what is at each place. -/
theorem each_at_ok {E A : Type} {f : Nat → Except E A} {n i : Nat} {as} (h : each_at f n i = .ok as) :
    as.length = n ∧ ∀ k a, as[k]? = some a → f (i + k) = .ok a := by
  induction n generalizing i as with
  | zero =>
    cases h
    exact ⟨rfl, fun k a hk => by simp at hk⟩
  | succ n ih =>
    rw [each_at] at h
    obtain ⟨b, hb, h⟩ := except_bind_eq_ok_iff.mp h
    obtain ⟨rest, hrest, h⟩ := except_bind_eq_ok_iff.mp h
    cases h
    obtain ⟨hlen, hall⟩ := ih hrest
    refine ⟨congrArg (· + 1) hlen, fun k a hk => ?_⟩
    cases k with
    | zero =>
      cases hk
      exact hb
    | succ k =>
      rw [Nat.add_comm k 1, ← Nat.add_assoc]
      exact hall k a hk

end Members

end Reading

section Writing

def json_put_all {A : Type} (put : json_writer_t → A → json_writer_t) (w : json_writer_t) : List A → json_writer_t
  | [] => w
  | a :: as => as.foldl (fun w a => put (json_put_char w COMMA) a) (put w a)

/-- The name of a member, with what stands in front of it. -/
def key_text (lead : UInt8) (key : cstr_t) : text_t := lead :: QUOTE :: (key.bytes ++ [QUOTE, COLON])

/-- A literal piece of the record. -/
def json_put_key (w : json_writer_t) (lead : UInt8) (key : cstr_t) : json_writer_t := json_put_n w (key_text lead key)

def put_text (w : json_writer_t) (s : text_t) : json_writer_t := json_put_string w (cstr_of s)

/-- If nothing overflows, the writer has this text more than before. -/
def Puts (put : json_writer_t → json_writer_t) (text : text_t) : Prop :=
  ∀ w, (put w).overflow = false → w.overflow = false ∧ put w = w.push text

variable {put next : json_writer_t → json_writer_t} {s t : text_t}

/-- What is put by two writes is what each puts, one behind the other. -/
theorem Puts.followed (hput : Puts put s) (hnext : Puts next t) : Puts (fun w => next (put w)) (s ++ t) := by
  intro w h
  obtain ⟨hmid, hlast⟩ := hnext (put w) h
  obtain ⟨hw, hfirst⟩ := hput w hmid
  refine ⟨hw, hlast.trans ?_⟩
  rw [hfirst, push_push]

theorem puts_n (s : text_t) : Puts (fun w => json_put_n w s) s := by
  intro w h
  simp only [json_put_n] at h
  split at h
  · rename_i hover
    cases hover.symm.trans h
  · split at h
    · cases h
    · rename_i hover hroom
      have hok : w.overflow = false := Bool.eq_false_iff.mpr hover
      exact ⟨hok, json_put_n_of_room hok (by omega)⟩

theorem puts_char (c : UInt8) : Puts (fun w => json_put_char w c) [c] := by
  intro w h
  obtain ⟨hok, hroom⟩ := room_of_json_put_char h
  exact ⟨hok, json_put_char_of_room hok hroom⟩

/-- A string goes out in quotes and with its escapes. -/
theorem puts_string (s : cstr_t) : Puts (fun w => json_put_string w s) (QUOTE :: (escaped s.bytes ++ [QUOTE])) := by
  intro w h
  obtain ⟨hok, hroom⟩ := room_of_json_put_string h
  exact ⟨hok, json_put_string_eq hok hroom⟩

/-- A number of at most twenty digits goes out in decimal. -/
theorem puts_uint {n : Nat} (hn : n < 10 ^ 20) : Puts (fun w => json_put_uint w n) (decimal n) := by
  intro w h
  obtain ⟨hok, hroom⟩ := room_of_foldl_json_put_char (decimal_spec hn).2.1 h
  exact ⟨hok, json_put_uint_eq hok hroom⟩

theorem joined_cons {sep} {t : text_t} {ts : List text_t} : joined sep (t :: ts) = t ++ ts.flatMap (sep :: ·) := by
  induction ts generalizing t with
  | nil => simp [joined]
  | cons t' ts ih => rw [joined_cons_cons, ih, flatMap_cons, cons_append]

/-- A list goes out with commas between its elements. -/
theorem puts_all {A : Type} {put} {text : A → text_t} (h : ∀ a, Puts (fun w => put w a) (text a)) (as : List A) :
    Puts (fun w => json_put_all put w as) (joined COMMA (as.map text)) := by
  have hrest (as : List A) {first : json_writer_t → json_writer_t} {s : text_t} (hfirst : Puts first s) :
      Puts (fun w => as.foldl (fun w a => put (json_put_char w COMMA) a) (first w))
        (s ++ (as.map text).flatMap (COMMA :: ·)) := by
    induction as generalizing first s with
    | nil => simpa using hfirst
    | cons a as ih =>
      have hnext := ih ((hfirst.followed (puts_char COMMA)).followed (h a))
      simpa using hnext
  cases as with
  | nil =>
    intro w hw
    exact ⟨hw, by simp [json_put_all, joined, json_writer_t.push]⟩
  | cons a as =>
    rw [map_cons, joined_cons]
    exact hrest as (h a)

def quoted (s : text_t) : text_t := QUOTE :: (escaped (zstr s) ++ [QUOTE])

theorem puts_text (s : text_t) : Puts (fun w => put_text w s) (quoted s) := puts_string (cstr_of s)

/-- A text in quotes is a value that means the text, up to its zero. -/
theorem writes_quoted {depth : Nat} (s : text_t) : Writes (depth + 1) (quoted s) (IsString (zstr s)) :=
  writes_string (decodes_escaped (zstr s))

/-- A word that the reader compares instead of copying it out. -/
def IsWord (s : text_t) (v : json_value_t) : Prop :=
  ∀ key : cstr_t, json_str_eq (some v) (some key) = str_eq_chars ((escaped (zstr s)).length + 1) (escaped (zstr s)) key.bytes

theorem writes_word {depth : Nat} (s : text_t) : Writes (depth + 1) (quoted s) (IsWord s) := by
  obtain ⟨us, hus, -⟩ := decodes_escaped (zstr s)
  exact writes_scalar (.string (mem_string_iff.mpr ⟨_, us, rfl, hus⟩)) fun r key => json_str_eq_located

end Writing

section Stamp

/-- The sixteen digits of a text's checksum, and the text on the next line. -/
def stamped (body : List UInt8) : List UInt8 := Digest.hexes 16 (Digest.fnv1a body).toNat ++ 0x0A :: body

variable {body : List UInt8}

theorem length_stamped : (stamped body).length = body.length + 17 := by
  rw [stamped, length_append, Digest.length_hexes, length_cons]
  omega

theorem take_stamped : (stamped body).take 16 = Digest.hexes 16 (Digest.fnv1a body).toNat := by
  rw [stamped, take_append_of_le_length (by rw [Digest.length_hexes]), take_of_length_le (by rw [Digest.length_hexes])]

theorem getD_stamped : (stamped body).getD 16 0 = 0x0A := by
  rw [stamped, getD_eq_getElem?_getD, getElem?_append_right (by rw [Digest.length_hexes]), Digest.length_hexes]
  rfl

/-- Behind the digest and the newline stands the body. -/
theorem drop_stamped : (stamped body).drop 17 = body := by
  rw [stamped, drop_append, Digest.length_hexes, drop_of_length_le (by rw [Digest.length_hexes]; decide)]
  rfl

end Stamp

end fable.record
