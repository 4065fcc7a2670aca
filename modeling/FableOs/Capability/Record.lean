import FableOs.Json.Records

namespace fable.capability

/-! A capability and its record: what a description may look like, and how it is
written to a file and read back from one. -/

open fable.json fable.record
open fable.sse (ascii)

abbrev CAP_OK : Int := 0
abbrev CAP_ENOENT : Int := -2
abbrev CAP_EIO : Int := -5
abbrev CAP_EEXIST : Int := -17
abbrev CAP_EINVAL : Int := -22
abbrev CAP_ENOSPC : Int := -28
abbrev CAP_ECORRUPT : Int := -84

abbrev CAP_MAX : Nat := 16
abbrev CAP_NAME_MAX : Nat := 32
abbrev CAP_DOC_MAX : Nat := 200
abbrev CAP_MAX_PARAMS : Nat := 6
abbrev CAP_PARAM_NAME_MAX : Nat := 20
abbrev CAP_MAX_STEPS : Nat := 6
abbrev CAP_SRC_MAX : Nat := 6144
abbrev CAP_FILE_MAX : Nat := 16384
abbrev CAP_HASH_HEX : Nat := 16
abbrev CAP_PREFIX_LEN : Nat := CAP_HASH_HEX + 1
abbrev CAP_FORMAT : Nat := 1

/-- `other` is any value of the byte that is no kind. -/
inductive cap_kind_t where
  | program
  | compose
  | other
  deriving DecidableEq, Repr

/-- Where an argument of a step comes from. -/
inductive cap_arg_t where
  | lit (v : UInt64)
  | param (idx : Nat)
  | step (idx : Nat)
  deriving DecidableEq, Repr

inductive cap_cmp_t where
  | none
  | eq
  | ne
  | lt
  | le
  | gt
  | ge
  deriving DecidableEq, Repr

/-- `arg` is the array up to `narg`. -/
structure cap_step_t where
  call : text_t
  arg : List cap_arg_t
  cmp : cap_cmp_t
  lhs : cap_arg_t
  rhs : cap_arg_t
  deriving DecidableEq, Repr

/-- `param` is the array up to `nparam`, `step` the one up to `nstep`. -/
structure cap_t where
  name : text_t
  doc : text_t
  version : UInt32
  kind : cap_kind_t
  param : List text_t
  step : List cap_step_t
  src_len : Nat
  ninsn : UInt32
  crc : UInt64
  calls : UInt32
  failures : UInt32
  has_backup : Bool
  from_backup : Bool
  deriving DecidableEq, Repr

abbrev cap_t.nparam (c : cap_t) : Nat := c.param.length

abbrev cap_step_t.narg (s : cap_step_t) : Nat := s.arg.length

/-- The sentences of the checks on single texts. -/
inductive word_why_t where
  | missing
  | start (c : UInt8)
  | byte (i : Nat) (c : UInt8)
  | long
  deriving DecidableEq, Repr

/-- The sentences of `arg_parse`. -/
inductive arg_why_t where
  | empty
  | not_digits
  | large_index
  | no_index
  | no_param (n : Nat)
  | no_step (n : Nat)
  | not_an_argument
  | large_literal
  deriving DecidableEq, Repr

/-- The sentences of `params_parse` and `steps_parse`, with the numbers they
    count from one. -/
inductive list_why_t where
  | params_type
  | many_params (n : Nat)
  | param (n : Nat)
  | steps_type
  | step_count (n : Nat)
  | step_call (n : Nat)
  | step_args (n : Nat)
  | step_arg (n k : Nat) (why : Option arg_why_t)
  | guard_shape (n : Nat)
  | guard_left (n : Nat) (why : Option arg_why_t)
  | guard_op (n : Nat)
  | guard_right (n : Nat) (why : Option arg_why_t)
  deriving DecidableEq, Repr

/-- The sentences of `record_parse`. -/
inductive record_why_t where
  | short (len : Nat)
  | no_header
  | checksum (want got : UInt64)
  | not_object
  | format (fmt : Int)
  | name
  | doc
  | version
  | no_kind
  | kind
  | no_params
  | params (why : list_why_t)
  | no_source
  | source (why : word_why_t)
  | no_steps
  | steps (why : list_why_t)
  deriving DecidableEq, Repr

def record_why_t.rc : record_why_t → Int
  | .short _ => CAP_ECORRUPT
  | .no_header => CAP_ECORRUPT
  | .checksum _ _ => CAP_ECORRUPT
  | _ => CAP_EINVAL

section Words

/-- The loop that the checks share: the first byte of the array that is refused,
    or an array without a terminating zero. -/
def word_ok (good : UInt8 → Bool) (max : Nat) (s : text_t) : Except word_why_t Unit :=
  match (s.take max).findIdx? fun c => !good c with
  | some i => .error (.byte i (s.getD i 0))
  | none => refuse (max ≤ s.length) .long

def capability_name_ok (name : text_t) : Except word_why_t Unit :=
  match name with
  | [] => .error .missing
  | c :: _ => do
    refuse (lower c = false) (.start c)
    word_ok name_char CAP_NAME_MAX name

def doc_ok (doc : text_t) : Except word_why_t Unit := do
  refuse (doc = []) .missing
  word_ok printable CAP_DOC_MAX doc

def param_name_ok (p : text_t) : Except word_why_t Unit := do
  refuse (p = []) .missing
  word_ok name_char CAP_PARAM_NAME_MAX p

def src_ok (src : List UInt8) : Except word_why_t Unit := do
  refuse (src = []) .missing
  refuse (CAP_SRC_MAX < src.length) .long
  match src.findIdx? fun c => !(c = 0x0A || c = 0x09 || printable c) with
  | some i => .error (.byte i (src.getD i 0))
  | none => .ok ()

end Words

section Arguments

/-- The digits of an index, at most two of them: their value and their number. -/
def arg_index : List UInt8 → Nat → Nat → Except arg_why_t (Nat × Nat)
  | [], base, digits => .ok (base, digits)
  | c :: s, base, digits => do
    refuse (is_digit c = false) .not_digits
    refuse (2 ≤ digits) .large_index
    arg_index s (base * 10 + (c.toNat - 0x30)) (digits + 1)

/-- The digits of a literal. The test before the last digit lets the numbers from
    2^64 to the end of its ten through, and those come out modulo 2^64. -/
def arg_literal : List UInt8 → UInt64 → Except arg_why_t UInt64
  | [], v => .ok v
  | c :: s, v => do
    refuse (is_digit c = false) .not_an_argument
    refuse (0xFFFFFFFFFFFFFFFF / 10 < v) .large_literal
    arg_literal s (v * 10 + (c - 0x30).toUInt64)

def arg_parse (s : text_t) (nparam step_no : Nat) : Except arg_why_t cap_arg_t :=
  match s with
  | [] => .error .empty
  | c :: rest =>
    if c = 0x24 ∨ c = 0x23 then do
      let (base, digits) ← arg_index rest 0 0
      refuse (digits = 0) .no_index
      if c = 0x24 then do
        refuse (nparam ≤ base) (.no_param base)
        pure (.param base)
      else do
        refuse (base < 1 ∨ (0 < step_no ∧ step_no ≤ base)) (.no_step base)
        pure (.step base)
    else do
      let v ← arg_literal s 0
      pure (.lit v)

def capability_arg_text : cap_arg_t → text_t
  | .param idx => 0x24 :: decimal idx
  | .step idx => 0x23 :: decimal idx
  | .lit v => decimal v.toNat

def cmp_tab : List (cap_cmp_t × text_t) :=
  [(.eq, ascii ['=', '=']), (.ne, ascii ['!', '=']), (.lt, ascii ['<']), (.le, ascii ['<', '=']), (.gt, ascii ['>']),
    (.ge, ascii ['>', '='])]

def capability_cmp_text (c : cap_cmp_t) : text_t := (cmp_tab.lookup c).getD []

def cmp_parse (s : text_t) : cap_cmp_t := ((cmp_tab.find? fun entry => entry.2 = s).map Prod.fst).getD .none

end Arguments

section Lists

theorem name_no_nul : 0 ∉ ascii ['n', 'a', 'm', 'e'] := by decide
theorem doc_no_nul : 0 ∉ ascii ['d', 'o', 'c'] := by decide
theorem version_no_nul : 0 ∉ ascii ['v', 'e', 'r', 's', 'i', 'o', 'n'] := by decide
theorem params_no_nul : 0 ∉ ascii ['p', 'a', 'r', 'a', 'm', 's'] := by decide
theorem src_no_nul : 0 ∉ ascii ['s', 'r', 'c'] := by decide
theorem when_no_nul : 0 ∉ ascii ['w', 'h', 'e', 'n'] := by decide

def K_CAP : cstr_t := ⟨ascii ['c', 'a', 'p'], by decide⟩
def K_NAME : cstr_t := ⟨ascii ['n', 'a', 'm', 'e'], name_no_nul⟩
def K_DOC : cstr_t := ⟨ascii ['d', 'o', 'c'], doc_no_nul⟩
def K_VERSION : cstr_t := ⟨ascii ['v', 'e', 'r', 's', 'i', 'o', 'n'], version_no_nul⟩
def K_KIND : cstr_t := ⟨ascii ['k', 'i', 'n', 'd'], by decide⟩
def K_PARAMS : cstr_t := ⟨ascii ['p', 'a', 'r', 'a', 'm', 's'], params_no_nul⟩
def K_STEPS : cstr_t := ⟨ascii ['s', 't', 'e', 'p', 's'], by decide⟩
def K_SRC : cstr_t := ⟨ascii ['s', 'r', 'c'], src_no_nul⟩
def K_CALL : cstr_t := ⟨ascii ['c', 'a', 'l', 'l'], by decide⟩
def K_ARGS : cstr_t := ⟨ascii ['a', 'r', 'g', 's'], by decide⟩
def K_WHEN : cstr_t := ⟨ascii ['w', 'h', 'e', 'n'], when_no_nul⟩
def PROGRAM : cstr_t := ⟨ascii ['p', 'r', 'o', 'g', 'r', 'a', 'm'], by decide⟩
def COMPOSE : cstr_t := ⟨ascii ['c', 'o', 'm', 'p', 'o', 's', 'e'], by decide⟩

def param_at (arr : json_value_t) (i : Nat) : Except list_why_t text_t :=
  match string_at arr i CAP_PARAM_NAME_MAX with
  | none => .error (.param (i + 1))
  | some p =>
    match param_name_ok p with
    | .error _ => .error (.param (i + 1))
    | .ok () => .ok p

def params_parse (arr : json_value_t) : Except list_why_t (List text_t) := do
  refuse (arr.type ≠ .array) .params_type
  refuse (CAP_MAX_PARAMS < json_count (some arr)) (.many_params (json_count (some arr)))
  each_at (param_at arr) (json_count (some arr)) 0

/-- An argument at an index of an array; `cap` is `sizeof tok`. -/
def arg_at (arr : json_value_t) (i nparam step_no : Nat) : Except (Option arg_why_t) cap_arg_t :=
  match string_at arr i 24 with
  | none => .error none
  | some tok => (arg_parse tok nparam step_no).mapError some

/-- The guard of a step, which has none when there is no `when`. -/
def guard_parse (st : json_value_t) (nparam i : Nat) : Except list_why_t (cap_cmp_t × cap_arg_t × cap_arg_t) :=
  match json_get (some st) (some K_WHEN) with
  | (rc, g) =>
    if rc ≠ JSON_OK then .ok (.none, .lit 0, .lit 0)
    else do
      refuse (g.type ≠ .array ∨ json_count (some g) ≠ 3) (.guard_shape (i + 1))
      let lhs ← (arg_at g 0 nparam (i + 1)).mapError fun why => list_why_t.guard_left (i + 1) why
      let cmp := ((string_at g 1 8).map cmp_parse).getD .none
      refuse (cmp = .none) (.guard_op (i + 1))
      let rhs ← (arg_at g 2 nparam (i + 1)).mapError fun why => list_why_t.guard_right (i + 1) why
      pure (cmp, lhs, rhs)

/-- One turn of `steps_parse`. Absent `args` are none. -/
def step_at (arr : json_value_t) (nparam i : Nat) : Except list_why_t cap_step_t :=
  match json_at (some arr) i with
  | (rc, st) => do
    let (rc', raw) := json_get_str (some st) (some K_CALL) CAP_NAME_MAX
    let call := zstr raw
    refuse (rc ≠ JSON_OK ∨ st.type ≠ .object ∨ rc' ≠ JSON_OK ∨ (capability_name_ok call).isOk = false) (.step_call (i + 1))
    let (arc, a) := json_get (some st) (some K_ARGS)
    let na := if arc ≠ JSON_OK then 0 else json_count (some a)
    refuse ((arc = JSON_OK ∧ a.type ≠ .array) ∨ CAP_MAX_PARAMS < na) (.step_args (i + 1))
    let arg ← each_at (fun k => (arg_at a k nparam (i + 1)).mapError (list_why_t.step_arg (i + 1) (k + 1))) na 0
    let (cmp, lhs, rhs) ← guard_parse st nparam i
    pure ⟨call, arg, cmp, lhs, rhs⟩

def steps_parse (arr : json_value_t) (nparam : Nat) : Except list_why_t (List cap_step_t) := do
  refuse (arr.type ≠ .array) .steps_type
  let ns := json_count (some arr)
  refuse (ns < 1 ∨ CAP_MAX_STEPS < ns) (.step_count ns)
  each_at (step_at arr nparam) ns 0

end Lists

section Files

def put_arg (w : json_writer_t) (a : cap_arg_t) : json_writer_t := put_text w (capability_arg_text a)

def put_guard (w : json_writer_t) (s : cap_step_t) : json_writer_t :=
  if s.cmp = .none then w
  else
    let w := json_put_char (json_put_key w COMMA K_WHEN) OPEN_BRACKET
    let w := json_put_char (put_arg w s.lhs) COMMA
    let w := json_put_char (put_text w (capability_cmp_text s.cmp)) COMMA
    json_put_char (put_arg w s.rhs) CLOSE_BRACKET

def put_step (w : json_writer_t) (s : cap_step_t) : json_writer_t :=
  let w := put_text (json_put_key w OPEN_BRACE K_CALL) s.call
  let w := json_put_char (json_put_key w COMMA K_ARGS) OPEN_BRACKET
  let w := json_put_char (json_put_all put_arg w s.arg) CLOSE_BRACKET
  json_put_char (put_guard w s) CLOSE_BRACE

def record_json (c : cap_t) (src : List UInt8) (w : json_writer_t) : json_writer_t :=
  let w := json_put_uint (json_put_key w OPEN_BRACE K_CAP) CAP_FORMAT
  let w := put_text (json_put_key w COMMA K_NAME) c.name
  let w := put_text (json_put_key w COMMA K_DOC) c.doc
  let w := json_put_uint (json_put_key w COMMA K_VERSION) c.version.toNat
  let w := json_put_string (json_put_key w COMMA K_KIND) (if c.kind = .compose then COMPOSE else PROGRAM)
  let w := json_put_char (json_put_key w COMMA K_PARAMS) OPEN_BRACKET
  let w := json_put_char (json_put_all put_text w c.param) CLOSE_BRACKET
  let w :=
    if c.kind = .compose then
      let w := json_put_char (json_put_key w COMMA K_STEPS) OPEN_BRACKET
      json_put_char (json_put_all put_step w c.step) CLOSE_BRACKET
    else put_text (json_put_key w COMMA K_SRC) src
  json_put_char w CLOSE_BRACE

/-- The bytes of the file, where they fit the buffer; `src` is `g_src`. -/
def record_write (c : cap_t) (src : List UInt8) : Option (List UInt8) :=
  let w := record_json c src (json_writer_init true (CAP_FILE_MAX - CAP_PREFIX_LEN))
  if json_writer_ok w then some (Digest.hexes 16 (Digest.fnv1a w.text).toNat ++ 0x0A :: w.text) else none

def get_hex16 (file : List UInt8) : Option UInt64 := (Digest.unhexes 0 (file.take CAP_HASH_HEX)).map UInt64.ofNat

/-- The body of a record: the steps of a composition, or the source. -/
def body_parse (root : json_value_t) (kind : cap_kind_t) (nparam : Nat) :
    Except record_why_t (List cap_step_t × List UInt8) :=
  if kind = .program then do
    let v ← ensure .no_source (value_at root K_SRC)
    let (rc, src) := json_str (some v) (CAP_SRC_MAX + 1)
    refuse (rc ≠ JSON_OK) record_why_t.no_source
    (src_ok src).mapError record_why_t.source
    pure ([], src)
  else do
    let steps ← ensure .no_steps (value_at root K_STEPS)
    let steps ← (steps_parse steps nparam).mapError record_why_t.steps
    pure (steps, [])

def kind_parse (v : json_value_t) : Option cap_kind_t :=
  if json_str_eq (some v) (some PROGRAM) then some .program
  else if json_str_eq (some v) (some COMPOSE) then some .compose
  else none

/-- The capability and the source of a record. -/
def record_parse (file : List UInt8) : Except record_why_t (cap_t × List UInt8) := do
  refuse (file.length < CAP_PREFIX_LEN + 2) (.short file.length)
  let want ← ensure .no_header (get_hex16 file)
  refuse (file.getD CAP_HASH_HEX 0 ≠ 0x0A) .no_header
  let json := file.drop CAP_PREFIX_LEN
  let got := Digest.fnv1a json
  refuse (got ≠ want) (.checksum want got)
  let (rc, root) := json_parse (some json)
  refuse (rc ≠ JSON_OK ∨ root.type ≠ .object) .not_object
  let fmt := (int_at root K_CAP).getD 0
  refuse (fmt ≠ CAP_FORMAT) (.format fmt)
  let name ← ensure .name (text_at root K_NAME CAP_NAME_MAX)
  refuse ((capability_name_ok name).isOk = false) .name
  let doc ← ensure .doc (text_at root K_DOC CAP_DOC_MAX)
  refuse ((doc_ok doc).isOk = false) .doc
  let ver ← ensure .version (int_at root K_VERSION)
  refuse (ver < 1 ∨ 0x7FFFFFFF < ver) .version
  let v ← ensure .no_kind (value_at root K_KIND)
  let kind ← ensure .kind (kind_parse v)
  let params ← ensure .no_params (value_at root K_PARAMS)
  let param ← (params_parse params).mapError record_why_t.params
  let (step, src) ← body_parse root kind param.length
  pure (⟨name, doc, UInt32.ofNat ver.toNat, kind, param, step, src.length, 0, got, 0, 0, false, false⟩, src)

end Files

end fable.capability
