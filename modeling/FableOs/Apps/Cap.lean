import FableOs.Sse.Frame

namespace fable.apps

/-! The capability broker of `apps/cap.c`: one pending call for the whole
machine, checked when a document asks for it and performed later. -/

open fable.sse (ascii)

section Values

abbrev text_t := List UInt8

abbrev APP_NUM_SCALE : Int := 1000000

/-- A value of the expression language: a number scaled by `APP_NUM_SCALE`, a
    text, or the error value. -/
inductive app_val_t where
  | AV_NUM (num : Int)
  | AV_STR (str : text_t)
  | AV_ERR
  deriving DecidableEq, Repr

/-- Whether a value counts as true; the error value has no answer. -/
def app_val_truthy : app_val_t → Option Bool
  | .AV_ERR => none
  | .AV_NUM num => some (num ≠ 0)
  | .AV_STR str => some (str ≠ [])

/-- The nearest whole number, halves away from zero. -/
def rounded (n : Int) : Int :=
  if 0 ≤ n then (n + APP_NUM_SCALE / 2) / APP_NUM_SCALE else -((-n + APP_NUM_SCALE / 2) / APP_NUM_SCALE)

end Values

section Table

abbrev AUDIO_HZ_MIN : Nat := 20
abbrev AUDIO_HZ_MAX : Nat := 20000
abbrev AUDIO_AMP_MAX : Nat := 32767
abbrev APP_CAP_AUDIO_MS_MAX : Nat := 200
abbrev APP_CAP_GAP_MS : Nat := 500
abbrev APP_CAP_QUIET_MAX_MS : Nat := 4000

inductive audio_wave_t where
  | AUDIO_WAVE_SINE
  | AUDIO_WAVE_SQUARE
  | AUDIO_WAVE_TRIANGLE
  deriving DecidableEq, Repr

def audio_wave_from_name (s : text_t) : Option audio_wave_t :=
  if s = ascii ['s', 'i', 'n', 'e'] then some .AUDIO_WAVE_SINE
  else if s = ascii ['s', 'q', 'u', 'a', 'r', 'e'] then some .AUDIO_WAVE_SQUARE
  else if s = ascii ['t', 'r', 'i', 'a', 'n', 'g', 'l', 'e'] then some .AUDIO_WAVE_TRIANGLE
  else none

inductive arg_kind_t where
  | ACA_NUM
  | ACA_STR
  deriving DecidableEq, Repr

structure app_cap_arg_t where
  name : text_t
  kind : arg_kind_t
  required : Bool
  lo : Int
  hi : Int
  default : Int

def arg_hz : app_cap_arg_t := ⟨ascii ['h', 'z'], .ACA_NUM, true, 0, AUDIO_HZ_MAX, 440⟩
def arg_ms : app_cap_arg_t := ⟨ascii ['m', 's'], .ACA_NUM, false, 1, APP_CAP_AUDIO_MS_MAX, 120⟩
def arg_amp : app_cap_arg_t := ⟨ascii ['a', 'm', 'p'], .ACA_NUM, false, 0, AUDIO_AMP_MAX, 0⟩
def arg_wave : app_cap_arg_t := ⟨ascii ['w', 'a', 'v', 'e'], .ACA_STR, false, 0, 0, 0⟩

end Table

section Requests

/-- What is wrong with a call itself, one constructor for each sentence. -/
inductive fault_t where
  | unknown
  | no_sink
  | required (name : text_t)
  | error_value (name : text_t)
  | not_number (name : text_t)
  | not_text (name : text_t)
  | out_of_range (name : text_t) (n : Int)
  | hz_too_low (n : Int)
  | no_such_wave (wave : text_t)
  deriving DecidableEq, Repr

/-- Why a call was refused: for a fault, or for the moment only. -/
inductive refusal_t where
  | fault (why : fault_t)
  | still_busy
  | too_soon (last_block_ms wait : Nat)
  deriving DecidableEq, Repr

def fault_t.brief : fault_t → text_t
  | .unknown => ascii ['u', 'n', 'k', 'n', 'o', 'w', 'n', ' ', 'c', 'a', 'p', 'a', 'b', 'i', 'l', 'i', 't', 'y']
  | .no_sink => ascii ['n', 'o', ' ', 'a', 'u', 'd', 'i', 'o', ' ', 'd', 'r', 'i', 'v', 'e', 'r']
  | .required name => name ++ ascii [' ', 'i', 's', ' ', 'r', 'e', 'q', 'u', 'i', 'r', 'e', 'd']
  | .error_value name => name ++ ascii [' ', 'i', 's', ' ', 'a', 'n', ' ', 'e', 'r', 'r', 'o', 'r']
  | .not_number name => name ++ ascii [' ', 'i', 's', ' ', 'n', 'o', 't', ' ', 'a', ' ', 'n', 'u', 'm', 'b', 'e', 'r']
  | .not_text name => name ++ ascii [' ', 'i', 's', ' ', 'n', 'o', 't', ' ', 't', 'e', 'x', 't']
  | .out_of_range name _ => name ++ ascii [' ', 'o', 'u', 't', ' ', 'o', 'f', ' ', 'r', 'a', 'n', 'g', 'e']
  | .hz_too_low _ => ascii ['h', 'z', ' ', 't', 'o', 'o', ' ', 'l', 'o', 'w', ' ', 't', 'o', ' ', 'h', 'e', 'a', 'r']
  | .no_such_wave _ => ascii ['n', 'o', ' ', 's', 'u', 'c', 'h', ' ', 'w', 'a', 'v', 'e']

/-- The phrase for the status widget. -/
def refusal_t.brief : refusal_t → text_t
  | .fault why => why.brief
  | .still_busy => ascii ['s', 't', 'i', 'l', 'l', ' ', 'b', 'u', 's', 'y']
  | .too_soon _ _ => ascii ['t', 'o', 'o', ' ', 's', 'o', 'o', 'n']

inductive tgt_kind_t where
  | AT_VAR
  | AT_WIDGET
  | AT_WIDGET_FG
  | AT_WIDGET_BG
  deriving DecidableEq, Repr

/-- Where a value goes: a variable, a widget's text or one of its colours. -/
structure target_t where
  tgt_kind : tgt_kind_t
  tgt : Nat
  deriving DecidableEq, Repr

/-- A call with its arguments evaluated; an argument that was not supplied is
    `none`. -/
structure app_cap_req_t where
  app : Nat
  cap : Int
  now_ms : Nat
  hz : Option app_val_t
  ms : Option app_val_t
  amp : Option app_val_t
  wave : Option app_val_t
  into : Option target_t

/-- The arguments of a tone after their check. -/
structure tone_t where
  hz : Nat
  ms : Nat
  amp : Nat
  wave : audio_wave_t
  deriving DecidableEq, Repr

structure pend_t where
  app : Nat
  into : Option target_t
  tone : tone_t
  deriving DecidableEq, Repr

/-- The statics of `apps/cap.c`. -/
structure cap_t where
  pend : Option pend_t
  free_at_ms : Nat
  last_block_ms : Nat
  started_any : Bool
  deriving DecidableEq, Repr

def app_cap_reset : cap_t := ⟨none, 0, 0, false⟩

def arg_num (a : app_cap_arg_t) : app_val_t → Except fault_t Int
  | .AV_ERR => .error (.error_value a.name)
  | .AV_STR _ => .error (.not_number a.name)
  | .AV_NUM num =>
    if rounded num < a.lo ∨ a.hi < rounded num then .error (.out_of_range a.name (rounded num)) else .ok (rounded num)

/-- One turn of the argument loop for a number: its default where it is absent. -/
def num_at (a : app_cap_arg_t) : Option app_val_t → Except fault_t Int
  | none => if a.required then .error (.required a.name) else .ok a.default
  | some v => arg_num a v

def str_at (a : app_cap_arg_t) : Option app_val_t → Except fault_t text_t
  | none => if a.required then .error (.required a.name) else .ok []
  | some (.AV_STR str) => .ok str
  | some _ => .error (.not_text a.name)

def wave_of (str : text_t) : Except fault_t audio_wave_t :=
  if str = [] then .ok .AUDIO_WAVE_SINE
  else
    match audio_wave_from_name str with
    | some w => .ok w
    | none => .error (.no_such_wave str)

/-- What a request says about itself: the checks that do not look at the slot
    or at the clock. `audio` is the answer of `audio_available`. -/
def checked (audio : Bool) (rq : app_cap_req_t) : Except fault_t tone_t := do
  if rq.cap ≠ 0 then throw .unknown
  if audio = false then throw .no_sink
  let hz ← num_at arg_hz rq.hz
  let ms ← num_at arg_ms rq.ms
  let amp ← num_at arg_amp rq.amp
  let str ← str_at arg_wave rq.wave
  -- zero is a rest; the table cannot say "zero or 20 to 20000" as one range
  if hz ≠ 0 ∧ hz < AUDIO_HZ_MIN then throw (.hz_too_low hz)
  let wave ← wave_of str
  return ⟨hz.toNat, ms.toNat, amp.toNat, wave⟩

/-- The window is still closed. A reading so far before it that the clock must
    have gone backwards counts as open. -/
def Early (s : cap_t) (now_ms : Nat) : Prop :=
  s.started_any = true ∧ now_ms < s.free_at_ms ∧ s.free_at_ms - now_ms ≤ APP_CAP_QUIET_MAX_MS

instance (s : cap_t) (now_ms : Nat) : Decidable (Early s now_ms) := by
  unfold Early
  infer_instance

def app_cap_request (s : cap_t) (audio : Bool) (rq : app_cap_req_t) : cap_t × Except refusal_t Unit :=
  match checked audio rq with
  | .error why => (s, .error (.fault why))
  | .ok tone =>
    if s.pend.isSome then (s, .error .still_busy)
    else if Early s rq.now_ms then (s, .error (.too_soon s.last_block_ms (s.free_at_ms - rq.now_ms)))
    else ({ s with pend := some ⟨rq.app, rq.into, tone⟩ }, .ok ())

end Requests

section Service

/-- How long apps stay quiet after a call that took `took` milliseconds: both
    the measurement and the silence are clamped. -/
def quiet_ms (took : Nat) : Nat :=
  min (min took APP_CAP_QUIET_MAX_MS + APP_CAP_GAP_MS) APP_CAP_QUIET_MAX_MS

/-- `app_cap_service` at the reading `now_ms`. `live` is the answer of
    `app_is_app` for the caller, and `done_ms` the reading after
    `audio_tone_ex`. The second part is the call that was performed. -/
def app_cap_service (s : cap_t) (now_ms : Nat) (live : Bool) (done_ms : Nat) : cap_t × Option pend_t :=
  match s.pend with
  | none => (s, none)
  | some p =>
    if live = false then ({ s with pend := none }, none)
    else
      ({ pend := none, free_at_ms := (done_ms + quiet_ms (done_ms - now_ms)) % 2 ^ 64,
         last_block_ms := min (done_ms - now_ms) APP_CAP_QUIET_MAX_MS, started_any := true }, some p)

end Service

end fable.apps
