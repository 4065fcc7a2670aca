import FableOs.Json.Data
import FableOs.Sse.Frame

namespace fable.agenda

/-! The agenda: what the machine does when nobody has asked it to do anything.
An item, and the checks it has to pass before it is stored. -/

open fable.json List
open fable.sse (ascii)

abbrev AGENDA_OK : Int := 0
abbrev AGENDA_EINVAL : Int := -22
abbrev AGENDA_ENOENT : Int := -2
abbrev AGENDA_ENOSPC : Int := -28
abbrev AGENDA_EIO : Int := -5
abbrev AGENDA_EBUSY : Int := -16
abbrev AGENDA_EOFF : Int := -1
abbrev AGENDA_ENOTOOL : Int := -70
abbrev AGENDA_ENOSAY : Int := -71
abbrev AGENDA_ESAY : Int := -73
abbrev AGENDA_EFAULT : Int := -104
abbrev AGENDA_ERETIRED : Int := -11
abbrev AGENDA_EDENIED : Int := -13

abbrev AGENDA_MAX_ITEMS : Nat := 8
abbrev AGENDA_NAME_MAX : Nat := 32
abbrev AGENDA_TOOL_MAX : Nat := 49
abbrev AGENDA_ARG_MAX : Nat := 288
abbrev AGENDA_WHY_MAX : Nat := 128
abbrev AGENDA_NOTE_MAX : Nat := 112
abbrev AGENDA_MIN_PERIOD_MS : UInt32 := 10000
abbrev AGENDA_MAX_RUNS : UInt32 := 64
abbrev AGENDA_MAX_RUNS_TOTAL : UInt32 := 256
abbrev AGENDA_MAX_FAILURES : UInt32 := 3
abbrev AGENDA_FILE_MAX : Nat := 12288

/-- What a character array holds up to its terminating zero. -/
abbrev text_t := List UInt8

/-- The names that end the boot are looked up with it. -/
local instance lawfulBEq_text : LawfulBEq text_t := inferInstance

/-- `count` is any value of the byte that is no trigger. -/
inductive agenda_when_t where
  | boot
  | every
  | once
  | count
  deriving DecidableEq, Repr

/-- `count` is any value of the byte that is no action. -/
inductive agenda_act_t where
  | tool
  | say
  | count
  deriving DecidableEq, Repr

/-- The last outcome of an item in words: a sentence of the runner, the text of
    an error code, or the first line of what a tool said. -/
inductive why_t where
  | nothing
  | escaped
  | unguarded
  | delivered
  | code (rc : Int)
  | line (text : text_t)
  deriving DecidableEq, Repr

structure agenda_item_t where
  name : text_t
  note : text_t
  when : agenda_when_t
  act : agenda_act_t
  enabled : Bool
  attempting : Bool
  period_ms : UInt32
  max_runs : UInt32
  tool : text_t
  arg : text_t
  runs : UInt32
  failures : UInt32
  total_failures : UInt32
  escapes : UInt32
  last_ms : UInt64
  next_ms : UInt64
  last_rc : Int
  last_why : why_t
  deriving DecidableEq, Repr

/-- What `zero` leaves of an item. -/
def zeroed : agenda_item_t :=
  ⟨[], [], .boot, .tool, false, false, 0, 0, [], [], 0, 0, 0, 0, 0, 0, 0, .nothing⟩

def text_byte (c : UInt8) : UInt8 :=
  if c < 0x20 ∨ c = 0x7F then 0x20
  else if c = OPEN_BRACKET then 0x28
  else if c = CLOSE_BRACKET then 0x29
  else c

def payload_byte (c : UInt8) : UInt8 := if c < 0x20 ∨ c = 0x7F then 0x20 else c

/-- The loop of both copies: up to a zero or to the last place but one. -/
def copied (f : UInt8 → UInt8) (cap : Nat) (src : text_t) : text_t :=
  ((src.takeWhile (· ≠ 0)).take (cap - 1)).map f

def copy_text : Nat → text_t → text_t := copied text_byte

def copy_payload : Nat → text_t → text_t := copied payload_byte

def arg_copy (cap : Nat) (src : text_t) (act : agenda_act_t) : text_t :=
  if act = .tool then copy_payload cap src else copy_text cap src

def name_char (c : UInt8) : Bool :=
  (0x61 ≤ c && c ≤ 0x7A) || (0x30 ≤ c && c ≤ 0x39) || c = 0x5F || c = MINUS

def name_ok (s : text_t) : Bool :=
  s ≠ [] && s.length < AGENDA_NAME_MAX && s.all name_char && s.head? ≠ some MINUS

/-- `deny_tab` -/
def deny_tab : List text_t :=
  [ascii ['p', 'o', 'w', 'e', 'r', '_', 'o', 'f', 'f'],
   ascii ['p', 'o', 'w', 'e', 'r', '_', 'r', 'e', 'b', 'o', 'o', 't']]

def ends_the_boot (tool : text_t) : Bool := tool ∈ deny_tab

/-- The sentences of `validate`, with what they print. -/
inductive refusal_t where
  | bad_name (name : text_t)
  | bad_when
  | bad_act
  | too_often (period_ms : UInt32)
  | bad_max_runs (max_runs : UInt32)
  | no_arguments
  | no_sentence
  | no_tool
  | unknown_tool (tool : text_t)
  | ends_boot (tool : text_t)
  | bad_arguments
  deriving DecidableEq, Repr

/-- The code that `validate` returns with a sentence. -/
def refusal_t.rc : refusal_t → Int
  | .unknown_tool _ => AGENDA_ENOTOOL
  | .ends_boot _ => AGENDA_EDENIED
  | _ => AGENDA_EINVAL

/-- The checks of `validate` on a tool call. `tools` are the names that
    `tool_find` knows in this build. -/
def validate_call (tools : List text_t) (it : agenda_item_t) : Except refusal_t Unit := do
  refuse (it.tool = []) .no_tool
  refuse (it.tool ∉ tools) (.unknown_tool it.tool)
  refuse (ends_the_boot it.tool = true) (.ends_boot it.tool)
  refuse ((json_parse (some it.arg)).1 ≠ JSON_OK ∨ (json_parse (some it.arg)).2.type ≠ .object) .bad_arguments

def validate (tools : List text_t) (it : agenda_item_t) : Except refusal_t Unit := do
  refuse (name_ok it.name = false) (.bad_name it.name)
  refuse (it.when = .count) .bad_when
  refuse (it.act = .count) .bad_act
  refuse (it.when = .every ∧ it.period_ms < AGENDA_MIN_PERIOD_MS) (.too_often it.period_ms)
  refuse (it.max_runs = 0 ∨ AGENDA_MAX_RUNS < it.max_runs) (.bad_max_runs it.max_runs)
  refuse (it.arg = []) (if it.act = .tool then .no_arguments else .no_sentence)
  if it.act = .tool then validate_call tools it else .ok ()

/-- What `validate` accepts. -/
structure Valid (tools : List text_t) (it : agenda_item_t) : Prop where
  name : name_ok it.name = true
  when : it.when ≠ .count
  act : it.act ≠ .count
  period : it.when = .every → AGENDA_MIN_PERIOD_MS ≤ it.period_ms
  max_runs : it.max_runs ≠ 0 ∧ it.max_runs ≤ AGENDA_MAX_RUNS
  arg : it.arg ≠ []
  tool : it.act = .tool → it.tool ≠ [] ∧ it.tool ∈ tools ∧ ends_the_boot it.tool = false ∧
    (json_parse (some it.arg)).1 = JSON_OK ∧ (json_parse (some it.arg)).2.type = .object

theorem validate_call_eq_ok {tools it} : validate_call tools it = .ok () ↔
    it.tool ≠ [] ∧ it.tool ∈ tools ∧ ends_the_boot it.tool = false ∧
      (json_parse (some it.arg)).1 = JSON_OK ∧ (json_parse (some it.arg)).2.type = .object := by
  simp only [validate_call, except_bind_eq_ok_iff, refuse_eq_ok_iff]
  simp [not_or]

theorem validate_eq_ok {tools it} : validate tools it = .ok () ↔ Valid tools it := by
  simp only [validate, except_bind_eq_ok_iff, refuse_eq_ok_iff]
  constructor
  · rintro ⟨_, hname, _, hwhen, _, hact, _, hperiod, _, hruns, _, harg, htool⟩
    rw [not_or, UInt32.not_lt] at hruns
    refine ⟨by simpa using hname, hwhen, hact, fun hevery => UInt32.not_lt.mp fun hlt => hperiod ⟨hevery, hlt⟩,
      hruns, harg, fun hcall => ?_⟩
    rw [if_pos hcall] at htool
    exact validate_call_eq_ok.mp htool
  · intro h
    refine ⟨(), by simp [h.name], (), h.when, (), h.act, (), fun hlt => ?_, (), ?_, (), h.arg, ?_⟩
    · exact absurd hlt.2 (UInt32.not_lt.mpr (h.period hlt.1))
    · rw [not_or, UInt32.not_lt]
      exact h.max_runs
    · split
      · rename_i hcall
        exact validate_call_eq_ok.mpr (h.tool hcall)
      · rfl

section Texts

/-- Text that `copy_payload` has been through. -/
def Payload (s : text_t) : Prop := ∀ c ∈ s, 0x20 ≤ c ∧ c ≠ 0x7F

/-- Text that `copy_text` has been through. -/
def Prose (s : text_t) : Prop := ∀ c ∈ s, 0x20 ≤ c ∧ c ≠ 0x7F ∧ c ≠ OPEN_BRACKET ∧ c ≠ CLOSE_BRACKET

instance (s : text_t) : Decidable (Payload s) := List.decidableBAll (fun c => 0x20 ≤ c ∧ c ≠ 0x7F) s

instance (s : text_t) : Decidable (Prose s) :=
  List.decidableBAll (fun c => 0x20 ≤ c ∧ c ≠ 0x7F ∧ c ≠ OPEN_BRACKET ∧ c ≠ CLOSE_BRACKET) s

theorem Prose.payload {s} (h : Prose s) : Payload s := fun c hc => ⟨(h c hc).1, (h c hc).2.1⟩

theorem ne_zero_of_le {c : UInt8} (h : 0x20 ≤ c) : c ≠ 0 := by
  rintro rfl
  exact absurd h (by decide)

variable {f : UInt8 → UInt8} {cap : Nat} {src : text_t}

theorem length_copied (hcap : 0 < cap) : (copied f cap src).length < cap := by
  rw [copied, length_map, length_take]
  omega

theorem copied_eq (hfit : src.length < cap) (hzero : ∀ c ∈ src, c ≠ 0) (hkeep : ∀ c ∈ src, f c = c) :
    copied f cap src = src := by
  rw [copied, takeWhile_eq_self_iff.mpr (by simpa using hzero), take_of_length_le (by omega)]
  exact (map_congr_left hkeep).trans (map_id' src)

theorem text_byte_prose (c : UInt8) :
    0x20 ≤ text_byte c ∧ text_byte c ≠ 0x7F ∧ text_byte c ≠ OPEN_BRACKET ∧ text_byte c ≠ CLOSE_BRACKET := by
  unfold text_byte
  split
  · decide
  split
  · decide
  split
  · decide
  · rename_i hctl hopen hclose
    rw [not_or, UInt8.not_lt] at hctl
    exact ⟨hctl.1, hctl.2, hopen, hclose⟩

theorem text_byte_eq {c} (h : 0x20 ≤ c ∧ c ≠ 0x7F ∧ c ≠ OPEN_BRACKET ∧ c ≠ CLOSE_BRACKET) : text_byte c = c := by
  rw [text_byte, if_neg (by rw [not_or, UInt8.not_lt]; exact ⟨h.1, h.2.1⟩), if_neg h.2.2.1, if_neg h.2.2.2]

theorem payload_byte_payload (c : UInt8) : 0x20 ≤ payload_byte c ∧ payload_byte c ≠ 0x7F := by
  unfold payload_byte
  split
  · decide
  · rename_i hctl
    rwa [not_or, UInt8.not_lt] at hctl

theorem payload_byte_eq {c} (h : 0x20 ≤ c ∧ c ≠ 0x7F) : payload_byte c = c := by
  rw [payload_byte, if_neg (by rw [not_or, UInt8.not_lt]; exact h)]

theorem prose_copy_text : Prose (copy_text cap src) := by
  intro c hc
  obtain ⟨b, -, rfl⟩ := mem_map.mp hc
  exact text_byte_prose b

theorem payload_copy_payload : Payload (copy_payload cap src) := by
  intro c hc
  obtain ⟨b, -, rfl⟩ := mem_map.mp hc
  exact payload_byte_payload b

theorem copy_text_eq (h : Prose src) (hfit : src.length < cap) : copy_text cap src = src :=
  copied_eq hfit (fun c hc => ne_zero_of_le (h c hc).1) fun c hc => text_byte_eq (h c hc)

theorem copy_payload_eq (h : Payload src) (hfit : src.length < cap) : copy_payload cap src = src :=
  copied_eq hfit (fun c hc => ne_zero_of_le (h c hc).1) fun c hc => payload_byte_eq (h c hc)

/-- The characters of a name are none that a copy replaces. -/
theorem prose_of_name_ok (h : name_ok src = true) : Prose src ∧ src.length < AGENDA_NAME_MAX ∧ src ≠ [] := by
  simp only [name_ok, Bool.and_eq_true, decide_eq_true_eq, all_eq_true] at h
  obtain ⟨⟨⟨hne, hlen⟩, hchars⟩, -⟩ := h
  refine ⟨fun c hc => ?_, hlen, hne⟩
  have hchar := hchars c hc
  simp only [name_char, Bool.or_eq_true, Bool.and_eq_true, decide_eq_true_eq] at hchar
  obtain ((⟨hlo, hhi⟩ | ⟨hlo, hhi⟩) | rfl) | rfl := hchar
  · refine ⟨UInt8.le_trans (show (0x20 : UInt8) ≤ 0x61 by decide) hlo, ?_, ?_, ?_⟩ <;> rintro rfl
    · exact absurd hhi (by decide)
    · exact absurd hlo (by decide)
    · exact absurd hlo (by decide)
  · refine ⟨UInt8.le_trans (show (0x20 : UInt8) ≤ 0x30 by decide) hlo, ?_, ?_, ?_⟩ <;> rintro rfl <;>
      exact absurd hhi (by decide)
  all_goals decide

end Texts

end fable.agenda
