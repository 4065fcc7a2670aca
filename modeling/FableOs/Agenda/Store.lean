import FableOs.Agenda.Item
import FableOs.Lib.Roster

namespace fable.agenda

/-! The agenda's state and its store: one document that is written from the
table and read back at boot. -/

open fable.json List
open fable.sse (ascii)

/-- Which of the runner's callers started an item. -/
inductive entry_t where
  | tick
  | now
  | boot
  deriving DecidableEq, Repr

/-- A run that got its guard: the item as the runner found it, and when. -/
structure run_t where
  item : agenda_item_t
  entry : entry_t
  now_ms : UInt64
  deriving DecidableEq, Repr

/-- What a boot has done so far, for the record: an item was saved, an action
    was started, the marker of its attempt was cleared under a name, its result
    was entered under a name, an item got its next due time and when it got it,
    the store was written. -/
inductive mark_t where
  | saved (name : text_t)
  | run (r : run_t)
  | cleared (name : text_t)
  | done (name : text_t)
  | due (name : text_t) (now_ms : UInt64)
  | wrote
  deriving DecidableEq, Repr

/-- How a write of the store ends: with the whole text in the file, without a
    file to write to, or with the first bytes of the text only. -/
inductive write_t where
  | whole
  | refused
  | cut (done : Nat)
  deriving DecidableEq, Repr

/-- The state of the agenda and its file. `item` is `g_item` up to `g_n`, `say`
    tells whether a sink is bound, `disk` is how the writes to come will end (all
    of them well when it runs out), `log` has the latest mark first. -/
structure agenda_t where
  item : List agenda_item_t
  on : Bool
  running : Bool
  runs : UInt32
  fails : UInt32
  escapes : UInt32
  say : Bool
  store : Option text_t
  readable : Bool
  disk : List write_t
  log : List mark_t

def agenda_t.mark (s : agenda_t) (m : mark_t) : agenda_t := { s with log := m :: s.log }

def when_tab : List (agenda_when_t × text_t) :=
  [(.boot, ascii ['b', 'o', 'o', 't']), (.every, ascii ['e', 'v', 'e', 'r', 'y']), (.once, ascii ['o', 'n', 'c', 'e'])]

def act_tab : List (agenda_act_t × text_t) :=
  [(.tool, ascii ['t', 'o', 'o', 'l']), (.say, ascii ['s', 'a', 'y'])]

def agenda_when_name (when : agenda_when_t) : text_t := (when_tab.lookup when).getD (ascii ['?'])

def agenda_act_name (act : agenda_act_t) : text_t := (act_tab.lookup act).getD (ascii ['?'])

/-- `-1` is `none`. -/
def when_of (w : text_t) : Option agenda_when_t := (when_tab.find? fun entry => entry.2 = w).map Prod.fst

def act_of (a : text_t) : Option agenda_act_t := (act_tab.find? fun entry => entry.2 = a).map Prod.fst

theorem name_no_nul : 0 ∉ ascii ['n', 'a', 'm', 'e'] := by decide
theorem when_no_nul : 0 ∉ ascii ['w', 'h', 'e', 'n'] := by decide

def K_AGENDA : cstr_t := ⟨ascii ['a', 'g', 'e', 'n', 'd', 'a'], by decide⟩
def K_ITEMS : cstr_t := ⟨ascii ['i', 't', 'e', 'm', 's'], by decide⟩
def K_NAME : cstr_t := ⟨ascii ['n', 'a', 'm', 'e'], name_no_nul⟩
def K_WHEN : cstr_t := ⟨ascii ['w', 'h', 'e', 'n'], when_no_nul⟩
def K_DO : cstr_t := ⟨ascii ['d', 'o'], by decide⟩
def K_PERIOD_MS : cstr_t := ⟨ascii ['p', 'e', 'r', 'i', 'o', 'd', '_', 'm', 's'], by decide⟩
def K_MAX_RUNS : cstr_t := ⟨ascii ['m', 'a', 'x', '_', 'r', 'u', 'n', 's'], by decide⟩
def K_ENABLED : cstr_t := ⟨ascii ['e', 'n', 'a', 'b', 'l', 'e', 'd'], by decide⟩
def K_ATTEMPTING : cstr_t := ⟨ascii ['a', 't', 't', 'e', 'm', 'p', 't', 'i', 'n', 'g'], by decide⟩
def K_TOOL : cstr_t := ⟨ascii ['t', 'o', 'o', 'l'], by decide⟩
def K_ARG : cstr_t := ⟨ascii ['a', 'r', 'g'], by decide⟩
def K_NOTE : cstr_t := ⟨ascii ['n', 'o', 't', 'e'], by decide⟩

def put_json_byte (c : UInt8) : text_t :=
  if c = QUOTE then [BACKSLASH, QUOTE]
  else if c = BACKSLASH then [BACKSLASH, BACKSLASH]
  else if c = 0x0A then [BACKSLASH, 0x6E]
  else if c = 0x0D then [BACKSLASH, 0x72]
  else if c = 0x09 then [BACKSLASH, 0x74]
  else if c < 0x20 then [0x20]
  else [c]

def put_json_str (s : text_t) : text_t := QUOTE :: (s.flatMap put_json_byte ++ [QUOTE])

/-- The name of a member in its quotes, and the colon behind it. -/
def put_key (k : cstr_t) : text_t := QUOTE :: (k.bytes ++ [QUOTE, COLON])

/-- One turn of the loop of `render`, behind the comma. -/
def render_item (it : agenda_item_t) : text_t :=
  [OPEN_BRACE] ++ joined COMMA (
    [put_key K_NAME ++ put_json_str it.name,
     put_key K_WHEN ++ put_json_str (agenda_when_name it.when),
     put_key K_DO ++ put_json_str (agenda_act_name it.act),
     put_key K_PERIOD_MS ++ decimal it.period_ms.toNat,
     put_key K_MAX_RUNS ++ decimal it.max_runs.toNat,
     put_key K_ENABLED ++ (if it.enabled then TRUE else FALSE),
     put_key K_ATTEMPTING ++ (if it.attempting then TRUE else FALSE)] ++
    (if it.act = .tool then [put_key K_TOOL ++ put_json_str it.tool] else []) ++
    [put_key K_ARG ++ put_json_str it.arg,
     put_key K_NOTE ++ put_json_str it.note]) ++ [CLOSE_BRACE]

/-- The text that `render` asks for. What the buffer cannot hold is counted and
    not stored, and then nobody uses the buffer. -/
def render (items : List agenda_item_t) : text_t :=
  [OPEN_BRACE] ++ put_key K_AGENDA ++ [0x31] ++ [COMMA] ++ put_key K_ITEMS ++ [OPEN_BRACKET] ++
    joined COMMA (items.map render_item) ++ [CLOSE_BRACKET, CLOSE_BRACE, 0x0A]

def file_write (s : agenda_t) (buf : text_t) : agenda_t × Int :=
  match s.disk with
  | [] => ({ s with store := some buf }.mark .wrote, AGENDA_OK)
  | .whole :: disk => ({ s with store := some buf, disk := disk }.mark .wrote, AGENDA_OK)
  | .refused :: disk => ({ s with disk := disk }, AGENDA_EIO)
  | .cut done :: disk => ({ s with store := some (buf.take done), disk := disk }, AGENDA_EIO)

def file_read (s : agenda_t) : Int × text_t :=
  match s.store with
  | none => (AGENDA_ENOENT, [])
  | some file => if s.readable = false ∨ AGENDA_FILE_MAX ≤ file.length + 1 then ( AGENDA_EIO, []) else (AGENDA_OK, file)

def agenda_flush (s : agenda_t) : agenda_t × Int :=
  if AGENDA_FILE_MAX ≤ (render s.item).length then (s, AGENDA_EIO) else file_write s (render s.item)

/-- The code, and what `dst` holds. -/
def get_str (o : json_value_t) (key : cstr_t) (cap : Nat) (payload : Bool) : Int × text_t :=
  match json_get (some o) (some key) with
  | (rc, v) =>
    if rc ≠ JSON_OK then (0, [])
    else if v.type ≠ .string then (-1, [])
    else
      match json_str (some v) (AGENDA_ARG_MAX * 2) with
      | (rc, raw) =>
        if rc ≠ JSON_OK then (-1, [])
        else if cap ≤ raw.length then (-1, [])
        else (1, if payload then copy_payload cap raw else copy_text cap raw)

/-- A number of the document, if that is what the member is. -/
def get_int (o : json_value_t) (key : cstr_t) : Option Int :=
  match json_get (some o) (some key) with
  | (rc, v) => if rc = JSON_OK ∧ v.type = .number then (json_int (some v)).2 else none

def get_bool (o : json_value_t) (key : cstr_t) : Option Bool :=
  match json_get (some o) (some key) with
  | (rc, v) => if rc = JSON_OK ∧ v.type = .bool then (json_bool (some v)).2 else none

/-- The number of the document where it is in range, or the default. -/
def int_or (n : Option Int) (limit : Int) (default : UInt32) : UInt32 :=
  match n with
  | some n => if 0 < n ∧ n < limit then UInt32.ofNat n.toNat else default
  | none => default

/-- One turn of the loop of `agenda_load`, up to `validate`: the item, and
    whether the marker of the previous boot was found on it. `none` is a drop. -/
def load_item (e : json_value_t) : Option (agenda_item_t × Bool) := do
  guard (e.type = .object)
  let (r, name) := get_str e K_NAME AGENDA_NAME_MAX false
  guard (r = 1)
  let (r, word) := get_str e K_WHEN 24 false
  guard (r = 1)
  let when ← when_of word
  let (r, word) := get_str e K_DO 24 false
  guard (r = 1)
  let act ← act_of word
  let (r, tool) := get_str e K_TOOL AGENDA_TOOL_MAX false
  guard (0 ≤ r)
  let (r, arg) := get_str e K_ARG AGENDA_ARG_MAX (act = .tool)
  guard (r = 1)
  let (r, note) := get_str e K_NOTE AGENDA_NOTE_MAX false
  guard (0 ≤ r)
  let attempting := get_bool e K_ATTEMPTING = some true
  pure ({ zeroed with
    name := name, when := when, act := act, tool := tool, arg := arg, note := note
    period_ms := int_or (get_int e K_PERIOD_MS) 0x7FFFFFFF AGENDA_MIN_PERIOD_MS
    max_runs := int_or (get_int e K_MAX_RUNS) 65 AGENDA_MAX_RUNS
    enabled := get_bool e K_ENABLED ≠ some false && !attempting }, attempting)

/-- The loop of `agenda_load` over the elements that are left: the table, and
    whether something was retired on the way in. -/
def load_items (tools : List text_t) (arr : json_value_t) : Nat → Nat → List agenda_item_t → Bool →
    List agenda_item_t × Bool
  | 0, _, table, dirty => (table, dirty)
  | left + 1, i, table, dirty =>
    if AGENDA_MAX_ITEMS ≤ table.length then (table, dirty)
    else
      match json_at (some arr) i with
      | (rc, e) =>
        match if rc = JSON_OK then load_item e else none with
        | none => load_items tools arr left (i + 1) table dirty
        | some (it, attempting) =>
          if validate tools it = .ok () ∧ Roster.find agenda_item_t.name it.name table = none then
            load_items tools arr left (i + 1) (table ++ [it]) (dirty || attempting)
          else load_items tools arr left (i + 1) table (dirty || attempting)

/-- The document's items, or nothing if it is no agenda. -/
def agenda_document (file : text_t) : Option json_value_t :=
  match json_parse (some file) with
  | (rc, root) =>
    if rc ≠ JSON_OK ∨ root.type ≠ .object then none
    else
      match json_get (some root) (some K_ITEMS) with
      | (rc, items) => if rc ≠ JSON_OK ∨ items.type ≠ .array then none else some items

def agenda_load (tools : List text_t) (s : agenda_t) : agenda_t × Int :=
  match file_read s with
  | (rc, file) =>
    let s := { s with item := [] }
    if rc = AGENDA_ENOENT then (s, 0)
    else if rc ≠ AGENDA_OK ∨ file = [] then (s, AGENDA_EIO)
    else
      match agenda_document file with
      | none => (s, AGENDA_EIO)
      | some items =>
        let (table, dirty) := load_items tools items (json_count (some items)) 0 [] false
        let s := { s with item := table }
        let s := if dirty then (agenda_flush s).1 else s
        (s, s.item.length)

section Written

variable {tools : List text_t} {it : agenda_item_t} {s : text_t}

/-- An item of the table: it is valid, and its texts went through the copies. -/
structure Sound (tools : List text_t) (it : agenda_item_t) : Prop where
  valid : Valid tools it
  period : it.period_ms ≠ 0
  note : Prose it.note ∧ it.note.length < AGENDA_NOTE_MAX
  tool : Prose it.tool ∧ it.tool.length < AGENDA_TOOL_MAX
  arg : Payload it.arg ∧ (it.act ≠ .tool → Prose it.arg) ∧ it.arg.length < AGENDA_ARG_MAX

theorem spells_put_json_byte {c} (h : 0x20 ≤ c) : Spells (put_json_byte c) (.byte c) := by
  unfold put_json_byte
  split
  · rename_i hc
    subst hc
    exact .escape (by decide)
  split
  · rename_i hc
    subst hc
    exact .escape (by decide)
  rename_i hquote hslash
  rw [if_neg, if_neg, if_neg, if_neg]
  · exact .plain ⟨h, hquote, hslash⟩
  · exact UInt8.not_lt.mpr h
  all_goals
    rintro rfl
    exact absurd h (by decide)

/-- A payload's escapes decode to the payload. -/
theorem decodes_put_json_str (h : Payload s) : Decodes (s.flatMap put_json_byte) s := by
  refine ⟨s.map .byte, ?_, ?_⟩
  · induction s with
    | nil => exact .nil
    | cons c s ih =>
      rw [flatMap_cons]
      exact .cons (spells_put_json_byte (h c mem_cons_self).1) (ih fun b hb => h b (mem_cons_of_mem c hb))
  · induction s with
    | nil => rfl
    | cons c s ih => rw [map_cons, utf8, ih fun b hb => h b (mem_cons_of_mem c hb)]

theorem writes_put_json_str {depth : Nat} (h : Payload s) : Writes (depth + 1) (put_json_str s) (IsString s) :=
  writes_string (decodes_put_json_str h)

theorem prose_when_name (when : agenda_when_t) : Prose (agenda_when_name when) ∧ (agenda_when_name when).length < 24 := by
  cases when <;> decide

theorem prose_act_name (act : agenda_act_t) : Prose (agenda_act_name act) ∧ (agenda_act_name act).length < 24 := by
  cases act <;> decide

/-- The members of an item's object in the order of `render`. -/
def members (it : agenda_item_t) : List member_t :=
  [⟨⟨put_json_str it.name, IsString it.name⟩, K_NAME, by decide⟩,
   ⟨⟨put_json_str (agenda_when_name it.when), IsString (agenda_when_name it.when)⟩, K_WHEN, by decide⟩,
   ⟨⟨put_json_str (agenda_act_name it.act), IsString (agenda_act_name it.act)⟩, K_DO, by decide⟩,
   ⟨⟨decimal it.period_ms.toNat, IsNumber it.period_ms.toNat⟩, K_PERIOD_MS, by decide⟩,
   ⟨⟨decimal it.max_runs.toNat, IsNumber it.max_runs.toNat⟩, K_MAX_RUNS, by decide⟩,
   ⟨⟨if it.enabled then TRUE else FALSE, IsBool it.enabled⟩, K_ENABLED, by decide⟩,
   ⟨⟨if it.attempting then TRUE else FALSE, IsBool it.attempting⟩, K_ATTEMPTING, by decide⟩] ++
  (if it.act = .tool then [⟨⟨put_json_str it.tool, IsString it.tool⟩, K_TOOL, by decide⟩] else []) ++
  [⟨⟨put_json_str it.arg, IsString it.arg⟩, K_ARG, by decide⟩,
   ⟨⟨put_json_str it.note, IsString it.note⟩, K_NOTE, by decide⟩]

theorem written_eq (m : member_t) : m.written = put_key m.key ++ m.text := by
  simp [member_t.written, put_key]

/-- An item is rendered as an object with its members. -/
theorem render_item_eq (it : agenda_item_t) : render_item it = object_text (members it) := by
  rw [render_item, object_text, members]
  by_cases hact : it.act = .tool
  · simp only [if_pos hact, map_cons, map_nil, written_eq, cons_append, nil_append]
  · simp [if_neg hact, written_eq]

/-- The text of a sound item is that object. -/
theorem writes_item {depth : Nat} (h : Sound tools it) (hdepth : depth + 2 ≤ JSON_MAX_DEPTH) :
    Writes (depth + 2) (render_item it) (IsObject (members it)) := by
  rw [render_item_eq]
  refine writes_object (by simp [members]) ?_ hdepth
  have hname := (prose_of_name_ok h.valid.name).1.payload
  have hperiod := it.period_ms.toNat_lt
  have hruns := it.max_runs.toNat_lt
  have htool := @writes_put_json_str it.tool depth h.tool.1.payload
  intro m hm
  simp only [members, mem_append, mem_cons, not_mem_nil, or_false] at hm
  obtain ((rfl | rfl | rfl | rfl | rfl | rfl | rfl) | hm) | rfl | rfl := hm
  · exact writes_put_json_str hname
  · exact writes_put_json_str (prose_when_name it.when).1.payload
  · exact writes_put_json_str (prose_act_name it.act).1.payload
  · exact writes_decimal (by omega)
  · exact writes_decimal (by omega)
  · exact writes_bool it.enabled
  · exact writes_bool it.attempting
  · split at hm
    · obtain rfl := mem_singleton.mp hm
      exact htool
    · cases hm
  · exact writes_put_json_str h.arg.1
  · exact writes_put_json_str h.note.1.payload

/-- The item that the next boot makes of a written one: what was asked for and
    nothing of what happened, disabled if the marker is on it. -/
def reload (it : agenda_item_t) : agenda_item_t :=
  { zeroed with
    name := it.name, when := it.when, act := it.act, arg := it.arg, note := it.note
    tool := if it.act = .tool then it.tool else []
    period_ms := if it.period_ms < 0x7FFFFFFF then it.period_ms else AGENDA_MIN_PERIOD_MS
    max_runs := it.max_runs
    enabled := it.enabled && !it.attempting }

section Members

variable {v : json_value_t} {ms : List member_t} {key : cstr_t} {m : member_t} {cap : Nat} {payload : Bool}

theorem get_str_of_absent (h : IsObject ms v) (hfind : ms.find? (fun m => m.key = key) = none) :
    get_str v key cap payload = (0, []) := by
  have hget := h.2 key
  rw [hfind] at hget
  simp only [get_str, hget]
  rfl

variable (h : IsObject ms v) (hfind : ms.find? (fun m => m.key = key) = some m)

include h hfind

theorem get_str_of_member (hm : m.means = IsString s) (hcap : s.length < cap) (hraw : cap ≤ AGENDA_ARG_MAX) :
    get_str v key cap payload = (1, if payload then copy_payload cap s else copy_text cap s) := by
  obtain ⟨val, hval, hstring⟩ := h.get hfind
  rw [hm] at hstring
  have hread := hstring.2 (AGENDA_ARG_MAX * 2) (by omega)
  simp [get_str, hval, hread, hstring.1, if_neg (Nat.not_le.mpr hcap)]

/-- The prose of an item comes back as it was. -/
theorem get_prose (hm : m.means = IsString s) (hprose : Prose s) (hcap : s.length < cap) (hraw : cap ≤ AGENDA_ARG_MAX) :
    get_str v key cap false = (1, s) := by
  rw [get_str_of_member h hfind hm hcap hraw, if_neg Bool.false_ne_true, copy_text_eq hprose hcap]

theorem get_int_of_member {n : Nat} (hm : m.means = IsNumber n) : get_int v key = some (n : Int) := by
  obtain ⟨val, hval, hnumber⟩ := h.get hfind
  rw [hm] at hnumber
  simp [get_int, hval, hnumber.1, hnumber.2]

theorem get_bool_of_member {b : Bool} (hm : m.means = IsBool b) : get_bool v key = some b := by
  obtain ⟨val, hval, hbool⟩ := h.get hfind
  rw [hm] at hbool
  simp [get_bool, hval, hbool.1, hbool.2]

end Members

theorem when_of_name {when} (h : when ≠ .count) : when_of (agenda_when_name when) = some when := by
  cases when with
  | boot | every | once => decide
  | count => exact absurd rfl h

theorem act_of_name {act} (h : act ≠ .count) : act_of (agenda_act_name act) = some act := by
  cases act with
  | tool | say => decide
  | count => exact absurd rfl h

theorem int_or_eq {n d : UInt32} {limit : Nat} (hpos : n ≠ 0) :
    int_or (some (n.toNat : Int)) limit d = if n.toNat < limit then n else d := by
  have hpos : 0 < n.toNat := Nat.pos_of_ne_zero fun hzero => hpos (UInt32.toNat_inj.mp hzero)
  rw [int_or, Int.toNat_natCast, UInt32.ofNat_toNat]
  simp [hpos]

section Objects

variable {v : json_value_t} (h : Sound tools it) (hv : IsObject (members it) v)

include h hv

theorem get_tool :
    ∃ r, get_str v K_TOOL AGENDA_TOOL_MAX false = (r, if it.act = .tool then it.tool else []) ∧ 0 ≤ r := by
  rw [members] at hv
  by_cases hact : it.act = .tool
  · rw [if_pos hact] at hv ⊢
    exact ⟨1, get_prose hv rfl rfl h.tool.1 h.tool.2 (by decide), by decide⟩
  · rw [if_neg hact] at hv ⊢
    exact ⟨0, get_str_of_absent hv rfl, by decide⟩

theorem get_arg : get_str v K_ARG AGENDA_ARG_MAX (it.act = .tool) = (1, it.arg) := by
  rw [members] at hv
  by_cases hact : it.act = .tool
  · rw [if_pos hact] at hv
    rw [get_str_of_member hv rfl rfl h.arg.2.2 (le_refl _), if_pos (decide_eq_true hact),
      copy_payload_eq h.arg.1 h.arg.2.2]
  · rw [if_neg hact] at hv
    rw [decide_eq_false hact]
    exact get_prose hv rfl rfl (h.arg.2.1 hact) h.arg.2.2 (le_refl _)

theorem get_note : get_str v K_NOTE AGENDA_NOTE_MAX false = (1, it.note) := by
  rw [members] at hv
  by_cases hact : it.act = .tool
  · rw [if_pos hact] at hv
    exact get_prose hv rfl rfl h.note.1 h.note.2 (by decide)
  · rw [if_neg hact] at hv
    exact get_prose hv rfl rfl h.note.1 h.note.2 (by decide)

/-- An item that was rendered is loaded as it reloads. -/
theorem load_item_eq : load_item v = some (reload it, it.attempting) := by
  obtain ⟨hprose, hlen, -⟩ := prose_of_name_ok h.valid.name
  have hname : get_str v K_NAME AGENDA_NAME_MAX false = (1, it.name) := get_prose hv rfl rfl hprose hlen (by decide)
  have hwhen : get_str v K_WHEN 24 false = (1, agenda_when_name it.when) :=
    get_prose hv rfl rfl (prose_when_name it.when).1 (prose_when_name it.when).2 (by decide)
  have hact : get_str v K_DO 24 false = (1, agenda_act_name it.act) :=
    get_prose hv rfl rfl (prose_act_name it.act).1 (prose_act_name it.act).2 (by decide)
  have hperiod : get_int v K_PERIOD_MS = some (it.period_ms.toNat : Int) := get_int_of_member hv rfl rfl
  have hruns : get_int v K_MAX_RUNS = some (it.max_runs.toNat : Int) := get_int_of_member hv rfl rfl
  have henabled : get_bool v K_ENABLED = some it.enabled := get_bool_of_member hv rfl rfl
  have hattempting : get_bool v K_ATTEMPTING = some it.attempting := get_bool_of_member hv rfl rfl
  obtain ⟨r, htool, hr⟩ := get_tool h hv
  have harg := get_arg h hv
  have hnote := get_note h hv
  have hobject : v.type = .object := hv.1
  have hmax : int_or (some (it.max_runs.toNat : Int)) 65 AGENDA_MAX_RUNS = it.max_runs := by
    have hle := UInt32.le_iff_toNat_le.mp h.valid.max_runs.2
    have heq := @int_or_eq it.max_runs AGENDA_MAX_RUNS 65 h.valid.max_runs.1
    rwa [if_pos (show it.max_runs.toNat < 65 from Nat.lt_succ_of_le hle)] at heq
  have hms : int_or (some (it.period_ms.toNat : Int)) 0x7FFFFFFF AGENDA_MIN_PERIOD_MS =
      if it.period_ms < 0x7FFFFFFF then it.period_ms else AGENDA_MIN_PERIOD_MS := by
    exact @int_or_eq it.period_ms AGENDA_MIN_PERIOD_MS 0x7FFFFFFF h.period
  simp only [load_item, guard, hobject, hname, hwhen, hact, htool, harg, hnote, hperiod, hruns, henabled, hattempting,
    when_of_name h.valid.when, act_of_name h.valid.act, if_true, hr, Option.pure_def, Option.bind_eq_bind,
    Option.bind_some, hmax, hms]
  cases hat : it.attempting <;> cases hen : it.enabled <;> simp [reload, hat, hen]

end Objects

/-- The element of a written agenda at a place. -/
def entry (it : agenda_item_t) : json.item_t := ⟨render_item it, IsObject (members it)⟩

theorem sound_reload (h : Sound tools it) : Sound tools (reload it) := by
  have hvalid := h.valid
  refine ⟨⟨hvalid.name, hvalid.when, hvalid.act, fun hevery => ?_, hvalid.max_runs, hvalid.arg, fun hact => ?_⟩, ?_,
    h.note, ?_, h.arg⟩
  · simp only [reload]
    split
    · exact hvalid.period hevery
    · exact UInt32.le_refl _
  · have hcall : it.act = .tool := hact
    simp only [reload, if_pos hcall]
    exact hvalid.tool hcall
  · simp only [reload]
    split
    · exact h.period
    · decide
  · simp only [reload]
    split
    · exact h.tool
    · exact ⟨forall_mem_nil _, by decide⟩

/-- The loop over a written table reads every entry back, the ones before it
    being in the table already. -/
theorem load_items_eq {arr items} (harr : IsArray (items.map entry) arr) (hsound : ∀ it ∈ items, Sound tools it)
    (hunique : Roster.Unique agenda_item_t.name items) (hlen : items.length ≤ AGENDA_MAX_ITEMS) {before after}
    (hsplit : items = before ++ after) (dirty : Bool) :
    load_items tools arr after.length before.length (before.map reload) dirty =
      (items.map reload, dirty || after.any agenda_item_t.attempting) := by
  induction after generalizing before dirty with
  | nil =>
    rw [hsplit, append_nil, any_nil, Bool.or_false]
    rfl
  | cons it after ih =>
    have hmem : it ∈ items := by
      rw [hsplit]
      exact mem_append_right _ mem_cons_self
    have hget : (items.map entry)[before.length]? = some (entry it) := by
      rw [hsplit, map_append, getElem?_append_right (by rw [length_map])]
      simp
    obtain ⟨v, hat, hv⟩ := harr.2.2 _ _ hget
    have hroom : ¬ AGENDA_MAX_ITEMS ≤ (before.map reload).length := by
      rw [hsplit, length_append, length_cons] at hlen
      rw [length_map]
      omega
    have hvalid : validate tools (reload it) = .ok () := validate_eq_ok.mpr (sound_reload (hsound it hmem)).valid
    have hnew : Roster.find agenda_item_t.name (reload it).name (before.map reload) = none := by
      rw [Roster.find_eq_none]
      intro a ha hname
      obtain ⟨b, hb, rfl⟩ := mem_map.mp ha
      rw [hsplit, Roster.Unique, map_append, map_cons] at hunique
      have hdisjoint := disjoint_of_nodup_append hunique
      exact hdisjoint (mem_map_of_mem hb) (by rw [show b.name = it.name from hname]; exact mem_cons_self)
    rw [length_cons, load_items, if_neg hroom, hat]
    simp only [if_true, load_item_eq (hsound it hmem) hv, hvalid, hnew, and_self]
    have hrest := @ih (before ++ [it]) (by rw [hsplit, append_assoc, singleton_append])
      (dirty || it.attempting)
    rw [length_append, length_singleton, map_append, map_cons, map_nil] at hrest
    rw [hrest, any_cons, Bool.or_assoc]

section Room

theorem length_put_json_str (s : text_t) : (put_json_str s).length ≤ 2 * s.length + 2 := by
  have hbyte (c : UInt8) : (put_json_byte c).length ≤ 2 := by
    unfold put_json_byte
    split_ifs <;> exact Nat.le_of_ble_eq_true rfl
  have hbody : (s.flatMap put_json_byte).length ≤ 2 * s.length := by
    induction s with
    | nil => exact le_refl 0
    | cons c s ih =>
      rw [flatMap_cons, length_append, length_cons]
      have hc := hbyte c
      omega
  rw [put_json_str, length_cons, length_append, length_singleton]
  omega

theorem length_joined_le {sep} {ts : List text_t} {n : Nat} (h : ∀ t ∈ ts, t.length ≤ n) :
    (joined sep ts).length ≤ ts.length * (n + 1) := by
  induction ts with
  | nil => exact Nat.zero_le _
  | cons t ts ih =>
    have ht := h t mem_cons_self
    have hrest := ih fun x hx => h x (mem_cons_of_mem t hx)
    cases ts with
    | nil =>
      rw [joined_singleton, length_singleton]
      omega
    | cons t' ts =>
      rw [joined_cons_cons, length_append, length_cons, length_cons, Nat.succ_mul]
      omega

/-- `AGENDA_ITEM_RENDER_MAX` -/
theorem length_render_item (h : Sound tools it) : (render_item it).length ≤ 1300 := by
  have hname : it.name.length < 32 := (prose_of_name_ok h.valid.name).2.1
  have h₁ := length_put_json_str it.name
  have h₂ := length_put_json_str (agenda_when_name it.when)
  have h₃ := length_put_json_str (agenda_act_name it.act)
  have h₄ := length_put_json_str it.tool
  have h₅ := length_put_json_str it.arg
  have h₆ := length_put_json_str it.note
  have hwhen := (prose_when_name it.when).2
  have hact := (prose_act_name it.act).2
  have hms := length_decimal_le it.period_ms.toNat
  have hruns := length_decimal_le it.max_runs.toNat
  have htool : it.tool.length < 49 := h.tool.2
  have harg : it.arg.length < 288 := h.arg.2.2
  have hnote : it.note.length < 112 := h.note.2
  have hbool (b : Bool) : (if b then TRUE else FALSE).length ≤ 5 := by cases b <;> decide
  have hen := hbool it.enabled
  have hat := hbool it.attempting
  have hkey : (put_key K_NAME).length = 7 ∧ (put_key K_WHEN).length = 7 ∧ (put_key K_DO).length = 5 ∧
      (put_key K_PERIOD_MS).length = 12 ∧ (put_key K_MAX_RUNS).length = 11 ∧ (put_key K_ENABLED).length = 10 ∧
      (put_key K_ATTEMPTING).length = 13 ∧ (put_key K_TOOL).length = 7 ∧ (put_key K_ARG).length = 6 ∧
      (put_key K_NOTE).length = 7 := by decide
  obtain ⟨k₁, k₂, k₃, k₄, k₅, k₆, k₇, k₈, k₉, k₁₀⟩ := hkey
  rw [render_item]
  by_cases hcall : it.act = .tool
  · simp only [if_pos hcall, cons_append, nil_append, joined_cons_cons, joined_singleton, length_append,
      length_cons, length_nil, k₁, k₂, k₃, k₄, k₅, k₆, k₇, k₈, k₉, k₁₀]
    omega
  · simp only [if_neg hcall, cons_append, nil_append, joined_cons_cons, joined_singleton, length_append,
      length_cons, length_nil, k₁, k₂, k₃, k₄, k₅, k₆, k₇, k₉, k₁₀]
    omega

/-- The whole table always fits the buffer, and the file can be read again. -/
theorem length_render {items} (hsound : ∀ it ∈ items, Sound tools it) (hlen : items.length ≤ AGENDA_MAX_ITEMS) :
    (render items).length + 1 < AGENDA_FILE_MAX := by
  have hitems : (joined COMMA (items.map render_item)).length ≤ items.length * 1301 := by
    have hjoined := @length_joined_le COMMA (items.map render_item) 1300 fun t ht => by
      obtain ⟨it, hit, rfl⟩ := mem_map.mp ht
      exact length_render_item (hsound it hit)
    rwa [length_map] at hjoined
  have hkey : (put_key K_AGENDA).length = 9 ∧ (put_key K_ITEMS).length = 8 := by decide
  have hlen : items.length ≤ 8 := hlen
  simp only [render, length_append, length_cons, length_nil, hkey.1, hkey.2, AGENDA_FILE_MAX]
  omega

end Room

/-- A rendered table parses to its entries in order. -/
theorem agenda_document_render {items} (hsound : ∀ it ∈ items, Sound tools it) :
    ∃ arr, agenda_document (render items) = some arr ∧ IsArray (items.map entry) arr := by
  have harray : Writes 31 (array_text (items.map entry)) (IsArray (items.map entry)) := by
    refine writes_array (fun a ha => ?_) (by decide)
    obtain ⟨it, hit, rfl⟩ := mem_map.mp ha
    exact @writes_item tools it 28 (hsound it hit) (by decide)
  have hone : decimal 1 = [0x31] := by decide
  let ms : List member_t :=
    [⟨⟨[0x31], IsNumber 1⟩, K_AGENDA, by decide⟩,
     ⟨⟨array_text (items.map entry), IsArray (items.map entry)⟩, K_ITEMS, by decide⟩]
  have hroot : Writes JSON_MAX_DEPTH (object_text ms) (IsObject ms) := by
    refine writes_object (cons_ne_nil _ _) (forall_mem_cons.mpr ⟨?_, forall_mem_singleton.mpr harray⟩)
      (le_refl _)
    have hnumber := @writes_decimal 30 1 (by decide)
    rwa [hone] at hnumber
  have hnewline : [(0x0A : UInt8)] ∈ ws := by
    intro c hc
    obtain rfl := mem_singleton.mp hc
    exact Or.inr (Or.inr (Or.inl rfl))
  have hitems : (items.map entry).map json.item_t.text = items.map render_item := by
    rw [map_map]
    rfl
  have htext : render items = object_text ms ++ [0x0A] := by
    simp only [render, object_text, ms, map_cons, map_nil, joined_cons_cons, joined_singleton, written_eq,
      array_text, hitems]
    generalize put_key K_AGENDA = agenda
    generalize put_key K_ITEMS = key
    simp
  obtain ⟨root, hparse, hobject⟩ := hroot.parse hnewline
  obtain ⟨arr, hget, harr⟩ := hobject.2 K_ITEMS
  refine ⟨arr, ?_, harr⟩
  have harr' : arr.type = .array := harr.1
  simp [agenda_document, htext, hparse, hobject.1, hget, harr']

/-- What `agenda_load` makes of a table that was written: the items in their
    order, the marked ones retired and the store rewritten if there were any. -/
theorem agenda_load_render {s items} (hstore : s.store = some (render items)) (hread : s.readable = true)
    (hsound : ∀ it ∈ items, Sound tools it) (hunique : Roster.Unique agenda_item_t.name items)
    (hlen : items.length ≤ AGENDA_MAX_ITEMS) :
    (agenda_load tools s).1 =
      if items.any agenda_item_t.attempting then (agenda_flush { s with item := items.map reload }).1
      else { s with item := items.map reload } := by
  obtain ⟨arr, hdocument, harr⟩ := agenda_document_render hsound
  have hroom := length_render hsound hlen
  have hfile : file_read s = (AGENDA_OK, render items) := by
    rw [file_read, hstore]
    exact if_neg (by rw [hread]; simpa using Nat.not_le.mpr hroom)
  have hne : render items ≠ [] := by
    rw [render]
    simp
  have hitems := @load_items_eq tools arr items harr hsound hunique hlen [] items rfl false
  have hcount : json_count (some arr) = items.length := by
    rw [harr.2.1, length_map]
  simp only [length_nil, map_nil, Bool.false_or] at hitems
  simp only [agenda_load, hfile, hne, hdocument, hcount, hitems, ne_eq, not_true_eq_false, or_self, if_false]
  rfl

/-- Nothing of what happens to an item has happened yet. -/
structure Untouched (it : agenda_item_t) : Prop where
  attempting : it.attempting = false
  runs : it.runs = 0
  failures : it.failures = 0
  next_ms : it.next_ms = 0

theorem get_str_false {o key} {cap : Nat} (hcap : 0 < cap) :
    Prose (get_str o key cap false).2 ∧ (get_str o key cap false).2.length < cap := by
  have hnil : Prose [] ∧ ([] : text_t).length < cap := ⟨forall_mem_nil _, hcap⟩
  simp only [get_str, Bool.false_eq_true, if_false]
  split_ifs
  · exact hnil
  · exact hnil
  · exact hnil
  · exact hnil
  · exact ⟨prose_copy_text, length_copied hcap⟩

theorem get_str_true {o key} {cap : Nat} (hcap : 0 < cap) :
    Payload (get_str o key cap true).2 ∧ (get_str o key cap true).2.length < cap := by
  have hnil : Payload [] ∧ ([] : text_t).length < cap := ⟨forall_mem_nil _, hcap⟩
  simp only [get_str]
  split_ifs
  · exact hnil
  · exact hnil
  · exact hnil
  · exact hnil
  · exact ⟨payload_copy_payload, length_copied hcap⟩

theorem int_or_ne_zero {n} {limit : Int} {d : UInt32} (hlimit : limit ≤ 2 ^ 32) (hd : d ≠ 0) :
    int_or n limit d ≠ 0 := by
  unfold int_or
  cases n with
  | none => exact hd
  | some n =>
    dsimp only
    split
    · rename_i hn
      intro hzero
      have hnat := congrArg UInt32.toNat hzero
      rw [UInt32.toNat_ofNat_of_lt' (by simp; omega)] at hnat
      simp at hnat
      omega
    · exact hd

/-- A loaded item that is valid is sound, and nothing is booked on it. -/
theorem sound_load_item {e} {attempting : Bool} (h : load_item e = some (it, attempting)) (hvalid : Valid tools it) :
    Sound tools it ∧ Untouched it := by
  simp only [load_item, Option.bind_eq_bind, Option.bind_eq_some_iff, Option.pure_def, Option.some.injEq,
    Prod.mk.injEq] at h
  obtain ⟨_, -, _, -, _, -, when, -, _, -, act, -, _, -, _, -, _, -, rfl, -⟩ := h
  have htool := @get_str_false e K_TOOL AGENDA_TOOL_MAX (by decide)
  have hnote := @get_str_false e K_NOTE AGENDA_NOTE_MAX (by decide)
  have hprose := @get_str_false e K_ARG AGENDA_ARG_MAX (by decide)
  have hpayload := @get_str_true e K_ARG AGENDA_ARG_MAX (by decide)
  refine ⟨⟨hvalid, int_or_ne_zero (by decide) (by decide), hnote, htool, ?_⟩, rfl, rfl, rfl, rfl⟩
  by_cases hact : act = .tool
  · simp only [hact, decide_true]
    exact ⟨hpayload.1, fun hne => absurd rfl hne, hpayload.2⟩
  · simp only [hact, decide_false]
    exact ⟨hprose.1.payload, fun _ => hprose.1, hprose.2⟩

/-- Whatever the store holds, the table that is read from it is sound: each item
    valid, no name twice, no more than there is room for. -/
theorem sound_load_items {arr} {left i : Nat} {table} {dirty : Bool}
    (hsound : ∀ it ∈ table, Sound tools it ∧ Untouched it) (hunique : Roster.Unique agenda_item_t.name table)
    (hlen : table.length ≤ AGENDA_MAX_ITEMS) {table'} {dirty' : Bool}
    (h : load_items tools arr left i table dirty = (table', dirty')) :
    (∀ it ∈ table', Sound tools it ∧ Untouched it) ∧ Roster.Unique agenda_item_t.name table' ∧
      table'.length ≤ AGENDA_MAX_ITEMS := by
  induction left generalizing i table dirty with
  | zero =>
    rw [load_items] at h
    cases h
    exact ⟨hsound, hunique, hlen⟩
  | succ left ih =>
    rw [load_items] at h
    split at h
    · cases h
      exact ⟨hsound, hunique, hlen⟩
    rename_i hroom
    dsimp only at h
    split at h
    · exact ih hsound hunique hlen h
    rename_i it attempting hitem
    split at h
    · rename_i hnew
      have hload : load_item (json_at (some arr) i).2 = some (it, attempting) := by
        split at hitem
        · exact hitem
        · cases hitem
      refine ih (fun x hx => ?_) ?_ ?_ h
      · obtain hx | hx := mem_append.mp hx
        · exact hsound x hx
        · obtain rfl := mem_singleton.mp hx
          exact sound_load_item hload (validate_eq_ok.mp hnew.1)
      · rw [Roster.Unique, map_append, map_singleton]
        refine nodup_append'.mpr ⟨hunique, nodup_singleton _, fun k hk hk' => ?_⟩
        obtain ⟨a, ha, rfl⟩ := mem_map.mp hk
        exact Roster.find_eq_none.mp hnew.2 a ha (mem_singleton.mp hk')
      · rw [length_append, length_singleton]
        omega
    · exact ih hsound hunique hlen h

/-- A load leaves a table of sound items that nothing has happened to, and
    writes it back if it retired one of them. -/
theorem agenda_load_eq (tools : List text_t) (s : agenda_t) : ∃ table : List agenda_item_t,
    (∀ it ∈ table, Sound tools it ∧ Untouched it) ∧ Roster.Unique agenda_item_t.name table ∧
      table.length ≤ AGENDA_MAX_ITEMS ∧
      ((agenda_load tools s).1 = { s with item := table } ∨
        (agenda_load tools s).1 = (agenda_flush { s with item := table }).1) := by
  have hempty : ∃ table : List agenda_item_t, (∀ it ∈ table, Sound tools it ∧ Untouched it) ∧
      Roster.Unique agenda_item_t.name table ∧ table.length ≤ AGENDA_MAX_ITEMS ∧
      ({ s with item := [] } = { s with item := table } ∨
        { s with item := [] } = (agenda_flush { s with item := table }).1) :=
    ⟨[], forall_mem_nil _, nodup_nil, Nat.zero_le _, Or.inl rfl⟩
  rw [agenda_load]
  split
  split
  · exact hempty
  split
  · exact hempty
  split
  · exact hempty
  · rename_i items _
    generalize hload : load_items tools items (json_count (some items)) 0 [] false = out
    obtain ⟨table, dirty⟩ := out
    obtain ⟨hsound, hunique, hlen⟩ :=
      sound_load_items (forall_mem_nil _) nodup_nil (Nat.zero_le _) hload
    refine ⟨table, hsound, hunique, hlen, ?_⟩
    dsimp only
    split
    · exact Or.inr rfl
    · exact Or.inl rfl

end Written

end fable.agenda
