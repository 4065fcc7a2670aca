import FableOs.Json.Decode

namespace fable.json

/-- `skip_ws` up to an end that is `stop` bytes before the end of the buffer. -/
def skip_ws_to (stop : Nat) : ptr_t → ptr_t
  | [] => []
  | c :: p => if stop < (c :: p).length ∧ is_ws c then skip_ws_to stop p else c :: p

/-- `{ JSON_INVALID, NULL, 0 }` -/
abbrev no_value : json_value_t := ⟨.invalid, none, 0⟩

/-- The name of a member and its colon. In `walk` the scanner's buffer ends
    with the closing bracket, one byte behind `end`. -/
def walk_key (p : ptr_t) : Except Int (json_value_t × ptr_t) :=
  match scan_string p with
  | .error _ => .error JSON_EINVAL
  | .ok q =>
    match skip_ws_to 1 q with
    | [] => .error JSON_EINVAL
    | c :: r =>
      if r = [] ∨ c ≠ COLON then .error JSON_EINVAL
      else .ok (⟨.string, some p, p.length - q.length⟩, r)

/-- The member or the element at `p`: its name, its value and what is left. -/
def walk_item (is_obj : Bool) (p : ptr_t) : Except Int (json_value_t × json_value_t × ptr_t) := do
  let (k, p) ← if is_obj then walk_key p else .ok (no_value, p)
  match scan_value p 1 with
  | .error _ => .error JSON_EINVAL
  | .ok (val, q) => .ok (k, val, q)

/-- A value that was located in the first bytes of a buffer, seen from the whole
    of it: `rest` is what stands behind those bytes. -/
def json_value_t.within (v : json_value_t) (rest : ptr_t) : json_value_t :=
  { v with start := v.start.map (· ++ rest) }

def walk_hit (is_obj : Bool) (key : Option cstr_t) (index n : Nat) (k : json_value_t) : Bool :=
  match key with
  | some key => is_obj && json_str_eq (some k) (some key)
  | none => n = index

/-- The loop of `walk`. It returns the last hit and the number of items; without
    `count_out` it ends with the first hit. -/
def walk_items (is_obj counting : Bool) (key : Option cstr_t) (index : Nat) (rest : ptr_t) :
    Nat → Nat → Option (json_value_t × json_value_t) → ptr_t →
      Except Int (Option (json_value_t × json_value_t) × Nat)
  | 0, _, _, _ => .error JSON_ENDLESS
  | fuel + 1, n, found, p =>
    if p.length ≤ 1 then if counting then .ok (found, n) else .error JSON_ENOENT
    else do
      let (k, val, p) ← walk_item is_obj p
      let hit := walk_hit is_obj key index n k
      let found := if hit then some (k.within rest, val.within rest) else found
      if hit ∧ ¬ counting then .ok (found, n)
      else
        match skip_ws_to 1 p with
        | c :: q =>
          if q ≠ [] ∧ c = COMMA then walk_items is_obj counting key index rest fuel (n + 1) found (skip_ws_to 1 q)
          else if counting then .ok (found, n + 1) else .error JSON_ENOENT
        | [] => if counting then .ok (found, n + 1) else .error JSON_ENOENT

def walk (v : Option json_value_t) (key : Option cstr_t) (index : Nat) (counting : Bool) :
    Except Int (Option (json_value_t × json_value_t) × Nat) :=
  match v with
  | none => .error JSON_ETYPE
  | some v =>
    if v.type ≠ .object ∧ v.type ≠ .array then .error JSON_ETYPE
    else
      let p := skip_ws_to 1 v.text.tail
      walk_items (v.type = .object) counting key index ((v.start.getD []).drop v.len) (p.length + 1) 0 none p

def json_count (v : Option json_value_t) : Nat :=
  match walk v none 0 true with
  | .ok (_, n) => n
  | .error _ => 0

/-- What a lookup leaves in its out parameters. -/
def walked (res : Except Int (Option (json_value_t × json_value_t) × Nat)) : Int × json_value_t × json_value_t :=
  match res with
  | .ok (some (k, val), _) => (JSON_OK, k, val)
  | .ok (none, _) => (JSON_OK, no_value, no_value)
  | .error e => (e, no_value, no_value)

def json_get (obj : Option json_value_t) (key : Option cstr_t) : Int × json_value_t :=
  match obj, key with
  | some v, some key =>
    if v.type ≠ .object then (JSON_ETYPE, no_value)
    else
      let (rc, _, val) := walked (walk (some v) (some key) 0 false)
      (rc, val)
  | _, _ => (JSON_EINVAL, no_value)

def json_at (arr : Option json_value_t) (index : Nat) : Int × json_value_t :=
  match arr with
  | none => (JSON_EINVAL, no_value)
  | some v =>
    if v.type ≠ .array then (JSON_ETYPE, no_value)
    else
      let (rc, _, val) := walked (walk (some v) none index false)
      (rc, val)

def json_member (obj : Option json_value_t) (index : Nat) : Int × json_value_t × json_value_t :=
  match obj with
  | none => (JSON_EINVAL, no_value, no_value)
  | some v =>
    if v.type ≠ .object then (JSON_ETYPE, no_value, no_value)
    else walked (walk (some v) none index false)

end fable.json
