import FableOs.Json.Compose
import FableOs.Json.RoundTrip
import FableOs.Json.Found

namespace fable.json

/-! Documents that are written in one piece, without white space, and what the
reading functions find in them. -/

open List

/-- The code, and what `dst` holds up to its terminating zero. -/
def json_get_str (obj : Option json_value_t) (key : Option cstr_t) (cap : Nat) : Int × List UInt8 :=
  match json_get obj key with
  | (rc, v) => if rc ≠ JSON_OK then (rc, []) else json_str (some v) cap

/-- The code, and what it stores. -/
def json_bool (v : Option json_value_t) : Int × Option Bool :=
  match v with
  | none => (JSON_EINVAL, none)
  | some v => if v.type ≠ .bool then (JSON_ETYPE, none) else (JSON_OK, some (v.len = 4))

/-- Whatever stands behind it, the text is a value that is nested at most
    `depth` deep, and this can be said of the value. -/
def Writes (depth : Nat) (text : List UInt8) (means : json_value_t → Prop) : Prop :=
  ∀ r, ∃ tree, Node depth tree text r ∧ means tree.value

/-- A text that is written as a value parses to a value with its meaning. -/
theorem Writes.parse {text after means} (h : Writes JSON_MAX_DEPTH text means) (hafter : after ∈ ws) :
    ∃ v, json_parse (some (text ++ after)) = (JSON_OK, v) ∧ means v := by
  obtain ⟨tree, hnode, hmeans⟩ := h after
  obtain ⟨type, hvalue, hat⟩ := hnode.value
  have hparse := json_parse_complete ⟨nil_mem_ws, hvalue, hafter⟩
  rw [nil_append, ← hat] at hparse
  exact ⟨tree.value, hparse, hmeans⟩

section Scalars

variable {depth : Nat}

theorem writes_scalar {type text} (h : Scalar type text) {means}
    (hmeans : ∀ r, means ⟨type, some (text ++ r), text.length⟩) : Writes (depth + 1) text means := by
  intro r
  exact ⟨.node ⟨type, some (text ++ r), text.length⟩ [], ⟨type, rfl, .scalar h⟩, hmeans r⟩

def IsString (s : List UInt8) (v : json_value_t) : Prop :=
  v.type = .string ∧ ∀ cap, s.length < cap → json_str (some v) cap = (JSON_OK, s)

/-- A string is written by what decodes to it. -/
theorem writes_string {t s} (h : Decodes t s) : Writes (depth + 1) (QUOTE :: (t ++ [QUOTE])) (IsString s) := by
  obtain ⟨us, hus, hs⟩ := h
  refine writes_scalar (.string (mem_string_iff.mpr ⟨t, us, rfl, hus⟩)) fun r => ⟨rfl, fun cap hcap => ?_⟩
  exact json_str_located ⟨us, hus, hs⟩ hcap

def IsNumber (n : Nat) (v : json_value_t) : Prop :=
  v.type = .number ∧ json_int (some v) = (JSON_OK, some (n : Int))

theorem json_int_of_text {v v'} (htype : v.type = v'.type) (htext : v.text = v'.text) :
    json_int (some v) = json_int (some v') := by
  simp only [json_int, htype, htext]

theorem int_text_ofNat {n : Nat} (hn : n < 2 ^ 63) :
    (Int64.ofNat n).toInt = n ∧ int_text (Int64.ofNat n) = decimal n := by
  have hvalue : (Int64.ofNat n).toInt = n := Int64.toInt_ofNat_of_lt hn
  refine ⟨hvalue, ?_⟩
  rw [int_text, hvalue, if_neg (by omega), Int.toNat_natCast]

/-- A number below `2 ^ 63` is written in decimal. -/
theorem writes_decimal {n : Nat} (hn : n < 2 ^ 63) : Writes (depth + 1) (decimal n) (IsNumber n) := by
  obtain ⟨hvalue, htext⟩ := int_text_ofNat hn
  have hnumber := int_text_number (Int64.ofNat n)
  have hread := json_int_int_text (Int64.ofNat n)
  rw [htext] at hnumber hread
  rw [hvalue] at hread
  refine writes_scalar (.number hnumber) fun r => ⟨rfl, ?_⟩
  rw [← hread]
  refine json_int_of_text rfl ?_
  have hwhole := @text_located .number [] (decimal n)
  rw [append_nil] at hwhole
  rw [text_located, hwhole]

def IsBool (b : Bool) (v : json_value_t) : Prop :=
  v.type = .bool ∧ json_bool (some v) = (JSON_OK, some b)

theorem writes_bool (b : Bool) : Writes (depth + 1) (if b then TRUE else FALSE) (IsBool b) := by
  cases b with
  | true => exact writes_scalar .literal_true fun r => ⟨rfl, rfl⟩
  | false => exact writes_scalar .literal_false fun r => ⟨rfl, rfl⟩

end Scalars

section Containers

variable {depth : Nat}

/-- Texts with a separator between each two of them. -/
def joined (sep : UInt8) : List (List UInt8) → List UInt8
  | [] => []
  | [t] => t
  | t :: ts => t ++ sep :: joined sep ts

theorem joined_singleton {sep t} : joined sep [t] = t := rfl

theorem joined_cons_cons {sep t t' ts} : joined sep (t :: t' :: ts) = t ++ sep :: joined sep (t' :: ts) := rfl

/-- Something that is written in one piece, and what is said of it. -/
structure item_t where
  text : List UInt8
  means : json_value_t → Prop

/-- Nothing in the text needs an escape. -/
def Plain (s : List UInt8) : Prop := ∀ c ∈ s, 0x20 ≤ c ∧ c ≠ QUOTE ∧ c ≠ BACKSLASH

instance (s : List UInt8) : Decidable (Plain s) :=
  List.decidableBAll (fun c => 0x20 ≤ c ∧ c ≠ QUOTE ∧ c ≠ BACKSLASH) s

/-- A member whose name needs no escape. -/
structure member_t extends item_t where
  key : cstr_t
  plain : Plain key.bytes

def member_t.written (m : member_t) : List UInt8 := QUOTE :: (m.key.bytes ++ QUOTE :: COLON :: m.text)

variable {m : member_t} {key : cstr_t} {ms : List member_t}

theorem units_plain {s} (h : Plain s) : Units s (s.map .byte) ∧ utf8 (s.map .byte) = s := by
  induction s with
  | nil => exact ⟨.nil, rfl⟩
  | cons c s ih =>
    obtain ⟨hunits, hutf8⟩ := ih fun c' hc' => h c' (mem_cons_of_mem c hc')
    refine ⟨@Units.cons [c] _ _ _ (.plain (h c mem_cons_self)) hunits, ?_⟩
    rw [map_cons, utf8, hutf8]

theorem decodes_plain {s} (h : Plain s) : Decodes s s :=
  ⟨_, units_plain h⟩

/-- A parsed member against the member that was written. -/
def Reads (m : member_t) (child : json_value_t × tree_t) : Prop :=
  (∀ key : cstr_t, Named child.1 key ↔ m.key = key) ∧ m.means child.2.value

/-- The name a member was written with is its key. -/
theorem named_iff {r : List UInt8} :
    Named ⟨.string, some (QUOTE :: (m.key.bytes ++ [QUOTE]) ++ r), (QUOTE :: (m.key.bytes ++ [QUOTE])).length⟩ key ↔
      m.key = key := by
  obtain ⟨hunits, hutf8⟩ := units_plain m.plain
  rw [Named, text_located]
  constructor
  · rintro ⟨t, ht, us, hus, hkey⟩
    obtain rfl : m.key.bytes = t := append_cancel_right (cons.inj ht).2
    have hbytes : m.key.bytes = key.bytes := by rw [← hutf8, hunits.utf8_eq hus, hkey]
    cases hm : m.key with
    | mk bytes no_nul =>
      cases key with
      | mk bytes' no_nul' =>
        rw [hm] at hbytes
        cases hbytes
        rfl
  · rintro rfl
    exact ⟨m.key.bytes, rfl, decodes_plain m.plain⟩

/-- A member that was written stands in the parse tree with its meaning. -/
theorem memberAt_of_writes (h : Writes depth m.text m.means) (r : ptr_t) :
    ∃ child, MemberAt (Node depth) child m.written r ∧ Reads m child := by
  obtain ⟨tree, hnode, hmeans⟩ := h r
  obtain ⟨hunits, -⟩ := units_plain m.plain
  have hkey : QUOTE :: (m.key.bytes ++ [QUOTE]) ∈ string := mem_string_iff.mpr ⟨_, _, rfl, hunits⟩
  refine ⟨(⟨.string, some (QUOTE :: (m.key.bytes ++ [QUOTE]) ++ ([] ++ COLON :: (m.text ++ r))), _⟩, tree),
    ⟨[], nil_mem_ws, _, hkey, [], nil_mem_ws, m.text, ?_, ?_, rfl⟩, fun key => named_iff, hmeans⟩
  · simp [member_t.written]
  · exact ⟨[], nil_mem_ws, m.text, [], nil_mem_ws, by simp, hnode⟩

/-- So do all the members of an object, in order. -/
theorem sepAt_members (hne : ms ≠ []) (h : ∀ m ∈ ms, Writes depth m.text m.means) (r : ptr_t) :
    ∃ children, SepAt (MemberAt (Node depth)) COMMA children (joined COMMA (ms.map member_t.written)) r ∧
      List.Forall₂ Reads ms children := by
  induction ms with
  | nil => exact absurd rfl hne
  | cons m ms ih =>
    cases ms with
    | nil =>
      obtain ⟨child, hat, hreads⟩ := memberAt_of_writes (h m mem_cons_self) r
      exact ⟨[child], .one hat, .cons hreads .nil⟩
    | cons m' ms =>
      obtain ⟨children, hrest, hreads⟩ := ih (cons_ne_nil _ _) fun x hx => h x (mem_cons_of_mem _ hx)
      obtain ⟨child, hat, hread⟩ := memberAt_of_writes (h m mem_cons_self)
        (COMMA :: (joined COMMA ((m' :: ms).map member_t.written) ++ r))
      exact ⟨child :: children, .cons hat hrest, .cons hread hreads⟩

/-- What `json_get` finds in an object that was written with these members: the
    first one of the name. -/
def IsObject (ms : List member_t) (v : json_value_t) : Prop :=
  v.type = .object ∧ ∀ key : cstr_t,
    match ms.find? (fun m => m.key = key) with
    | some m => ∃ val, json_get (some v) (some key) = (JSON_OK, val) ∧ m.means val
    | none => json_get (some v) (some key) = (JSON_ENOENT, no_value)

/-- The first member with the key is found, with its meaning. -/
theorem IsObject.get {v} (h : IsObject ms v) (hfind : ms.find? (fun m => m.key = key) = some m) :
    ∃ val, json_get (some v) (some key) = (JSON_OK, val) ∧ m.means val := by
  have hget := h.2 key
  rw [hfind] at hget
  exact hget

/-- Before the child of the first member with the key none has that name. -/
theorem first_reads {children} (h : List.Forall₂ Reads ms children)
    (hfind : ms.find? (fun m => m.key = key) = some m) :
    ∃ before child after, children = before ++ child :: after ∧ Reads m child ∧
      ∀ c ∈ before, ¬ Named c.1 key := by
  induction h with
  | nil => cases hfind
  | @cons m' child ms children hread hrest ih =>
    rw [find?_cons] at hfind
    split at hfind
    · cases hfind
      exact ⟨[], child, children, rfl, hread, forall_mem_nil _⟩
    · rename_i hkey
      obtain ⟨before, c, after, rfl, hc, hbefore⟩ := ih hfind
      refine ⟨child :: before, c, after, rfl, hc, forall_mem_cons.mpr ⟨?_, hbefore⟩⟩
      rw [hread.1]
      exact of_decide_eq_false hkey

theorem none_reads {children} (h : List.Forall₂ Reads ms children) (hfind : ms.find? (fun m => m.key = key) = none) :
    ∀ c ∈ children, ¬ Named c.1 key := by
  induction h with
  | nil => exact forall_mem_nil _
  | @cons m child ms children hread hrest ih =>
    rw [find?_cons] at hfind
    split at hfind
    · cases hfind
    · rename_i hkey
      refine forall_mem_cons.mpr ⟨?_, ih hfind⟩
      rw [hread.1]
      exact of_decide_eq_false hkey

def object_text (ms : List member_t) : List UInt8 :=
  OPEN_BRACE :: (joined COMMA (ms.map member_t.written) ++ [CLOSE_BRACE])

/-- Members that are each written well make an object. -/
theorem writes_object (hne : ms ≠ []) (h : ∀ m ∈ ms, Writes depth m.text m.means)
    (hdepth : depth + 1 ≤ JSON_MAX_DEPTH) : Writes (depth + 1) (object_text ms) (IsObject ms) := by
  intro r
  obtain ⟨children, hsep, hreads⟩ := sepAt_members hne h (CLOSE_BRACE :: r)
  have hnode : Node (depth + 1) (.node ⟨.object, some (object_text ms ++ r), (object_text ms).length⟩ children)
      (object_text ms) r := ⟨.object, rfl, .object hsep⟩
  have hagrees := hnode.agrees hdepth
  refine ⟨_, hnode, rfl, fun key => ?_⟩
  cases hfind : ms.find? (fun m => m.key = key) with
  | none => exact hagrees.get_none rfl key (none_reads hreads hfind)
  | some m =>
    obtain ⟨before, child, after, hchildren, hread, hbefore⟩ := first_reads hreads hfind
    have hkey : m.key = key := by simpa using find?_some hfind
    have hnamed : Named child.1 key := (hread.1 key).mpr hkey
    exact ⟨_, hagrees.get_first rfl key before child after hchildren hnamed hbefore, hread.2⟩

theorem sepAt_items {items} (hne : items ≠ []) (h : ∀ a ∈ items, Writes depth a.text a.means) (r : ptr_t) :
    ∃ trees, SepAt (ElementAt (Node depth)) COMMA trees (joined COMMA (items.map item_t.text)) r ∧
      List.Forall₂ (fun a tree => a.means tree.value) items trees := by
  have helement (a : item_t) (ha : Writes depth a.text a.means) (r : ptr_t) :
      ∃ tree, ElementAt (Node depth) tree a.text r ∧ a.means tree.value := by
    obtain ⟨tree, hnode, hmeans⟩ := ha r
    exact ⟨tree, ⟨[], nil_mem_ws, a.text, [], nil_mem_ws, by simp, hnode⟩, hmeans⟩
  induction items with
  | nil => exact absurd rfl hne
  | cons a items ih =>
    cases items with
    | nil =>
      obtain ⟨tree, hat, hmeans⟩ := helement a (h a mem_cons_self) r
      exact ⟨[tree], .one hat, .cons hmeans .nil⟩
    | cons b items =>
      obtain ⟨trees, hrest, hmeans⟩ := ih (cons_ne_nil _ _) fun x hx => h x (mem_cons_of_mem _ hx)
      obtain ⟨tree, hat, hsay⟩ := helement a (h a mem_cons_self)
        (COMMA :: (joined COMMA ((b :: items).map item_t.text) ++ r))
      exact ⟨tree :: trees, .cons hat hrest, .cons hsay hmeans⟩

/-- What `json_count` and `json_at` find in an array that was written with these
    elements. -/
def IsArray (items : List item_t) (v : json_value_t) : Prop :=
  v.type = .array ∧ json_count (some v) = items.length ∧ ∀ i a, items[i]? = some a →
    ∃ val, json_at (some v) i = (JSON_OK, val) ∧ a.means val

def array_text (items : List item_t) : List UInt8 :=
  OPEN_BRACKET :: (joined COMMA (items.map item_t.text) ++ [CLOSE_BRACKET])

/-- Elements that are each written well make an array. -/
theorem writes_array {items} (h : ∀ a ∈ items, Writes depth a.text a.means) (hdepth : depth + 1 ≤ JSON_MAX_DEPTH) :
    Writes (depth + 1) (array_text items) (IsArray items) := by
  intro r
  have hroot {trees : List tree_t} (hmeans : List.Forall₂ (fun a tree => a.means tree.value) items trees)
      (hinside : Inside (Node depth) .array (trees.map (no_value, ·)) (array_text items) r) :
      ∃ tree, Node (depth + 1) tree (array_text items) r ∧ IsArray items tree.value := by
    have hnode : Node (depth + 1)
        (.node ⟨.array, some (array_text items ++ r), (array_text items).length⟩ (trees.map (no_value, ·)))
        (array_text items) r := ⟨.array, rfl, hinside⟩
    have hagrees := hnode.agrees hdepth
    refine ⟨_, hnode, rfl, ?_, fun i a ha => ?_⟩
    · rw [hagrees.count, hmeans.length_eq]
      exact length_map _
    · obtain ⟨hi, rfl⟩ := List.getElem?_eq_some_iff.mp ha
      have hi' : i < trees.length := hmeans.length_eq ▸ hi
      refine ⟨trees[i].value, ?_, hmeans.get hi hi'⟩
      rw [hagrees.element rfl i]
      have hchild : (trees.map (fun tree => (no_value, tree)))[i]? = some (no_value, trees[i]) := by
        rw [getElem?_map, getElem?_eq_getElem hi']
        rfl
      simp only [tree_t.children, hchild]
  by_cases hne : items = []
  · subst hne
    exact hroot .nil (@Inside.empty_array (Node depth) [] r nil_mem_ws)
  · obtain ⟨trees, hsep, hmeans⟩ := sepAt_items hne h (CLOSE_BRACKET :: r)
    exact hroot hmeans (.array hsep)

end Containers

end fable.json
