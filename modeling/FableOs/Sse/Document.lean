import FableOs.Json.Compose
import FableOs.Json.Found
import FableOs.Sse.Msg

namespace fable.sse

open fable.json List

/-! The Messages response that the reassembly layer is meant to leave behind,
and what a reader accepts of one that is only begun. -/

/-- A content block of the response. It stands at the third level of it. -/
abbrev BLOCK_DEPTH : Nat := 30

/-- The input of a tool stands one level further in. -/
abbrev INPUT_DEPTH : Nat := 29

def K_CONTENT : cstr_t := ⟨ascii ['c', 'o', 'n', 't', 'e', 'n', 't'], by decide⟩

def K_INPUT : cstr_t := ⟨ascii ['i', 'n', 'p', 'u', 't'], by decide⟩

def K_STOP_SEQUENCE : cstr_t :=
  ⟨ascii ['s', 't', 'o', 'p', '_', 's', 'e', 'q', 'u', 'e', 'n', 'c', 'e'], by decide⟩

def quoted (s : cstr_t) : List UInt8 := QUOTE :: (s.bytes ++ [QUOTE])

/-- Everything up to the bracket that the content begins with. -/
def head (id role model : List UInt8) : List UInt8 :=
  ID_OPEN.bytes ++ (id ++ (ROLE_OPEN.bytes ++ (role ++ (MODEL_OPEN.bytes ++ (model ++ CONTENT_OPEN.bytes)))))

/-- The blocks, with commas between them. -/
def content (blocks : List (List UInt8)) : List UInt8 := [COMMA].intercalate blocks

/-- Everything from the bracket that the content ends with. -/
def tail (stop : List UInt8) : List UInt8 := STOP_OPEN.bytes ++ (stop ++ TAIL.bytes)

def text_block (body : List UInt8) : List UInt8 := TEXT_OPEN.bytes ++ (body ++ QUOTE_BRACE.bytes)

/-- A tool block up to its input. -/
def tool_head (id name : List UInt8) : List UInt8 :=
  TOOL_OPEN.bytes ++ (id ++ (NAME_OPEN.bytes ++ (name ++ INPUT_OPEN.bytes)))

def tool_block (id name input : List UInt8) : List UInt8 := tool_head id name ++ (input ++ [CLOSE_BRACE])

/-- `{"id":…,"type":"message","role":…,"model":…,"content":[…],"stop_reason":…,"stop_sequence":null}`:
    three strings, objects, and a string or `null`. -/
def MessageText (text : List UInt8) : Prop :=
  ∃ id ∈ string, ∃ role ∈ string, ∃ model ∈ string, ∃ blocks stop, (∀ b ∈ blocks, ∃ depth, Value depth .object b) ∧
    (stop ∈ string ∨ stop = NULL) ∧ text = head id role model ++ (content blocks ++ tail stop)

/-- The three strings of the head. -/
structure Head (id role model : List UInt8) : Prop where
  id_mem : id ∈ string
  role_mem : role ∈ string
  model_mem : model ∈ string

def GoodBlocks (bs : List (List UInt8)) : Prop := ∀ b ∈ bs, Value BLOCK_DEPTH .object b

theorem mem_string_of_scan {s} (h : scan_string s = .ok []) : s ∈ string := by
  obtain ⟨v, hv, heq⟩ := scan_string_sound _ _ h
  rw [heq, append_nil]
  exact hv

section Members

variable {id role model name body input stop : List UInt8}
variable {b : List UInt8} {bs : List (List UInt8)}

def head_members (id role model : List UInt8) : List (List UInt8) :=
  [member_text (quoted K_ID) id, member_text (quoted K_TYPE) (quoted K_MESSAGE), member_text (quoted K_ROLE) role,
    member_text (quoted K_MODEL) model]

theorem head_eq (p : List UInt8) :
    head id role model ++ p =
      OPEN_BRACE :: (led COMMA (head_members id role model) ++ member_text (quoted K_CONTENT) (OPEN_BRACKET :: p)) := by
  have hid : ID_OPEN.bytes = OPEN_BRACE :: (quoted K_ID ++ [COLON]) := by decide
  have hrole : ROLE_OPEN.bytes =
      COMMA :: (member_text (quoted K_TYPE) (quoted K_MESSAGE) ++ COMMA :: (quoted K_ROLE ++ [COLON])) := by decide
  have hmodel : MODEL_OPEN.bytes = COMMA :: (quoted K_MODEL ++ [COLON]) := by decide
  have hcontent : CONTENT_OPEN.bytes = COMMA :: (quoted K_CONTENT ++ [COLON, OPEN_BRACKET]) := by decide
  simp [head, head_members, member_text, hid, hrole, hmodel, hcontent]

theorem tail_eq :
    tail stop =
      CLOSE_BRACKET :: (COMMA :: (member_text (quoted K_STOP_REASON) stop ++
        COMMA :: (member_text (quoted K_STOP_SEQUENCE) NULL ++ [CLOSE_BRACE]))) := by
  have hstop : STOP_OPEN.bytes = CLOSE_BRACKET :: COMMA :: (quoted K_STOP_REASON ++ [COLON]) := by decide
  have htail : TAIL.bytes = COMMA :: (member_text (quoted K_STOP_SEQUENCE) NULL ++ [CLOSE_BRACE]) := by decide
  simp [tail, member_text, hstop, htail]

theorem text_block_eq :
    text_block body =
      OPEN_BRACE :: (led COMMA [member_text (quoted K_TYPE) (quoted K_TEXT)] ++
        member_text (quoted K_TEXT) (QUOTE :: (body ++ [QUOTE])) ++ [CLOSE_BRACE]) := by
  have hopen : TEXT_OPEN.bytes =
      OPEN_BRACE :: (member_text (quoted K_TYPE) (quoted K_TEXT) ++ COMMA :: (quoted K_TEXT ++ [COLON, QUOTE])) := by decide
  have hclose : QUOTE_BRACE.bytes = [QUOTE, CLOSE_BRACE] := by decide
  simp [text_block, member_text, hopen, hclose]

def tool_members (id name : List UInt8) : List (List UInt8) :=
  [member_text (quoted K_TYPE) (quoted K_TOOL_USE), member_text (quoted K_ID) id, member_text (quoted K_NAME) name]

theorem tool_head_eq (p : List UInt8) :
    tool_head id name ++ p = OPEN_BRACE :: (led COMMA (tool_members id name) ++ member_text (quoted K_INPUT) p) := by
  have hopen : TOOL_OPEN.bytes =
      OPEN_BRACE :: (member_text (quoted K_TYPE) (quoted K_TOOL_USE) ++ COMMA :: (quoted K_ID ++ [COLON])) := by decide
  have hname : NAME_OPEN.bytes = COMMA :: (quoted K_NAME ++ [COLON]) := by decide
  have hinput : INPUT_OPEN.bytes = COMMA :: (quoted K_INPUT ++ [COLON]) := by decide
  simp [tool_head, tool_members, member_text, hopen, hname, hinput]

@[simp] theorem content_nil : content [] = [] := rfl

/-- The blocks behind the first one, with the commas between. -/
def more_blocks (bs : List (List UInt8)) : List UInt8 := bs.flatMap (COMMA :: ·)

theorem content_cons : content (b :: bs) = b ++ more_blocks bs := by
  induction bs generalizing b with
  | nil => simp [content, more_blocks, intercalate]
  | cons x bs ih =>
    have hsplit : content (b :: x :: bs) = b ++ COMMA :: content (x :: bs) := by simp [content, intercalate]
    rw [hsplit, ih]
    simp [more_blocks]

theorem content_split {cs} : content (bs ++ b :: cs) = led COMMA bs ++ (b ++ more_blocks cs) := by
  induction bs with
  | nil => exact content_cons
  | cons x bs ih =>
    have hsplit : content (x :: (bs ++ b :: cs)) = x ++ COMMA :: content (bs ++ b :: cs) := by
      cases bs <;> simp [content, intercalate]
    rw [cons_append, hsplit, ih, led_cons]
    simp

theorem content_append : content (bs ++ [b]) = led COMMA bs ++ b := by
  rw [content_split, more_blocks, flatMap_nil, append_nil]

end Members

section Build

variable {id role model name body input stop : List UInt8}
variable {depth : Nat}

theorem text_block_value {us} (hbody : Units body us) : Value BLOCK_DEPTH .object (text_block body) := by
  have hstring : QUOTE :: (body ++ [QUOTE]) ∈ string := mem_string_iff.mpr ⟨body, us, rfl, hbody⟩
  rw [text_block_eq]
  refine object_of_members ?_ (member_of_values (mem_string_of_scan (by decide)) (string_values hstring))
  intro x hx
  rw [mem_singleton] at hx
  exact ⟨_, hx ▸ member_of_values (mem_string_of_scan (by decide)) (string_values (mem_string_of_scan (by decide)))⟩

theorem tool_member (hid : id ∈ string) (hname : name ∈ string) {x} (hx : x ∈ tool_members id name) :
    ∃ k ∈ string, ∃ v ∈ values (depth + 1), x = member_text k v := by
  simp only [tool_members, mem_cons, not_mem_nil, or_false] at hx
  rcases hx with rfl | rfl | rfl
  · exact ⟨_, mem_string_of_scan (by decide), _, string_values (mem_string_of_scan (by decide)), rfl⟩
  · exact ⟨_, mem_string_of_scan (by decide), _, string_values hid, rfl⟩
  · exact ⟨_, mem_string_of_scan (by decide), _, string_values hname, rfl⟩

/-- The input of a tool block may have white space around it. -/
theorem tool_block_value {before after} (hid : id ∈ string) (hname : name ∈ string)
    (hinput : Document (depth + 1) .object before input after) :
    Value (depth + 2) .object (tool_block id name (before ++ (input ++ after))) := by
  obtain ⟨hbefore, hvalue, hafter⟩ := hinput
  have heq : tool_block id name (before ++ (input ++ after)) =
      OPEN_BRACE :: (led COMMA (tool_members id name) ++
        member_text (quoted K_INPUT) (before ++ (input ++ after)) ++ [CLOSE_BRACE]) := by
    rw [tool_block, tool_head_eq]
    simp [member_text]
  rw [heq]
  refine object_of_members ?_ (member_of_padded (mem_string_of_scan (by decide)) hbefore ⟨_, hvalue⟩ hafter)
  intro x hx
  obtain ⟨k, hk, v, hv, rfl⟩ := tool_member hid hname hx
  exact ⟨_, member_of_values hk hv⟩

theorem empty_tool_block_value (hid : id ∈ string) (hname : name ∈ string) :
    Value BLOCK_DEPTH .object (tool_head id name ++ EMPTY_INPUT.bytes) := by
  have hempty : Document INPUT_DEPTH .object [] [OPEN_BRACE, CLOSE_BRACE] [] :=
    ⟨nil_mem_ws, Production.empty_object nil_mem_ws, nil_mem_ws⟩
  exact tool_block_value hid hname hempty

theorem Head.member (hhead : Head id role model) {x} (hx : x ∈ head_members id role model) :
    ∃ k ∈ string, ∃ v ∈ values (depth + 1), x = member_text k v := by
  simp only [head_members, mem_cons, not_mem_nil, or_false] at hx
  rcases hx with rfl | rfl | rfl | rfl
  · exact ⟨_, mem_string_of_scan (by decide), _, string_values hhead.id_mem, rfl⟩
  · exact ⟨_, mem_string_of_scan (by decide), _, string_values (mem_string_of_scan (by decide)), rfl⟩
  · exact ⟨_, mem_string_of_scan (by decide), _, string_values hhead.role_mem, rfl⟩
  · exact ⟨_, mem_string_of_scan (by decide), _, string_values hhead.model_mem, rfl⟩

/-- A response whose blocks are not nested too deep is accepted, as an object. -/
theorem message_accepted {blocks} (hhead : Head id role model) (hblocks : GoodBlocks blocks)
    (hstop : stop ∈ string ∨ stop = NULL) :
    Value JSON_MAX_DEPTH .object (head id role model ++ (content blocks ++ tail stop)) := by
  have harray : OPEN_BRACKET :: (content blocks ++ [CLOSE_BRACKET]) ∈ values 31 := by
    rcases eq_nil_or_concat blocks with rfl | ⟨bs, b, rfl⟩
    · exact ⟨.array, Production.empty_array nil_mem_ws⟩
    · rw [concat_eq_append] at hblocks ⊢
      rw [content_append]
      refine ⟨.array, array_of_elements (fun x hx => ⟨_, hblocks x (mem_append_left _ hx)⟩) ⟨_, hblocks b ?_⟩⟩
      exact mem_append_right _ (mem_singleton_self b)
  have hstop' : stop ∈ values 31 := by
    rcases hstop with h | rfl
    · exact string_values h
    · exact null_values
  have heq : head id role model ++ (content blocks ++ tail stop) =
      OPEN_BRACE :: (led COMMA (head_members id role model ++
          [member_text (quoted K_CONTENT) (OPEN_BRACKET :: (content blocks ++ [CLOSE_BRACKET])),
            member_text (quoted K_STOP_REASON) stop]) ++
        member_text (quoted K_STOP_SEQUENCE) NULL ++ [CLOSE_BRACE]) := by
    rw [head_eq, tail_eq]
    simp [member_text]
  rw [heq]
  refine object_of_members ?_ (member_of_values (mem_string_of_scan (by decide)) null_values)
  intro x hx
  rcases mem_append.mp hx with hx | hx
  · obtain ⟨k, hk, v, hv, rfl⟩ := hhead.member hx
    exact ⟨_, member_of_values hk hv⟩
  · simp only [mem_cons, not_mem_nil, or_false] at hx
    rcases hx with rfl | rfl
    · exact ⟨_, member_of_values (mem_string_of_scan (by decide)) harray⟩
    · exact ⟨_, member_of_values (mem_string_of_scan (by decide)) hstop'⟩

end Build

/-- No document begins like this. -/
def Rejected (p : List UInt8) : Prop := ∀ more, (json_parse (some (p ++ more))).1 ≠ JSON_OK

section Rejected

variable {id role model : List UInt8} {blocks : List (List UInt8)}
variable {p : List UInt8}

theorem Rejected.append (h : Rejected p) (more : List UInt8) : Rejected (p ++ more) := by
  intro more'
  rw [append_assoc]
  exact h (more ++ more')

/-- In a document that is accepted, the reader gets to every block that follows
    good ones, with the levels that are left for it. -/
theorem block_reached (hhead : Head id role model) (hblocks : GoodBlocks blocks)
    (h : (json_parse (some (head id role model ++ (led COMMA blocks ++ OPEN_BRACE :: p)))).1 = JSON_OK) :
    ∃ fuel q, scan_items (value_end BLOCK_DEPTH) CLOSE_BRACKET fuel (OPEN_BRACE :: p) = .ok q := by
  obtain ⟨q, hq⟩ := value_end_of_json_parse h
  rw [head_eq] at hq
  have hmembers := members_of_value_end hq
  obtain ⟨fuel, hitems⟩ := items_of_container (c := QUOTE) rfl (by decide) hmembers
  have hbefore : ∀ t ∈ head_members id role model, ∀ r,
      scan_member (value_end 31) (t ++ COMMA :: r) = .ok (COMMA :: r) := by
    intro t ht r
    obtain ⟨k, hk, v, hv, rfl⟩ := hhead.member ht
    exact member_before_comma hk hv r
  obtain ⟨fuel, hitems⟩ := items_behind hbefore hitems
  obtain ⟨q', hvalue⟩ := value_of_items (mem_string_of_scan (by decide)) hitems
  have helements := elements_of_value_end hvalue
  obtain ⟨rest, hrest⟩ : ∃ rest, led COMMA blocks ++ OPEN_BRACE :: p = OPEN_BRACE :: rest := by
    cases blocks with
    | nil => exact ⟨p, rfl⟩
    | cons b bs =>
      obtain ⟨rest, rfl⟩ := object_head (hblocks b mem_cons_self)
      exact ⟨_, rfl⟩
  rw [hrest] at helements
  obtain ⟨fuel, hitems⟩ := items_of_container rfl (by decide) helements
  rw [← hrest] at hitems
  obtain ⟨fuel, hitems⟩ := items_behind (fun t ht => element_before_comma ⟨_, hblocks t ht⟩) hitems
  exact ⟨fuel, q', hitems⟩

theorem rejected_deep_block {b} {depth : Nat} (hhead : Head id role model) (hblocks : GoodBlocks blocks)
    (hb : Value depth .object b) (hdeep : ¬ Value BLOCK_DEPTH .object b) :
    Rejected (head id role model ++ (led COMMA blocks ++ b)) := by
  intro more hok
  obtain ⟨rest, hrest⟩ := object_head hb
  have hshape : head id role model ++ (led COMMA blocks ++ b) ++ more =
      head id role model ++ (led COMMA blocks ++ OPEN_BRACE :: (rest ++ more)) := by
    rw [hrest]
    simp
  rw [hshape] at hok
  obtain ⟨fuel, q, hitems⟩ := block_reached hhead hblocks hok
  obtain ⟨q', hitem⟩ := item_of_items hitems
  rw [← cons_append, ← hrest] at hitem
  exact hdeep (object_of_accepted (w := []) nil_mem_ws hb hitem)

/-- The reader gets to the input of a tool block, with the levels that are left
    for it. -/
theorem input_reached {tool name} {q : ptr_t} (htool : tool ∈ string) (hname : name ∈ string)
    (h : value_end BLOCK_DEPTH (tool_head tool name ++ p) = .ok q) : ∃ q', value_end INPUT_DEPTH p = .ok q' := by
  rw [tool_head_eq] at h
  have hmembers := members_of_value_end h
  obtain ⟨fuel, hitems⟩ := items_of_container (c := QUOTE) rfl (by decide) hmembers
  have hbehind : ∀ t ∈ tool_members tool name, ∀ r,
      scan_member (value_end INPUT_DEPTH) (t ++ COMMA :: r) = .ok (COMMA :: r) := by
    intro t ht r
    obtain ⟨k, hk, v, hv, rfl⟩ := tool_member htool hname ht
    exact member_before_comma hk hv r
  obtain ⟨fuel, hitems⟩ := items_behind hbehind hitems
  exact value_of_items (mem_string_of_scan (by decide)) hitems

theorem rejected_deep_input {tool name before input} {depth : Nat} (hhead : Head id role model)
    (hblocks : GoodBlocks blocks) (htool : tool ∈ string) (hname : name ∈ string) (hbefore : before ∈ ws)
    (hinput : Value depth .object input) (hdeep : ¬ Value INPUT_DEPTH .object input) (after : List UInt8) :
    Rejected (head id role model ++ (led COMMA blocks ++ (tool_head tool name ++ (before ++ (input ++ after))))) := by
  intro more hok
  have hshape : head id role model ++ (led COMMA blocks ++ (tool_head tool name ++ (before ++ (input ++ after)))) ++ more =
      head id role model ++ (led COMMA blocks ++
        (tool_head tool name ++ (before ++ (input ++ (after ++ more))))) := by
    simp
  rw [hshape, tool_head_eq] at hok
  obtain ⟨fuel, q, hitems⟩ := block_reached hhead hblocks hok
  obtain ⟨q', hitem⟩ := item_of_items hitems
  rw [← tool_head_eq] at hitem
  obtain ⟨q'', hvalue⟩ := input_reached htool hname hitem
  exact hdeep (object_of_accepted hbefore hinput hvalue)

theorem rejected_missing_comma {b rest} (hhead : Head id role model) (hblocks : GoodBlocks blocks)
    (hb : Value BLOCK_DEPTH .object b) :
    Rejected (head id role model ++ (led COMMA blocks ++ (b ++ OPEN_BRACE :: rest))) := by
  intro more hok
  obtain ⟨t, ht⟩ := object_head hb
  have hshape : head id role model ++ (led COMMA blocks ++ (b ++ OPEN_BRACE :: rest)) ++ more =
      head id role model ++ (led COMMA blocks ++ OPEN_BRACE :: (t ++ OPEN_BRACE :: (rest ++ more))) := by
    rw [ht]
    simp
  rw [hshape] at hok
  obtain ⟨fuel, q, hitems⟩ := block_reached hhead hblocks hok
  rw [← cons_append, ← ht] at hitems
  cases fuel with
  | zero => cases hitems
  | succ fuel =>
    have hend : value_end BLOCK_DEPTH (b ++ OPEN_BRACE :: (rest ++ more)) = .ok (OPEN_BRACE :: (rest ++ more)) :=
      value_end_object nil_mem_ws hb _
    rw [scan_items_step hend rfl, if_neg (by decide), if_neg (by decide)] at hitems
    cases hitems

end Rejected

end fable.sse
