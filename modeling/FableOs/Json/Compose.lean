import FableOs.Json.Correct

namespace fable.json

open Scanner List Language

/-! Values that are put together from texts: a text made of values is a value,
and what is accepted behind such a text is accepted at the levels left there. -/

section Build

variable {depth : Nat} {k v w w' : List UInt8}

/-- `"name":value` -/
def member_text (k v : List UInt8) : List UInt8 := k ++ COLON :: v

theorem nil_mem_ws : [] ∈ ws := forall_mem_nil _

theorem element_of_values (hv : v ∈ values depth) : v ∈ element (values depth) v :=
  mem_mul.mpr ⟨[], nil_mem_ws, v, mem_mul.mpr ⟨v, ⟨rfl, hv⟩, [], nil_mem_ws, append_nil v⟩, rfl⟩

theorem member_of_padded (hk : k ∈ string) (hw : w ∈ ws) (hv : v ∈ values depth) (hw' : w' ∈ ws) :
    member_text k (w ++ (v ++ w')) ∈ member (values depth) (k, v) := by
  have helement : w ++ (v ++ w') ∈ element (values depth) v :=
    mem_mul.mpr ⟨w, hw, _, mem_mul.mpr ⟨v, ⟨rfl, hv⟩, w', hw', rfl⟩, rfl⟩
  have hcolon : COLON :: (w ++ (v ++ w')) ∈ ws * (word [0x3A] * element (values depth) v) :=
    mem_mul.mpr ⟨[], nil_mem_ws, _, mem_mul.mpr ⟨_, rfl, _, helement, rfl⟩, rfl⟩
  exact mem_mul.mpr ⟨[], nil_mem_ws, _, mem_mul.mpr ⟨k, ⟨rfl, hk⟩, _, hcolon, rfl⟩, rfl⟩

theorem member_of_values (hk : k ∈ string) (hv : v ∈ values depth) :
    member_text k v ∈ member (values depth) (k, v) := by
  have hmember := member_of_padded hk nil_mem_ws hv nil_mem_ws
  rwa [append_nil, nil_append] at hmember

/-- Members with commas between them make an object. -/
theorem object_of_members {ts t} (hts : ∀ x ∈ ts, ∃ kv, x ∈ member (values depth) kv) {kv}
    (ht : t ∈ member (values depth) kv) :
    Value (depth + 1) .object (OPEN_BRACE :: (led COMMA ts ++ t ++ [CLOSE_BRACE])) := by
  obtain ⟨as, hsep⟩ := @sepBy_led _ _ _ COMMA _ _ hts _ ht
  exact Production.object hsep

/-- Elements with commas between them make an array. -/
theorem array_of_elements {ts t} (hts : ∀ x ∈ ts, x ∈ values depth) (ht : t ∈ values depth) :
    Value (depth + 1) .array (OPEN_BRACKET :: (led COMMA ts ++ t ++ [CLOSE_BRACKET])) := by
  obtain ⟨as, hsep⟩ := @sepBy_led _ _ _ COMMA _ _ (fun x hx => ⟨x, element_of_values (hts x hx)⟩) _ (element_of_values ht)
  exact Production.array hsep

theorem string_values (hk : k ∈ string) : k ∈ values (depth + 1) := ⟨.string, Production.string hk⟩

theorem null_values : NULL ∈ values (depth + 1) := ⟨.null, Production.literal_null⟩

end Build

section Objects

variable {depth depth' : Nat} {v w : List UInt8} {r : ptr_t}

theorem value_end_complete : Complete (value_end depth) (ws * values depth) (Clear is_number_char) := by
  intro x r hx hr
  obtain ⟨w, hw, v, ⟨type, hv⟩, rfl⟩ := mem_mul.mp hx
  rw [append_assoc, value_end, scan_value_within_complete hw hv hr]
  rfl

/-- An object ends at its bracket, whatever follows. -/
theorem value_end_object (hw : w ∈ ws) (hv : Value depth .object v) (r : ptr_t) :
    value_end depth (w ++ (v ++ r)) = .ok r := by
  cases depth with
  | zero => exact hv.elim
  | succ depth =>
    have hbody : ∃ t, v = OPEN_BRACE :: (t ++ [CLOSE_BRACE]) ∧
        scan_container (scan_member (value_end depth)) CLOSE_BRACE (t ++ CLOSE_BRACE :: r) = .ok r := by
      cases hv with
      | @empty_object t h => exact ⟨t, rfl, scan_container_empty (by decide) h r⟩
      | @object items t h => exact ⟨t, rfl, scan_object_complete value_end_complete h r⟩
    obtain ⟨t, rfl, hscan⟩ := hbody
    have hskip : skip_ws (w ++ (OPEN_BRACE :: (t ++ [CLOSE_BRACE]) ++ r)) = OPEN_BRACE :: (t ++ CLOSE_BRACE :: r) := by
      rw [cons_append, append_assoc, singleton_append]
      exact skip_ws_append hw (clear_cons.mpr rfl)
    have hswitch : scan_body (value_end depth) OPEN_BRACE (t ++ CLOSE_BRACE :: r) = .ok (.object, r) := by
      rw [scan_body, if_neg (by decide), if_pos rfl, hscan]
      rfl
    rw [value_end, scan_value_within, hskip]
    simp only [hswitch]
    rfl

theorem object_head (hv : Value depth .object v) : ∃ rest, v = OPEN_BRACE :: rest := by
  cases depth with
  | zero => exact hv.elim
  | succ depth =>
    cases hv with
    | empty_object h | object h => exact ⟨_, rfl⟩

theorem type_of_head {type rest} (hv : Value depth type (OPEN_BRACE :: rest)) : type = .object := by
  cases depth with
  | zero => exact hv.elim
  | succ depth =>
    generalize hx : OPEN_BRACE :: rest = x at hv
    cases hv with
    | empty_object h | object h => rfl
    | number h =>
      obtain ⟨c, rest', rfl, hc⟩ := number_head h
      obtain ⟨rfl, -⟩ := cons.inj hx
      rcases hc with hc | hc <;> cases hc
    | string h =>
      obtain ⟨rest', rfl⟩ := string_head h
      cases (cons.inj hx).1
    | literal_null | literal_true | literal_false | empty_array h | array h => cases (cons.inj hx).1

/-- An object that is accepted with fewer levels left is nested less deep. -/
theorem object_of_accepted (hw : w ∈ ws) (hv : Value depth .object v) {q : ptr_t}
    (hrun : value_end depth' (w ++ (v ++ r)) = .ok q) : Value depth' .object v := by
  obtain ⟨out, hscan⟩ := value_end_eq_ok hrun
  obtain ⟨w', hw', v', type, hv', heq, -⟩ := scan_value_within_sound _ _ _ hscan
  -- both begin at the first byte that is not white space
  have hclear (x rest : List UInt8) (c : UInt8) (hx : x = c :: rest) (hc : is_ws c = false) (r : ptr_t) :
      Clear is_ws (x ++ r) := by
    rw [hx]
    exact clear_cons.mpr hc
  obtain ⟨rest, hrest⟩ := object_head hv
  obtain ⟨c, rest', hrest', hc, -⟩ := values_head ⟨type, hv'⟩
  have hsame : v ++ r = v' ++ q := by
    have hskip := congrArg skip_ws heq
    rwa [skip_ws_append hw (hclear _ _ _ hrest (by decide) r), skip_ws_append hw' (hclear _ _ _ hrest' hc q)] at hskip
  have htype : type = .object := by
    subst hrest hrest'
    obtain ⟨rfl, -⟩ := cons.inj hsame
    exact type_of_head hv'
  subst htype
  -- and each ends where the scan with enough levels for both ends
  have hend := value_end_object nil_mem_ws (hv.mono (Nat.le_max_left depth depth')) r
  have hend' := value_end_object nil_mem_ws (hv'.mono (Nat.le_max_right depth depth')) q
  rw [nil_append] at hend hend'
  rw [hsame, hend'] at hend
  cases hend
  rw [append_cancel_right hsame]
  exact hv'

end Objects

section Accepted

variable {depth fuel : Nat} {item val : Scanner Int UInt8} {close : UInt8} {p q : ptr_t}

theorem value_end_of_json_parse (h : (json_parse (some p)).1 = JSON_OK) : ∃ q, value_end JSON_MAX_DEPTH p = .ok q := by
  cases hscan : scan_value p 1 with
  | error e =>
    simp only [json_parse, hscan] at h
    subst h
    rcases scan_value_within_coded hscan with hcode | hcode <;> cases hcode
  | ok res =>
    have hrun : scan_value_within JSON_MAX_DEPTH p = .ok res := hscan
    refine ⟨res.2, ?_⟩
    rw [value_end, hrun]
    rfl

theorem body_of_value_end {c} (hc : is_ws c = false) (h : value_end (depth + 1) (c :: p) = .ok q) :
    ∃ type, scan_body (value_end depth) c p = .ok (type, q) := by
  have hskip : skip_ws (c :: p) = c :: p := dropWhile_of_clear (clear_cons.mpr hc)
  rw [value_end, scan_value_within, hskip] at h
  simp only at h
  cases hbody : scan_body (value_end depth) c p with
  | error e =>
    rw [hbody] at h
    cases h
  | ok res =>
    rw [hbody] at h
    exact ⟨res.1, congrArg Except.ok (Prod.ext rfl (Except.ok.inj h))⟩

theorem members_of_value_end (h : value_end (depth + 1) (OPEN_BRACE :: p) = .ok q) :
    scan_container (scan_member (value_end depth)) CLOSE_BRACE p = .ok q := by
  obtain ⟨type, hbody⟩ := body_of_value_end (by decide) h
  rw [scan_body, if_neg (by decide), if_pos rfl] at hbody
  exact (map_tag_eq_ok hbody).2

theorem elements_of_value_end (h : value_end (depth + 1) (OPEN_BRACKET :: p) = .ok q) :
    scan_container (value_end depth) CLOSE_BRACKET p = .ok q := by
  obtain ⟨type, hbody⟩ := body_of_value_end (by decide) h
  rw [scan_body, if_neg (by decide), if_neg (by decide), if_pos rfl] at hbody
  exact (map_tag_eq_ok hbody).2

theorem items_of_container {c} (hws : is_ws c = false) (hc : c ≠ close)
    (h : scan_container item close (c :: p) = .ok q) : ∃ fuel, scan_items item close fuel (c :: p) = .ok q := by
  have hskip : skip_ws (c :: p) = c :: p := dropWhile_of_clear (clear_cons.mpr hws)
  simp only [scan_container, hskip, if_neg hc] at h
  exact ⟨_, h⟩

theorem item_of_items (h : scan_items item close fuel p = .ok q) : ∃ q', item p = .ok q' := by
  cases fuel with
  | zero => cases h
  | succ fuel =>
    cases hp : item p with
    | error e =>
      rw [scan_items, hp] at h
      cases h
    | ok q' => exact ⟨q', rfl⟩

/-- Behind items that are taken, the rest is scanned as items. -/
theorem items_behind {ts} (hitem : ∀ t ∈ ts, ∀ r, item (t ++ COMMA :: r) = .ok (COMMA :: r))
    (h : scan_items item close fuel (led COMMA ts ++ p) = .ok q) : ∃ fuel, scan_items item close fuel p = .ok q := by
  induction ts generalizing fuel with
  | nil => exact ⟨fuel, h⟩
  | cons t ts ih =>
    cases fuel with
    | zero => cases h
    | succ fuel =>
      have hskip : skip_ws (COMMA :: (led COMMA ts ++ p)) = COMMA :: (led COMMA ts ++ p) := rfl
      rw [led_cons, append_assoc, cons_append,
        scan_items_step (hitem t mem_cons_self _) hskip, if_pos rfl] at h
      exact ih (fun x hx => hitem x (mem_cons_of_mem t hx)) h

theorem value_of_items {k} (hk : k ∈ string) (h : scan_items (scan_member val) close fuel (member_text k p) = .ok q) :
    ∃ q', val p = .ok q' := by
  obtain ⟨q', hmember⟩ := item_of_items h
  obtain ⟨rest, hrest⟩ := string_head hk
  have hfirst : skip_ws (member_text k p) = member_text k p := by
    rw [member_text, hrest]
    exact dropWhile_of_clear (clear_cons.mpr (by decide))
  have hcolon : skip_ws (COLON :: p) = COLON :: p := rfl
  rw [scan_member, hfirst, member_text, scan_string_complete _ _ hk trivial, ok_bind, hcolon] at hmember
  exact ⟨q', hmember⟩

theorem element_before_comma {v} (hv : v ∈ values depth) (r : ptr_t) :
    value_end depth (v ++ COMMA :: r) = .ok (COMMA :: r) :=
  value_end_complete _ _ (mem_mul.mpr ⟨[], nil_mem_ws, v, hv, rfl⟩) (clear_cons.mpr (by decide))

theorem member_before_comma {k v} (hk : k ∈ string) (hv : v ∈ values depth) (r : ptr_t) :
    scan_member (value_end depth) (member_text k v ++ COMMA :: r) = .ok (COMMA :: r) := by
  have hlead : member_text k v ∈ lead_member (values depth) (k, v) :=
    mem_lead_member.mpr ⟨[], nil_mem_ws, hk, [], nil_mem_ws, v, mem_lead_element.mpr ⟨[], nil_mem_ws, hv, rfl⟩, rfl⟩
  exact scan_member_complete value_end_complete (k, v) _ _ hlead (clear_cons.mpr (by decide))

end Accepted

end fable.json
