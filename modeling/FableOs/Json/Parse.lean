import FableOs.Json.Values

namespace fable.json

open Scanner List Language

/-- An element of an array, up to its last byte. -/
def lead_element (value : Language UInt8) (v : List UInt8) : Language UInt8 := ws * only value v

/-- A member of an object, up to its last byte. -/
def lead_member (value : Language UInt8) (kv : List UInt8 × List UInt8) : Language UInt8 :=
  ws * (only string kv.1 * (ws * (word [0x3A] * lead_element value kv.2)))

section Items

variable {value : Language UInt8} {val : Scanner Int UInt8}
variable {v x : List UInt8} {kv : List UInt8 × List UInt8} {value' : Language UInt8}

theorem element_eq : element value = fun v => lead_element value v * ws := by
  funext v
  simp only [element, lead_element, mul_assoc]

theorem member_eq : member value = fun kv => lead_member value kv * ws := by
  funext kv
  simp only [member, lead_member, element, lead_element, mul_assoc]

theorem mem_lead_element : x ∈ lead_element value v ↔ ∃ w ∈ ws, v ∈ value ∧ x = w ++ v := by
  simp only [lead_element, mem_mul, mem_only]
  constructor
  · rintro ⟨w, hw, _, ⟨rfl, hv⟩, rfl⟩
    exact ⟨w, hw, hv, rfl⟩
  · rintro ⟨w, hw, hv, rfl⟩
    exact ⟨w, hw, v, ⟨rfl, hv⟩, rfl⟩

theorem mem_lead_member :
    x ∈ lead_member value kv ↔ ∃ w ∈ ws, kv.1 ∈ string ∧ ∃ w' ∈ ws, ∃ t ∈ lead_element value kv.2,
      x = w ++ (kv.1 ++ (w' ++ COLON :: t)) := by
  simp only [lead_member, mem_mul, mem_only, mem_word]
  constructor
  · rintro ⟨w, hw, _, ⟨_, ⟨rfl, hk⟩, _, ⟨w', hw', _, ⟨_, rfl, t, ht, rfl⟩, rfl⟩, rfl⟩, rfl⟩
    exact ⟨w, hw, hk, w', hw', t, ht, rfl⟩
  · rintro ⟨w, hw, hk, w', hw', t, ht, rfl⟩
    exact ⟨w, hw, _, ⟨_, ⟨rfl, hk⟩, _, ⟨w', hw', _, ⟨_, rfl, t, ht, rfl⟩, rfl⟩, rfl⟩, rfl⟩

theorem string_head {k} (hk : k ∈ string) : ∃ rest, k = QUOTE :: rest := by
  obtain ⟨_, rfl, rest, -, rfl⟩ := mem_mul.mp hk
  exact ⟨rest, rfl⟩

theorem number_head (hv : v ∈ number) : ∃ c rest, v = c :: rest ∧ (c = MINUS ∨ is_digit c = true) := by
  obtain ⟨sign, hsign, x, hx, rfl⟩ := mem_mul.mp hv
  rcases hsign with rfl | rfl
  · exact ⟨_, x, rfl, Or.inl rfl⟩
  · obtain ⟨c, rest, rfl, hc⟩ := unsigned_head hx
    exact ⟨c, rest, rfl, Or.inr hc⟩

/-- The first byte of a value is neither white space nor a closing bracket. -/
theorem Production.head {type} (h : Production value type v) :
    ∃ c rest, v = c :: rest ∧ is_ws c = false ∧ c ≠ CLOSE_BRACKET := by
  cases h with
  | literal_null | literal_true | literal_false => exact ⟨_, _, rfl, by decide, by decide⟩
  | number h =>
    obtain ⟨c, rest, rfl, hc | hc⟩ := number_head h
    · subst hc
      exact ⟨_, _, rfl, by decide, by decide⟩
    · refine ⟨c, rest, rfl, ?_, ?_⟩
      · by_contra hws
        rw [Bool.not_eq_false, is_ws_iff] at hws
        rcases hws with rfl | rfl | rfl | rfl <;> cases hc
      · rintro rfl
        cases hc
  | string h =>
    obtain ⟨rest, rfl⟩ := string_head h
    exact ⟨_, rest, rfl, by decide, by decide⟩
  | empty_array h | array h | empty_object h | object h => exact ⟨_, _, rfl, by decide, by decide⟩

theorem element_mono (hle : ∀ v ∈ value, v ∈ value') (hx : x ∈ element value v) : x ∈ element value' v := by
  obtain ⟨w, hw, _, hrest, rfl⟩ := mem_mul.mp hx
  obtain ⟨y, ⟨hy, hv⟩, w', hw', rfl⟩ := mem_mul.mp hrest
  exact mem_mul.mpr ⟨w, hw, _, mem_mul.mpr ⟨y, ⟨hy, hle v hv⟩, w', hw', rfl⟩, rfl⟩

theorem member_mono (hle : ∀ v ∈ value, v ∈ value') (hx : x ∈ member value kv) : x ∈ member value' kv := by
  obtain ⟨w, hw, _, hname, rfl⟩ := mem_mul.mp hx
  obtain ⟨k, hk, _, hcolon, rfl⟩ := mem_mul.mp hname
  obtain ⟨w', hw', _, hvalue, rfl⟩ := mem_mul.mp hcolon
  obtain ⟨c, hc, e, he, rfl⟩ := mem_mul.mp hvalue
  refine mem_mul.mpr ⟨w, hw, _, mem_mul.mpr ⟨k, hk, _, ?_, rfl⟩, rfl⟩
  exact mem_mul.mpr ⟨w', hw', _, mem_mul.mpr ⟨c, hc, e, element_mono hle he, rfl⟩, rfl⟩

theorem Production.mono (hle : ∀ v ∈ value, v ∈ value') {type} (h : Production value type v) :
    Production value' type v := by
  cases h with
  | literal_null => exact .literal_null
  | literal_true => exact .literal_true
  | literal_false => exact .literal_false
  | number h => exact .number h
  | string h => exact .string h
  | empty_array h => exact .empty_array h
  | array h => exact .array (h.mono fun _ _ => element_mono hle)
  | empty_object h => exact .empty_object h
  | object h => exact .object (h.mono fun _ _ => member_mono hle)

theorem scan_element_sound (hval : Sound val (ws * value)) (p r : ptr_t) (hrun : val p = .ok r) :
    ∃ v, ∃ x ∈ lead_element value v, p = x ++ r := by
  obtain ⟨x, hx, rfl⟩ := hval p r hrun
  obtain ⟨w, hw, v, hv, rfl⟩ := mem_mul.mp hx
  exact ⟨v, w ++ v, mem_lead_element.mpr ⟨w, hw, hv, rfl⟩, rfl⟩

theorem scan_element_complete (hval : Complete val (ws * value) (Clear is_number_char)) (v x : List UInt8) (r : ptr_t)
    (hx : x ∈ lead_element value v) (hr : Clear is_number_char r) : val (x ++ r) = .ok r := by
  obtain ⟨w, hw, hv, rfl⟩ := mem_lead_element.mp hx
  exact hval _ r (mem_mul.mpr ⟨w, hw, v, hv, rfl⟩) hr

theorem scan_member_sound (hval : Sound val (ws * value)) (p r : ptr_t) (hrun : scan_member val p = .ok r) :
    ∃ kv, ∃ x ∈ lead_member value kv, p = x ++ r := by
  obtain ⟨w, hw, hp⟩ := skip_ws_split p
  obtain ⟨q, hstring, hrun⟩ := except_bind_eq_ok_iff.mp hrun
  obtain ⟨k, hk, hkq⟩ := scan_string_sound _ q hstring
  obtain ⟨w', hw', hq⟩ := skip_ws_split q
  split at hrun
  · cases hrun
  next c rest hskip =>
  rw [hskip] at hq
  split at hrun
  · next hc =>
    obtain ⟨v, t, ht, rfl⟩ := scan_element_sound hval rest r hrun
    refine ⟨(k, v), _, mem_lead_member.mpr ⟨w, hw, hk, w', hw', t, ht, rfl⟩, ?_⟩
    rw [hp, hkq, hq, hc]
    simp only [append_assoc, cons_append]
  · cases hrun

theorem scan_member_complete (hval : Complete val (ws * value) (Clear is_number_char)) (kv : List UInt8 × List UInt8)
    (x : List UInt8) (r : ptr_t) (hx : x ∈ lead_member value kv) (hr : Clear is_number_char r) :
    scan_member val (x ++ r) = .ok r := by
  obtain ⟨w, hw, hk, w', hw', t, ht, rfl⟩ := mem_lead_member.mp hx
  obtain ⟨rest, hrest⟩ := string_head hk
  have hfirst : skip_ws (w ++ (kv.1 ++ (w' ++ COLON :: (t ++ r)))) = kv.1 ++ (w' ++ COLON :: (t ++ r)) := by
    refine skip_ws_append hw ?_
    rw [hrest, cons_append, clear_cons]
    decide
  have hcolon : skip_ws (w' ++ COLON :: (t ++ r)) = COLON :: (t ++ r) := skip_ws_append hw' (clear_cons.mpr (by decide))
  simp only [append_assoc, cons_append]
  rw [scan_member, hfirst, scan_string_complete _ _ hk trivial, ok_bind, hcolon]
  simp only [if_true]
  exact scan_element_complete hval kv.2 t r ht hr

theorem lead_element_append {w} (hw : w ∈ ws) (hx : x ∈ lead_element value v) : w ++ x ∈ lead_element value v := by
  obtain ⟨w', hw', hv, rfl⟩ := mem_lead_element.mp hx
  exact mem_lead_element.mpr ⟨w ++ w', ws_append hw hw', hv, (append_assoc w w' v).symm⟩

theorem lead_member_append {w} (hw : w ∈ ws) (hx : x ∈ lead_member value kv) : w ++ x ∈ lead_member value kv := by
  obtain ⟨w', hw', hk, w'', hw'', t, ht, rfl⟩ := mem_lead_member.mp hx
  exact mem_lead_member.mpr ⟨w ++ w', ws_append hw hw', hk, w'', hw'', t, ht, (append_assoc w w' _).symm⟩

end Items

section Values

variable {value : Language UInt8} {val : Scanner Int UInt8}
variable {r : ptr_t} {type : json_type_t} {c : UInt8}

theorem scan_array_sound (hval : Sound val (ws * value)) {p : ptr_t}
    (hrun : scan_container val CLOSE_BRACKET p = .ok r) :
    ∃ v, Production value .array v ∧ OPEN_BRACKET :: p = v ++ r := by
  rcases scan_container_sound (scan_element_sound hval) (fun _ _ _ => lead_element_append) hrun with
    ⟨w, hw, rfl⟩ | ⟨as, t, hsep, rfl⟩
  · exact ⟨_, .empty_array hw, by simp⟩
  · rw [← element_eq] at hsep
    exact ⟨_, .array hsep, by simp⟩

theorem scan_object_sound (hval : Sound val (ws * value)) {p : ptr_t}
    (hrun : scan_container (scan_member val) CLOSE_BRACE p = .ok r) :
    ∃ v, Production value .object v ∧ OPEN_BRACE :: p = v ++ r := by
  rcases scan_container_sound (scan_member_sound hval) (fun _ _ _ => lead_member_append) hrun with
    ⟨w, hw, rfl⟩ | ⟨as, t, hsep, rfl⟩
  · exact ⟨_, .empty_object hw, by simp⟩
  · rw [← member_eq] at hsep
    exact ⟨_, .object hsep, by simp⟩

theorem map_tag_eq_ok {type'} {m : Except Int ptr_t} (h : m.map (type, ·) = .ok (type', r)) :
    type' = type ∧ m = .ok r := by
  cases m with
  | error e => cases h
  | ok q =>
    cases h
    exact ⟨rfl, rfl⟩

/-- What the `switch` accepts is a value by one of the productions. -/
theorem scan_body_sound (hval : Sound val (ws * value)) {p : ptr_t} (hrun : scan_body val c p = .ok (type, r)) :
    ∃ v, Production value type v ∧ c :: p = v ++ r := by
  unfold scan_body at hrun
  split_ifs at hrun with hquote hbrace hbracket
  all_goals obtain ⟨rfl, hscan⟩ := map_tag_eq_ok hrun
  · obtain ⟨v, hv, heq⟩ := scan_string_sound _ r hscan
    exact ⟨v, .string hv, heq⟩
  · rw [hbrace]
    exact scan_object_sound hval hscan
  · rw [hbracket]
    exact scan_array_sound hval hscan
  · obtain ⟨v, rfl, heq⟩ := scan_lit_sound _ r hscan
    exact ⟨_, .literal_true, heq⟩
  · obtain ⟨v, rfl, heq⟩ := scan_lit_sound _ r hscan
    exact ⟨_, .literal_false, heq⟩
  · obtain ⟨v, rfl, heq⟩ := scan_lit_sound _ r hscan
    exact ⟨_, .literal_null, heq⟩
  · obtain ⟨v, hv, heq⟩ := scan_number_sound _ r hscan
    exact ⟨v, .number hv, heq⟩

theorem scan_array_complete (hval : Complete val (ws * value) (Clear is_number_char))
    (hhead : ∀ v ∈ value, ∃ c rest, v = c :: rest ∧ is_ws c = false ∧ c ≠ CLOSE_BRACKET) {as t}
    (h : SepBy (element value) 0x2C as t) (r : ptr_t) :
    scan_container val CLOSE_BRACKET (t ++ CLOSE_BRACKET :: r) = .ok r := by
  rw [element_eq] at h
  refine scan_container_complete (scan_element_complete hval) ?_ (by decide) (by decide) (by decide) h r
  intro v x hx
  obtain ⟨w, hw, hv, rfl⟩ := mem_lead_element.mp hx
  obtain ⟨c, rest, rfl, hc, hne⟩ := hhead v hv
  exact ⟨w, hw, c, rest, rfl, mem_lead_element.mpr ⟨[], forall_mem_nil _, hv, rfl⟩, hc, hne⟩

theorem scan_object_complete (hval : Complete val (ws * value) (Clear is_number_char)) {as t}
    (h : SepBy (member value) 0x2C as t) (r : ptr_t) :
    scan_container (scan_member val) CLOSE_BRACE (t ++ CLOSE_BRACE :: r) = .ok r := by
  rw [member_eq] at h
  refine scan_container_complete (scan_member_complete hval) ?_ (by decide) (by decide) (by decide) h r
  intro kv x hx
  obtain ⟨w, hw, hk, w', hw', t, ht, rfl⟩ := mem_lead_member.mp hx
  obtain ⟨rest, hrest⟩ := string_head hk
  refine ⟨w, hw, QUOTE, rest ++ (w' ++ COLON :: t), by rw [hrest, cons_append], ?_, by decide, by decide⟩
  refine mem_lead_member.mpr ⟨[], forall_mem_nil _, hk, w', hw', t, ht, ?_⟩
  rw [hrest, nil_append, cons_append]

/-- No other case of the `switch` takes a byte that a number begins with. -/
theorem scan_body_of_number (hc : c = MINUS ∨ is_digit c = true) (p : ptr_t) :
    scan_body val c p = (scan_number (c :: p)).map (.number, ·) := by
  have hne (d : UInt8) (hd : d ≠ MINUS) (hdigit : is_digit d = false) : c ≠ d := by
    rintro rfl
    rcases hc with hc | hc
    · exact hd hc
    · cases hdigit.symm.trans hc
  rw [scan_body, if_neg (hne _ (by decide) (by decide)), if_neg (hne _ (by decide) (by decide)),
    if_neg (hne _ (by decide) (by decide)), if_neg (hne _ (by decide) (by decide)),
    if_neg (hne _ (by decide) (by decide)), if_neg (hne _ (by decide) (by decide))]

/-- The `switch` accepts every value, up to what cannot be a part of it. -/
theorem scan_body_complete (hval : Complete val (ws * value) (Clear is_number_char))
    (hhead : ∀ v ∈ value, ∃ c rest, v = c :: rest ∧ is_ws c = false ∧ c ≠ CLOSE_BRACKET) {rest}
    (h : Production value type (c :: rest)) (hr : Clear is_number_char r) :
    scan_body val c (rest ++ r) = .ok (type, r) := by
  have htag {m : Except Int ptr_t} (type : json_type_t) (hm : m = .ok r) : m.map (type, ·) = .ok (type, r) := by
    rw [hm]
    rfl
  cases h with
  | literal_null => exact htag .null (scan_lit_complete NULL r rfl trivial)
  | literal_true => exact htag .bool (scan_lit_complete TRUE r rfl trivial)
  | literal_false => exact htag .bool (scan_lit_complete FALSE r rfl trivial)
  | number h =>
    obtain ⟨d, tail, heq, hd⟩ := number_head h
    obtain ⟨rfl, rfl⟩ := cons.inj heq
    rw [scan_body_of_number hd, ← cons_append]
    exact htag .number (scan_number_complete _ r h hr)
  | string h =>
    obtain ⟨tail, heq⟩ := string_head h
    obtain ⟨rfl, rfl⟩ := cons.inj heq
    exact htag .string (scan_string_complete _ r h trivial)
  | empty_array h =>
    rw [append_assoc]
    exact htag .array (scan_container_empty (by decide) h r)
  | array h =>
    rw [append_assoc]
    exact htag .array (scan_array_complete hval hhead h r)
  | empty_object h =>
    rw [append_assoc]
    exact htag .object (scan_container_empty (by decide) h r)
  | object h =>
    rw [append_assoc]
    exact htag .object (scan_object_complete hval h r)

end Values

end fable.json
