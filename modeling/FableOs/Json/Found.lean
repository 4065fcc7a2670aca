import FableOs.Json.Agree

namespace fable.json

open Scanner

/-- A value that was reached in an accepted document. -/
def Found (depth : Nat) (out : json_value_t) : Prop := ∃ tree x r, Node depth tree x r ∧ tree.value = out

section Found

variable {depth : Nat} {out : json_value_t}

theorem Found.value (h : Found depth out) :
    ∃ type x r, Value depth type x ∧ out = ⟨type, some (x ++ r), x.length⟩ := by
  obtain ⟨tree, x, r, hnode, rfl⟩ := h
  obtain ⟨type, hx, hvalue⟩ := hnode.value
  exact ⟨type, x, r, hx, hvalue⟩

theorem Found.text (h : Found depth out) : Value depth out.type out.text := by
  obtain ⟨type, x, r, hx, rfl⟩ := h.value
  rw [text_located]
  exact hx

theorem Found.len_eq (h : Found depth out) : out.len = out.text.length := by
  obtain ⟨type, x, r, -, rfl⟩ := h.value
  rw [text_located]

theorem found_of_json_parse {text : List UInt8} (h : json_parse (some text) = (JSON_OK, out)) :
    Found JSON_MAX_DEPTH out := by
  obtain ⟨before, v, after, type, ⟨hbefore, hv, hafter⟩, rfl, rfl⟩ := json_parse_sound h
  obtain ⟨tree, hnode⟩ := exists_node hv after
  obtain ⟨type', hv', hvalue⟩ := hnode.value
  have hrun := json_parse_complete ⟨hbefore, hv', hafter⟩
  rw [h, ← hvalue] at hrun
  exact ⟨tree, v, after, hnode, (Prod.mk.inj hrun).2.symm⟩

theorem Found.get (h : Found (depth + 1) out) (hdepth : depth + 1 ≤ JSON_MAX_DEPTH) {key v}
    (hget : json_get (some out) (some key) = (JSON_OK, v)) : Found depth v := by
  obtain ⟨tree, x, r, hnode, rfl⟩ := h
  have hagrees := hnode.agrees hdepth
  by_cases htype : tree.value.type = .object
  · by_cases hnamed : ∃ m ∈ tree.children, Named m.1 key
    · obtain ⟨before, m, after, hchildren, hm, hbefore⟩ := exists_first hnamed
      rw [hagrees.get_first htype key before m after hchildren hm hbefore] at hget
      obtain ⟨type, -, hinside⟩ := hnode
      have hmem : (m.1, m.2) ∈ tree.children := by
        rw [hchildren]
        exact List.mem_append_right _ List.mem_cons_self
      obtain ⟨y, r', hchild⟩ := hinside.node_mem hmem
      exact ⟨m.2, y, r', hchild, (Prod.mk.inj hget).2⟩
    · rw [hagrees.get_none htype key fun m hm hnm => hnamed ⟨m, hm, hnm⟩] at hget
      cases (Prod.mk.inj hget).1
  · rw [(hagrees.not_object htype).2 key] at hget
    cases (Prod.mk.inj hget).1

theorem Found.string (h : Found depth out) (htype : out.type = .string) :
    ∃ t us, out.text = QUOTE :: (t ++ [QUOTE]) ∧ out.body = t ∧ Units t us ∧ out.text ∈ string := by
  obtain ⟨type, x, r, hx, rfl⟩ := h.value
  obtain rfl : type = .string := htype
  have hstring : x ∈ json.string := by
    cases depth with
    | zero => exact hx.elim
    | succ depth =>
      cases hx with
      | string h => exact h
  obtain ⟨t, us, rfl, hus⟩ := mem_string_iff.mp hstring
  exact ⟨t, us, text_located, body_located, hus, by rw [text_located]; exact hstring⟩

/-- `json_str` on a string that was found: its text, when there is room for it. -/
theorem Found.json_str (h : Found depth out) (htype : out.type = .string) {text} (htext : Decodes out.body text)
    {cap : Nat} (hcap : 0 < cap) :
    json_str (some out) cap = (JSON_OK, text) ∧ text.length < cap ∨
      (json_str (some out) cap).1 = JSON_ENOSPC ∧ cap ≤ text.length := by
  obtain ⟨t, us, hout, -, -, -⟩ := h.string htype
  have hlen : ¬ (out.type ≠ .string ∨ out.len < 2) := by
    rw [h.len_eq, hout, htype]
    simp
  obtain ⟨us', hus', rfl⟩ := htext
  rw [json.json_str]
  simp only [if_neg (Nat.pos_iff_ne_zero.mp hcap), if_neg hlen]
  by_cases hroom : (utf8 us').length < cap
  · left
    refine ⟨?_, hroom⟩
    exact str_chars_of_units hus' (Nat.lt_succ_self _) (by rw [List.length_nil]; omega)
  · right
    have hfull : cap ≤ (utf8 us').length := Nat.not_lt.mp hroom
    obtain ⟨p, -, -, hrun, -⟩ := @str_chars_stops _ _ cap _ [] hus' (Nat.lt_succ_self _) hcap (by simpa using hfull)
    exact ⟨by rw [hrun], hfull⟩

end Found

end fable.json
