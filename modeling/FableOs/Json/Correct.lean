import FableOs.Json.Codes

namespace fable.json

open Scanner List

/-- The values of any type that are nested at most `depth` deep. -/
def values (depth : Nat) : Language UInt8 := {x | ∃ type, Value depth type x}

/-- `scan_value` where it is called for the end of the value only. -/
abbrev value_end (levels : Nat) : Scanner Int UInt8 := fun p => (scan_value_within levels p).map Prod.snd

section Values

variable {levels : Nat}
variable {v : List UInt8} {type : json_type_t} {p : ptr_t}

theorem values_head (hv : v ∈ values levels) : ∃ c rest, v = c :: rest ∧ is_ws c = false ∧ c ≠ CLOSE_BRACKET := by
  obtain ⟨type, hv⟩ := hv
  cases levels with
  | zero => exact hv.elim
  | succ levels => exact Production.head hv

theorem Value.succ (h : Value levels type v) : Value (levels + 1) type v := by
  induction levels generalizing type v with
  | zero => exact h.elim
  | succ levels ih =>
    refine Production.mono ?_ h
    rintro x ⟨inner, hx⟩
    exact ⟨inner, ih hx⟩

theorem Value.mono {levels' : Nat} (h : Value levels type v) (hle : levels ≤ levels') : Value levels' type v := by
  induction hle with
  | refl => exact h
  | step _ ih => exact ih.succ

theorem value_end_eq_ok {r : ptr_t} (h : value_end levels p = .ok r) :
    ∃ out, scan_value_within levels p = .ok (out, r) := by
  cases hscan : scan_value_within levels p with
  | error e => simp [value_end, hscan, Except.map] at h
  | ok res => exact ⟨res.1, by simpa [value_end, hscan, Except.map, Prod.ext_iff] using h⟩

theorem value_end_eq_error {e : Int} (h : value_end levels p = .error e) : scan_value_within levels p = .error e := by
  cases hscan : scan_value_within levels p with
  | error e' => simpa [value_end, hscan, Except.map] using h
  | ok res => simp [value_end, hscan, Except.map] at h

/-- White space, and a value of the grammar with its place and its type. -/
def Located (levels : Nat) (p : ptr_t) (out : json_value_t) (r : ptr_t) : Prop :=
  ∃ w ∈ ws, ∃ v type, Value levels type v ∧ p = w ++ (v ++ r) ∧ out = ⟨type, some (v ++ r), v.length⟩

theorem value_end_sound_of (hscan : ∀ p out r, scan_value_within levels p = .ok (out, r) → Located levels p out r) :
    Sound (value_end levels) (ws * values levels) := by
  intro p r hend
  obtain ⟨out, hrun⟩ := value_end_eq_ok hend
  obtain ⟨w, hw, v, type, hv, rfl, -⟩ := hscan p out r hrun
  refine ⟨w ++ v, Language.mem_mul.mpr ⟨w, hw, v, ⟨type, hv⟩, rfl⟩, ?_⟩
  rw [append_assoc]

/-- What `scan_value` accepts, by induction over the levels that are left: white
    space, and a value of the grammar that is nested no deeper than they allow. -/
theorem scan_value_within_sound (p : ptr_t) (out : json_value_t) (r : ptr_t)
    (hrun : scan_value_within levels p = .ok (out, r)) : Located levels p out r := by
  induction levels generalizing p r out with
  | zero => cases hrun
  | succ levels ih =>
    have hval := value_end_sound_of ih
    obtain ⟨w, hw, hp⟩ := skip_ws_split p
    rw [scan_value_within] at hrun
    split at hrun
    · cases hrun
    next c q hskip =>
    rw [hskip] at hp
    obtain ⟨⟨type, rest⟩, hbody, hrun⟩ := except_bind_eq_ok_iff.mp hrun
    obtain ⟨hout, rfl⟩ := Prod.mk.inj (Except.ok.inj hrun)
    obtain ⟨v, hv, hcq⟩ := scan_body_sound hval hbody
    refine ⟨w, hw, v, type, hv, ?_, ?_⟩
    · rw [← hcq]
      exact hp
    · rw [← hout, hcq, length_append, Nat.add_sub_cancel]

/-- `scan_value` accepts every value that is nested no deeper than the levels
    that are left, up to what cannot be a part of it. -/
theorem scan_value_within_complete {w} {r : ptr_t} (hw : w ∈ ws) (hv : Value levels type v)
    (hr : Clear is_number_char r) :
    scan_value_within levels (w ++ (v ++ r)) = .ok (⟨type, some (v ++ r), v.length⟩, r) := by
  induction levels generalizing w v r type with
  | zero => exact hv.elim
  | succ levels ih =>
    have hval : Complete (value_end levels) (ws * values levels) (Clear is_number_char) := by
      intro x r hx hr
      obtain ⟨w, hw, v, ⟨type, hv⟩, rfl⟩ := Language.mem_mul.mp hx
      rw [append_assoc, value_end, ih hw hv hr]
      rfl
    obtain ⟨c, rest, rfl, hc, -⟩ := Production.head hv
    have hskip : skip_ws (w ++ (c :: rest ++ r)) = c :: (rest ++ r) := skip_ws_append hw (clear_cons.mpr hc)
    have hbody := scan_body_complete hval (fun v hv => values_head hv) hv hr
    have hlength : (c :: (rest ++ r)).length - r.length = (c :: rest).length := by
      simp only [length_cons, length_append]
      omega
    rw [scan_value_within, hskip]
    simp only [hbody, cons_append]
    change Except.ok (json_value_t.mk type (some (c :: (rest ++ r))) ((c :: (rest ++ r)).length - r.length), r) = _
    rw [hlength]

/-- `scan_value` ends, and gives up with one of its codes. -/
theorem scan_value_within_coded {e : Int} (hrun : scan_value_within levels p = .error e) : Refusal e := by
  induction levels generalizing p e with
  | zero => exact Or.inr (Except.error.inj hrun).symm
  | succ levels ih =>
    have hval : Coded (value_end levels) := fun p e hend => ih (value_end_eq_error hend)
    have hsound := value_end_sound_of (@scan_value_within_sound levels)
    rw [scan_value_within] at hrun
    split at hrun
    · exact refusal_of_einval hrun
    obtain hbody | ⟨res, -, hrun⟩ := bind_eq_error hrun
    · exact scan_body_coded hval hsound hbody
    · cases hrun

end Values

/-- What `json_parse` accepts is a document, and the value is where it says. -/
theorem json_parse_sound {text : List UInt8} {out} (hrun : json_parse (some text) = (JSON_OK, out)) :
    ∃ before v after type, Document JSON_MAX_DEPTH type before v after ∧ text = before ++ (v ++ after) ∧
      out = ⟨type, some (v ++ after), v.length⟩ := by
  cases hscan : scan_value text 1 with
  | error e =>
    simp only [json_parse, hscan] at hrun
    obtain rfl := (Prod.mk.inj hrun).1
    rcases scan_value_within_coded hscan with hcode | hcode <;> cases hcode
  | ok res =>
    obtain ⟨v, r⟩ := res
    simp only [json_parse, hscan] at hrun
    split at hrun
    · cases (Prod.mk.inj hrun).1
    · rename_i hend
      obtain rfl := (Prod.mk.inj hrun).2
      obtain ⟨w, hw, x, type, hx, rfl, rfl⟩ := scan_value_within_sound _ _ _ hscan
      obtain ⟨w', hw', hr⟩ := skip_ws_split r
      rw [not_not.mp hend, append_nil] at hr
      rw [hr]
      exact ⟨w, x, w', type, ⟨hw, hx, hw'⟩, rfl, rfl⟩

/-- `json_parse` accepts every document that is not nested too deep. -/
theorem json_parse_complete {before v after type} (h : Document JSON_MAX_DEPTH type before v after) :
    json_parse (some (before ++ (v ++ after))) = (JSON_OK, ⟨type, some (v ++ after), v.length⟩) := by
  obtain ⟨hbefore, hv, hafter⟩ := h
  have hscan := scan_value_within_complete hbefore hv (clear_of_ws hafter)
  have hend : skip_ws after = [] := by
    have hskip := skip_ws_append hafter (clear_nil is_ws)
    rwa [append_nil] at hskip
  have hvalue : scan_value (before ++ (v ++ after)) 1 = .ok (⟨type, some (v ++ after), v.length⟩, after) := hscan
  simp [json_parse, hvalue, hend]

/-- `json_parse` succeeds exactly on the texts of the grammar whose value is
    nested at most `JSON_MAX_DEPTH` deep, and then locates the value: where it
    starts, how long it is, and its type. -/
theorem json_parse_ok_iff (text : List UInt8) (out : json_value_t) :
    json_parse (some text) = (JSON_OK, out) ↔
      ∃ before v after type, Document JSON_MAX_DEPTH type before v after ∧ text = before ++ (v ++ after) ∧
        out = ⟨type, some (v ++ after), v.length⟩ := by
  constructor
  · exact json_parse_sound
  · rintro ⟨before, v, after, type, hdocument, rfl, rfl⟩
    exact json_parse_complete hdocument

example : (json_parse (some [0x5B, 0x31, 0x2C, 0x20, 0x22, 0x22, 0x5D])).1 = JSON_OK := by decide

example : (json_parse (some (List.replicate 33 OPEN_BRACKET))).1 = JSON_EDEPTH := by decide +kernel

end fable.json
