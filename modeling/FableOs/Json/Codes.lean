import FableOs.Json.Parse

namespace fable.json

open Scanner

/-- The two codes with which the scanner gives up. -/
def Refusal (e : Int) : Prop := e = JSON_EINVAL ∨ e = JSON_EDEPTH

/-- The scanner ends, and when it gives up it does so with one of its codes. -/
def Coded (f : Scanner Int UInt8) : Prop := ∀ p e, f p = .error e → Refusal e

section Coded

variable {f g item val : Scanner Int UInt8} {value : Language UInt8} {close : UInt8}
variable {e : Int} {p : ptr_t}

theorem refusal_of_einval {A : Type} (h : (Except.error JSON_EINVAL : Except Int A) = .error e) : Refusal e :=
  Or.inl (Except.error.inj h).symm

theorem bind_eq_error {A B : Type} {x} {k : A → Except Int B} (h : (x >>= k) = .error e) :
    x = .error e ∨ ∃ a, x = .ok a ∧ k a = .error e := by
  cases x with
  | error e' => exact Or.inl (congrArg _ (Except.error.inj h))
  | ok a => exact Or.inr ⟨a, rfl, h⟩

theorem Coded.bind (hf : Coded f) (hg : Coded g) : Coded fun p => f p >>= g := by
  intro p e hrun
  obtain hp | ⟨q, -, hq⟩ := bind_eq_error hrun
  · exact hf p e hp
  · exact hg q e hq

theorem Coded.either {c} [DecidablePred c] (hf : Coded f) (hg : Coded g) : Coded (either c f g) := by
  intro p e hrun
  cases p with
  | nil => exact hg [] e hrun
  | cons a p =>
    rw [Scanner.either] at hrun
    split at hrun
    · exact hf p e hrun
    · exact hg _ e hrun

theorem coded_ok : Coded .ok := fun _ _ hrun => by cases hrun

theorem scan_chars_coded : Coded scan_chars := by
  intro p e hrun
  fun_induction scan_chars p with
  | case1 => exact refusal_of_einval hrun
  | case2 p => cases hrun
  | case3 | case4 => exact refusal_of_einval hrun
  | case5 _ _ _ _ _ ih | case6 _ _ _ _ _ _ _ _ _ ih => exact ih hrun
  | case7 | case8 | case9 => exact refusal_of_einval hrun
  | case10 _ _ _ _ _ ih => exact ih hrun

theorem scan_string_coded : Coded scan_string := by
  rw [scan_string_eq]
  exact scan_chars_coded.either fun _ _ => refusal_of_einval

theorem scan_digits_coded : Coded scan_digits := by
  intro p e hrun
  cases p with
  | nil => exact refusal_of_einval hrun
  | cons c p =>
    rw [scan_digits] at hrun
    split at hrun
    · cases hrun
    · exact refusal_of_einval hrun

theorem scan_unsigned_coded : Coded scan_unsigned := by
  refine Coded.bind ?_ (Coded.bind ?_ ?_)
  · intro p e hrun
    cases p with
    | nil => exact refusal_of_einval hrun
    | cons c p =>
      rw [scan_int] at hrun
      split at hrun
      · cases hrun
      split at hrun
      · cases hrun
      · exact refusal_of_einval hrun
  · rw [scan_frac_eq]
    exact scan_digits_coded.either coded_ok
  · rw [scan_exp_eq]
    exact Coded.either (fun p => scan_digits_coded (skip_sign p)) coded_ok

theorem scan_number_coded : Coded scan_number := by
  intro p e hrun
  rw [scan_number_eq] at hrun
  obtain hp | ⟨q, -, hrun⟩ := bind_eq_error hrun
  · exact scan_unsigned_coded _ e hp
  split at hrun
  · exact refusal_of_einval hrun
  · cases hrun

theorem scan_lit_coded (lit : List UInt8) : Coded (scan_lit lit) := by
  intro p e hrun
  unfold scan_lit at hrun
  split at hrun
  · cases hrun
  · exact refusal_of_einval hrun

/-- Every turn of the loop takes at least the comma, so the loop ends within
    the bytes that are left. -/
theorem scan_items_coded (hitem : Coded item) (hle : ∀ p r, item p = .ok r → r.length ≤ p.length) {fuel : Nat}
    (hfuel : p.length < fuel) (hrun : scan_items item close fuel p = .error e) : Refusal e := by
  induction fuel generalizing p with
  | zero => omega
  | succ fuel ih =>
    rw [scan_items] at hrun
    obtain hp | ⟨q, hp, hrun⟩ := bind_eq_error hrun
    · exact hitem p e hp
    have hlength := hle p q hp
    obtain ⟨w, -, hq⟩ := skip_ws_split q
    split at hrun
    · exact refusal_of_einval hrun
    next c rest hskip =>
    split at hrun
    · refine ih ?_ hrun
      rw [hskip] at hq
      rw [hq, List.length_append, List.length_cons] at hlength
      omega
    split at hrun
    · cases hrun
    · exact refusal_of_einval hrun

theorem scan_container_coded (hitem : Coded item) (hle : ∀ p r, item p = .ok r → r.length ≤ p.length) :
    Coded (scan_container item close) := by
  intro p e hrun
  unfold scan_container at hrun
  dsimp only at hrun
  split at hrun
  · exact scan_items_coded hitem hle (Nat.lt_succ_self _) hrun
  split at hrun
  · cases hrun
  · exact scan_items_coded hitem hle (Nat.lt_succ_self _) hrun

theorem scan_member_coded (hval : Coded val) : Coded (scan_member val) := by
  intro p e hrun
  obtain hstring | ⟨q, -, hrun⟩ := bind_eq_error hrun
  · exact scan_string_coded _ e hstring
  split at hrun
  · exact refusal_of_einval hrun
  next c rest hskip =>
  split at hrun
  · exact hval rest e hrun
  · exact refusal_of_einval hrun

theorem map_tag_coded (hf : Coded f) {type : json_type_t} (h : (f p).map (type, ·) = .error e) : Refusal e := by
  cases hp : f p with
  | error e' =>
    rw [hp] at h
    cases h
    exact hf p e hp
  | ok q =>
    rw [hp] at h
    cases h

theorem scan_body_coded (hval : Coded val) (hsound : Sound val (ws * value)) {c : UInt8}
    (hrun : scan_body val c p = .error e) : Refusal e := by
  have hmember (p r : ptr_t) (h : scan_member val p = .ok r) : r.length ≤ p.length := by
    obtain ⟨kv, x, -, rfl⟩ := scan_member_sound hsound p r h
    rw [List.length_append]
    omega
  unfold scan_body at hrun
  split at hrun
  · exact map_tag_coded scan_string_coded hrun
  split at hrun
  · exact map_tag_coded (scan_container_coded (scan_member_coded hval) hmember) hrun
  split at hrun
  · exact map_tag_coded (scan_container_coded hval fun _ _ => hsound.length_le) hrun
  split at hrun
  · exact map_tag_coded (scan_lit_coded TRUE) hrun
  split at hrun
  · exact map_tag_coded (scan_lit_coded FALSE) hrun
  split at hrun
  · exact map_tag_coded (scan_lit_coded NULL) hrun
  · exact map_tag_coded scan_number_coded hrun

end Coded

end fable.json
