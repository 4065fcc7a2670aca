import FableOs.Json.Lexemes

namespace fable.json

open Scanner List Language

section WhiteSpace

variable {w w' r : List UInt8}

theorem ws_append (hw : w ∈ ws) (hw' : w' ∈ ws) : w ++ w' ∈ ws := by
  intro c hc
  rcases mem_append.mp hc with hc | hc
  · exact hw c hc
  · exact hw' c hc

theorem clear_of_ws (hw : w ∈ ws) : Clear is_number_char w := by
  intro c hc
  rcases hw c (mem_of_mem_head? hc) with rfl | rfl | rfl | rfl <;> decide

end WhiteSpace

section Items

variable {I : Type} {lead : I → Language UInt8} {item : Scanner Int UInt8} {close : UInt8} {fuel : Nat}

theorem scan_items_step {p q rest : ptr_t} {c} (hp : item p = .ok q) (hskip : skip_ws q = c :: rest) :
    scan_items item close (fuel + 1) p =
      if c = COMMA then scan_items item close fuel rest
      else if c = close then .ok rest
      else .error JSON_EINVAL := by
  rw [scan_items, hp, ok_bind, hskip]

/-- The loop over the items of an object or an array accepts only items that
    are separated by commas, up to the closing bracket. -/
theorem scan_items_sound (hitem : ∀ p r, item p = .ok r → ∃ a, ∃ v ∈ lead a, p = v ++ r) {p r : ptr_t}
    (hrun : scan_items item close fuel p = .ok r) :
    ∃ as t, SepBy (fun a => lead a * ws) COMMA as t ∧ p = t ++ close :: r := by
  induction fuel generalizing p with
  | zero => cases hrun
  | succ fuel ih =>
    obtain ⟨q, hp, hnext⟩ := except_bind_eq_ok_iff.mp hrun
    obtain ⟨a, v, hv, rfl⟩ := hitem p q hp
    obtain ⟨w, hw, hq⟩ := skip_ws_split q
    have hone : v ++ w ∈ lead a * ws := mem_mul.mpr ⟨v, hv, w, hw, rfl⟩
    split at hnext
    · cases hnext
    next c rest hskip =>
    rw [hskip] at hq
    split at hnext
    · next hcomma =>
      obtain ⟨as, t, hsep, rfl⟩ := ih hnext
      refine ⟨a :: as, _, .cons hone hsep, ?_⟩
      rw [hq, hcomma]
      simp
    split at hnext
    · next hclose =>
      cases hnext
      refine ⟨[a], _, .one hone, ?_⟩
      rw [hq, hclose, append_assoc]
    · cases hnext

theorem item_end {w r c} (hw : w ∈ ws) (hws : is_ws c = false) (hnumber : is_number_char c = false) :
    Clear is_number_char (w ++ c :: r) ∧ skip_ws (w ++ c :: r) = c :: r :=
  ⟨clear_append (clear_of_ws hw) fun _ => clear_cons.mpr hnumber, skip_ws_append hw (clear_cons.mpr hws)⟩

theorem scan_items_complete (hitem : ∀ a v r, v ∈ lead a → Clear is_number_char r → item (v ++ r) = .ok r)
    (hws : is_ws close = false) (hnumber : is_number_char close = false) (hcomma : close ≠ COMMA) {as t}
    (h : SepBy (fun a => lead a * ws) COMMA as t) (hfuel : as.length ≤ fuel) (r : ptr_t) :
    scan_items item close fuel (t ++ close :: r) = .ok r := by
  induction h generalizing fuel with
  | @one a t ht =>
    obtain ⟨fuel, rfl⟩ : ∃ k, fuel = k + 1 := ⟨fuel - 1, by simp only [length_singleton] at hfuel; omega⟩
    obtain ⟨v, hv, w, hw, rfl⟩ := mem_mul.mp ht
    obtain ⟨hclear, hskip⟩ := @item_end w r close hw hws hnumber
    rw [append_assoc, scan_items_step (hitem a v _ hv hclear) hskip, if_neg hcomma, if_pos rfl]
  | @cons a as t rest ht hrest ih =>
    obtain ⟨fuel, rfl⟩ : ∃ k, fuel = k + 1 := ⟨fuel - 1, by simp only [length_cons] at hfuel; omega⟩
    obtain ⟨v, hv, w, hw, rfl⟩ := mem_mul.mp ht
    obtain ⟨hclear, hskip⟩ := @item_end w (rest ++ close :: r) COMMA hw (by decide) (by decide)
    rw [append_assoc, append_assoc, cons_append, scan_items_step (hitem a v _ hv hclear) hskip, if_pos rfl]
    exact ih (by simp only [length_cons] at hfuel; omega)

/-- An object or an array behind its opening bracket: empty, or with items. -/
theorem scan_container_sound (hitem : ∀ p r, item p = .ok r → ∃ a, ∃ v ∈ lead a, p = v ++ r)
    (hlead : ∀ a w v, w ∈ ws → v ∈ lead a → w ++ v ∈ lead a) {p r : ptr_t}
    (hrun : scan_container item close p = .ok r) :
    (∃ w ∈ ws, p = w ++ close :: r) ∨
      ∃ as t, SepBy (fun a => lead a * ws) COMMA as t ∧ p = t ++ close :: r := by
  obtain ⟨w, hw, hp⟩ := skip_ws_split p
  have hitems (hrun : scan_items item close ((skip_ws p).length + 1) (skip_ws p) = .ok r) :
      ∃ as t, SepBy (fun a => lead a * ws) COMMA as t ∧ p = t ++ close :: r := by
    obtain ⟨as, t, hsep, heq⟩ := scan_items_sound hitem hrun
    obtain ⟨a, x, tail, hx, rfl, hother⟩ := hsep.first
    obtain ⟨v, hv, w', hw', rfl⟩ := mem_mul.mp hx
    have hfirst := hother (w ++ v ++ w') (mem_mul.mpr ⟨w ++ v, hlead a w v hw hv, w', hw', rfl⟩)
    refine ⟨as, _, hfirst, ?_⟩
    simp only [append_assoc] at heq ⊢
    rw [← heq]
    exact hp
  unfold scan_container at hrun
  dsimp only at hrun
  split at hrun
  · exact Or.inr (hitems hrun)
  next c q hskip =>
  split at hrun
  · next hc =>
    cases hrun
    rw [hskip, hc] at hp
    exact Or.inl ⟨w, hw, hp⟩
  · exact Or.inr (hitems hrun)

theorem scan_container_empty (hws : is_ws close = false) {w} (hw : w ∈ ws) (r : ptr_t) :
    scan_container item close (w ++ close :: r) = .ok r := by
  have hskip := skip_ws_append hw (r := close :: r) (clear_cons.mpr hws)
  simp [scan_container, hskip]

theorem scan_container_complete (hitem : ∀ a v r, v ∈ lead a → Clear is_number_char r → item (v ++ r) = .ok r)
    (hlead : ∀ a v, v ∈ lead a → ∃ w ∈ ws, ∃ c rest, v = w ++ c :: rest ∧ c :: rest ∈ lead a ∧ is_ws c = false ∧ c ≠ close)
    (hws : is_ws close = false) (hnumber : is_number_char close = false) (hcomma : close ≠ COMMA) {as t}
    (h : SepBy (fun a => lead a * ws) COMMA as t) (r : ptr_t) :
    scan_container item close (t ++ close :: r) = .ok r := by
  -- the white space before the first item is skipped by the test for an empty one
  obtain ⟨w, hw, c, rest, rfl, hsep, hc, hne⟩ : ∃ w ∈ ws, ∃ c rest, t = w ++ c :: rest ∧
      SepBy (fun a => lead a * ws) COMMA as (c :: rest) ∧ is_ws c = false ∧ c ≠ close := by
    obtain ⟨a, x, tail, hx, rfl, hother⟩ := h.first
    obtain ⟨v, hv, w', hw', rfl⟩ := mem_mul.mp hx
    obtain ⟨w, hw, c, rest, rfl, hmem, hc, hne⟩ := hlead a v hv
    refine ⟨w, hw, c, rest ++ w' ++ tail, by simp, ?_, hc, hne⟩
    exact hother (c :: rest ++ w') (mem_mul.mpr ⟨c :: rest, hmem, w', hw', rfl⟩)
  have hskip : skip_ws (w ++ (c :: rest ++ close :: r)) = c :: (rest ++ close :: r) :=
    skip_ws_append hw (clear_cons.mpr hc)
  have hfuel : as.length ≤ (c :: (rest ++ close :: r)).length + 1 := by
    have hlength := hsep.length_le
    simp only [length_cons, length_append] at hlength ⊢
    omega
  simp only [append_assoc, scan_container, hskip, if_neg hne]
  exact scan_items_complete hitem hws hnumber hcomma hsep hfuel r

end Items

end fable.json
