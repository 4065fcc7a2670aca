import FableOs.Json.Tree

namespace fable.json

open Scanner List

/-- A member or an element, by the kind of container that is walked. -/
def ItemAt (is_obj : Bool) (node : tree_t → List UInt8 → ptr_t → Prop) (m : json_value_t × tree_t) (t : List UInt8)
    (r : ptr_t) : Prop :=
  if is_obj then MemberAt node m t r else m.1 = no_value ∧ ElementAt node m.2 t r

/-- The first item that the test of `walk` holds for, counted from `n`. -/
def first_hit (hit : Nat → json_value_t → Bool) : Nat → List (json_value_t × tree_t) → Option (json_value_t × tree_t)
  | _, [] => none
  | n, m :: items => if hit n m.1 then some m else first_hit hit (n + 1) items

/-- The loop of `walk` over the items of a container. -/
def walk_tree (hit : Nat → json_value_t → Bool) (counting : Bool) : Nat → Option (json_value_t × json_value_t) →
    List (json_value_t × tree_t) → Except Int (Option (json_value_t × json_value_t) × Nat)
  | n, found, [] => if counting then .ok (found, n) else .error JSON_ENOENT
  | n, found, m :: items =>
    let found := if hit n m.1 then some (m.1, m.2.value) else found
    if hit n m.1 ∧ ¬ counting then .ok (found, n) else walk_tree hit counting (n + 1) found items

section SkipWs

variable {w : List UInt8} {c : UInt8} {q : ptr_t}

theorem skip_ws_to_append (hw : w ∈ ws) (hc : is_ws c = false) : skip_ws_to 1 (w ++ c :: q) = c :: q := by
  induction w with
  | nil =>
    have hno : ¬ (1 < (c :: q).length ∧ is_ws c = true) := by
      rw [hc]
      exact fun h => Bool.false_ne_true h.2
    rw [nil_append, skip_ws_to, if_neg hno]
  | cons d w ih =>
    have hd : 1 < (d :: (w ++ c :: q)).length ∧ is_ws d = true := by
      refine ⟨?_, is_ws_iff.mpr (hw d mem_cons_self)⟩
      simp only [length_cons, length_append]
      omega
    rw [cons_append, skip_ws_to, if_pos hd]
    exact ih fun e he => hw e (mem_cons_of_mem d he)

theorem length_skip_ws_to_le (stop : Nat) (p : ptr_t) : (skip_ws_to stop p).length ≤ p.length := by
  induction p with
  | nil => exact le_refl _
  | cons c p ih =>
    rw [skip_ws_to]
    split
    · rw [length_cons]
      omega
    · exact le_refl _

end SkipWs

theorem walk_hit_congr {is_obj : Bool} {key} {index n : Nat} {k k'}
    (h : ∀ key, json_str_eq (some k) key = json_str_eq (some k') key) :
    walk_hit is_obj key index n k = walk_hit is_obj key index n k' := by
  cases key with
  | none => rfl
  | some key => rw [walk_hit, walk_hit, h]

section Item

variable {depth : Nat} {is_obj : Bool} {m : json_value_t × tree_t} {t tail : List UInt8} {c : UInt8} {rest : ptr_t}

/-- Where an element stands, the scanner finds its value; the white space
    behind it is left. -/
theorem scan_value_of_element (hdepth : depth ≤ JSON_MAX_DEPTH) (hws : is_ws c = false)
    (hnumber : is_number_char c = false) (h : ElementAt (Node depth) m.2 t (c :: tail ++ rest)) :
    ∃ val, ∃ w ∈ ws, scan_value (t ++ c :: tail) 1 = .ok (val, w ++ c :: tail) ∧ val.within rest = m.2.value := by
  obtain ⟨w, hw, v, w', hw', rfl, hnode⟩ := h
  obtain ⟨type, hv, hvalue⟩ := hnode.value
  obtain ⟨hclear, -⟩ := @item_end w' tail c hw' hws hnumber
  refine ⟨⟨type, some (v ++ (w' ++ c :: tail)), v.length⟩, w', hw', ?_, ?_⟩
  · have hscan := scan_value_within_complete hw (hv.mono hdepth) hclear
    simp only [append_assoc]
    exact hscan
  · rw [hvalue, json_value_t.within]
    simp only [Option.map_some, append_assoc, cons_append]

theorem walk_key_of_string {k w e} (hk : k ∈ string) (hw : w ∈ ws) (he : e ≠ []) :
    walk_key (k ++ (w ++ COLON :: e)) = .ok (⟨.string, some (k ++ (w ++ COLON :: e)), k.length⟩, e) := by
  have hcolon : skip_ws_to 1 (w ++ COLON :: e) = COLON :: e := skip_ws_to_append hw (by decide)
  have hno : ¬ (e = [] ∨ COLON ≠ COLON) := by
    rintro (h | h)
    · exact he h
    · exact h rfl
  rw [walk_key, scan_string_complete k _ hk trivial]
  simp only [hcolon, if_neg hno, length_append, Nat.add_sub_cancel]

/-- One turn of `walk`: at a member or an element it reads the name and the
    value and leaves the white space behind them. -/
theorem walk_item_of_itemAt (hdepth : depth ≤ JSON_MAX_DEPTH) (hws : is_ws c = false)
    (hnumber : is_number_char c = false) (h : ItemAt is_obj (Node depth) m t (c :: tail ++ rest)) :
    ∃ k val p, ∃ w ∈ ws, skip_ws_to 1 (t ++ c :: tail) = p ∧ tail.length + 1 < p.length ∧
      walk_item is_obj p = .ok (k, val, w ++ c :: tail) ∧ k.within rest = m.1 ∧ val.within rest = m.2.value ∧
      ∀ key, json_str_eq (some k) key = json_str_eq (some m.1) key := by
  cases is_obj with
  | false =>
    obtain ⟨hm, helement⟩ := h
    obtain ⟨w, hw, v, w', hw', rfl, hnode⟩ := helement
    obtain ⟨type, hv, -⟩ := hnode.value
    obtain ⟨d, vs, rfl, hd, -⟩ := values_head ⟨type, hv⟩
    have hskip : skip_ws_to 1 (w ++ (d :: vs ++ w') ++ c :: tail) = d :: vs ++ w' ++ c :: tail := by
      rw [append_assoc]
      exact skip_ws_to_append hw hd
    have hbare : ElementAt (Node depth) m.2 (d :: vs ++ w') (c :: tail ++ rest) :=
      ⟨[], forall_mem_nil _, d :: vs, w', hw', rfl, hnode⟩
    obtain ⟨val, w'', hw'', hscan, hval⟩ := scan_value_of_element hdepth hws hnumber hbare
    refine ⟨no_value, val, _, w'', hw'', hskip, ?_, ?_, hm.symm, hval, ?_⟩
    · simp only [length_append, length_cons]
      omega
    · simp only [walk_item, Bool.false_eq_true, if_false]
      dsimp only [bind, Except.bind]
      rw [hscan]
    · intro key
      rw [hm]
  | true =>
    obtain ⟨w, hw, k, hk, w', hw', e, rfl, helement, hm⟩ := h
    obtain ⟨ks, hks⟩ := string_head hk
    have hskip : skip_ws_to 1 (w ++ (k ++ (w' ++ COLON :: e)) ++ c :: tail) = k ++ (w' ++ COLON :: (e ++ c :: tail)) := by
      simp only [append_assoc, cons_append, hks]
      exact skip_ws_to_append hw (by decide)
    obtain ⟨val, w'', hw'', hscan, hval⟩ := scan_value_of_element hdepth hws hnumber helement
    have hkey := @walk_key_of_string k w' (e ++ c :: tail) hk hw' (by simp)
    refine ⟨⟨.string, some (k ++ (w' ++ COLON :: (e ++ c :: tail))), k.length⟩, val, _, w'', hw'', hskip, ?_, ?_, ?_,
      hval, ?_⟩
    · simp only [length_append, length_cons]
      omega
    · simp only [walk_item, if_true, hkey]
      dsimp only [bind, Except.bind]
      rw [hscan]
    · rw [hm, json_value_t.within]
      simp only [Option.map_some, append_assoc, cons_append]
    · intro key
      obtain ⟨body, us, rfl, -⟩ := mem_string_iff.mp hk
      cases key with
      | none => rfl
      | some key => rw [hm, json_str_eq_located, json_str_eq_located]

end Item

section Loop

variable {depth : Nat} {is_obj counting : Bool} {key : Option cstr_t} {index : Nat} {rest : ptr_t} {fuel n : Nat}
variable {found : Option (json_value_t × json_value_t)}

theorem walk_items_turn {m t tail c} (hdepth : depth ≤ JSON_MAX_DEPTH) (hws : is_ws c = false)
    (hnumber : is_number_char c = false) (h : ItemAt is_obj (Node depth) m t (c :: tail ++ rest))
    (hfuel : (skip_ws_to 1 (t ++ c :: tail)).length < fuel) :
    ∃ j, (skip_ws_to 1 tail).length < j ∧
      walk_items is_obj counting key index rest fuel n found (skip_ws_to 1 (t ++ c :: tail)) =
        let hit := walk_hit is_obj key index n m.1
        let found := if hit then some (m.1, m.2.value) else found
        if hit ∧ ¬ counting then .ok (found, n)
        else if tail ≠ [] ∧ c = COMMA then
          walk_items is_obj counting key index rest j (n + 1) found (skip_ws_to 1 tail)
        else if counting then .ok (found, n + 1) else .error JSON_ENOENT := by
  obtain ⟨k, val, p, w, hw, hp, hlt, hitem, hk, hval, hkey⟩ := walk_item_of_itemAt hdepth hws hnumber h
  have hskip : skip_ws_to 1 (w ++ c :: tail) = c :: tail := skip_ws_to_append hw hws
  have hle := length_skip_ws_to_le 1 tail
  rw [hp] at hfuel ⊢
  refine ⟨fuel - 1, by omega, ?_⟩
  obtain ⟨fuel, rfl⟩ : ∃ j, fuel = j + 1 := ⟨fuel - 1, by omega⟩
  rw [walk_items, if_neg (by omega), hitem]
  dsimp only [bind, Except.bind]
  rw [hskip, walk_hit_congr hkey, hk, hval]
  rfl

variable {close : UInt8} {items : List (json_value_t × tree_t)} {t : List UInt8}

/-- Over the items of a container the loop is one over the list of them. -/
theorem walk_items_eq (hdepth : depth ≤ JSON_MAX_DEPTH) (hws : is_ws close = false)
    (hnumber : is_number_char close = false) (h : SepAt (ItemAt is_obj (Node depth)) COMMA items t (close :: rest))
    (hfuel : (skip_ws_to 1 (t ++ [close])).length < fuel) :
    walk_items is_obj counting key index rest fuel n found (skip_ws_to 1 (t ++ [close])) =
      walk_tree (walk_hit is_obj key index) counting n found items := by
  obtain ⟨r, hr⟩ : ∃ r, r = close :: rest := ⟨_, rfl⟩
  rw [← hr] at h
  induction h generalizing fuel n found with
  | @one m t r h =>
    subst hr
    obtain ⟨j, -, hturn⟩ := walk_items_turn hdepth hws hnumber h hfuel
    rw [hturn]
    rfl
  | @cons m ms t ts r h hrest ih =>
    subst hr
    rw [append_assoc, cons_append] at hfuel ⊢
    have hitem : ItemAt is_obj (Node depth) m t (COMMA :: (ts ++ [close]) ++ rest) := by simpa using h
    obtain ⟨j, hj, hturn⟩ := walk_items_turn hdepth (by decide) (by decide) hitem hfuel
    have hmore : ts ++ [close] ≠ [] ∧ COMMA = COMMA := ⟨by simp, rfl⟩
    rw [hturn, walk_tree]
    dsimp only
    rw [if_pos hmore, ih hj rfl]

theorem walk_tree_count {hit} : ∃ last, walk_tree hit true n found items = .ok (last, n + items.length) := by
  induction items generalizing n found with
  | nil => exact ⟨found, rfl⟩
  | cons m items ih =>
    obtain ⟨last, hlast⟩ := @ih (n + 1) (if hit n m.1 then some (m.1, m.2.value) else found)
    refine ⟨last, ?_⟩
    rw [walk_tree, if_neg fun hstop => hstop.2 rfl, hlast, length_cons, Nat.add_right_comm, Nat.add_assoc]

theorem walked_walk_tree {hit} : walked (walk_tree hit false n found items) =
    match first_hit hit n items with
    | some m => (JSON_OK, m.1, m.2.value)
    | none => (JSON_ENOENT, no_value, no_value) := by
  induction items generalizing n found with
  | nil => rfl
  | cons m items ih =>
    cases hhit : hit n m.1 with
    | true => simp [walk_tree, first_hit, hhit, walked]
    | false => simpa [walk_tree, first_hit, hhit] using ih

end Loop

end fable.json
