import FableOs.Json.Walk

namespace fable.json

open Scanner List

/-- The name `k` of a member stands for the text `key`. -/
def Named (k : json_value_t) (key : cstr_t) : Prop :=
  ∃ t, k.text = QUOTE :: (t ++ [QUOTE]) ∧ Decodes t key.bytes

/-- The navigation functions, at the root of a tree, give what the tree says. -/
structure Agrees (tree : tree_t) : Prop where
  count : json_count (some tree.value) = tree.children.length
  element : tree.value.type = .array → ∀ i, json_at (some tree.value) i =
    match tree.children[i]? with
    | some m => (JSON_OK, m.2.value)
    | none => (JSON_ENOENT, no_value)
  member : tree.value.type = .object → ∀ i, json_member (some tree.value) i =
    match tree.children[i]? with
    | some m => (JSON_OK, m.1, m.2.value)
    | none => (JSON_ENOENT, no_value, no_value)
  get_first : tree.value.type = .object → ∀ key before m after, tree.children = before ++ m :: after →
    Named m.1 key → (∀ m' ∈ before, ¬ Named m'.1 key) → json_get (some tree.value) (some key) = (JSON_OK, m.2.value)
  get_none : tree.value.type = .object → ∀ key, (∀ m ∈ tree.children, ¬ Named m.1 key) →
    json_get (some tree.value) (some key) = (JSON_ENOENT, no_value)
  not_array : tree.value.type ≠ .array → ∀ i, json_at (some tree.value) i = (JSON_ETYPE, no_value)
  not_object : tree.value.type ≠ .object → (∀ i, json_member (some tree.value) i = (JSON_ETYPE, no_value, no_value)) ∧
    ∀ key, json_get (some tree.value) (some key) = (JSON_ETYPE, no_value)

section FirstHit

variable {is_obj : Bool} {items : List (json_value_t × tree_t)}

theorem first_hit_index {index n : Nat} (hle : n ≤ index) :
    first_hit (walk_hit is_obj none index) n items = items[index - n]? := by
  induction items generalizing n with
  | nil => rfl
  | cons m items ih =>
    rw [first_hit, walk_hit]
    by_cases heq : n = index
    · subst heq
      simp
    · have hsub : index - n = index - (n + 1) + 1 := by omega
      rw [decide_eq_false heq, ih (by omega), hsub, getElem?_cons_succ]
      rfl

theorem first_hit_none {hit} {n : Nat} (h : ∀ m ∈ items, ∀ i, hit i m.1 = false) : first_hit hit n items = none := by
  induction items generalizing n with
  | nil => rfl
  | cons m items ih =>
    rw [first_hit, h m mem_cons_self, ih fun m' hm' => h m' (mem_cons_of_mem m hm')]
    rfl

theorem first_hit_some {hit} {n : Nat} {before after m} (hbefore : ∀ m' ∈ before, ∀ i, hit i m'.1 = false)
    (hm : ∀ i, hit i m.1 = true) : first_hit hit n (before ++ m :: after) = some m := by
  induction before generalizing n with
  | nil => rw [nil_append, first_hit, hm, if_pos rfl]
  | cons m' before ih =>
    rw [cons_append, first_hit, hbefore m' mem_cons_self,
      ih fun x hx => hbefore x (mem_cons_of_mem m' hx)]
    rfl

end FirstHit

section Container

variable {depth : Nat} {type : json_type_t} {children : List (json_value_t × tree_t)} {v : List UInt8} {r : ptr_t}

theorem sepAt_elements {node items t} (h : SepAt (ElementAt node) COMMA items t r) :
    SepAt (ItemAt false node) COMMA (items.map (no_value, ·)) t r := by
  induction h with
  | one h => exact .one ⟨rfl, h⟩
  | cons h _ ih => exact .cons ⟨rfl, h⟩ ih

theorem Inside.container {node} (h : Inside node type children v r) (htype : type = .object ∨ type = .array) :
    ∃ first t close, v = first :: (t ++ [close]) ∧ is_ws close = false ∧ is_number_char close = false ∧
      ((t ∈ ws ∧ children = []) ∨ SepAt (ItemAt (type = .object) node) COMMA children t (close :: r)) := by
  cases h with
  | scalar h => cases h <;> simp at htype
  | empty_array h => exact ⟨_, _, _, rfl, by decide, by decide, Or.inl ⟨h, rfl⟩⟩
  | array h => exact ⟨_, _, _, rfl, by decide, by decide, Or.inr (sepAt_elements h)⟩
  | empty_object h => exact ⟨_, _, _, rfl, by decide, by decide, Or.inl ⟨h, rfl⟩⟩
  | object h => exact ⟨_, _, _, rfl, by decide, by decide, Or.inr h⟩

section Walk

variable (hdepth : depth ≤ JSON_MAX_DEPTH) (htype : type = .object ∨ type = .array)
variable (h : Inside (Node depth) type children v r)
include hdepth htype h

theorem walk_eq {key} {index : Nat} {counting : Bool} :
    walk (some ⟨type, some (v ++ r), v.length⟩) key index counting =
      walk_tree (walk_hit (type = .object) key index) counting 0 none children := by
  have hno : ¬ (type ≠ .object ∧ type ≠ .array) := fun hneither => htype.elim hneither.1 hneither.2
  obtain ⟨first, t, close, rfl, hws, hnumber, hitems⟩ := h.container htype
  rw [walk]
  simp only [if_neg hno, text_located, tail_cons, Option.getD_some, drop_left]
  rcases hitems with ⟨ht, rfl⟩ | hsep
  · rw [skip_ws_to_append ht hws]
    rfl
  · exact walk_items_eq hdepth hws hnumber hsep (Nat.lt_succ_self _)

theorem walk_count_eq : json_count (some ⟨type, some (v ++ r), v.length⟩) = children.length := by
  obtain ⟨last, hlast⟩ := @walk_tree_count 0 none children (walk_hit (type = .object) none 0)
  rw [json_count, walk_eq hdepth htype h, hlast, Nat.zero_add]

theorem walk_first_eq (key : Option cstr_t) (index : Nat) :
    walked (walk (some ⟨type, some (v ++ r), v.length⟩) key index false) =
      match first_hit (walk_hit (type = .object) key index) 0 children with
      | some m => (JSON_OK, m.1, m.2.value)
      | none => (JSON_ENOENT, no_value, no_value) := by
  rw [walk_eq hdepth htype h]
  exact walked_walk_tree

end Walk

theorem walk_hit_iff (h : Inside (Node depth) .object children v r) {m} (hm : m ∈ children) (key : cstr_t)
    (index n : Nat) : walk_hit true (some key) index n m.1 = true ↔ Named m.1 key := by
  obtain ⟨k, hk, x, hm₁⟩ : ∃ k ∈ string, ∃ x, m.1 = ⟨.string, some (k ++ x), k.length⟩ := by
    cases h with
    | scalar h | empty_object h => cases hm
    | object h =>
      obtain ⟨t, r', w, -, k, hk, w', -, e, -, -, hm₁⟩ := h.mem hm
      exact ⟨k, hk, _, hm₁⟩
  obtain ⟨t, us, rfl, hus⟩ := mem_string_iff.mp hk
  rw [walk_hit, Bool.true_and, hm₁, json_str_eq_located, str_eq_chars_iff hus (Nat.lt_succ_self _)]
  constructor
  · intro htext
    exact ⟨t, text_located, us, hus, htext⟩
  · rintro ⟨t', ht', us', hus', htext⟩
    rw [text_located, cons.injEq, append_left_inj] at ht'
    rw [← ht'.2] at hus'
    rw [hus.utf8_eq hus', htext]

end Container

/-- At every node of a parse tree that is no deeper than the scanner goes, the
    navigation functions agree with the tree. -/
theorem Node.agrees {depth : Nat} {tree v r} (h : Node depth tree v r) (hdepth : depth ≤ JSON_MAX_DEPTH) :
    Agrees tree := by
  cases depth with
  | zero => exact h.elim
  | succ depth =>
    obtain ⟨type, hvalue, hinside⟩ := h
    have hdepth' : depth ≤ JSON_MAX_DEPTH := by omega
    have hobject (htype : tree.value.type = .object) : type = .object := by
      rw [hvalue] at htype
      exact htype
    refine ⟨?_, ?_, ?_, ?_, ?_, ?_, ?_⟩
    · rw [hvalue]
      by_cases htype : type = .object ∨ type = .array
      · exact walk_count_eq hdepth' htype hinside
      · have hempty : tree.children = [] := by
          obtain ⟨children, hchildren⟩ : ∃ children, children = tree.children := ⟨_, rfl⟩
          rw [← hchildren] at hinside ⊢
          cases hinside <;> simp at htype ⊢
        have hno : type ≠ .object ∧ type ≠ .array := not_or.mp htype
        rw [json_count, walk, hempty]
        simp only [if_pos hno]
        rfl
    · intro htype i
      rw [hvalue] at htype ⊢
      obtain rfl : type = .array := htype
      rw [json_at]
      simp only [ne_eq, not_true_eq_false, if_false]
      rw [walk_first_eq hdepth' (Or.inr rfl) hinside, first_hit_index (Nat.zero_le i), Nat.sub_zero]
      cases tree.children[i]? <;> rfl
    · intro htype i
      obtain rfl := hobject htype
      rw [hvalue, json_member]
      simp only [ne_eq, not_true_eq_false, if_false]
      rw [walk_first_eq hdepth' (Or.inl rfl) hinside, first_hit_index (Nat.zero_le i), Nat.sub_zero]
    · intro htype key before m after hchildren hm hbefore
      obtain rfl := hobject htype
      have hit (m' : json_value_t × tree_t) (hm' : m' ∈ tree.children) (i : Nat) :=
        walk_hit_iff hinside hm' key 0 i
      have hfirst : first_hit (walk_hit true (some key) 0) 0 tree.children = some m := by
        rw [hchildren]
        refine first_hit_some ?_ ?_
        · intro m' hm' i
          rw [← Bool.not_eq_true, hit m' (by rw [hchildren]; exact mem_append_left _ hm') i]
          exact hbefore m' hm'
        · intro i
          rw [hit m (by rw [hchildren]; exact mem_append_right _ mem_cons_self) i]
          exact hm
      rw [hvalue, json_get]
      simp only [ne_eq, not_true_eq_false, if_false]
      rw [walk_first_eq hdepth' (Or.inl rfl) hinside, decide_eq_true rfl, hfirst]
    · intro htype key hnone
      obtain rfl := hobject htype
      have hfirst : first_hit (walk_hit true (some key) 0) 0 tree.children = none := by
        refine first_hit_none fun m hm i => ?_
        rw [← Bool.not_eq_true, walk_hit_iff hinside hm key 0 i]
        exact hnone m hm
      rw [hvalue, json_get]
      simp only [ne_eq, not_true_eq_false, if_false]
      rw [walk_first_eq hdepth' (Or.inl rfl) hinside, decide_eq_true rfl, hfirst]
    · intro htype i
      rw [json_at, if_pos htype]
    · intro htype
      refine ⟨fun i => ?_, fun key => ?_⟩
      · rw [json_member, if_pos htype]
      · rw [json_get, if_pos htype]

/-- A document that `json_parse` accepts has a parse tree, and the navigation
    functions agree with it at every node: the number of members or elements,
    the member or the element at a place, and the first member with a name. -/
theorem navigation_agrees_with_parse_tree (text : List UInt8) (out : json_value_t)
    (hparse : json_parse (some text) = (JSON_OK, out)) :
    (∃ tree, ParseTree JSON_MAX_DEPTH text tree) ∧
      ∀ tree, ParseTree JSON_MAX_DEPTH text tree → tree.value = out ∧ ∀ sub, Subtree sub tree → Agrees sub := by
  constructor
  · obtain ⟨before, v, after, type, ⟨hbefore, hv, hafter⟩, rfl, -⟩ := json_parse_sound hparse
    obtain ⟨tree, htree⟩ := exists_node hv after
    exact ⟨tree, before, hbefore, v, after, hafter, rfl, htree⟩
  · rintro tree ⟨before, hbefore, v, after, hafter, rfl, hnode⟩
    obtain ⟨type, hv, hvalue⟩ := hnode.value
    have hrun := json_parse_complete ⟨hbefore, hv, hafter⟩
    rw [hparse, ← hvalue] at hrun
    refine ⟨(Prod.mk.inj hrun).2.symm, fun sub hsub => ?_⟩
    obtain ⟨depth, x, r, hle, hx⟩ := hsub.node hnode
    exact hx.agrees hle

/-- `{"a":7,"a":8}`, and what stands behind it in `[{"a":7,"a":8}]`. -/
def repeated_name : List UInt8 :=
  [0x7B, 0x22, 0x61, 0x22, 0x3A, 0x37, 0x2C, 0x22, 0x61, 0x22, 0x3A, 0x38, 0x7D, 0x5D]

/-- Of two members with one name in an object in an array, the first is the one
    that is found. -/
theorem navigation_of_repeated_name :
    ∃ tree child first second, ParseTree JSON_MAX_DEPTH (0x5B :: repeated_name) tree ∧ Subtree child tree ∧
      child.value = ⟨.object, some repeated_name, 13⟩ ∧ child.children = [first, second] ∧
      json_get (some child.value) (some ⟨[0x61], by decide⟩) = (JSON_OK, first.2.value) ∧
      json_member (some child.value) 1 = (JSON_OK, second.1, second.2.value) := by
  have hparse : json_parse (some (0x5B :: repeated_name)) = (JSON_OK, ⟨.array, some (0x5B :: repeated_name), 15⟩) := by
    decide +kernel
  obtain ⟨⟨tree, htree⟩, hagree⟩ := navigation_agrees_with_parse_tree _ _ hparse
  obtain ⟨hroot, hsubtrees⟩ := hagree tree htree
  obtain ⟨_, children⟩ := tree
  cases hroot
  have harray := hsubtrees _ .root
  have helements : json_count (some ⟨.array, some (0x5B :: repeated_name), 15⟩) = 1 := by decide +kernel
  have hlength : children.length = 1 := harray.count.symm.trans helements
  obtain ⟨m, rfl⟩ := List.length_eq_one_iff.mp hlength
  have hinner value : Subtree m.2 (.node value [m]) := .inner List.mem_cons_self .root
  have hobject := hsubtrees _ (hinner _)
  have hat : json_at (some ⟨.array, some (0x5B :: repeated_name), 15⟩) 0 =
      (JSON_OK, ⟨.object, some repeated_name, 13⟩) := by decide +kernel
  have hvalue : m.2.value = ⟨.object, some repeated_name, 13⟩ :=
    (Prod.mk.inj ((harray.element rfl 0).symm.trans hat)).2
  have hcount := hobject.count
  have hmember := hobject.member (congrArg json_value_t.type hvalue)
  rw [hvalue] at hcount hmember
  have hlength' : m.2.children.length = 2 := hcount.symm.trans (by decide +kernel)
  obtain ⟨first, second, hchildren⟩ := List.length_eq_two.mp hlength'
  rw [hchildren] at hmember
  have hfirst : json_member (some ⟨.object, some repeated_name, 13⟩) 0 =
      (JSON_OK, ⟨.string, some (repeated_name.drop 1), 3⟩, ⟨.number, some (repeated_name.drop 5), 1⟩) := by decide +kernel
  obtain ⟨-, hpair⟩ := Prod.mk.inj ((hmember 0).symm.trans hfirst)
  refine ⟨_, m.2, first, second, htree, hinner _, hvalue, hchildren, ?_, ?_⟩
  · rw [hvalue, (Prod.mk.inj hpair).2]
    decide +kernel
  · rw [hvalue]
    exact hmember 1

end fable.json
