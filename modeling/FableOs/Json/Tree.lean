import FableOs.Json.Correct
import FableOs.Json.Navigate
import FableOs.Json.Text

namespace fable.json

open Scanner Language

/-! The parse tree of a document: every value where it stands, with the members
or the elements inside it. -/

/-- A value with what is inside it: the members of an object by their names, or
    the elements of an array, that have none. -/
inductive tree_t where
  | node (value : json_value_t) (children : List (json_value_t × tree_t))

def tree_t.value : tree_t → json_value_t
  | .node value _ => value

def tree_t.children : tree_t → List (json_value_t × tree_t)
  | .node _ children => children

/-- Items separated by a byte, where what follows an item matters. -/
inductive SepAt {I : Type} (item : I → List UInt8 → ptr_t → Prop) (sep : UInt8) : List I → List UInt8 → ptr_t → Prop
  | one {a : I} {t : List UInt8} {r : ptr_t} (h : item a t r) : SepAt item sep [a] t r
  | cons {a : I} {as : List I} {t ts : List UInt8} {r : ptr_t} (h : item a t (sep :: (ts ++ r)))
      (hrest : SepAt item sep as ts r) : SepAt item sep (a :: as) (t ++ sep :: ts) r

/-- The text `t`, in front of `r`, is the value at the root of the tree, with the
    white space around it. -/
def ElementAt (node : tree_t → List UInt8 → ptr_t → Prop) (tree : tree_t) (t : List UInt8) (r : ptr_t) : Prop :=
  ∃ w ∈ ws, ∃ v, ∃ w' ∈ ws, t = w ++ (v ++ w') ∧ node tree v (w' ++ r)

/-- The text `t`, in front of `r`, is a member of an object. -/
def MemberAt (node : tree_t → List UInt8 → ptr_t → Prop) (m : json_value_t × tree_t) (t : List UInt8) (r : ptr_t) :
    Prop :=
  ∃ w ∈ ws, ∃ k ∈ string, ∃ w' ∈ ws, ∃ e, t = w ++ (k ++ (w' ++ COLON :: e)) ∧ ElementAt node m.2 e r ∧
    m.1 = ⟨.string, some (k ++ (w' ++ COLON :: (e ++ r))), k.length⟩

/-- The values that have no others inside them. -/
inductive Scalar : json_type_t → List UInt8 → Prop
  | literal_null : Scalar .null [0x6E, 0x75, 0x6C, 0x6C]
  | literal_true : Scalar .bool [0x74, 0x72, 0x75, 0x65]
  | literal_false : Scalar .bool [0x66, 0x61, 0x6C, 0x73, 0x65]
  | number {v : List UInt8} (h : v ∈ json.number) : Scalar .number v
  | string {v : List UInt8} (h : v ∈ json.string) : Scalar .string v

/-- What a tree may have inside it. -/
inductive Inside (node : tree_t → List UInt8 → ptr_t → Prop) :
    json_type_t → List (json_value_t × tree_t) → List UInt8 → ptr_t → Prop
  | scalar {type : json_type_t} {v : List UInt8} {r : ptr_t} (h : Scalar type v) : Inside node type [] v r
  | empty_array {w : List UInt8} {r : ptr_t} (h : w ∈ ws) : Inside node .array [] (0x5B :: (w ++ [0x5D])) r
  | array {items : List tree_t} {t : List UInt8} {r : ptr_t} (h : SepAt (ElementAt node) 0x2C items t (0x5D :: r)) :
      Inside node .array (items.map (no_value, ·)) (0x5B :: (t ++ [0x5D])) r
  | empty_object {w : List UInt8} {r : ptr_t} (h : w ∈ ws) : Inside node .object [] (0x7B :: (w ++ [0x7D])) r
  | object {items : List (json_value_t × tree_t)} {t : List UInt8} {r : ptr_t}
      (h : SepAt (MemberAt node) 0x2C items t (0x7D :: r)) : Inside node .object items (0x7B :: (t ++ [0x7D])) r

/-- The text `v`, in front of `r`, is a value nested at most `depth` deep, and
    the tree is its parse tree. -/
def Node : Nat → tree_t → List UInt8 → ptr_t → Prop
  | 0, _, _, _ => False
  | depth + 1, tree, v, r =>
    ∃ type, tree.value = ⟨type, some (v ++ r), v.length⟩ ∧ Inside (Node depth) type tree.children v r

/-- The tree is a parse tree of the document. -/
def ParseTree (depth : Nat) (text : List UInt8) (tree : tree_t) : Prop :=
  ∃ before ∈ ws, ∃ v, ∃ after ∈ ws, text = before ++ (v ++ after) ∧ Node depth tree v after

/-- The nodes of a tree. -/
inductive Subtree : tree_t → tree_t → Prop
  | root {tree : tree_t} : Subtree tree tree
  | inner {tree child : tree_t} {k value : json_value_t} {children : List (json_value_t × tree_t)}
      (hmem : (k, child) ∈ children) (h : Subtree tree child) : Subtree tree (.node value children)

section SepAt

variable {I J : Type} {item : I → List UInt8 → ptr_t → Prop} {lang : J → Language UInt8} {sep : UInt8}

theorem SepAt.sepBy (hitem : ∀ a t r, item a t r → ∃ b, t ∈ lang b) {as t r} (h : SepAt item sep as t r) :
    ∃ bs, SepBy lang sep bs t := by
  induction h with
  | one h =>
    obtain ⟨b, hb⟩ := hitem _ _ _ h
    exact ⟨[b], .one hb⟩
  | cons h _ ih =>
    obtain ⟨b, hb⟩ := hitem _ _ _ h
    obtain ⟨bs, hbs⟩ := ih
    exact ⟨b :: bs, .cons hb hbs⟩

theorem sepAt_of_sepBy (hitem : ∀ b t r, t ∈ lang b → ∃ a, item a t r) {bs t} (r : ptr_t)
    (h : SepBy lang sep bs t) : ∃ as, SepAt item sep as t r := by
  induction h with
  | one h =>
    obtain ⟨a, ha⟩ := hitem _ _ r h
    exact ⟨[a], .one ha⟩
  | cons h _ ih =>
    obtain ⟨as, has⟩ := ih
    obtain ⟨a, ha⟩ := hitem _ _ _ h
    exact ⟨a :: as, .cons ha has⟩

theorem SepAt.mem {as t r} (h : SepAt item sep as t r) {a : I} (ha : a ∈ as) : ∃ t' r', item a t' r' := by
  induction h with
  | one h =>
    obtain rfl := List.mem_singleton.mp ha
    exact ⟨_, _, h⟩
  | cons h _ ih =>
    rcases List.mem_cons.mp ha with rfl | ha
    · exact ⟨_, _, h⟩
    · exact ih ha

end SepAt

section Grammar

variable {depth : Nat} {tree : tree_t} {v : List UInt8} {r : ptr_t} {type : json_type_t}

theorem Scalar.production {value} (h : Scalar type v) : Production value type v := by
  cases h with
  | literal_null => exact .literal_null
  | literal_true => exact .literal_true
  | literal_false => exact .literal_false
  | number h => exact .number h
  | string h => exact .string h

theorem Node.value (h : Node depth tree v r) :
    ∃ type, Value depth type v ∧ tree.value = ⟨type, some (v ++ r), v.length⟩ := by
  induction depth generalizing tree v r with
  | zero => exact h.elim
  | succ depth ih =>
    obtain ⟨type, hvalue, hinside⟩ := h
    refine ⟨type, ?_, hvalue⟩
    have helement (a : tree_t) (t : List UInt8) (r : ptr_t) (h : ElementAt (Node depth) a t r) :
        ∃ b, t ∈ element (values depth) b := by
      obtain ⟨w, hw, x, w', hw', rfl, hnode⟩ := h
      obtain ⟨type, hx, -⟩ := ih hnode
      exact ⟨x, mem_mul.mpr ⟨w, hw, x ++ w',
        mem_mul.mpr ⟨x, ⟨rfl, type, hx⟩, w', hw', rfl⟩, rfl⟩⟩
    have hmember (a : json_value_t × tree_t) (t : List UInt8) (r : ptr_t) (h : MemberAt (Node depth) a t r) :
        ∃ b, t ∈ member (values depth) b := by
      obtain ⟨w, hw, k, hk, w', hw', e, rfl, he, -⟩ := h
      obtain ⟨x, hx⟩ := helement _ _ _ he
      refine ⟨(k, x), mem_mul.mpr ⟨w, hw, _, mem_mul.mpr ⟨k, ⟨rfl, hk⟩, _, ?_, rfl⟩, rfl⟩⟩
      exact mem_mul.mpr ⟨w', hw', _, mem_mul.mpr ⟨[COLON], rfl, e, hx, rfl⟩, rfl⟩
    obtain ⟨children, hchildren⟩ : ∃ children, children = tree.children := ⟨_, rfl⟩
    rw [← hchildren] at hinside
    cases hinside with
    | scalar h => exact h.production
    | empty_array h => exact .empty_array h
    | array h =>
      obtain ⟨bs, hbs⟩ := h.sepBy helement
      exact .array hbs
    | empty_object h => exact .empty_object h
    | object h =>
      obtain ⟨bs, hbs⟩ := h.sepBy hmember
      exact .object hbs

theorem exists_node (h : Value depth type v) (r : ptr_t) : ∃ tree, Node depth tree v r := by
  induction depth generalizing type v r with
  | zero => exact h.elim
  | succ depth ih =>
    have helement (b t : List UInt8) (r : ptr_t) (h : t ∈ element (values depth) b) :
        ∃ a, ElementAt (Node depth) a t r := by
      obtain ⟨w, hw, _, hrest, rfl⟩ := mem_mul.mp h
      obtain ⟨x, ⟨rfl, type, hx⟩, w', hw', rfl⟩ := mem_mul.mp hrest
      obtain ⟨tree, htree⟩ := ih hx (w' ++ r)
      exact ⟨tree, w, hw, x, w', hw', rfl, htree⟩
    have hmember (b : List UInt8 × List UInt8) (t : List UInt8) (r : ptr_t) (h : t ∈ member (values depth) b) :
        ∃ a, MemberAt (Node depth) a t r := by
      obtain ⟨w, hw, _, hname, rfl⟩ := mem_mul.mp h
      obtain ⟨k, ⟨rfl, hk⟩, _, hcolon, rfl⟩ := mem_mul.mp hname
      obtain ⟨w', hw', _, hvalue, rfl⟩ := mem_mul.mp hcolon
      obtain ⟨_, rfl, e, he, rfl⟩ := mem_mul.mp hvalue
      obtain ⟨tree, htree⟩ := helement b.2 e r he
      exact ⟨(_, tree), w, hw, b.1, hk, w', hw', e, rfl, htree, rfl⟩
    have hroot (children : List (json_value_t × tree_t)) (h : Inside (Node depth) type children v r) :
        ∃ tree, Node (depth + 1) tree v r :=
      ⟨.node ⟨type, some (v ++ r), v.length⟩ children, type, rfl, h⟩
    cases h with
    | literal_null => exact hroot [] (.scalar .literal_null)
    | literal_true => exact hroot [] (.scalar .literal_true)
    | literal_false => exact hroot [] (.scalar .literal_false)
    | number h => exact hroot [] (.scalar (.number h))
    | string h => exact hroot [] (.scalar (.string h))
    | empty_array h => exact hroot [] (.empty_array h)
    | array h =>
      obtain ⟨items, hitems⟩ := sepAt_of_sepBy helement (CLOSE_BRACKET :: r) h
      exact hroot _ (.array hitems)
    | empty_object h => exact hroot [] (.empty_object h)
    | object h =>
      obtain ⟨items, hitems⟩ := sepAt_of_sepBy hmember (CLOSE_BRACE :: r) h
      exact hroot _ (.object hitems)

/-- What is inside a node is a node, one level down. -/
theorem Inside.node_mem {children} (h : Inside (Node depth) type children v r) {k child}
    (hmem : (k, child) ∈ children) : ∃ x r', Node depth child x r' := by
  cases h with
  | scalar h | empty_array h => cases hmem
  | array h =>
    obtain ⟨item, hitem, heq⟩ := List.mem_map.mp hmem
    cases heq
    obtain ⟨t, r', w, -, x, w', -, -, hnode⟩ := h.mem hitem
    exact ⟨x, _, hnode⟩
  | empty_object h => cases hmem
  | object h =>
    obtain ⟨t, r', w, -, k, -, w', -, e, -, ⟨w₁, -, x, w₂, -, -, hnode⟩, -⟩ := h.mem hmem
    exact ⟨x, _, hnode⟩

theorem Subtree.node {sub} (hsub : Subtree sub tree) (h : Node depth tree v r) :
    ∃ depth' x r', depth' ≤ depth ∧ Node depth' sub x r' := by
  induction hsub generalizing depth v r with
  | root => exact ⟨depth, v, r, le_refl _, h⟩
  | @inner child k value children hmem _ ih =>
    cases depth with
    | zero => exact h.elim
    | succ depth =>
      obtain ⟨type, -, hinside⟩ := h
      obtain ⟨x, r', hchild⟩ := hinside.node_mem hmem
      obtain ⟨depth', y, r'', hle, hnode⟩ := ih hchild
      exact ⟨depth', y, r'', by omega, hnode⟩

end Grammar

end fable.json
