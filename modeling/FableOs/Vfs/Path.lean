import FableOs.Lib.Fields

namespace fable.vfs

abbrev VFS_NAME_MAX : Nat := 63

abbrev SEPARATOR : UInt8 := 0x2F

/-- The three answers of `next_component`: -1, 0, and 1 with the component and
    what is left of the path. -/
inductive component_t where
  | too_long
  | none_left
  | one (comp rest : List UInt8)

/-- `next_component` on a C string of the given bytes. The copy loop gives up
    when a component does not leave room for its terminator. -/
def next_component (path : List UInt8) (cap : Nat) : component_t :=
  let p := path.dropWhile (· == SEPARATOR)
  if p = [] then .none_left
  else if cap - 1 < (p.takeWhile (· != SEPARATOR)).length then .too_long
  else .one (p.takeWhile (· != SEPARATOR)) (p.dropWhile (· != SEPARATOR))

/-- The component loop of `resolve`; the path names nothing when a component
    is too long. Every component takes a byte, so the length is fuel enough. -/
def components_within : Nat → List UInt8 → Option (List (List UInt8))
  | 0, _ => some []
  | fuel + 1, path =>
    match next_component path (VFS_NAME_MAX + 1) with
    | .none_left => some []
    | .too_long => none
    | .one comp rest => (components_within fuel rest).map (comp :: ·)

def components (path : List UInt8) : Option (List (List UInt8)) := components_within path.length path

theorem components_within_eq {fuel : Nat} {path} (hfuel : path.length ≤ fuel) :
    components_within fuel path =
      if ∀ comp ∈ fields SEPARATOR path, comp.length ≤ VFS_NAME_MAX then some (fields SEPARATOR path) else none := by
  induction fuel generalizing path with
  | zero =>
    have hnil : path = [] := List.length_eq_zero_iff.mp (by omega)
    simp [components_within, hnil]
  | succ fuel ih =>
    unfold components_within next_component
    rw [← fields_dropWhile]
    have hdrop := (List.dropWhile_sublist (· == SEPARATOR) (l := path)).length_le
    cases hp : path.dropWhile (· == SEPARATOR) with
    | nil => simp
    | cons x rest =>
      have hx := head_dropWhile_ne hp
      have hlt := length_dropWhile_piece_lt hx rest
      rw [hp] at hdrop
      rw [fields_cons_of_ne hx]
      simp only [reduceCtorEq, if_false, List.mem_cons, forall_eq_or_imp, Nat.add_sub_cancel]
      by_cases hlong : VFS_NAME_MAX < ((x :: rest).takeWhile (· != SEPARATOR)).length
      · simp [hlong]
      · rw [if_neg hlong]
        have hrest := @ih ((x :: rest).dropWhile (· != SEPARATOR)) (by omega)
        simp only [hrest, Nat.not_lt.mp hlong, true_and]
        split <;> rfl

/-- The VFS splits a path into its non-empty pieces between slashes, or refuses
    it for a piece that is too long. -/
theorem components_eq (path : List UInt8) :
    components path =
      if ∀ comp ∈ fields SEPARATOR path, comp.length ≤ VFS_NAME_MAX then some (fields SEPARATOR path) else none :=
  components_within_eq le_rfl

theorem components_eq_some_iff {path cs} :
    components path = some cs ↔ cs = fields SEPARATOR path ∧ ∀ comp ∈ cs, comp.length ≤ VFS_NAME_MAX := by
  rw [components_eq]
  constructor
  · intro h
    split at h
    · next hshort =>
      cases h
      exact ⟨rfl, hshort⟩
    · cases h
  · rintro ⟨rfl, hshort⟩
    exact if_pos hshort

end fable.vfs
