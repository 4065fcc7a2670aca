import Mathlib.Data.List.TakeWhile
import Mathlib.Tactic

namespace fable

open List

variable {A : Type} [DecidableEq A] {sep : A}

/-- The non-empty pieces of a list between separators, in order. -/
def fields (sep : A) (xs : List A) : List (List A) := (xs.splitOnP (· == sep)).filter (· ≠ [])

@[simp] theorem fields_nil : fields sep [] = [] := by
  simp [fields]

/-- A separator cuts the text in two. -/
theorem fields_append_sep (xs ys : List A) : fields sep (xs ++ sep :: ys) = fields sep xs ++ fields sep ys := by
  unfold fields
  rw [splitOnP_append_cons xs ys (by simp), filter_append]

theorem fields_cons_sep (ys : List A) : fields sep (sep :: ys) = fields sep ys := by
  have h : fields sep ([] ++ sep :: ys) = fields sep [] ++ fields sep ys := fields_append_sep [] ys
  simpa using h

/-- Without a separator there is one field. -/
theorem fields_of_not_mem {xs} (hmem : sep ∉ xs) (hne : xs ≠ []) : fields sep xs = [xs] := by
  have hsplit : xs.splitOnP (· == sep) = [xs] := by
    apply splitOnP_eq_singleton
    intro x hx
    simp only [beq_eq_false_iff_ne]
    exact fun heq => hmem (heq ▸ hx)
  simp [fields, hsplit, hne]

/-- Separators in front do not count. -/
theorem fields_dropWhile (xs : List A) : fields sep (xs.dropWhile (· == sep)) = fields sep xs := by
  induction xs with
  | nil => rfl
  | cons x xs ih =>
    by_cases hx : x = sep
    · subst hx
      rw [fields_cons_sep]
      simpa using ih
    · simp [hx]

theorem head_dropWhile_ne {xs : List A} {x : A} {rest} (h : xs.dropWhile (· == sep) = x :: rest) : x ≠ sep := by
  have hhead := head?_dropWhile_not (· == sep) xs
  rw [h] at hhead
  simpa using hhead

/-- The first field goes up to the first separator. -/
theorem fields_cons_of_ne {x : A} (hx : x ≠ sep) (rest : List A) :
    fields sep (x :: rest) = (x :: rest).takeWhile (· != sep) :: fields sep ((x :: rest).dropWhile (· != sep)) := by
  have hsplit := takeWhile_append_dropWhile (p := (· != sep)) (l := x :: rest)
  have hfirst : sep ∉ (x :: rest).takeWhile (· != sep) := by
    intro hmem
    have hneg := mem_takeWhile_imp hmem
    simp at hneg
  have hne : (x :: rest).takeWhile (· != sep) ≠ [] := by simp [hx]
  cases htail : (x :: rest).dropWhile (· != sep) with
  | nil =>
    rw [htail, append_nil] at hsplit
    rw [fields_nil, hsplit]
    exact fields_of_not_mem (hsplit ▸ hfirst) (by simp)
  | cons y tail =>
    have hy : y = sep := by
      have hhead := head?_dropWhile_not (· != sep) (x :: rest)
      rw [htail] at hhead
      simpa using hhead
    subst hy
    rw [htail] at hsplit
    rw [fields_cons_sep]
    conv => lhs; rw [← hsplit]
    rw [fields_append_sep, fields_of_not_mem hfirst hne]
    rfl

theorem length_dropWhile_piece_lt {x : A} (hx : x ≠ sep) (rest : List A) :
    ((x :: rest).dropWhile (· != sep)).length < (x :: rest).length := by
  have hle := (dropWhile_sublist (· != sep) (l := rest)).length_le
  simp only [length_cons]
  rw [dropWhile_cons_of_pos (by simpa using hx)]
  omega

theorem length_le_of_mem_fields {xs c : List A} (h : c ∈ fields sep xs) : c.length ≤ xs.length := by
  induction hn : xs.length using Nat.strong_induction_on generalizing xs with
  | _ n ih =>
    subst hn
    have hdrop := (dropWhile_sublist (· == sep) (l := xs)).length_le
    rw [← fields_dropWhile] at h
    cases hp : xs.dropWhile (· == sep) with
    | nil =>
      rw [hp, fields_nil] at h
      cases h
    | cons x rest =>
      have hx := head_dropWhile_ne hp
      have hlt := length_dropWhile_piece_lt hx rest
      rw [hp] at hdrop
      rw [hp, fields_cons_of_ne hx] at h
      rcases mem_cons.mp h with rfl | h
      · exact (takeWhile_sublist _).length_le.trans hdrop
      · exact (ih _ (by omega) h rfl).trans (by omega)

end fable
