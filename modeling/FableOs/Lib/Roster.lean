import Mathlib.Tactic

/-! A list of entries that are found by their names. An entry that is put takes
the place of the first one of its name, or comes last; an entry that is removed
lets those behind it close up. -/

namespace fable.Roster

open List

variable {A K : Type} [DecidableEq K] (name : A → K)

/-- No two entries have the same name. -/
def Unique (l : List A) : Prop := (l.map name).Nodup

def find (k : K) (l : List A) : Option A := l.find? fun a => name a = k

def place (k : K) (l : List A) : Option Nat := l.findIdx? fun a => name a = k

def put (a : A) : List A → List A
  | [] => [a]
  | b :: l => if name b = name a then a :: l else b :: put a l

def remove (k : K) : List A → List A
  | [] => []
  | b :: l => if name b = k then l else b :: remove k l

variable {name} {a b : A} {k : K} {l : List A}

section Find

theorem find_eq_none : find name k l = none ↔ ∀ a ∈ l, name a ≠ k := by
  simp [find]

theorem mem_of_find (h : find name k l = some a) : a ∈ l ∧ name a = k :=
  ⟨mem_of_find?_eq_some h, by simpa using find?_some h⟩

omit [DecidableEq K] in
theorem Unique.eq_of_name (h : Unique name l) (ha : a ∈ l) (hb : b ∈ l) (hname : name a = name b) : a = b :=
  inj_on_of_nodup_map h ha hb hname

/-- What is found is the one with the name. -/
theorem Unique.find_eq_some (h : Unique name l) : find name k l = some a ↔ a ∈ l ∧ name a = k := by
  constructor
  · exact mem_of_find
  · rintro ⟨ha, rfl⟩
    cases hfind : find name (name a) l with
    | none => exact absurd rfl (find_eq_none.mp hfind a ha)
    | some b =>
      obtain ⟨hb, hname⟩ := mem_of_find hfind
      rw [h.eq_of_name hb ha hname]

omit [DecidableEq K] in
theorem Unique.index_eq {i j : Nat} (h : Unique name l) (ha : l[i]? = some a) (hb : l[j]? = some b)
    (hname : name a = name b) : i = j := by
  have hi : (l.map name)[i]? = some (name a) := by rw [getElem?_map, ha]; rfl
  have hj : (l.map name)[j]? = some (name a) := by rw [getElem?_map, hb, hname]; rfl
  exact (List.getElem?_inj (List.getElem?_eq_some_iff.mp hi).1 h).mp (hi.trans hj.symm)

theorem place_eq_some {i : Nat} (h : place name k l = some i) : ∃ a, l[i]? = some a ∧ name a = k := by
  obtain ⟨hlt, hname, -⟩ := findIdx?_eq_some_iff_getElem.mp h
  exact ⟨l[i], getElem?_eq_getElem hlt, by simpa using hname⟩

end Find

section Put

theorem mem_put_self : a ∈ put name a l := by
  induction l with
  | nil => exact mem_singleton_self a
  | cons b l ih =>
    rw [put]
    split
    · exact mem_cons_self
    · exact mem_cons_of_mem b ih

theorem mem_of_mem_put (h : b ∈ put name a l) : b = a ∨ b ∈ l := by
  induction l with
  | nil => exact Or.inl (mem_singleton.mp h)
  | cons c l ih =>
    rw [put] at h
    split at h
    · exact (mem_cons.mp h).imp id (mem_cons_of_mem c)
    · obtain rfl | h := mem_cons.mp h
      · exact Or.inr mem_cons_self
      · exact (ih h).imp id (mem_cons_of_mem c)

theorem mem_put_of_ne (h : b ∈ l) (hne : name b ≠ name a) : b ∈ put name a l := by
  induction l with
  | nil => cases h
  | cons c l ih =>
    rw [put]
    obtain rfl | h := mem_cons.mp h
    · rw [if_neg hne]
      exact mem_cons_self
    · split
      · exact mem_cons_of_mem a h
      · exact mem_cons_of_mem c (ih h)

/-- Putting keeps names unique. -/
theorem Unique.put (h : Unique name l) : Unique name (put name a l) := by
  induction l with
  | nil => exact nodup_singleton _
  | cons c l ih =>
    obtain ⟨hc, hl⟩ := nodup_cons.mp h
    rw [Roster.put]
    split
    · rename_i hname
      rw [Unique, map_cons, ← hname]
      exact h
    · rename_i hname
      refine nodup_cons.mpr ⟨fun hmem => ?_, ih hl⟩
      obtain ⟨b, hb, heq⟩ := mem_map.mp hmem
      obtain rfl | hb := mem_of_mem_put hb
      · exact hname heq.symm
      · exact hc (heq ▸ mem_map_of_mem hb)

/-- The new one takes the place of its namesake. -/
theorem Unique.mem_put (h : Unique name l) : b ∈ Roster.put name a l ↔ b = a ∨ b ∈ l ∧ name b ≠ name a := by
  constructor
  · intro hb
    by_cases hname : name b = name a
    · exact Or.inl (h.put.eq_of_name hb mem_put_self hname)
    · obtain rfl | hb := mem_of_mem_put hb
      · exact absurd rfl hname
      · exact Or.inr ⟨hb, hname⟩
  · rintro (rfl | ⟨hb, hname⟩)
    · exact mem_put_self
    · exact mem_put_of_ne hb hname

theorem length_put_of_find (h : find name (name a) l ≠ none) : (put name a l).length = l.length := by
  induction l with
  | nil => exact absurd rfl h
  | cons c l ih =>
    rw [put]
    split
    · rfl
    · rename_i hname
      rw [find, find?_cons_of_neg (by simpa using hname)] at h
      rw [length_cons, length_cons, ih h]

/-- Putting adds at most one. -/
theorem length_put_le : (put name a l).length ≤ l.length + 1 := by
  induction l with
  | nil => exact le_refl 1
  | cons c l ih =>
    rw [put]
    split
    · exact Nat.le_succ _
    · exact Nat.succ_le_succ ih

/-- A table that takes a new entry only while it has room for one. -/
theorem length_put_le_of_room {cap : Nat} (hlen : l.length ≤ cap) (hroom : find name (name a) l = none → l.length < cap) :
    (put name a l).length ≤ cap := by
  cases hfind : find name (name a) l with
  | none => exact length_put_le.trans (hroom hfind)
  | some b => exact (length_put_of_find (hfind ▸ Option.some_ne_none b)).trans_le hlen

/-- What was put is found. -/
theorem find_put_self : find name (name a) (put name a l) = some a := by
  induction l with
  | nil => simp [find, put]
  | cons c l ih =>
    rw [put]
    split
    · simp [find]
    · rename_i hname
      rwa [find, find?_cons_of_neg (by simpa using hname)]

/-- The others are found as before. -/
theorem find_put_of_ne (h : k ≠ name a) : find name k (put name a l) = find name k l := by
  induction l with
  | nil => simp [find, put, h.symm]
  | cons c l ih =>
    rw [put]
    split
    · rename_i hname
      rw [find, find, find?_cons_of_neg (by simpa using h.symm), find?_cons_of_neg (by simpa [hname] using h.symm)]
    · simp only [find, find?_cons] at ih ⊢
      rw [ih]

/-- The others keep their places. -/
theorem getElem?_put_of_ne {i : Nat} (h : l[i]? = some b) (hne : name b ≠ name a) :
    (put name a l)[i]? = some b := by
  induction l generalizing i with
  | nil => cases h
  | cons c l ih =>
    rw [put]
    cases i with
    | zero =>
      cases h
      rw [if_neg hne]
      rfl
    | succ i =>
      split
      · exact h
      · exact ih h

end Put

section Remove

theorem remove_sublist : (remove name k l).Sublist l := by
  induction l with
  | nil => exact List.Sublist.slnil
  | cons c l ih =>
    rw [remove]
    split
    · exact sublist_cons_self c l
    · exact ih.cons_cons c

theorem remove_of_find_eq_none (h : find name k l = none) : remove name k l = l := by
  have hne := find_eq_none.mp h
  induction l with
  | nil => rfl
  | cons c l ih =>
    obtain ⟨hc, hl⟩ := forall_mem_cons.mp hne
    rw [remove, if_neg hc, ih (find_eq_none.mpr hl) hl]

theorem Unique.remove (h : Unique name l) : Unique name (remove name k l) :=
  (remove_sublist.map name).nodup h

theorem mem_remove_of_ne (h : b ∈ l) (hne : name b ≠ k) : b ∈ remove name k l := by
  induction l with
  | nil => cases h
  | cons c l ih =>
    rw [remove]
    obtain rfl | h := mem_cons.mp h
    · rw [if_neg hne]
      exact mem_cons_self
    · split
      · exact h
      · exact mem_cons_of_mem c (ih h)

/-- Removing takes the one with the name. -/
theorem Unique.mem_remove (h : Unique name l) : b ∈ Roster.remove name k l ↔ b ∈ l ∧ name b ≠ k := by
  constructor
  · intro hb
    refine ⟨remove_sublist.mem hb, ?_⟩
    induction l with
    | nil => cases hb
    | cons c l ih =>
      obtain ⟨hc, hl⟩ := nodup_cons.mp h
      rw [Roster.remove] at hb
      split at hb
      · rename_i hname
        rintro rfl
        exact hc (hname ▸ mem_map_of_mem hb)
      · rename_i hname
        obtain rfl | hb := mem_cons.mp hb
        · exact hname
        · exact ih hl hb
  · exact fun hb => mem_remove_of_ne hb.1 hb.2

/-- A removal moves the other entries towards the front, if at all. -/
theorem getElem?_remove_of_ne {i : Nat} (h : l[i]? = some b) (hne : name b ≠ k) :
    ∃ j ≤ i, (remove name k l)[j]? = some b := by
  induction l generalizing i with
  | nil => cases h
  | cons c l ih =>
    rw [remove]
    cases i with
    | zero =>
      obtain rfl : c = b := by simpa using h
      rw [if_neg hne]
      exact ⟨0, Nat.le_refl 0, rfl⟩
    | succ i =>
      rw [getElem?_cons_succ] at h
      split
      · exact ⟨i, Nat.le_succ i, h⟩
      · obtain ⟨j, hj, hget⟩ := ih h
        exact ⟨j + 1, Nat.succ_le_succ hj, hget⟩

end Remove

section Modify

variable {f : A → A} {i : Nat}

omit [DecidableEq K] in
theorem map_name_modify (hf : ∀ a, name (f a) = name a) : (l.modify i f).map name = l.map name := by
  induction l generalizing i with
  | nil => cases i <;> rfl
  | cons c l ih =>
    cases i with
    | zero => rw [modify_zero_cons, map_cons, map_cons, hf]
    | succ i => rw [modify_succ_cons, map_cons, map_cons, ih]

omit [DecidableEq K] in
theorem Unique.modify (h : Unique name l) (hf : ∀ a, name (f a) = name a) : Unique name (l.modify i f) := by
  rw [Unique, map_name_modify hf]
  exact h

/-- What is there after an update was there before or is the updated one. -/
theorem mem_modify (h : b ∈ l.modify i f) : b ∈ l ∨ ∃ a, l[i]? = some a ∧ b = f a := by
  obtain ⟨j, hj⟩ := mem_iff_getElem?.mp h
  rw [getElem?_modify] at hj
  obtain ⟨a, ha, hb⟩ := Option.map_eq_some_iff.mp hj
  by_cases hij : i = j
  · subst hij
    rw [if_pos rfl] at hb
    exact Or.inr ⟨a, ha, hb.symm⟩
  · rw [if_neg hij] at hb
    exact Or.inl (mem_iff_getElem?.mpr ⟨j, hb ▸ ha⟩)

omit [DecidableEq K] in
/-- Another entry of a changed table has another name than the changed one. -/
theorem Unique.mem_modify (h : Unique name l) (ha : l[i]? = some a) (hb : b ∈ l.modify i f) :
    b = f a ∨ b ∈ l ∧ name b ≠ name a := by
  obtain ⟨j, hj⟩ := mem_iff_getElem?.mp hb
  rw [getElem?_modify] at hj
  by_cases hij : i = j
  · subst hij
    rw [ha] at hj
    exact Or.inl (by simpa using hj.symm)
  · have hj : l[j]? = some b := by simpa [hij] using hj
    refine Or.inr ⟨mem_of_getElem? hj, fun hname => hij ?_⟩
    exact h.index_eq ha hj hname.symm

end Modify

end fable.Roster
