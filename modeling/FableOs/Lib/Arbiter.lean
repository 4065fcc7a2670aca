import Mathlib.Data.List.Infix
import Mathlib.Data.List.Rotate
import Mathlib.Tactic

namespace fable.Arbiter

/-! A rotating arbiter: parties in a fixed cyclic order ask for one resource in
turns, and whoever gets it is heard last the next time. -/

open List

variable {A : Type} [DecidableEq A]

/-- One turn as an observer sees it: who asked, and who got the resource. -/
structure Turn (A : Type) where
  asked : A → Bool
  granted : Option A

/-- The parties in the order in which a turn hears them. -/
def order (l : List A) (cursor : Nat) : List A := l.rotate cursor

def winner (l : List A) (cursor : Nat) (free : Bool) (asked : A → Bool) : Option A :=
  if free then (order l cursor).find? asked else none

def next (l : List A) (cursor : Nat) : Option A → Nat
  | none => cursor
  | some a => l.idxOf a + 1

/-- The turns of an arbiter from a cursor on; in each of them the resource may
    be free or not. -/
inductive Turns (l : List A) : Nat → List (Turn A) → Prop where
  | nil (cursor : Nat) : Turns l cursor []
  | cons {cursor : Nat} {t : Turn A} {rest : List (Turn A)} (free : Bool) (hasked : ∀ a, t.asked a = true → a ∈ l)
      (hgranted : t.granted = winner l cursor free t.asked) (hrest : Turns l (next l cursor t.granted) rest) :
      Turns l cursor (t :: rest)

/-- Nobody is heard twice while another party that asked both times is passed
    over. -/
def Fair (turns : List (Turn A)) : Prop :=
  ∀ p mid q, p :: (mid ++ [q]) <:+: turns → ∀ d e, p.granted = some d → q.granted = some d → e ≠ d →
    p.asked e = true → q.asked e = true → ∃ r ∈ p :: (mid ++ [q]), r.granted = some e

/-- A party that asks in two turns, along with another one, asks also in every
    turn between them in which a third party asks. -/
def Steady (turns : List (Turn A)) : Prop :=
  ∀ p mid q, p :: (mid ++ [q]) <:+: turns → ∀ d e, e ≠ d → p.asked d = true → q.asked d = true →
    p.asked e = true → q.asked e = true → ∀ r ∈ mid, ∀ x, x ≠ d → x ≠ e → r.asked x = true → r.asked e = true

omit [DecidableEq A] in
theorem Steady.of_lockstep {turns : List (Turn A)} (h : ∀ t ∈ turns, ∀ u ∈ turns, t.asked = u.asked) :
    Steady turns := by
  intro p mid q hin d e _ _ _ hpe _ r hr x _ _ _
  have hp : p ∈ turns := hin.subset mem_cons_self
  have hr : r ∈ turns := hin.subset (mem_cons_of_mem _ (mem_append_left _ hr))
  rwa [h r hr p hp]

variable {l : List A} {cursor : Nat}

theorem Turns.left {turns more} (h : Turns l cursor (turns ++ more)) : Turns l cursor turns := by
  induction turns generalizing cursor with
  | nil => exact .nil cursor
  | cons t turns ih =>
    cases h with
    | cons free hasked hgranted hrest => exact .cons free hasked hgranted (ih hrest)

theorem Turns.right {turns more} (h : Turns l cursor (turns ++ more)) : ∃ c, Turns l c more := by
  induction turns generalizing cursor with
  | nil => exact ⟨cursor, h⟩
  | cons t turns ih =>
    cases h with
    | cons free hasked hgranted hrest => exact ih hrest

omit [DecidableEq A] in
/-- Who is heard: the first of the order that asks. -/
theorem split_of_winner {free : Bool} {asked} {a : A} (h : winner l cursor free asked = some a) :
    asked a = true ∧ ∃ before after, order l cursor = before ++ a :: after ∧ ∀ b ∈ before, asked b = false := by
  unfold winner at h
  split_ifs at h
  obtain ⟨hask, before, after, horder, hbefore⟩ := find?_eq_some_iff_append.mp h
  exact ⟨hask, before, after, horder, fun b hb => by simpa using hbefore b hb⟩

/-- The party that was heard goes last, behind those that stood before it. -/
theorem order_next {before after : List A} {a : A} (hnodup : l.Nodup) (h : order l cursor = before ++ a :: after) :
    order l (next l cursor (some a)) = after ++ (before ++ [a]) := by
  have hget : (order l cursor)[before.length]? = some a := by simp [h]
  rw [order] at hget
  obtain ⟨hlt, hget⟩ := List.getElem?_eq_some_iff.mp hget
  rw [getElem_rotate] at hget
  have hidx : l.idxOf a = (before.length + cursor) % l.length := by
    rw [← hget]
    exact hnodup.idxOf_getElem _ _
  calc order l (next l cursor (some a))
    _ = l.rotate (cursor + (before.length + 1)) := by
      rw [order, next, hidx, ← rotate_mod, Nat.mod_add_mod, rotate_mod]
      congr 1
      omega
    _ = (order l cursor).rotate (before ++ [a]).length := by rw [order, rotate_rotate, length_append, length_singleton]
    _ = after ++ (before ++ [a]) := by rw [h, append_cons, rotate_append_length_eq]

/-- Everybody else stands in front of the party that was heard. -/
theorem front_of_heard {d e : A} {before after : List A} (hnodup : l.Nodup) (he : e ∈ l) (hne : e ≠ d)
    (h : order l cursor = before ++ d :: after) : [e, d] <+ order l (next l cursor (some d)) := by
  have hmem : e ∈ before ++ d :: after := h ▸ mem_rotate.mpr he
  have hothers : e ∈ after ++ before := by
    simp only [mem_append, mem_cons, hne, false_or] at hmem ⊢
    exact hmem.symm
  rw [order_next hnodup h, ← append_assoc]
  exact (singleton_sublist.mpr hothers).append (Sublist.refl [d])

omit [DecidableEq A] in
/-- A party that asks does not stand before the one that is heard. -/
theorem sublist_after_of_quiet {d e x : A} {before after : List A} {asked : A → Bool}
    (horder : order l cursor = before ++ x :: after) (hbefore : ∀ b ∈ before, asked b = false)
    (hask : asked e = true) (hne : e ≠ x) (hfront : [e, d] <+ order l cursor) : [e, d] <+ after := by
  rw [horder] at hfront
  obtain ⟨front, back, hsplit, hfront, hback⟩ := sublist_append_iff.mp hfront
  cases front with
  | nil =>
    rw [nil_append] at hsplit
    rw [← hsplit] at hback
    cases hback with
    | cons _ hback => exact hback
    | cons_cons => exact absurd rfl hne
  | cons b front =>
    obtain rfl : e = b := (cons.inj hsplit).1
    rw [hbefore e (hfront.subset mem_cons_self)] at hask
    cases hask

/-- Once `d` was heard, `e` stands in front of it, and stays there until it is
    heard itself, as long as it asks whenever a third one could be heard. -/
theorem Turns.heard_between {d e : A} {mid q} (hnodup : l.Nodup) (he : e ∈ l) (hne : e ≠ d)
    (hsteady : ∀ r ∈ mid, ∀ x, x ≠ d → x ≠ e → r.asked x = true → r.asked e = true)
    (hfront : [e, d] <+ order l cursor) (h : Turns l cursor (mid ++ [q])) (hq : q.granted = some d)
    (hask : q.asked e = true) : ∃ r ∈ mid, r.granted = some e := by
  induction mid generalizing cursor with
  | nil =>
    cases h with
    | cons free hasked hgranted hrest =>
      -- `q` heard `d` although `e` stands before it and asks
      obtain ⟨-, before, after, horder, hbefore⟩ := split_of_winner (hgranted.symm.trans hq)
      have hfresh : (before ++ d :: after).Nodup := horder ▸ nodup_rotate.mpr hnodup
      have hlast : [e, d] <+ after := sublist_after_of_quiet horder hbefore hask hne hfront
      have hd : d ∉ after := (nodup_cons.mp (nodup_append.mp hfresh).2.1).1
      exact absurd (hlast.subset (by simp)) hd
  | cons m mid ih =>
    cases h with
    | cons free hasked hgranted hrest =>
      have hrest' : ∀ r ∈ mid, ∀ x, x ≠ d → x ≠ e → r.asked x = true → r.asked e = true :=
        fun r hr => hsteady r (mem_cons_of_mem _ hr)
      suffices hlater : m.granted = some e ∨ [e, d] <+ order l (next l cursor m.granted) by
        obtain hm | hfront := hlater
        · exact ⟨m, mem_cons_self, hm⟩
        · obtain ⟨r, hr, hre⟩ := ih hrest' hfront hrest
          exact ⟨r, mem_cons_of_mem _ hr, hre⟩
      cases hm : m.granted with
      | none => exact .inr hfront
      | some x =>
        by_cases hxe : x = e
        · exact .inl (by rw [hxe])
        obtain ⟨hx, before, after, horder, hbefore⟩ := split_of_winner (hgranted.symm.trans hm)
        refine .inr ?_
        by_cases hxd : x = d
        · rw [hxd]
          exact front_of_heard hnodup he hne (hxd ▸ horder)
        · have hafter : [e, d] <+ after :=
            sublist_after_of_quiet horder hbefore (hsteady m mem_cons_self x hxd hxe hx) (Ne.symm hxe) hfront
          rw [order_next hnodup horder]
          exact hafter.trans (sublist_append_left _ _)

/-- The rotation is fair as long as the parties ask steadily. -/
theorem Turns.fair {turns} (h : Turns l cursor turns) (hnodup : l.Nodup) (hsteady : Steady turns) : Fair turns := by
  intro p mid q hin d e hp hq hne hpe hqe
  have hmid := hsteady p mid q hin d e hne
  obtain ⟨start, rest, hsplit⟩ := hin
  rw [← hsplit, append_assoc] at h
  obtain ⟨c, hpart⟩ := h.right
  have hpart := hpart.left
  cases hpart with
  | cons free hasked hgranted hrest =>
    obtain ⟨hpd, before, after, horder, -⟩ := split_of_winner (hgranted.symm.trans hp)
    have hqd : q.asked d = true := by
      obtain ⟨_, hlast⟩ := hrest.right
      cases hlast with
      | cons _ _ hgranted _ => exact (split_of_winner (hgranted.symm.trans hq)).1
    have he : e ∈ l := hasked e hpe
    rw [hp] at hrest
    obtain ⟨r, hr, hre⟩ := Turns.heard_between hnodup he hne (hmid hpd hqd hpe hqe)
      (front_of_heard hnodup he hne horder) hrest hq hqe
    exact ⟨r, mem_cons_of_mem _ (mem_append_left _ hr), hre⟩

end fable.Arbiter
