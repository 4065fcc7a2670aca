import Mathlib.Data.List.Infix
import Mathlib.Tactic

namespace fable

/-- A stretch of time in which something kept a machine busy. -/
structure Stretch where
  start : Nat
  stop : Nat
  le : start ≤ stop

namespace Stretch

def length (s : Stretch) : Nat := s.stop - s.start

/-- `b` begins no sooner after the end of `a` than `a` was long. -/
def Before (a b : Stretch) : Prop := a.stop + a.length ≤ b.start

/-- The time that a list of stretches takes together. -/
def busy (l : List Stretch) : Nat := (l.map length).sum

@[simp] theorem busy_cons (s : Stretch) (l : List Stretch) : busy (s :: l) = s.length + busy l := by
  simp [busy]

/-- Every stretch is followed by a pause of its own length. -/
def Spaced (l : List Stretch) : Prop := l.Pairwise Before

/-- From the beginning of any stretch to the beginning of any later one, at
    most half of the time is busy. -/
def HalfBusy (l : List Stretch) : Prop :=
  ∀ a mid b, a :: (mid ++ [b]) <:+: l → 2 * busy (a :: mid) ≤ b.start - a.start

theorem Before.start_add {a b : Stretch} (h : a.Before b) : a.start + 2 * a.length ≤ b.start := by
  have hle := a.le
  unfold Before at h
  unfold length at h ⊢
  omega

/-- Between two stretches at least twice the busy time has gone by. -/
theorem Spaced.start_add_busy {a b : Stretch} {mid} (h : Spaced (a :: (mid ++ [b]))) :
    a.start + 2 * busy (a :: mid) ≤ b.start := by
  -- from one stretch to the next; each step pays for the stretch it leaves
  induction mid generalizing a with
  | nil =>
    have hab : a.Before b := List.rel_of_pairwise_cons h (by simp)
    simpa [busy] using hab.start_add
  | cons m mid ih =>
    have ham : a.Before m := List.rel_of_pairwise_cons h (by simp)
    have htail := ih h.of_cons
    have hstep := ham.start_add
    rw [busy_cons]
    omega

/-- Stretches that are each followed by as long a pause are busy half the time at
    most. -/
theorem Spaced.halfBusy {l} (h : Spaced l) : HalfBusy l := by
  intro a mid b hin
  have hpart : Spaced (a :: (mid ++ [b])) := List.Pairwise.sublist hin.sublist h
  have hsum := hpart.start_add_busy
  omega

end Stretch

end fable
