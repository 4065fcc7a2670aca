import FableOs.Lib.CArray
import Mathlib.Computability.Language
import Mathlib.Data.List.TakeWhile

namespace fable

/-! Hand-written scanners against the languages they are meant for. A scanner
takes what is left of the input and returns what is left behind the part it
has accepted. -/

open List Language

abbrev Scanner (E A : Type) := List A → Except E (List A)

section Languages

variable {A : Type}

/-- One word only. -/
def word (t : List A) : Language A := {x | x = t}

/-- One letter of a class. -/
def letter (p : A → Prop) : Language A := {x | ∃ c, p c ∧ x = [c]}

/-- Any number of letters of a class. -/
def letters (p : A → Prop) : Language A := {x | ∀ c ∈ x, p c}

/-- One word, if it is in the language. -/
def only (l : Language A) (t : List A) : Language A := {x | x = t ∧ t ∈ l}

@[simp] theorem mem_only {l} {t x : List A} : x ∈ only l t ↔ x = t ∧ t ∈ l := Iff.rfl

@[simp] theorem mem_word {t x : List A} : x ∈ word t ↔ x = t := Iff.rfl

@[simp] theorem mem_letter {p} {x : List A} : x ∈ letter p ↔ ∃ c, p c ∧ x = [c] := Iff.rfl

theorem letter_eq {c : A} : letter (· = c) = word [c] := by
  ext x
  simp

@[simp] theorem mem_letters {p} {x : List A} : x ∈ letters p ↔ ∀ c ∈ x, p c := Iff.rfl

/-- Words separated by a letter, with the list of what they stand for. -/
inductive SepBy {I : Type} (item : I → Language A) (sep : A) : List I → List A → Prop
  | one {a : I} {t : List A} (h : t ∈ item a) : SepBy item sep [a] t
  | cons {a : I} {as : List I} {t rest : List A} (h : t ∈ item a) (hrest : SepBy item sep as rest) :
      SepBy item sep (a :: as) (t ++ sep :: rest)

section SepBy

variable {I : Type} {item : I → Language A} {sep : A} {as : List I} {t : List A}

/-- There are at most as many items as letters, and one. -/
theorem SepBy.length_le (h : SepBy item sep as t) : as.length ≤ t.length + 1 := by
  induction h with
  | one _ => exact Nat.le_add_left _ _
  | cons _ _ ih =>
    simp only [length_cons, length_append]
    omega

theorem SepBy.mono {item'} (h : SepBy item sep as t) (hle : ∀ a t, t ∈ item a → t ∈ item' a) :
    SepBy item' sep as t := by
  induction h with
  | one h => exact .one (hle _ _ h)
  | cons h _ ih => exact .cons (hle _ _ h) ih

/-- The first item may be written in any other way it has. -/
theorem SepBy.first (h : SepBy item sep as t) :
    ∃ a v tail, v ∈ item a ∧ t = v ++ tail ∧ ∀ v' ∈ item a, SepBy item sep as (v' ++ tail) := by
  cases h with
  | @one a t ht =>
    refine ⟨a, t, [], ht, (append_nil t).symm, fun v' hv' => ?_⟩
    rw [append_nil]
    exact .one hv'
  | @cons a as t rest ht hrest => exact ⟨a, t, sep :: rest, ht, rfl, fun v' hv' => .cons hv' hrest⟩

/-- Words with the separator behind each of them. -/
def led (sep : A) (ts : List (List A)) : List A := ts.flatMap (· ++ [sep])

@[simp] theorem led_nil : led sep ([] : List (List A)) = [] := rfl

@[simp] theorem led_cons {x ts} : led sep (x :: ts) = x ++ sep :: led sep ts := by
  simp [led]

@[simp] theorem led_append {ts ts'} : led sep (ts ++ ts') = led sep ts ++ led sep ts' := flatMap_append

theorem sepBy_led {ts} (hts : ∀ x ∈ ts, ∃ a, x ∈ item a) {a : I} (ht : t ∈ item a) :
    ∃ as, SepBy item sep as (led sep ts ++ t) := by
  induction ts with
  | nil => exact ⟨[a], .one ht⟩
  | cons x ts ih =>
    obtain ⟨b, hb⟩ := hts x mem_cons_self
    obtain ⟨as, has⟩ := ih fun y hy => hts y (mem_cons_of_mem x hy)
    refine ⟨b :: as, ?_⟩
    rw [led_cons, append_assoc, cons_append]
    exact .cons hb has

end SepBy

/-- Nothing that begins with a letter of the class is left. -/
def Clear (p : A → Bool) (r : List A) : Prop := ∀ c ∈ r.head?, p c = false

theorem clear_nil (p : A → Bool) : Clear p [] := by
  intro c hc
  cases hc

theorem clear_cons {p} {c : A} {r} : Clear p (c :: r) ↔ p c = false := by
  simp [Clear]

theorem clear_append {p} {w r : List A} (hw : Clear p w) (hr : w = [] → Clear p r) : Clear p (w ++ r) := by
  cases w with
  | nil => exact hr rfl
  | cons c rest => exact clear_cons.mpr (clear_cons.mp hw)

theorem Clear.mono {p q} {r : List A} (h : Clear q r) (hpq : ∀ c, p c = true → q c = true) : Clear p r := by
  intro c hc
  by_contra hp
  rw [Bool.not_eq_false] at hp
  have hq := hpq c hp
  cases (h c hc).symm.trans hq

theorem dropWhile_of_clear {p} {r : List A} (h : Clear p r) : r.dropWhile p = r := by
  cases r with
  | nil => rfl
  | cons c rest => exact dropWhile_cons_of_neg (by rw [clear_cons.mp h]; exact Bool.false_ne_true)

/-- Skipping a class of letters takes all of them and stops at the first other. -/
theorem dropWhile_append_of_clear {p} {w r : List A} (hw : ∀ c ∈ w, p c = true) (hr : Clear p r) :
    (w ++ r).dropWhile p = r := by
  rw [dropWhile_append_of_pos hw, dropWhile_of_clear hr]

theorem dropWhile_split (p : A → Bool) (r : List A) : ∃ w, (∀ c ∈ w, p c = true) ∧ r = w ++ r.dropWhile p :=
  ⟨r.takeWhile p, fun _ hc => mem_takeWhile_imp hc, takeWhile_append_dropWhile.symm⟩

/-- Of the letters with a property one is the first. -/
theorem exists_first {p : A → Prop} {w} (h : ∃ c ∈ w, p c) :
    ∃ before c after, w = before ++ c :: after ∧ p c ∧ ∀ d ∈ before, ¬ p d := by
  classical
  obtain ⟨c, hc⟩ : ∃ c, w.find? (p ·) = some c := Option.isSome_iff_exists.mp (by simpa using h)
  obtain ⟨hfirst, before, after, rfl, hbefore⟩ := find?_eq_some_iff_append.mp hc
  exact ⟨before, c, after, rfl, by simpa using hfirst, by simpa using hbefore⟩

end Languages

namespace Scanner

variable {E A : Type} {f g : Scanner E A} {l m : Language A} {F F' : List A → Prop}

theorem ok_bind {B : Type} (q : List A) (k : List A → Except E B) : ((Except.ok q : Except E (List A)) >>= k) = k q := rfl

/-- What the scanner accepts is a word of the language. -/
def Sound (f : Scanner E A) (l : Language A) : Prop := ∀ p r, f p = .ok r → ∃ v ∈ l, p = v ++ r

/-- The scanner accepts every word of the language, and no more than it, when
    what follows cannot be taken for a part of it. -/
def Complete (f : Scanner E A) (l : Language A) (F : List A → Prop) : Prop :=
  ∀ v r, v ∈ l → F r → f (v ++ r) = .ok r

theorem Sound.length_le (h : Sound f l) {p r} (hf : f p = .ok r) : r.length ≤ p.length := by
  obtain ⟨v, -, rfl⟩ := h p r hf
  rw [length_append]
  omega

/-- Scanners in a row take a concatenation. -/
theorem Sound.bind (hf : Sound f l) (hg : Sound g m) : Sound (fun p => f p >>= g) (l * m) := by
  intro p r hrun
  obtain ⟨q, hfp, hgq⟩ := except_bind_eq_ok_iff.mp hrun
  obtain ⟨v, hv, rfl⟩ := hf p q hfp
  obtain ⟨w, hw, rfl⟩ := hg q r hgq
  exact ⟨v ++ w, mem_mul.mpr ⟨v, hv, w, hw, rfl⟩, (append_assoc v w r).symm⟩

/-- They take all of it if what follows the first part does not lengthen it. -/
theorem Complete.bind (hf : Complete f l F) (hg : Complete g m F') (hfollow : ∀ w r, w ∈ m → F' r → F (w ++ r)) :
    Complete (fun p => f p >>= g) (l * m) F' := by
  intro x r hx hr
  obtain ⟨v, hv, w, hw, rfl⟩ := mem_mul.mp hx
  have hrun := hf v (w ++ r) hv (hfollow w r hw hr)
  simp only [append_assoc, hrun]
  exact hg w r hw hr

theorem sound_ok : Sound (.ok : Scanner E A) 1 := by
  intro p r hrun
  cases hrun
  exact ⟨[], rfl, rfl⟩

theorem complete_ok : Complete (.ok : Scanner E A) 1 F := by
  rintro _ r rfl _
  rfl

variable {c : A → Prop} [DecidablePred c]

/-- What `f` takes behind a letter of a class, or else what `g` takes. -/
def either (c : A → Prop) [DecidablePred c] (f g : Scanner E A) : Scanner E A
  | [] => g []
  | a :: p => if c a then f p else g (a :: p)

/-- A scanner that looks at one letter takes the one language or the other. -/
theorem Sound.either (hf : Sound f l) (hg : Sound g m) : Sound (either c f g) (letter c * l + m) := by
  intro p r hrun
  have hother (hrun : g p = .ok r) : ∃ v ∈ letter c * l + m, p = v ++ r := by
    obtain ⟨v, hv, heq⟩ := hg p r hrun
    exact ⟨v, Or.inr hv, heq⟩
  cases p with
  | nil => exact hother hrun
  | cons a p =>
    rw [Scanner.either] at hrun
    split at hrun
    · next ha =>
      obtain ⟨v, hv, rfl⟩ := hf p r hrun
      exact ⟨a :: v, Or.inl (mem_mul.mpr ⟨[a], ⟨a, ha, rfl⟩, v, hv, rfl⟩), rfl⟩
    · exact hother hrun

theorem Complete.either (hf : Complete f l F) (hg : Complete g m F') (hle : ∀ r, F' r → F r)
    (hother : ∀ v r, v ∈ m → F' r → ∀ a ∈ (v ++ r).head?, ¬ c a) : Complete (either c f g) (letter c * l + m) F' := by
  intro x r hx hr
  rcases hx with hx | hx
  · obtain ⟨_, ⟨a, ha, rfl⟩, v, hv, rfl⟩ := mem_mul.mp hx
    rw [append_assoc, cons_append, nil_append, Scanner.either, if_pos ha]
    exact hf v r hv (hle r hr)
  · have hno := hother x r hx hr
    have hrun := hg x r hx hr
    cases hs : x ++ r with
    | nil => rwa [hs] at hrun
    | cons a s =>
      rw [hs] at hno hrun
      rwa [Scanner.either, if_neg (hno a rfl)]

/-- Over a letter of a class, if there is one. -/
def skip (c : A → Prop) [DecidablePred c] : List A → List A
  | [] => []
  | a :: p => if c a then p else a :: p

theorem skip_eq : (fun p => (.ok (skip c p) : Except E (List A))) = either c .ok .ok := by
  funext p
  cases p with
  | nil => rfl
  | cons a p => exact apply_ite Except.ok (c a) p (a :: p)

theorem sound_skip : Sound (fun p => (.ok (skip c p) : Except E (List A))) (letter c + 1) := by
  rw [skip_eq, ← mul_one (letter c)]
  exact sound_ok.either sound_ok

theorem complete_skip :
    Complete (fun p => (.ok (skip c p) : Except E (List A))) (letter c + 1) fun r => ∀ a ∈ r.head?, ¬ c a := by
  rw [skip_eq, ← mul_one (letter c)]
  refine complete_ok.either complete_ok (fun _ => id) ?_
  rintro _ r rfl hr
  exact hr

end Scanner

end fable
