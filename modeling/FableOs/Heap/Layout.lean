import FableOs.Heap.Alloc
import FableOs.Lib.Tiling

namespace fable.heap

open fable.exec

/-! What the block list is for: the arena as a row of cells, each free or in
use, with nothing between them. -/

structure cell_t where
  size : Nat
  free : Bool
  deriving DecidableEq, Repr

abbrev width (c : cell_t) : Nat := HDR + c.size

/-- The link to the block at `x`; there is none at the end of the arena. -/
def link (stop x : Nat) : Nat := if x = stop then 0 else x

/-- The headers of a row of cells that starts at `a`, after the block `prev`,
    in an arena that ends at `stop`. -/
def Seg (m : Mem) (stop : Nat) : Nat → Nat → List cell_t → Prop
  | _, _, [] => True
  | prev, a, c :: rest =>
    header m a = ⟨BLOCK_MAGIC, c.free.toNat, c.size, prev, link stop (a + width c)⟩ ∧
      Seg m stop a (a + width c) rest

section Seg

variable {m m' : Mem} {stop prev a : Nat} {L L' : List cell_t} {c : cell_t}

theorem seg_append :
    Seg m stop prev a (L ++ L') ↔
      Seg m stop prev a L ∧ Seg m stop (lastStart width prev a L) (a + span width L) L' := by
  induction L generalizing prev a with
  | nil => simp [Seg, lastStart]
  | cons c rest ih => simp [Seg, ih, and_assoc, lastStart, Nat.add_assoc]

theorem Seg.congr (h : Seg m stop prev a L) (hsame : ∀ x c, CellAt width a L x c → header m' x = header m x) :
    Seg m' stop prev a L := by
  induction L generalizing prev a with
  | nil => trivial
  | cons c rest ih =>
    refine ⟨?_, ih h.2 fun x d hx => hsame x d (Or.inr hx)⟩
    rw [hsame a c (Or.inl ⟨rfl, rfl⟩)]
    exact h.1

theorem Seg.relink {p : Nat} (h : Seg m stop prev a L)
    (hfirst : L ≠ [] → header m' a = { header m a with prev := p })
    (hrest : ∀ x c, CellAt width a L x c → x ≠ a → header m' x = header m x) : Seg m' stop p a L := by
  cases L with
  | nil => trivial
  | cons c rest =>
    obtain ⟨hhead, htail⟩ := h
    refine ⟨?_, htail.congr ?_⟩
    · rw [hfirst (List.cons_ne_nil _ _), hhead]
    · intro x d hx
      have hbound := hx.bounds.1
      simp only [width, HDR] at hbound
      exact hrest x d (Or.inr hx) (by omega)

theorem Seg.header_eq (h : Seg m stop prev a L) {x : Nat} (hx : CellAt width a L x c) :
    ∃ p, header m x = ⟨BLOCK_MAGIC, c.free.toNat, c.size, p, link stop (x + width c)⟩ := by
  induction L generalizing prev a with
  | nil => exact hx.elim
  | cons d rest ih =>
    rcases hx with ⟨rfl, rfl⟩ | hx
    · exact ⟨prev, h.1⟩
    · exact ih h.2 hx

end Seg

/-- The arena at `base` is laid out as the row `L`. -/
structure Laid (base : Nat) (L : List cell_t) (s : heap_t) : Prop where
  head_eq : s.heap_head = base
  base_pos : 0 < base
  arena_pos : 0 < s.arena_bytes
  arena_eq : s.arena_bytes = span width L
  bound : base + span width L ≤ 2 ^ 60
  seg : Seg s.mem (base + span width L) 0 base L
  aligned : ∀ x c, CellAt width base L x c → x % ALIGN = 0

section Laid

variable {base : Nat} {pre mid mid' post : List cell_t} {c : cell_t} {s s' : heap_t}

theorem Laid.seg_mid (h : Laid base (pre ++ (mid ++ post)) s) :
    Seg s.mem (base + span width (pre ++ (mid ++ post))) (lastStart width 0 base pre) (base + span width pre) mid := by
  have hseg := h.seg
  rw [seg_append, seg_append] at hseg
  exact hseg.2.1

theorem first_or_behind {a x : Nat} {L} (hx : CellAt width a L x c) : x = a ∨ a + HDR ≤ x := by
  cases L with
  | nil => exact hx.elim
  | cons e rest =>
    rcases hx with ⟨rfl, -⟩ | hx
    · exact Or.inl rfl
    · have hbound := hx.bounds.1
      simp only [width] at hbound
      omega

/-- Exchange the middle of the row for another one of the same width. What lies
    behind it is linked to the new last cell. -/
theorem Laid.replace (h : Laid base (pre ++ (mid ++ post)) s) {b e : Nat} (hb : base + span width pre = b)
    (he : b + span width mid = e) (hspan : span width mid' = span width mid) (hhead : s'.heap_head = s.heap_head)
    (harena : s'.arena_bytes = s.arena_bytes) (hframe : ∀ i, i < b ∨ e + HDR ≤ i → s'.mem i = s.mem i)
    (hback : post ≠ [] → header s'.mem e =
      { header s.mem e with prev := lastStart width (lastStart width 0 base pre) b mid' })
    (hmid : Seg s'.mem (e + span width post) (lastStart width 0 base pre) b mid')
    (haligned : ∀ x c, CellAt width b mid' x c → x % ALIGN = 0) : Laid base (pre ++ (mid' ++ post)) s' := by
  subst hb he
  have htotal (mid : List cell_t) : base + span width (pre ++ (mid ++ post)) =
      base + span width pre + span width mid + span width post := by
    rw [span_append, span_append]
    omega
  obtain ⟨hheadEq, hpos, harenaPos, harenaEq, hbound, hseg, haligned₀⟩ := h
  rw [htotal] at hbound
  rw [htotal, seg_append, seg_append] at hseg
  obtain ⟨hsegPre, -, hsegPost⟩ := hseg
  refine ⟨hhead.trans hheadEq, hpos, harena ▸ harenaPos, ?_, ?_, ?_, ?_⟩
  · rw [harena, harenaEq, span_append, span_append, span_append, span_append, hspan]
  · rwa [htotal, hspan]
  · rw [htotal, seg_append, seg_append, hspan]
    refine ⟨hsegPre.congr fun x d hx => header_congr fun i hlo hhi => hframe i (.inl ?_), hmid,
      hsegPost.relink hback fun x d hx hne => header_congr fun i hlo hhi => hframe i (.inr ?_)⟩
    · have hend := hx.bounds.2
      simp only [width] at hend
      omega
    · exact ((first_or_behind hx).resolve_left hne).trans hlo
  · intro x d hx
    rw [cellAt_append, cellAt_append, hspan] at hx
    rcases hx with hx | hx | hx
    · exact haligned₀ x d (cellAt_append.mpr (Or.inl hx))
    · exact haligned x d hx
    · exact haligned₀ x d (cellAt_append.mpr (Or.inr (cellAt_append.mpr (Or.inr hx))))

theorem Laid.at_mid (h : Laid base (pre ++ c :: post) s) :
    header s.mem (base + span width pre) = ⟨BLOCK_MAGIC, c.free.toNat, c.size, lastStart width 0 base pre,
      link (base + span width (pre ++ c :: post)) (base + span width pre + width c)⟩ :=
  (@Laid.seg_mid base pre [c] post s h).1

end Laid

end fable.heap
