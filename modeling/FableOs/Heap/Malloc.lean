import FableOs.Heap.Free

namespace fable.heap

open fable.exec List Exec

section Walk

variable {base : Nat} {L pre post : List cell_t} {c : cell_t} {s : heap_t}

/-- Every block takes up at least its header, so the walk over a heap in order
    ends within `max_blocks` steps. -/
theorem length_lt_max_blocks (h : Laid base L s) : L.length < max_blocks s := by
  have hlength (L : List cell_t) : HDR * L.length ≤ span width L := by
    induction L with
    | nil => exact Nat.zero_le _
    | cons c rest ih =>
      simp only [length_cons, span_cons, width, HDR] at ih ⊢
      omega
  have hL := hlength L
  rw [← h.arena_eq] at hL
  simp only [max_blocks, HDR] at hL ⊢
  omega

/-- A walk over the row has ended behind the last cell, ... -/
theorem link_end (base : Nat) (pre : List cell_t) :
    link (base + span width (pre ++ [])) (base + span width pre) = 0 := by
  rw [append_nil]
  exact if_pos rfl

/-- ... is at a cell that is still to come, ... -/
theorem link_here (base : Nat) (pre post : List cell_t) (c : cell_t) :
    link (base + span width (pre ++ c :: post)) (base + span width pre) = base + span width pre := by
  refine if_neg ?_
  simp only [span_append, span_cons, width, HDR]
  omega

/-- ... and goes on to the next one. -/
theorem Laid.next_eq (h : Laid base (pre ++ c :: post) s) :
    (header s.mem (base + span width pre)).next =
      link (base + span width ((pre ++ [c]) ++ post)) (base + span width (pre ++ [c])) := by
  have hrow : pre ++ c :: post = (pre ++ [c]) ++ post := by simp
  rw [h.at_mid, ← hrow, span_append pre [c], span_cons, span_nil, Nat.add_zero, Nat.add_assoc]

/-- The first-fit loop stops in the state it started in: the plan turns every
    block of the row down, or it accepts one and none of those before it. -/
theorem find_block_from {A : Type} {plan : Nat → block_t → Option A} {oom : String} (h : Laid base (pre ++ L) s)
    {fuel : Nat} (hfuel : L.length < fuel) :
    (∀ x c, CellAt width (base + span width pre) L x c → plan x (header s.mem x) = none) ∧
        find_block plan oom fuel (link (base + span width (pre ++ L)) (base + span width pre)) s = .stop oom s ∨
      ∃ front c back a, L = front ++ c :: back ∧
        (∀ x d, CellAt width (base + span width pre) front x d → plan x (header s.mem x) = none) ∧
        plan (base + span width (pre ++ front)) (header s.mem (base + span width (pre ++ front))) = some a ∧
        find_block plan oom fuel (link (base + span width (pre ++ L)) (base + span width pre)) s =
          .ok (base + span width (pre ++ front), a) s := by
  induction L generalizing pre fuel with
  | nil =>
    obtain ⟨fuel, rfl⟩ : ∃ k, fuel = k + 1 := ⟨fuel - 1, by simp only [length_nil] at hfuel; omega⟩
    left
    rw [link_end]
    exact ⟨fun x c hx => hx.elim, rfl⟩
  | cons c rest ih =>
    obtain ⟨fuel, rfl⟩ : ∃ k, fuel = k + 1 := ⟨fuel - 1, by simp only [length_cons] at hfuel; omega⟩
    have hrow : pre ++ c :: rest = (pre ++ [c]) ++ rest := by simp
    have hpos := h.base_pos
    have hnext : base + span width (pre ++ [c]) = base + span width pre + width c := by
      rw [span_append, span_cons, span_nil, Nat.add_zero, Nat.add_assoc]
    rw [link_here]
    simp only [find_block, if_neg (show base + span width pre ≠ 0 by omega), bind_apply, read_apply]
    cases hplan : plan (base + span width pre) (header s.mem (base + span width pre)) with
    | some a =>
      refine .inr ⟨[], c, rest, a, rfl, fun x d hx => hx.elim, ?_⟩
      rw [append_nil]
      exact ⟨hplan, rfl⟩
    | none =>
      have hlater {L} (hL : ∀ x d, CellAt width (base + span width (pre ++ [c])) L x d → plan x (header s.mem x) = none) :
          ∀ x d, CellAt width (base + span width pre) (c :: L) x d → plan x (header s.mem x) = none := by
        rintro x d (⟨rfl, rfl⟩ | hx)
        · exact hplan
        · exact hL x d (hnext ▸ hx)
      simp only [h.next_eq]
      rw [hrow] at h
      rcases ih h (Nat.lt_of_succ_lt_succ hfuel) with ⟨hnone, hrun⟩ | ⟨front, d, back, a, rfl, hnone, hrun⟩
      · exact .inl ⟨hlater hnone, hrun⟩
      · rw [append_assoc, singleton_append] at hrun
        exact .inr ⟨c :: front, d, back, a, rfl, hlater hnone, hrun⟩

/-- The walk starts at the head of the list. -/
theorem Laid.link_start (h : Laid base L s) :
    link (base + span width ([] ++ L)) (base + span width []) = s.heap_head := by
  have harena := h.arena_pos
  rw [h.arena_eq] at harena
  rw [h.head_eq]
  refine if_neg ?_
  simp only [nil_append, span_nil]
  omega

theorem find_block_spec {A : Type} (plan : Nat → block_t → Option A) (oom : String) (h : Laid base L s) :
    (∀ x c, CellAt width base L x c → plan x (header s.mem x) = none) ∧
        find_block plan oom (max_blocks s) s.heap_head s = .stop oom s ∨
      ∃ pre c post a, L = pre ++ c :: post ∧ (∀ x d, CellAt width base pre x d → plan x (header s.mem x) = none) ∧
        plan (base + span width pre) (header s.mem (base + span width pre)) = some a ∧
        find_block plan oom (max_blocks s) s.heap_head s = .ok (base + span width pre, a) s := by
  have hwalk := @find_block_from base L [] s A plan oom h _ (length_lt_max_blocks h)
  rw [h.link_start] at hwalk
  exact hwalk

end Walk

/-- What an allocation of `n` bytes at the block `b` does: the heap is in order,
    the new block was not in use and has the bytes, and everything else is as
    it was. -/
structure Allocated (base b n : Nat) (L : List cell_t) (s : heap_t) (L' : List cell_t) (s' : heap_t) : Prop where
  rep : Rep base L' s'
  others : Others base b L s.mem L' s'.mem
  fresh : ¬ LiveAt base L b
  room : ∃ c, CellAt width base L' b c ∧ c.free = false ∧ n ≤ c.size

section Rows

variable {base : Nat} {L pre post : List cell_t} {c : cell_t} {s s' : heap_t}

theorem round_request_spec (h : Laid base L s) {n want : Nat} (hwant : round_request s n = some want) :
    n ≤ want ∧ want % ALIGN = 0 ∧ want < 2 ^ 61 := by
  have hbound := h.bound
  have harena := h.arena_eq
  have hle : n ≤ if n = 0 then 1 else n := by split <;> omega
  unfold round_request at hwant
  generalize (if n = 0 then 1 else n) = k at hwant hle
  by_cases hroom : s.arena_bytes < k
  · cases (if_pos hroom).symm.trans hwant
  · cases (if_neg hroom).symm.trans hwant
    obtain ⟨hlo, hhi, halign⟩ := @align_request k (by omega)
    exact ⟨hle.trans hlo, halign, by omega⟩

theorem settled_remainder {need : Nat} (hpost : Settled post) (hnext : ∀ d ∈ post.head?, d.free = false) :
    Settled (remainder c need ++ post) := by
  unfold remainder
  split
  · exact hpost
  · refine (@settled_middle [] post _).mpr ⟨isChain_nil, hpost, fun _ => ⟨by simp, hnext⟩⟩

theorem Taken.allocated {n want : Nat} (h : Taken base (base + span width pre) want pre post c s s')
    (hfree : c.free = true) (hpre : Settled pre) (hpost : Settled post) (hnext : ∀ d ∈ post.head?, d.free = false)
    (hn : n ≤ want) (hwant : want ≤ c.size) :
    Allocated base (base + span width pre) n (pre ++ c :: post) s
      (pre ++ ⟨kept c want, false⟩ :: (remainder c want ++ post)) s' := by
  refine ⟨⟨h.laid, ?_, h.counted⟩, h.others, not_liveAt_of_free hfree, ?_⟩
  · rw [settled_used rfl]
    exact ⟨hpre, settled_remainder hpost hnext⟩
  · exact ⟨_, cellAt_middle base pre _ _, rfl, hn.trans (le_kept hwant)⟩

/-- The cell is free and has the bytes. -/
def Offers (n : Nat) (c : cell_t) : Prop := c.free = true ∧ n ≤ c.size

theorem fits_eq_none_iff {want x : Nat} (h : Laid base L s) (hx : CellAt width base L x c) :
    fits want x (header s.mem x) = none ↔ ¬ Offers want c := by
  obtain ⟨p, hhead⟩ := h.seg.header_eq hx
  rw [hhead, fits, Offers]
  cases c.free <;> simp

/-- No cell offers the rounded request, and `kmalloc` panics; or some do, and the
    first of them is taken and what it has too much stays free behind it. -/
def FirstFit (default_arena base n : Nat) (L : List cell_t) (s : heap_t) : Prop :=
  (∀ want, round_request s n = some want → ∀ c ∈ L, ¬ Offers want c) ∧
      kmalloc default_arena n s = .stop "kmalloc: out of memory" s ∨
    ∃ want pre c post s', round_request s n = some want ∧ L = pre ++ c :: post ∧ (∀ d ∈ pre, ¬ Offers want d) ∧
      Offers want c ∧ kmalloc default_arena n s = .ok (base + span width pre + HDR) s' ∧
      Allocated base (base + span width pre) n L s (pre ++ ⟨kept c want, false⟩ :: (remainder c want ++ post)) s'

theorem kmalloc_fits (h : Rep base L s) (default_arena n : Nat) : FirstFit default_arena base n L s := by
  obtain ⟨hlaid, hsettled, hcounted⟩ := h
  simp only [FirstFit, kmalloc, bind_apply, ensure_init_of_laid hlaid, read_apply]
  cases hround : round_request s n with
  | none => exact .inl ⟨by rintro _ ⟨⟩, rfl⟩
  | some want =>
    obtain ⟨hn, halign, -⟩ := round_request_spec hlaid hround
    rcases find_block_spec (fits want) "kmalloc: out of memory" hlaid with
      ⟨hnone, hrun⟩ | ⟨pre, c, post, a, rfl, hnone, hfits, hrun⟩
    · refine .inl ⟨?_, by simp only [bind_apply, hrun]⟩
      rintro _ ⟨⟩ c hc
      obtain ⟨pre, post, rfl⟩ := append_of_mem hc
      have hat : CellAt width base _ _ c := cellAt_middle base pre c post
      exact (fits_eq_none_iff hlaid hat).mp (hnone _ _ hat)
    · have hoffers : Offers want c := by
        by_contra hno
        rw [(fits_eq_none_iff hlaid (cellAt_middle base pre c post)).mpr hno] at hfits
        cases hfits
      obtain ⟨hpre, hpost, hpair⟩ := settled_middle.mp hsettled
      have htaken := use_block_spec hlaid hcounted hoffers.1 hoffers.2 halign
      refine .inr ⟨want, pre, c, post, _, rfl, rfl, fun d hd => ?_, hoffers, ?_,
        htaken.allocated hoffers.1 hpre hpost (hpair hoffers.1).2 hn hoffers.2⟩
      · obtain ⟨front, back, rfl⟩ := append_of_mem hd
        have hat : CellAt width base _ _ d := cellAt_middle base front d back
        exact (fits_eq_none_iff hlaid (cellAt_append.mpr (.inl hat))).mp (hnone _ _ hat)
      · simp [bind_apply, hrun, payload_of]

theorem kmalloc_spec (h : Rep base L s) (default_arena n : Nat) :
    kmalloc default_arena n s = .stop "kmalloc: out of memory" s ∨
      ∃ b L' s', kmalloc default_arena n s = .ok (b + HDR) s' ∧ Allocated base b n L s L' s' := by
  obtain ⟨-, hrun⟩ | ⟨want, pre, c, post, s', -, -, -, -, hrun, halloc⟩ := kmalloc_fits h default_arena n
  · exact .inl hrun
  · exact .inr ⟨_, _, s', hrun, halloc⟩

theorem Rep.write (h : Rep base L s) {x : Nat} {m : Mem} (hx : CellAt width base L x c)
    (hmem : ∀ i, i < x + HDR ∨ x + width c ≤ i → m i = s.mem i) :
    Rep base L { s with mem := m } ∧ Others base x L s.mem L m := by
  refine ⟨⟨h.laid.write hx rfl rfl hmem, h.settled, h.counted.in_use, h.counted.used, h.counted.free⟩, ?_⟩
  intro y hne d _
  refine ⟨Iff.rfl, fun hy i hlo hhi => hmem i ?_⟩
  rcases hx.apart hy with ⟨rfl, -⟩ | hbefore | hafter
  · exact absurd rfl hne
  · right
    omega
  · left
    omega

theorem kcalloc_spec (h : Rep base L s) (default_arena count size : Nat) :
    (∃ text, kcalloc default_arena count size s = .stop text s) ∨
      ∃ b L' s', kcalloc default_arena count size s = .ok (b + HDR) s' ∧ Allocated base b (count * size) L s L' s' := by
  simp only [kcalloc]
  by_cases hwrap : size ≠ 0 ∧ count * size % SIZE_RANGE / size ≠ count
  · left
    refine ⟨"kcalloc: size overflow", ?_⟩
    simp only [if_pos hwrap]
    rfl
  · have htotal : count * size % SIZE_RANGE = count * size := by
      by_cases hsize : size = 0
      · rw [hsize, Nat.mul_zero, Nat.zero_mod]
      · have hcount : count * size % SIZE_RANGE / size = count := by
          by_contra hne
          exact hwrap ⟨hsize, hne⟩
        have hback := Nat.div_mul_le_self (count * size % SIZE_RANGE) size
        rw [hcount] at hback
        exact le_antisymm (Nat.mod_le _ _) hback
    rw [htotal] at hwrap ⊢
    simp only [if_neg hwrap, bind_apply]
    rcases kmalloc_spec h default_arena (count * size) with hrun | ⟨b, L', s', hrun, halloc⟩
    · left
      refine ⟨"kmalloc: out of memory", ?_⟩
      rw [hrun]
    · right
      obtain ⟨c, hc, hused, hroom⟩ := halloc.room
      obtain ⟨hrep, hothers⟩ := halloc.rep.write (m := s'.mem.fill (b + HDR) 0 (count * size)) hc
        fun i hi => Mem.fill_of_outside (by simp only [width] at hi; omega)
      refine ⟨b, L', _, ?_, hrep, halloc.others.trans hothers, halloc.fresh, ⟨c, hc, hused, hroom⟩⟩
      rw [hrun]
      rfl

end Rows

end fable.heap
