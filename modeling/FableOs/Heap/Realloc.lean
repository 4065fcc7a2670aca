import FableOs.Heap.Malloc

namespace fable.heap

open fable.exec List Exec

section InPlace

variable {base : Nat} {L pre post : List cell_t} {c d : cell_t} {s s' : heap_t}

theorem Laid.of_eq (h : Laid base L s) (hmem : s'.mem = s.mem) (hhead : s'.heap_head = s.heap_head)
    (harena : s'.arena_bytes = s.arena_bytes) : Laid base L s' :=
  ⟨hhead ▸ h.head_eq, h.base_pos, harena ▸ h.arena_pos, harena ▸ h.arena_eq, h.bound, hmem ▸ h.seg, h.aligned⟩

/-- The block `b` was resized where it is: it has `size` bytes now, those that
    it had before among them are as they were, and so is everything else. -/
structure InPlace (base b size : Nat) (c : cell_t) (L : List cell_t) (s : heap_t) (L' : List cell_t)
    (s' : heap_t) : Prop where
  rep : Rep base L' s'
  others : Others base b L s.mem L' s'.mem
  cell : CellAt width base L' b ⟨size, false⟩
  contents : ∀ i, b + HDR ≤ i → i < b + HDR + size → i < b + HDR + c.size → s'.mem i = s.mem i

/-- The remainder `r` that was split off a live block of `old` bytes is counted
    and merged with what follows it; no allocation notices. -/
theorem follow_split_spec {r} (h : Laid base (pre ++ c :: r :: post) s) (hused : c.free = false)
    (hfree : r.free = true) (hpre : Settled pre) (hpost : Settled post) {old : Nat} (hold : c.size < old)
    (hold' : old < 2 ^ 63) (hin : s.stat_in_use = inUse (pre ++ c :: r :: post) + (old - c.size))
    (husedBlocks : s.stat_used_blocks = usedCount (pre ++ c :: r :: post))
    (hfreeBlocks : s.stat_free_blocks = freeCount (pre ++ c :: r :: post)) :
    ∃ L' s', follow_split (base + span width pre) old s = .ok () s' ∧ Rep base L' s' ∧
      ∀ ex, Others base ex (pre ++ c :: r :: post) s.mem L' s'.mem := by
  have hrow : pre ++ c :: r :: post = (pre ++ [c]) ++ r :: post := by simp
  have hsize : (header s.mem (base + span width pre)).size = c.size := by rw [h.placed.head]
  have hnext : (header s.mem (base + span width pre)).next = base + span width (pre ++ [c]) := by
    rw [h.placed.head]
    simp only [reduceCtorEq, if_false, span_append, span_cons, span_nil]
    omega
  have hnextPos : base + span width (pre ++ [c]) ≠ 0 := by
    have hpos := h.base_pos
    omega
  have hcounts := counts_lt h
  -- the state in which the remainder is looked at
  obtain ⟨s₁, hs₁⟩ : ∃ s₁, s₁ = { s with stat_in_use := wsub s.stat_in_use (wsub old c.size) } := ⟨_, rfl⟩
  have hlaid₁ : Laid base ((pre ++ [c]) ++ r :: post) s₁ := by
    rw [← hrow]
    exact h.of_eq (by rw [hs₁]) (by rw [hs₁]) (by rw [hs₁])
  have hcounted₁ : Counted ((pre ++ [c]) ++ r :: post) s₁ := by
    rw [← hrow, hs₁]
    refine ⟨?_, husedBlocks, hfreeBlocks⟩
    simp only
    rw [wsub_of_le (x := old) (by omega) (by omega), wsub_of_le (by omega) (by omega)]
    omega
  have hfew : freeCount post ≤ s₁.stat_free_blocks ∧ s₁.stat_free_blocks < 2 ^ 63 := by
    have hcounts₁ := counts_lt hlaid₁
    rw [hcounted₁.free]
    simp only [freeCount_append, freeCount_cons] at hcounts₁ ⊢
    omega
  obtain ⟨s', hrun, hco⟩ := coalesce_next_spec hlaid₁ hfew.1 hfew.2
  obtain ⟨hunmerged, hhead⟩ := settled_unmerged hpost
  refine ⟨_, s', ?_, ⟨hco.laid, ?_, hco.counted hfree hcounted₁⟩, fun ex => ?_⟩
  · simp only [follow_split, bind_apply, read_apply, modify_apply, hsize,
      if_neg (show c.size ≠ old by omega), hnext, ne_eq, hnextPos, not_false_eq_true, if_true, ← hs₁, hrun]
  · refine settled_middle.mpr ⟨(settled_used hused).mpr ⟨hpre, isChain_nil⟩, hunmerged, fun _ => ⟨?_, hhead⟩⟩
    simpa using hused
  · have hothers := hco.others ex fun hlive => by
      cases hfree.symm.trans hlive
    rw [← hrow, hs₁] at hothers
    exact hothers

theorem shrink_in_place_spec (h : Rep base (pre ++ c :: post) s) (hused : c.free = false) {want : Nat}
    (hwant : want ≤ c.size) (halign : want % ALIGN = 0) :
    ∃ L' s', shrink_in_place (base + span width pre) want s = .ok () s' ∧
      InPlace base (base + span width pre) (kept c want) c (pre ++ c :: post) s L' s' := by
  obtain ⟨hlaid, hsettled, hcounted⟩ := h
  have hH : HDR = 32 := rfl
  have hsize : (header s.mem (base + span width pre)).size = c.size := by rw [hlaid.placed.head]
  obtain ⟨hlaid₁, hframe⟩ := split_laid hlaid hwant halign
  by_cases hsmall : c.size < want + HDR + MIN_PAYLOAD
  · -- `split` declined, and nothing else happens
    have hsplit : split s (base + span width pre) want = s := (split_eq hlaid hwant).trans (if_pos hsmall)
    refine ⟨_, s, ?_, ⟨hlaid, hsettled, hcounted⟩, Others.refl base _ _ _, ?_, fun _ _ _ _ => rfl⟩
    · simp only [shrink_in_place, follow_split, bind_apply, read_apply, modify_apply, hsplit, hsize,
        if_true, pure_apply]
    · have hcell : c = ⟨kept c want, false⟩ := by rw [kept, if_pos hsmall, ← hused]
      rw [← hcell]
      exact cellAt_middle base pre c post
  · have hkept : kept c want = want := if_neg hsmall
    have hrest : remainder c want = [⟨c.size - want - HDR, true⟩] := if_neg hsmall
    have hcounts := counts_lt hlaid
    obtain ⟨hin, husedBlocks, hfreeBlocks⟩ := hcounted
    simp only [inUse_append, inUse_cons, usedCount_append, usedCount_cons, freeCount_append, freeCount_cons, hused,
      Bool.false_eq_true, if_false] at hcounts hin husedBlocks hfreeBlocks
    obtain ⟨hfree₁, husedBlocks₁, hin₁⟩ := split_stats hlaid hwant (by omega)
    have hothers₁ := @others_of_split base pre post c s.mem _ want false fun i hi => hframe i (by omega)
    rw [hkept, hused, hrest, singleton_append] at hlaid₁
    rw [hrest, length_singleton] at hfree₁
    rw [hkept, hrest, singleton_append] at hothers₁
    obtain ⟨hpre, hpost⟩ := (settled_used hused).mp hsettled
    obtain ⟨L', s', hrun, hrep, hothers⟩ := follow_split_spec hlaid₁ rfl rfl hpre hpost (show want < c.size by omega)
      (by omega)
      (by simp only [hin₁, inUse_append, inUse_cons, Bool.false_eq_true, if_false, if_true]; omega)
      (by simp only [husedBlocks₁, usedCount_append, usedCount_cons, Bool.false_eq_true, if_false, if_true]; omega)
      (by simp only [hfree₁, freeCount_append, freeCount_cons, Bool.false_eq_true, if_false, if_true]; omega)
    -- the block itself is a bystander of the merge behind it
    have hself := hothers (base + span width pre + 1) (base + span width pre) (by omega) ⟨want, false⟩ rfl
    have hcell := @cellAt_middle cell_t width base pre ⟨want, false⟩ (⟨c.size - want - HDR, true⟩ :: post)
    rw [hkept]
    refine ⟨L', s', ?_, hrep, hothers₁.trans (hothers _), hself.1.mp hcell, fun i hlo hhi _ => ?_⟩
    · simp only [shrink_in_place, bind_apply, read_apply, modify_apply, hsize, hrun]
    · rw [hself.2 hcell i hlo (by simp only [width]; omega)]
      exact hframe i (by omega)

/-- The block takes in the free one after it, and gives back what it does not
    need. -/
theorem grow_in_place_spec (h : Rep base (pre ++ c :: d :: post) s) (hused : c.free = false) (hfree : d.free = true)
    {want : Nat} (hwant : c.size < want) (hroom : want ≤ c.size + HDR + d.size) (halign : want % ALIGN = 0) :
    ∃ L' s', grow_in_place (base + span width pre) want s = .ok () s' ∧
      InPlace base (base + span width pre) (kept ⟨c.size + HDR + d.size, false⟩ want) c (pre ++ c :: d :: post) s
        L' s' := by
  obtain ⟨hlaid, hsettled, hcounted⟩ := h
  have hH : HDR = 32 := rfl
  have hsize : (header s.mem (base + span width pre)).size = c.size := by rw [hlaid.placed.head]
  have hcounts := counts_lt hlaid
  obtain ⟨hin, husedBlocks, hfreeBlocks⟩ := hcounted
  simp only [inUse_append, inUse_cons, usedCount_append, usedCount_cons, freeCount_append, freeCount_cons, hused,
    hfree, Bool.false_eq_true, if_false, if_true] at hcounts hin husedBlocks hfreeBlocks
  have hout : wsub s.stat_in_use c.size = inUse pre + inUse post := by
    rw [wsub_of_le (by omega) (by omega)]
    omega
  obtain ⟨s₁, hs₁⟩ : ∃ s₁, s₁ = { s with stat_in_use := wsub s.stat_in_use c.size } := ⟨_, rfl⟩
  have hlaid₁ : Laid base (pre ++ c :: d :: post) s₁ := hlaid.of_eq (by rw [hs₁]) (by rw [hs₁]) (by rw [hs₁])
  have hfew : freeCount (d :: post) ≤ s₁.stat_free_blocks ∧ s₁.stat_free_blocks < 2 ^ 63 := by
    rw [hs₁]
    simp only [freeCount_cons, hfree, if_true]
    omega
  obtain ⟨s₂, hrun, hco⟩ := coalesce_next_spec hlaid₁ hfew.1 hfew.2
  have hfree₂ := hco.free_blocks
  have hlaid₂ := hco.laid
  have hothers₂ := hco.others (base + span width pre) fun _ => rfl
  simp only [merged, unmerged, hfree, hused, if_true, freeCount_cons] at hfree₂ hlaid₂ hothers₂
  have hin₂ : s₂.stat_in_use = inUse pre + inUse post := by rw [hco.in_use, hs₁, ← hout]
  have husedBlocks₂ : s₂.stat_used_blocks = s.stat_used_blocks := by rw [hco.used_blocks, hs₁]
  obtain ⟨hlaid₃, hframe⟩ := split_laid hlaid₂ hroom halign
  obtain ⟨hfree₃, husedBlocks₃, hin₃⟩ := split_stats hlaid₂ hroom (by omega)
  -- the state that is left, with the block's new size counted in
  obtain ⟨s', hs'⟩ : ∃ s', grow_in_place (base + span width pre) want s = .ok () s' ∧
      s' = raise_peak { split s₂ (base + span width pre) want with
        mem := put_free (split s₂ (base + span width pre) want).mem (base + span width pre) 0
        stat_in_use := wadd (split s₂ (base + span width pre) want).stat_in_use
          (header (put_free (split s₂ (base + span width pre) want).mem (base + span width pre) 0)
            (base + span width pre)).size } := by
    refine ⟨_, ?_, rfl⟩
    simp [grow_in_place, bind_apply, hsize, ← hs₁, hrun]
  obtain ⟨hgrow, hs'⟩ := hs'
  have hlaid' := @Laid.mark base pre _ _ _ s' hlaid₃ false (by rw [hs']; rfl) (by rw [hs']; rfl) (by rw [hs']; rfl)
  have hmem' : s'.mem = put_free (split s₂ (base + span width pre) want).mem (base + span width pre) 0 := by
    rw [hs']
    rfl
  have hsize' : (header s'.mem (base + span width pre)).size = kept ⟨c.size + HDR + d.size, false⟩ want := by
    rw [hlaid'.placed.head]
  have hcounts' := counts_lt hlaid'
  simp only [inUse_append, inUse_cons, inUse_remainder, Bool.false_eq_true, if_false] at hcounts'
  have hbytes : ∀ i, (i < base + span width pre ∨ base + span width pre + HDR ≤ i ∧ i < base + span width pre + HDR + want ∨
      base + span width pre + width ⟨c.size + HDR + d.size, false⟩ + HDR ≤ i) → s'.mem i = s₂.mem i := by
    intro i hi
    rw [hmem']
    exact (put_field_of_outside (by decide) (by simp only [width] at hi; omega)).trans (hframe i hi)
  have hothers' := hothers₂.trans (@others_of_split base pre post _ s₂.mem s'.mem want false
    fun i hi => hbytes i (by omega))
  rw [hs₁] at hothers'
  obtain ⟨hpre, hrest⟩ := (settled_used hused).mp hsettled
  obtain ⟨-, hpost, hnext⟩ := (@settled_middle [] post d).mp hrest
  refine ⟨_, s', hgrow, ⟨hlaid', ?_, ?_, ?_, ?_⟩, hothers', cellAt_middle base pre _ _, fun i hlo _ hhi => ?_⟩
  · exact (settled_used rfl).mpr ⟨hpre, settled_remainder hpost (hnext hfree).2⟩
  · have hstat : s'.stat_in_use = wadd (split s₂ (base + span width pre) want).stat_in_use
        (header s'.mem (base + span width pre)).size := by
      rw [hs']
      rfl
    rw [hstat, hsize', hin₃, hin₂, wadd_of_lt (by omega)]
    simp only [inUse_append, inUse_cons, inUse_remainder, Bool.false_eq_true, if_false]
    omega
  · have hstat : s'.stat_used_blocks = (split s₂ (base + span width pre) want).stat_used_blocks := by
      rw [hs']
      rfl
    simp only [usedCount_append, usedCount_cons, usedCount_remainder, Bool.false_eq_true, if_false]
    omega
  · have hstat : s'.stat_free_blocks = (split s₂ (base + span width pre) want).stat_free_blocks := by
      rw [hs']
      rfl
    have hs₁free : s₁.stat_free_blocks = s.stat_free_blocks := by rw [hs₁]
    simp only [freeCount_append, freeCount_cons, freeCount_remainder, Bool.false_eq_true, if_false]
    omega
  · rw [hbytes i (by omega), hco.payload i hlo (by simp only [width]; omega), hs₁]

end InPlace

/-- What a `krealloc` to `n` bytes of the block `b` with the cell `c` does when
    it returns the block `b'`: the heap is in order, the new block has the first
    bytes of the old one, and everything else is as it was. Within 15 bytes of
    the largest size it does not have the room. -/
structure Resized (base b b' n : Nat) (c c' : cell_t) (L : List cell_t) (s : heap_t) (L' : List cell_t)
    (s' : heap_t) : Prop where
  rep : Rep base L' s'
  others : ∀ x, x ≠ b → x ≠ b' → Keeps base L s.mem L' s'.mem x
  cell : CellAt width base L' b' c'
  used : c'.free = false
  room : n < 2 ^ 64 - 15 → n ≤ c'.size
  wraps : 2 ^ 64 - 15 ≤ n → b' = b ∧ c'.size = kept c 0
  contents : ∀ i, i < c.size → i < c'.size → i < n → s'.mem (b' + HDR + i) = s.mem (b + HDR + i)
  moved : b' ≠ b → ¬ LiveAt base L b' ∧ ¬ LiveAt base L' b

section Move

variable {base : Nat} {L pre post : List cell_t} {c d : cell_t} {s : heap_t}

theorem InPlace.resized {b n size : Nat} {L' s'} (h : InPlace base b size c L s L' s')
    (hroom : n < 2 ^ 64 - 15 → n ≤ size) (hwraps : 2 ^ 64 - 15 ≤ n → size = kept c 0) :
    Resized base b b n c ⟨size, false⟩ L s L' s' := by
  refine ⟨h.rep, fun x hx _ => h.others x hx, h.cell, rfl, hroom, fun hn => ⟨rfl, hwraps hn⟩, ?_,
    fun hne => absurd rfl hne⟩
  intro i hi hi' _
  exact h.contents _ (by omega) (by simp only at hi'; omega) (by omega)

/-- The copying end of `krealloc`: allocate, copy, free. -/
theorem move_block_spec (h : Rep base (pre ++ c :: post) s) (hused : c.free = false) (default_arena : Nat) {n : Nat}
    (hn : n < 2 ^ 64 - 15) :
    move_block default_arena (base + span width pre + HDR) n s = .stop "kmalloc: out of memory" s ∨
      ∃ b' c' L' s', move_block default_arena (base + span width pre + HDR) n s = .ok (b' + HDR) s' ∧
        Resized base (base + span width pre) b' n c c' (pre ++ c :: post) s L' s' := by
  have hblock : block_of (base + span width pre + HDR) = base + span width pre := Nat.add_sub_cancel _ _
  simp only [move_block, bind_apply, hblock]
  rcases kmalloc_spec h default_arena n with hrun | ⟨b', L₁, s₁, hrun, halloc⟩
  · left
    rw [hrun]
  right
  have hcell := @cellAt_middle cell_t width base pre c post
  have hne : base + span width pre ≠ b' := by
    rintro rfl
    exact halloc.fresh ⟨c, hcell, hused⟩
  -- the old block is a bystander of the allocation
  obtain ⟨hstays, hbytes₁⟩ := halloc.others _ hne c hused
  have hcell₁ := hstays.mp hcell
  obtain ⟨c', hc', hused', hroom⟩ := halloc.room
  have hsize : (header s₁.mem (base + span width pre)).size = c.size := by
    obtain ⟨p, hhead⟩ := halloc.rep.laid.seg.header_eq hcell₁
    rw [hhead]
  obtain ⟨k, hk⟩ : ∃ k, k = if c.size < n then c.size else n := ⟨_, rfl⟩
  have hkle : k ≤ c.size ∧ k ≤ n := by
    rw [hk]
    split <;> omega
  obtain ⟨hrep₂, hothers₂⟩ := halloc.rep.write (m := s₁.mem.copy (b' + HDR) (base + span width pre + HDR) k) hc'
    fun i hi => Mem.copy_of_outside (by simp only [width] at hi; omega)
  obtain ⟨front, back, hrow, hstart⟩ := hcell₁.split
  rw [hrow] at hrep₂ hothers₂
  obtain ⟨L', s', hfree, hfreed⟩ := kfree_spec hrep₂ hused default_arena
  rw [← hstart, ← hrow] at hfreed
  rw [← hstart] at hfree
  rw [← hrow] at hothers₂
  obtain ⟨hstays', hbytes'⟩ := hfreed.others b' (Ne.symm hne) c' hused'
  refine ⟨b', c', L', s', ?_, hfreed.rep, fun x hx hx' => ?_, hstays'.mp hc', hused', fun _ => hroom, fun _ => by omega,
    fun i hi hi' hin => ?_, fun _ => ⟨halloc.fresh, hfreed.gone⟩⟩
  · simp only [hrun, modify_apply, hsize, ← hk, hfree, pure_apply]
  · exact ((halloc.others x hx').trans (hothers₂ x hx')).trans (hfreed.others x hx)
  · have hik : i < k := by
      rw [hk]
      split <;> omega
    have hcopy : s₁.mem.copy (b' + HDR) (base + span width pre + HDR) k (b' + HDR + i) =
        s₁.mem (base + span width pre + HDR + i) := Mem.copy_of_inside hik
    rw [hbytes' hc' _ (by omega) (by simp only [width]; omega)]
    exact hcopy.trans (hbytes₁ hcell _ (by omega) (by simp only [width]; omega))

theorem can_grow_iff (h : Laid base (pre ++ c :: post) s) {want : Nat} :
    can_grow s.mem (base + span width pre) want = true ↔
      ∃ d rest, post = d :: rest ∧ d.free = true ∧ want ≤ c.size + HDR + d.size := by
  have hH : HDR = 32 := rfl
  have hp := h.placed
  cases post with
  | nil =>
    simp [can_grow, hp.head]
  | cons d rest =>
    have hq := h.placed_next
    have hend := hq.end_le
    have hpos : base + span width pre + width c ≠ 0 := by
      simp only [width]
      omega
    have hsum : wadd c.size (HDR + d.size) = c.size + HDR + d.size := by
      simp only [width] at hend
      rw [wadd_of_lt (by omega)]
      omega
    have hbit : d.free.toNat ≠ 0 ↔ d.free = true := by cases d.free <;> decide
    simp only [can_grow, hp.head, reduceCtorEq, if_false, hq.head, hsum, Bool.and_eq_true, decide_eq_true_eq, hbit,
      and_assoc, cons.injEq]
    constructor
    · rintro ⟨-, hfree, hle⟩
      exact ⟨d, rest, rfl, rfl, hfree, hle⟩
    · rintro ⟨e, rest', rfl, rfl, hfree, hle⟩
      exact ⟨hpos, hfree, hle⟩

theorem krealloc_spec (h : Rep base (pre ++ c :: post) s) (hused : c.free = false) (default_arena : Nat) {n : Nat}
    (hpos : n ≠ 0) (hn : n < 2 ^ 64) :
    n < 2 ^ 64 - 15 ∧ krealloc default_arena (base + span width pre + HDR) n s = .stop "kmalloc: out of memory" s ∨
      ∃ b' c' L' s', krealloc default_arena (base + span width pre + HDR) n s = .ok (b' + HDR) s' ∧
        Resized base (base + span width pre) b' n c c' (pre ++ c :: post) s L' s' := by
  have hH : HDR = 32 := rfl
  have hblock : block_of (base + span width pre + HDR) = base + span width pre := Nat.add_sub_cancel _ _
  have hsize : (header s.mem (base + span width pre)).size = c.size := by rw [h.laid.placed.head]
  have halign := align_request_mod hn
  have hroom (hsmall : n < 2 ^ 64 - 15) : n ≤ align_up n ALIGN := (align_request hsmall).1
  simp only [krealloc, if_neg (show base + span width pre + HDR ≠ 0 by omega), if_neg hpos, hblock, bind_apply,
    check_header_of_laid h.laid, read_apply, hsize]
  by_cases hshrink : align_up n ALIGN ≤ c.size
  · obtain ⟨L', s', hrun, hplace⟩ := shrink_in_place_spec h hused hshrink halign
    right
    refine ⟨_, _, L', s', ?_, hplace.resized (fun hsmall => (hroom hsmall).trans (le_kept hshrink)) fun hbig => ?_⟩
    · simp only [if_pos hshrink, bind_apply, hrun, pure_apply]
    · rw [align_request_wraps hbig hn]
  -- from here on the request has not wrapped
  have hsmall : n < 2 ^ 64 - 15 := by
    by_contra hbig
    rw [align_request_wraps (by omega) hn] at hshrink
    omega
  rw [if_neg hshrink]
  by_cases hgrow : can_grow s.mem (base + span width pre) (align_up n ALIGN) = true
  · obtain ⟨d, rest, rfl, hfree, hle⟩ := (can_grow_iff h.laid).mp hgrow
    obtain ⟨L', s', hrun, hplace⟩ := grow_in_place_spec h hused hfree (by omega) hle halign
    right
    refine ⟨_, _, L', s', ?_, hplace.resized (fun _ => (hroom hsmall).trans (le_kept hle)) fun hbig => by omega⟩
    simp only [if_pos hgrow, bind_apply, hrun, pure_apply]
  · rw [if_neg hgrow]
    exact (move_block_spec h hused default_arena hsmall).imp_left fun hstop => ⟨hsmall, hstop⟩

end Move

end fable.heap
