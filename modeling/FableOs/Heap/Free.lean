import FableOs.Heap.Coalesce

namespace fable.heap

open fable.exec Exec

/-- An allocation lives at the block `x`. -/
def LiveAt (base : Nat) (L : List cell_t) (x : Nat) : Prop := ∃ c, CellAt width base L x c ∧ c.free = false

theorem Keeps.liveAt_iff {base x : Nat} {L L'} {m m' : Mem} (h : Keeps base L m L' m' x) :
    LiveAt base L x ↔ LiveAt base L' x := by
  constructor
  · rintro ⟨c, hc, hused⟩
    exact ⟨c, (h c hused).1.mp hc, hused⟩
  · rintro ⟨c, hc, hused⟩
    exact ⟨c, (h c hused).1.mpr hc, hused⟩

section Rows

variable {base : Nat} {L pre post : List cell_t} {c : cell_t} {s : heap_t}

theorem not_liveAt_of_free (hfree : c.free = true) : ¬ LiveAt base (pre ++ c :: post) (base + span width pre) := by
  rintro ⟨d, hd, hused⟩
  have hH : HDR = 32 := rfl
  rcases hd.apart (cellAt_middle base pre c post) with ⟨-, rfl⟩ | h | h
  · cases hfree.symm.trans hused
  · simp only [width] at h
    omega
  · simp only [width] at h
    omega

theorem ensure_init_of_laid (h : Laid base L s) (default_arena : Nat) : ensure_init default_arena s = .ok () s := by
  have hhead := h.head_eq
  have hpos := h.base_pos
  simp [ensure_init, bind_apply, if_neg (show s.heap_head ≠ 0 by omega)]

theorem check_header_of_laid (h : Laid base (pre ++ c :: post) s) :
    check_header (base + span width pre) s = .ok () s := by
  simp [check_header, bind_apply, h.placed.head]

/-- What freeing the block `b` does: the heap is in order, nothing lives at
    `b` any more, and everything else is as it was. -/
structure Freed (base b : Nat) (L : List cell_t) (s : heap_t) (L' : List cell_t) (s' : heap_t) : Prop where
  rep : Rep base L' s'
  others : Others base b L s.mem L' s'.mem
  gone : ¬ LiveAt base L' b

theorem release_spec (h : Laid base (pre ++ c :: post) s) (hcounted : Counted (pre ++ c :: post) s)
    (hused : c.free = false) :
    Laid base (pre ++ ⟨c.size, true⟩ :: post) (release s (base + span width pre)) ∧
      Counted (pre ++ ⟨c.size, true⟩ :: post) (release s (base + span width pre)) ∧
      Others base (base + span width pre) (pre ++ c :: post) s.mem (pre ++ ⟨c.size, true⟩ :: post)
        (release s (base + span width pre)).mem := by
  have hcounts := counts_lt h
  obtain ⟨hin, husedBlocks, hfreeBlocks⟩ := hcounted
  simp only [inUse_append, inUse_cons, usedCount_append, usedCount_cons, freeCount_append, freeCount_cons, hused,
    Bool.false_eq_true, if_false] at hcounts hin husedBlocks hfreeBlocks
  have hmark := @Laid.mark base pre post c s { s with mem := put_free s.mem (base + span width pre) 1 } h true rfl rfl rfl
  have hsize : (header (put_free s.mem (base + span width pre) 1) (base + span width pre)).size = c.size := by
    rw [hmark.placed.head]
  have hbytes : ∀ i, i < base + span width pre + HDR ∨ base + span width pre + width c ≤ i →
      (release s (base + span width pre)).mem i = put_free s.mem (base + span width pre) 1 i := by
    intro i hi
    simp only [release, hsize, payload_of]
    exact Mem.fill_of_outside (by simp only [width] at hi; omega)
  refine ⟨hmark.write (cellAt_middle base pre _ post) rfl rfl hbytes, ⟨?_, ?_, ?_⟩, ?_⟩
  · simp only [release, hsize, inUse_append, inUse_cons, if_true]
    rw [wsub_of_le (by omega) (by omega)]
    omega
  · simp only [release, usedCount_append, usedCount_cons, if_true]
    rw [wsub_of_le (by omega) (by omega)]
    omega
  · simp only [release, freeCount_append, freeCount_cons, if_true]
    rw [wadd_of_lt (by omega)]
    omega
  · apply @others_of_local base (base + span width pre) _ _ pre [c] [⟨c.size, true⟩] post
    · rfl
    · intro x d hx _
      simp only [cellAt_cons, cellAt_nil, or_false] at hx
      exact hx.1
    · intro x d hx hdused
      simp only [cellAt_cons, cellAt_nil, or_false] at hx
      rw [hx.2] at hdused
      cases hdused
    · intro i hi
      simp only [span_cons, span_nil] at hi
      rw [hbytes i (by omega)]
      exact put_field_of_outside (by decide) (by omega)

/-- Merging around a free cell keeps the counters right. -/
theorem Coalesced.counted {s'} (h : Coalesced base pre post c s s') (hfree : c.free = true)
    (hcounted : Counted (pre ++ c :: post) s) : Counted (pre ++ merged c post :: unmerged post) s' := by
  obtain ⟨hin, husedBlocks, hfreeBlocks⟩ := hcounted
  have hmerged := (merged_free c post).trans hfree
  have hless := h.free_blocks
  refine ⟨?_, ?_, ?_⟩
  · rw [h.in_use, hin]
    simp only [inUse_append, inUse_cons, hfree, hmerged, inUse_unmerged, if_true]
  · rw [h.used_blocks, husedBlocks]
    simp only [usedCount_append, usedCount_cons, hfree, hmerged, usedCount_unmerged]
  · simp only [freeCount_append, freeCount_cons, hfree, hmerged, if_true] at hfreeBlocks ⊢
    omega

/-- The last step of `kfree`. Before it only the free cell and the one before
    it may be a free pair, and it joins them. -/
theorem merge_backward_spec (h : Laid base (pre ++ c :: post) s) (hcounted : Counted (pre ++ c :: post) s)
    (hfree : c.free = true) (hpre : Settled pre) (hpost : Settled post)
    (hnext : ∀ d ∈ post.head?, d.free = false) :
    ∃ L' s', merge_backward (base + span width pre) s = .ok () s' ∧ Rep base L' s' ∧
      ∀ ex, Others base ex (pre ++ c :: post) s.mem L' s'.mem := by
  have hprev : (header s.mem (base + span width pre)).prev = lastStart width 0 base pre := by rw [h.placed.head]
  rcases List.eq_nil_or_concat pre with rfl | ⟨before, p, rfl⟩
  · refine ⟨_, s, ?_, ⟨h, ?_, hcounted⟩, fun ex => Others.refl base ex _ _⟩
    · simp only [merge_backward, bind_apply, read_apply, hprev, lastStart, ne_eq, not_true_eq_false, false_and,
        if_false, pure_apply]
    · rw [settled_middle]
      exact ⟨hpre, hpost, fun _ => ⟨by simp, hnext⟩⟩
  · rw [List.concat_eq_append] at *
    have hrow : (before ++ [p]) ++ c :: post = before ++ p :: c :: post := by simp
    have hlast : lastStart width 0 base (before ++ [p]) = base + span width before := by
      rw [lastStart_append]
      rfl
    have hp := (hrow ▸ h).placed
    have hpos : base + span width before ≠ 0 := by
      have hbase := hp.base_pos
      omega
    cases hpfree : p.free with
    | false =>
      refine ⟨_, s, ?_, ⟨h, ?_, hcounted⟩, fun ex => Others.refl base ex _ _⟩
      · simp only [merge_backward, bind_apply, read_apply, hprev, hlast, hp.head, hpfree, Bool.toNat_false,
          ne_eq, not_true_eq_false, and_false, if_false, pure_apply]
      · rw [settled_middle]
        refine ⟨hpre, hpost, fun _ => ⟨?_, hnext⟩⟩
        simpa using hpfree
    | true =>
      obtain ⟨hbefore, -, hpair⟩ := settled_middle.mp hpre
      have hcounted' : Counted (before ++ p :: c :: post) s := hrow ▸ hcounted
      have hcounts := counts_lt h
      have hfreeBlocks := hcounted.free
      simp only [freeCount_append] at hfreeBlocks hcounts
      obtain ⟨s', hrun, hco⟩ := coalesce_next_spec (hrow ▸ h) (by omega) (by omega)
      have hcounted'' := hco.counted hpfree hcounted'
      have hothers := hco.others
      have hlaid := hco.laid
      simp only [merged, unmerged, hfree, if_true] at hcounted'' hothers hlaid
      refine ⟨_, s', ?_, ⟨hlaid, ?_, hcounted''⟩, fun ex => ?_⟩
      · simp only [merge_backward, bind_apply, read_apply, hprev, hlast, hp.head, hpfree, Bool.toNat_true,
          ne_eq, hpos, one_ne_zero, not_false_eq_true, and_self, if_true, hrun]
      · rw [settled_middle]
        exact ⟨hbefore, hpost, fun _ => ⟨(hpair hpfree).1, hnext⟩⟩
      · rw [hrow]
        refine hothers ex fun hused => ?_
        cases hpfree.symm.trans hused

theorem kfree_spec (h : Rep base (pre ++ c :: post) s) (hused : c.free = false) (default_arena : Nat) :
    ∃ L' s', kfree default_arena (base + span width pre + HDR) s = .ok () s' ∧
      Freed base (base + span width pre) (pre ++ c :: post) s L' s' := by
  obtain ⟨hlaid, hsettled, hcounted⟩ := h
  obtain ⟨hpre, hpost⟩ := (settled_used hused).mp hsettled
  obtain ⟨hlaid₁, hcounted₁, hothers₁⟩ := release_spec hlaid hcounted hused
  have hcounts := counts_lt hlaid₁
  have hfreeBlocks := hcounted₁.free
  simp only [freeCount_append, freeCount_cons] at hfreeBlocks hcounts
  obtain ⟨s₂, hrun₂, hco⟩ := coalesce_next_spec hlaid₁ (by omega) (by omega)
  have hmerged : (merged ⟨c.size, true⟩ post).free = true := merged_free _ post
  obtain ⟨hsettled₂, hnext⟩ := settled_unmerged hpost
  obtain ⟨L', s', hrun, hrep, hothers⟩ :=
    merge_backward_spec hco.laid (hco.counted rfl hcounted₁) hmerged hpre hsettled₂ hnext
  have hothers₂ := hco.others (base + span width pre) (fun hused => by cases hused)
  refine ⟨L', s', ?_, hrep, (hothers₁.trans hothers₂).trans (hothers _), ?_⟩
  · have hblock : block_of (base + span width pre + HDR) = base + span width pre := Nat.add_sub_cancel _ _
    have hnull : base + span width pre + HDR ≠ 0 := by simp only [HDR]; omega
    simp only [kfree, hnull, if_false, hblock, bind_apply, ensure_init_of_laid hlaid, check_header_of_laid hlaid,
      read_apply, hlaid.placed.head, hused, Bool.toNat_false, ne_eq, not_true_eq_false, modify_apply, hrun₂,
      hrun]
  · -- nothing lives where the free cell is, and the last step moves no live one
    intro hlive
    have hkeep := hothers (base + span width pre + 1) (base + span width pre) (by omega)
    exact not_liveAt_of_free hmerged (hkeep.liveAt_iff.mpr hlive)

end Rows

end fable.heap
