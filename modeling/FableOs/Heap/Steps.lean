import FableOs.Heap.Invariant

namespace fable.heap

open fable.exec

/-- How many bytes a cell keeps when it is split. -/
def kept (c : cell_t) (need : Nat) : Nat := if c.size < need + HDR + MIN_PAYLOAD then c.size else need

/-- The cell that splits off, if the remainder is worth keeping. -/
def remainder (c : cell_t) (need : Nat) : List cell_t :=
  if c.size < need + HDR + MIN_PAYLOAD then [] else [⟨c.size - need - HDR, true⟩]

section Pieces

variable {c : cell_t} {need : Nat}

theorem le_kept (h : need ≤ c.size) : need ≤ kept c need := by
  unfold kept
  split <;> omega

theorem kept_zero_lt (c : cell_t) : kept c 0 < HDR + MIN_PAYLOAD := by
  have hH : HDR = 32 := rfl
  unfold kept
  split <;> omega

theorem kept_add_remainder (c : cell_t) (need : Nat) (free : Bool) :
    width ⟨kept c need, free⟩ + span width (remainder c need) = width c := by
  unfold kept remainder
  split
  · rfl
  · simp only [span_cons, span_nil, width]
    omega

theorem remainder_free {d} (h : d ∈ remainder c need) : d.free = true := by
  unfold remainder at h
  split at h
  · cases h
  · rw [List.mem_singleton.mp h]

theorem freeCount_remainder (c : cell_t) (need : Nat) : freeCount (remainder c need) = (remainder c need).length := by
  unfold remainder
  split <;> rfl

theorem usedCount_remainder (c : cell_t) (need : Nat) : usedCount (remainder c need) = 0 := by
  unfold remainder
  split <;> rfl

theorem inUse_remainder (c : cell_t) (need : Nat) : inUse (remainder c need) = 0 := by
  unfold remainder
  split <;> rfl

end Pieces

section Rows

variable {base : Nat} {pre post L : List cell_t} {c : cell_t} {s : heap_t}

theorem counts_lt (h : Laid base L s) : inUse L + usedCount L + freeCount L < 2 ^ 63 := by
  have hsum := counts_le_span L
  have hbound := h.bound
  simp only [HDR] at hsum
  omega

/-- `split` in terms of the cell, with the arithmetic that cannot wrap here. -/
theorem split_eq (h : Laid base (pre ++ c :: post) s) {need : Nat} (hneed : need ≤ c.size) :
    split s (base + span width pre) need =
      if c.size < need + HDR + MIN_PAYLOAD then s
      else insert_after s (base + span width pre) (base + span width pre + HDR + need) (c.size - need - HDR) need := by
  have hp := h.placed
  have hP : MIN_PAYLOAD = 16 := rfl
  have hend := hp.end_le
  have hw : width c = HDR + c.size := rfl
  have hsize : (header s.mem (base + span width pre)).size = c.size := by rw [hp.head]
  have hsum : wadd need (HDR + MIN_PAYLOAD) = need + HDR + MIN_PAYLOAD := by
    rw [wadd_of_lt (by omega), Nat.add_assoc]
  simp only [split, hsize, hsum, payload_of]
  by_cases hsmall : c.size < need + HDR + MIN_PAYLOAD
  · rw [if_pos hsmall, if_pos hsmall]
  · have hrest : wsub (wsub c.size need) HDR = c.size - need - HDR := by
      rw [wsub_of_le hneed (by omega), wsub_of_le (by omega) (by omega)]
    rw [if_neg hsmall, if_neg hsmall, hrest]

/-- Splitting a cell: what it becomes, and the only bytes that change. -/
theorem split_laid (h : Laid base (pre ++ c :: post) s) {need : Nat} (hneed : need ≤ c.size)
    (halign : need % ALIGN = 0) :
    Laid base (pre ++ ⟨kept c need, c.free⟩ :: (remainder c need ++ post)) (split s (base + span width pre) need) ∧
      ∀ i, (i < base + span width pre ∨ base + span width pre + HDR ≤ i ∧ i < base + span width pre + HDR + need ∨
        base + span width pre + width c + HDR ≤ i) → (split s (base + span width pre) need).mem i = s.mem i := by
  rw [split_eq h hneed]
  unfold kept remainder
  by_cases hsmall : c.size < need + HDR + MIN_PAYLOAD
  · simp only [hsmall, if_true]
    exact ⟨h, fun _ _ => trivial⟩
  · simp only [hsmall, if_false]
    have hw : width c = HDR + c.size := rfl
    obtain ⟨hlaid, hframe⟩ := h.cut (by omega) halign rfl rfl
    refine ⟨hlaid, fun i hi => hframe i ?_ ?_ ?_⟩
    all_goals omega

theorem split_stats (h : Laid base (pre ++ c :: post) s) {need : Nat} (hneed : need ≤ c.size)
    (hcount : s.stat_free_blocks < 2 ^ 63) :
    (split s (base + span width pre) need).stat_free_blocks = s.stat_free_blocks + (remainder c need).length ∧
      (split s (base + span width pre) need).stat_used_blocks = s.stat_used_blocks ∧
      (split s (base + span width pre) need).stat_in_use = s.stat_in_use := by
  have hone : wadd s.stat_free_blocks 1 = s.stat_free_blocks + 1 := wadd_of_lt (by omega)
  rw [split_eq h hneed, remainder]
  by_cases hsmall : c.size < need + HDR + MIN_PAYLOAD
  · simp only [hsmall, if_true, List.length_nil, Nat.add_zero, and_self]
  · simp [hsmall, insert_after, hone]

/-- The block `b`, taken into use: the only allocation it touches is the new
    one, and the counters follow. -/
structure Taken (base b n : Nat) (pre post : List cell_t) (c : cell_t) (s s' : heap_t) : Prop where
  laid : Laid base (pre ++ ⟨kept c n, false⟩ :: (remainder c n ++ post)) s'
  counted : Counted (pre ++ ⟨kept c n, false⟩ :: (remainder c n ++ post)) s'
  others : Others base b (pre ++ c :: post) s.mem (pre ++ ⟨kept c n, false⟩ :: (remainder c n ++ post)) s'.mem

theorem others_of_split {m m' : Mem} {need : Nat} {free : Bool}
    (hmem : ∀ i, i < base + span width pre ∨ base + span width pre + width c + HDR ≤ i → m' i = m i) :
    Others base (base + span width pre) (pre ++ c :: post) m (pre ++ ⟨kept c need, free⟩ :: (remainder c need ++ post))
      m' := by
  apply @others_of_local base (base + span width pre) m m' pre [c] (⟨kept c need, free⟩ :: remainder c need) post
  · rw [span_cons, kept_add_remainder, span_cons, span_nil, Nat.add_zero]
  · intro x d hx _
    simp only [cellAt_cons, cellAt_nil, or_false] at hx
    exact hx.1
  · intro x d hx hused
    rcases hx with ⟨rfl, -⟩ | hx
    · rfl
    · cases (remainder_free hx.mem).symm.trans hused
  · intro i hi
    apply hmem
    rw [span_cons, span_nil, Nat.add_zero] at hi
    exact hi

theorem use_block_spec (h : Laid base (pre ++ c :: post) s) (hcounted : Counted (pre ++ c :: post) s)
    (hfree : c.free = true) {n : Nat} (hn : n ≤ c.size) (halign : n % ALIGN = 0) :
    Taken base (base + span width pre) n pre post c s (use_block s (base + span width pre) n) := by
  have hcounts := counts_lt h
  obtain ⟨hin, hused, hfreeBlocks⟩ := hcounted
  simp only [inUse_append, inUse_cons, usedCount_append, usedCount_cons, freeCount_append, freeCount_cons, hfree,
    if_true] at hcounts hin hused hfreeBlocks
  obtain ⟨hlaid, hframe⟩ := split_laid h hn halign
  obtain ⟨hsplitFree, hsplitUsed, hsplitIn⟩ := split_stats h hn (by omega)
  have hmark := @Laid.mark base pre _ _ _ (use_block s (base + span width pre) n) hlaid false rfl rfl rfl
  have hsize : (header (use_block s (base + span width pre) n).mem (base + span width pre)).size = kept c n := by
    rw [hmark.placed.head]
  have hkept : kept c n + inUse pre + inUse post + usedCount pre + usedCount post < 2 ^ 63 := by
    have hcounts' := counts_lt hmark
    simp only [inUse_append, inUse_cons, usedCount_append, usedCount_cons, Bool.false_eq_true, if_false] at hcounts'
    omega
  have hlength : (remainder c n).length ≤ 1 := by
    unfold remainder
    split <;> simp
  refine ⟨hmark, ⟨?_, ?_, ?_⟩, others_of_split fun i hi => ?_⟩
  · simp only [use_block, raise_peak] at hsize ⊢
    rw [hsize, hsplitIn, wadd_of_lt (by omega)]
    simp only [inUse_append, inUse_cons, inUse_remainder, Bool.false_eq_true, if_false]
    omega
  · simp only [use_block, raise_peak]
    rw [hsplitUsed, wadd_of_lt (by omega)]
    simp only [usedCount_append, usedCount_cons, usedCount_remainder, Bool.false_eq_true, if_false]
    omega
  · simp only [use_block, raise_peak]
    rw [hsplitFree, wsub_of_le (by omega) (by omega)]
    simp only [freeCount_append, freeCount_cons, freeCount_remainder, Bool.false_eq_true, if_false]
    omega
  · have hH : HDR = 32 := rfl
    exact (put_field_of_outside (by decide) (by omega)).trans (hframe i (by omega))

end Rows

end fable.heap
