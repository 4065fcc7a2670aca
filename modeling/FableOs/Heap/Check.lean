import FableOs.Heap.Malloc

namespace fable.heap

open fable.exec List Exec

section Check

variable {base : Nat} {L pre post : List cell_t} {c : cell_t} {s : heap_t}

/-- A region below `2 ^ 60` becomes one free block. -/
theorem heap_init_spec {start size : Nat} {s₀} (hregion : start + size ≤ 2 ^ 60)
    (h : heap_init start size s₀ = .ok () s) : ∃ base c, c.free = true ∧ Rep base [c] s := by
  have hH : HDR = 32 := rfl
  have hP : MIN_PAYLOAD = 16 := rfl
  obtain ⟨hlo, hhi, hmod⟩ := @align_request start (by omega)
  unfold heap_init at h
  by_cases hnull : start = 0
  · rw [if_pos hnull] at h
    cases h
  rw [if_neg hnull] at h
  obtain ⟨base, hbase⟩ : ∃ base, base = align_up start ALIGN := ⟨_, rfl⟩
  rw [← hbase] at h hlo hhi hmod
  have hlost : wsub base start = base - start := wsub_of_le hlo (by omega)
  simp only [hlost] at h
  by_cases hfew : size < base - start
  · rw [if_pos hfew] at h
    cases h
  rw [if_neg hfew] at h
  by_cases htiny : size - (base - start) ≤ HDR + MIN_PAYLOAD
  · rw [if_pos htiny] at h
    cases h
  rw [if_neg htiny] at h
  obtain ⟨left, hleft⟩ : ∃ left, left = size - (base - start) := ⟨_, rfl⟩
  rw [← hleft] at h htiny
  obtain rfl : fresh_heap s₀ base left = s := by
    simp only [modify_apply, Outcome.ok.injEq, true_and] at h
    exact h
  have hw : span width [⟨left - HDR, true⟩] = left := by
    simp only [span_cons, span_nil, width]
    omega
  refine ⟨base, ⟨left - HDR, true⟩, rfl, ⟨⟨rfl, by omega, ?_, hw.symm, by omega, ⟨?_, trivial⟩, ?_⟩, ?_, rfl, rfl, rfl⟩⟩
  · simp only [fresh_heap]
    omega
  · have hend : link (base + span width [⟨left - HDR, true⟩]) (base + width ⟨left - HDR, true⟩) = 0 := by
      refine if_pos ?_
      simp only [span_cons, span_nil]
      omega
    have hM : BLOCK_MAGIC < 2 ^ 32 := by decide
    rw [hend]
    simp (disch := omega) only [fresh_heap, header_put_next, header_put_prev, header_put_size, header_put_free,
      header_put_magic, Bool.toNat_true]
  · intro x d hx
    simp only [cellAt_cons, cellAt_nil, or_false] at hx
    rw [hx.1]
    exact hmod
  · exact isChain_singleton _

/-- The payload bytes of the free cells. -/
def freeBytes : List cell_t → Nat
  | [] => 0
  | c :: rest => (if c.free then c.size else 0) + freeBytes rest

/-- The statistics that a walk over the row gives; the peak and the two totals
    are history, not part of the row. -/
def recounted (L : List cell_t) (s : heap_t) : heap_stats_t :=
  ⟨span width L, inUse L, freeBytes L, HDR * L.length, s.stat_peak, freeCount L, usedCount L, s.stat_allocs,
    s.stat_frees⟩

theorem span_eq_parts (L : List cell_t) : span width L = inUse L + freeBytes L + HDR * L.length := by
  induction L with
  | nil => rfl
  | cons c rest ih =>
    simp only [span_cons, inUse_cons, freeBytes, length_cons, width, ih]
    cases c.free
    · simp only [Bool.false_eq_true, if_false]
      ring
    · simp only [if_true]
      ring

theorem length_eq_counts (L : List cell_t) : usedCount L + freeCount L = L.length := by
  induction L with
  | nil => rfl
  | cons c rest ih =>
    simp only [usedCount_cons, freeCount_cons, length_cons, ← ih]
    cases c.free <;> simp <;> omega

theorem heap_stats_spec (h : Rep base L s) (default_arena : Nat) :
    heap_stats default_arena s = .ok (recounted L s) s := by
  have hbound := h.laid.bound
  have hparts := span_eq_parts L
  have hover : (usedCount L + freeCount L) * HDR % SIZE_RANGE = HDR * L.length := by
    rw [length_eq_counts, Nat.mul_comm]
    exact Nat.mod_eq_of_lt (by simp only [SIZE_RANGE]; omega)
  have hfree : wsub (wsub (span width L) (inUse L)) (HDR * L.length) = freeBytes L := by
    rw [wsub_of_le (x := span width L) (by omega) (by omega), wsub_of_le (by omega) (by omega)]
    omega
  simp [heap_stats, bind_apply, ensure_init_of_laid h.laid, h.counted.in_use, h.counted.used, h.counted.free,
    h.laid.arena_eq, hover, hfree, recounted]

/-- What `heap_check` looks for at a block is not there. -/
theorem no_fault_at (h : Laid base (pre ++ c :: post) s) (hsettled : Settled (pre ++ c :: post)) :
    ¬ ((header s.mem (base + span width pre)).next ≠ 0 ∧
        (header s.mem (header s.mem (base + span width pre)).next).prev ≠ base + span width pre) ∧
      ¬ ((header s.mem (base + span width pre)).free ≠ 0 ∧ (header s.mem (base + span width pre)).next ≠ 0 ∧
        (header s.mem (header s.mem (base + span width pre)).next).free ≠ 0) := by
  have hp := h.placed
  cases post with
  | nil =>
    rw [hp.head]
    exact ⟨fun hbad => hbad.1 rfl, fun hbad => hbad.2.1 rfl⟩
  | cons d rest =>
    have hq := h.placed_next
    have hprev : lastStart width 0 base (pre ++ [c]) = base + span width pre := by
      rw [lastStart_append]
      rfl
    obtain ⟨-, -, hpair⟩ := settled_middle.mp hsettled
    simp only [hp.head, reduceCtorEq, if_false, hq.head, hprev]
    refine ⟨fun hbad => hbad.2 rfl, fun hbad => ?_⟩
    have hbit (free : Bool) : free.toNat ≠ 0 → free = true := by cases free <;> simp
    have hd := (hpair (hbit _ hbad.1)).2 d rfl
    rw [hd] at hbad
    exact hbad.2.2 rfl

/-- The walk of `heap_check` over the rest of a heap in order counts its bytes. -/
theorem check_blocks_from (h : Laid base (pre ++ L) s) (hsettled : Settled (pre ++ L)) {fuel counted : Nat}
    (hfuel : L.length < fuel) (hcounted : counted = span width pre) :
    check_blocks fuel (link (base + span width (pre ++ L)) (base + span width pre)) counted s =
      .ok (span width (pre ++ L)) s := by
  induction L generalizing pre fuel counted with
  | nil =>
    obtain ⟨fuel, rfl⟩ : ∃ k, fuel = k + 1 := ⟨fuel - 1, by simp only [length_nil] at hfuel; omega⟩
    rw [link_end, hcounted, append_nil]
    rfl
  | cons c rest ih =>
    obtain ⟨fuel, rfl⟩ : ∃ k, fuel = k + 1 := ⟨fuel - 1, by simp only [length_cons] at hfuel; omega⟩
    have hrow : pre ++ c :: rest = (pre ++ [c]) ++ rest := by simp
    have hpos := h.base_pos
    have hend := h.placed.end_le
    have hsize : (header s.mem (base + span width pre)).size = c.size := by rw [h.placed.head]
    have hsum : wadd counted (HDR + c.size) = span width (pre ++ [c]) := by
      simp only [width] at hend
      rw [wadd_of_lt (by omega), hcounted, span_append, span_cons, span_nil, Nat.add_zero]
    obtain ⟨hback, hpair⟩ := no_fault_at h hsettled
    rw [link_here]
    simp only [check_blocks, if_neg (show base + span width pre ≠ 0 by omega), bind_apply,
      check_header_of_laid h, read_apply]
    rw [if_neg hback, if_neg hpair, hsize, hsum, h.next_eq]
    rw [hrow] at h hsettled ⊢
    exact ih h hsettled (by simp only [length_cons] at hfuel; omega) rfl

theorem heap_check_spec (h : Rep base L s) (default_arena : Nat) : heap_check default_arena s = .ok 0 s := by
  obtain ⟨hlaid, hsettled, -⟩ := h
  have hwalk := @check_blocks_from base L [] s hlaid hsettled _ 0 (length_lt_max_blocks hlaid) rfl
  rw [hlaid.link_start] at hwalk
  simp [heap_check, bind_apply, ensure_init_of_laid hlaid, hwalk, hlaid.arena_eq]

end Check

end fable.heap
