import FableOs.Heap.Malloc

namespace fable.heap

open fable.exec Exec

section Plan

variable {b n k aligned gap : Nat} {h : block_t}

/-- A plan that `kmemalign` accepts: the payload is where the block's own is, or
    behind a gap that can stay a block, and in both cases there is room. -/
structure Planned (b n al aligned gap size : Nat) : Prop where
  place : gap = 0 ∧ aligned = b + HDR ∨
    MIN_PAYLOAD ≤ gap ∧ gap % ALIGN = 0 ∧ aligned = b + HDR + gap + HDR
  room : aligned + n ≤ b + HDR + size
  aligned : aligned % al = 0

/-- The next aligned address that leaves a gap and a header before it. -/
theorem carved_spec {pl : Nat} (hk : k < 64) (hpl : pl ≤ 2 ^ 60) :
    ∃ carved, (if wsub (align_up (pl + HDR) (2 ^ k)) HDR = pl then wadd (align_up (pl + HDR) (2 ^ k)) (2 ^ k)
        else align_up (pl + HDR) (2 ^ k)) = carved ∧
      pl + HDR ≤ carved ∧ carved ≤ pl + HDR + 2 ^ k ∧ carved % 2 ^ k = 0 := by
  have hH : HDR = 32 := rfl
  have hle : 2 ^ k ≤ 2 ^ 63 := Nat.pow_le_pow_right (by decide) (by omega)
  obtain ⟨hlo, hhi, hmod⟩ := @align_up_bounds (pl + HDR) k (by omega) (by omega)
  rw [wsub_of_le (by omega) (by omega)]
  by_cases hzero : align_up (pl + HDR) (2 ^ k) - HDR = pl
  · rw [if_pos hzero, wadd_of_lt (by omega)]
    refine ⟨_, rfl, by omega, by omega, ?_⟩
    rw [Nat.add_mod_right]
    exact hmod
  · rw [if_neg hzero]
    exact ⟨_, rfl, hlo, by omega, hmod⟩

theorem align_plan_spec (hk : 4 < k) (hk' : k < 64) (hb : b % ALIGN = 0) (hend : b + HDR + h.size ≤ 2 ^ 60)
    (hn : n < 2 ^ 61) (hplan : align_plan (2 ^ k) n b h = some (aligned, gap)) :
    h.free ≠ 0 ∧ Planned b n (2 ^ k) aligned gap h.size := by
  have hH : HDR = 32 := rfl
  have hA : ALIGN = 16 := rfl
  have hle : 2 ^ k ≤ 2 ^ 63 := Nat.pow_le_pow_right (by decide) (by omega)
  have hdvd : ALIGN ∣ 2 ^ k := pow_dvd_pow 2 hk.le
  obtain ⟨pl, hpl⟩ : ∃ pl, pl = payload_of b := ⟨_, rfl⟩
  have hplb : pl = b + HDR := hpl
  have hsize : wadd pl h.size = pl + h.size := wadd_of_lt (by omega)
  obtain ⟨carved, hcarved, hcarvedLo, hcarvedHi, hcarvedMod⟩ := @carved_spec k pl hk' (by omega)
  have hcarved16 : carved % ALIGN = 0 := Nat.mod_eq_zero_of_dvd (hdvd.trans (Nat.dvd_of_mod_eq_zero hcarvedMod))
  have hgap : wsub (wsub carved HDR) pl = carved - HDR - pl := by
    rw [wsub_of_le (x := carved) (by omega) (by omega), wsub_of_le (by omega) (by omega)]
  simp only [align_plan, ← hpl, Nat.and_two_pow_sub_one_eq_mod, hcarved, hgap, hsize] at hplan
  by_cases hfree : h.free = 0
  · cases (if_pos hfree).symm.trans hplan
  rw [if_neg hfree] at hplan
  refine ⟨hfree, ?_⟩
  by_cases halready : pl % 2 ^ k = 0
  · simp only [halready, if_true, not_true_eq_false, false_and, if_false] at hplan
    rw [wadd_of_lt (show pl + n < 2 ^ 64 by omega)] at hplan
    split at hplan
    · cases hplan
    · rename_i hroom
      obtain ⟨rfl, rfl⟩ := Prod.mk.inj (Option.some.inj hplan)
      exact ⟨Or.inl ⟨rfl, hplb⟩, by omega, halready⟩
  · simp only [halready, if_false, not_false_eq_true, true_and] at hplan
    rw [wadd_of_lt (show carved + n < 2 ^ 64 by omega)] at hplan
    split at hplan
    · cases hplan
    · rename_i hbig
      split at hplan
      · cases hplan
      · rename_i hroom
        obtain ⟨rfl, rfl⟩ := Prod.mk.inj (Option.some.inj hplan)
        refine ⟨Or.inr ⟨by omega, ?_, by omega⟩, by omega, hcarvedMod⟩
        simp only [ALIGN] at hb hcarved16 ⊢
        omega

end Plan

section Rows

variable {base : Nat} {L pre post : List cell_t} {c : cell_t} {s : heap_t}

/-- The row after the front of a free cell is carved off, with the free cell
    whose payload is the aligned one. -/
structure Carved (base n aligned : Nat) (L : List cell_t) (s : heap_t) (front : List cell_t) (d : cell_t)
    (post : List cell_t) (s' : heap_t) : Prop where
  laid : Laid base (front ++ d :: post) s'
  counted : Counted (front ++ d :: post) s'
  settled : Settled front
  free : d.free = true
  room : n ≤ d.size
  at_aligned : base + span width front + HDR = aligned
  others : ∀ ex, Others base ex L s.mem (front ++ d :: post) s'.mem

theorem place_aligned_spec (h : Laid base (pre ++ c :: post) s) (hcounted : Counted (pre ++ c :: post) s)
    (hsettled : Settled (pre ++ c :: post)) (hfree : c.free = true) {n al aligned gap : Nat}
    (hplan : Planned (base + span width pre) n al aligned gap c.size) :
    ∃ front d s', place_aligned s (base + span width pre) aligned gap = (s', base + span width front) ∧
      Carved base n aligned (pre ++ c :: post) s front d post s' := by
  have hroom := hplan.room
  obtain ⟨hpre, -, hpair⟩ := settled_middle.mp hsettled
  rcases hplan.place with ⟨rfl, rfl⟩ | ⟨hgap, halign, rfl⟩
  · refine ⟨pre, c, s, ?_, h, hcounted, hpre, hfree, by omega, rfl, fun ex => Others.refl base ex _ _⟩
    simp only [place_aligned, if_true]
  · have hend := h.placed.end_le
    have hw : width c = HDR + c.size := rfl
    have hP : MIN_PAYLOAD = 16 := rfl
    have hsize : (header s.mem (base + span width pre)).size = c.size := by rw [h.placed.head]
    have htarget : base + span width pre + HDR + gap + HDR - HDR = base + span width pre + HDR + gap :=
      Nat.add_sub_cancel _ _
    have hrest : wsub (wadd (payload_of (base + span width pre)) c.size) (base + span width pre + HDR + gap + HDR) =
        c.size - gap - HDR := by
      simp only [payload_of]
      rw [wadd_of_lt (by omega), wsub_of_le (by omega) (by omega)]
      omega
    obtain ⟨hlaid, hframe⟩ := h.cut (by omega) halign rfl rfl
    have hrow : pre ++ ⟨gap, c.free⟩ :: ⟨c.size - gap - HDR, true⟩ :: post =
        (pre ++ [⟨gap, c.free⟩]) ++ ⟨c.size - gap - HDR, true⟩ :: post := by simp
    have hstart : base + span width (pre ++ [⟨gap, c.free⟩]) = base + span width pre + HDR + gap := by
      simp only [span_append, span_cons, span_nil, width]
      omega
    rw [hrow] at hlaid
    refine ⟨pre ++ [⟨gap, c.free⟩], ⟨c.size - gap - HDR, true⟩, _, ?_, hlaid, ⟨?_, ?_, ?_⟩, ?_, rfl, ?_, ?_, fun ex => ?_⟩
    · simp only [place_aligned, if_neg (show gap ≠ 0 by omega), hsize, hrest, htarget, hstart]
    · rw [← hrow]
      simpa [hfree, insert_after] using hcounted.in_use
    · rw [← hrow]
      simpa [hfree, insert_after] using hcounted.used
    · have hcounts := counts_lt h
      have hfreeBlocks := hcounted.free
      simp only [freeCount_append, freeCount_cons, freeCount_nil, hfree, if_true] at hfreeBlocks hcounts ⊢
      simp only [insert_after]
      rw [wadd_of_lt (by omega)]
      omega
    · exact settled_middle.mpr ⟨hpre, List.isChain_nil, fun _ => ⟨(hpair hfree).1, by simp⟩⟩
    · simp only
      omega
    · rw [hstart]
    · rw [← hrow]
      apply @others_of_local base ex _ _ pre [c] [⟨gap, c.free⟩, ⟨c.size - gap - HDR, true⟩] post
      · simp only [span_cons, span_nil, width]
        omega
      · intro x d hx hused
        simp only [cellAt_cons, cellAt_nil, or_false] at hx
        rw [hx.2, hfree] at hused
        cases hused
      · intro x d hx hused
        simp only [cellAt_cons, cellAt_nil, or_false] at hx
        rcases hx with ⟨-, rfl⟩ | ⟨-, rfl⟩
        · cases hfree.symm.trans hused
        · cases hused
      · intro i hi
        simp only [span_cons, span_nil] at hi
        exact hframe i (by omega) (by omega) (by omega)

theorem kmemalign_spec (h : Rep base L s) (default_arena n : Nat) {align : Nat} (halign : align < 2 ^ 64) :
    (∃ text, kmemalign default_arena align n s = .stop text s) ∨
      ∃ b L' s', kmemalign default_arena align n s = .ok (b + HDR) s' ∧ Allocated base b n L s L' s' ∧
        (align.isPowerOfTwo → align ∣ b + HDR) := by
  have hlaid := h.laid
  simp only [kmemalign, bind_apply, ensure_init_of_laid hlaid]
  by_cases hsmall : align ≤ ALIGN
  · rw [if_pos hsmall]
    rcases kmalloc_spec h default_arena n with hrun | ⟨b, L', s', hrun, halloc⟩
    · exact Or.inl ⟨_, hrun⟩
    · refine Or.inr ⟨b, L', s', hrun, halloc, ?_⟩
      rintro ⟨k, rfl⟩
      obtain ⟨c, hc, -⟩ := halloc.room
      have hb : ALIGN ∣ b + HDR := Dvd.dvd.add (Nat.dvd_of_mod_eq_zero (halloc.rep.laid.aligned b c hc)) (by decide)
      have hk : k ≤ 4 := (Nat.pow_le_pow_iff_right (by decide)).mp hsmall
      exact (pow_dvd_pow 2 hk).trans hb
  rw [if_neg hsmall]
  by_cases hodd : align &&& (align - 1) ≠ 0
  · rw [if_pos hodd]
    exact Or.inl ⟨_, rfl⟩
  rw [if_neg hodd]
  obtain ⟨k, rfl⟩ := (Nat.and_sub_one_eq_zero_iff_isPowerOfTwo (by omega)).mp (not_not.mp hodd)
  have hk : 4 < k := (Nat.pow_lt_pow_iff_right (by decide)).mp (not_le.mp hsmall)
  have hk' : k < 64 := (Nat.pow_lt_pow_iff_right (by decide)).mp halign
  simp only [bind_apply, read_apply]
  cases hround : round_request s n with
  | none => exact Or.inl ⟨_, rfl⟩
  | some want =>
    obtain ⟨hn, hwant, hlt⟩ := round_request_spec hlaid hround
    rcases find_block_spec (align_plan (2 ^ k) want) "kmemalign: out of memory" hlaid with
      ⟨-, hrun⟩ | ⟨pre, c, post, ⟨aligned, gap⟩, rfl, -, hplan, hrun⟩
    · left
      refine ⟨"kmemalign: out of memory", ?_⟩
      simp only [bind_apply, hrun]
    · right
      have hp := hlaid.placed
      have hend := hp.end_le
      rw [hp.head] at hplan
      obtain ⟨hfree, hplanned⟩ := align_plan_spec hk hk' hp.aligned (by simp only [width] at hend ⊢; omega) hlt hplan
      have hcfree : c.free = true := by
        cases hc : c.free
        · rw [hc] at hfree
          exact absurd rfl hfree
        · rfl
      obtain ⟨front, d, s₁, hplace, hcarved⟩ := place_aligned_spec hlaid h.counted h.settled hcfree hplanned
      obtain ⟨-, hpost, hpair⟩ := settled_middle.mp h.settled
      have htaken := use_block_spec hcarved.laid hcarved.counted hcarved.free hcarved.room hwant
      obtain ⟨hrep, hothers, hfresh, hroom⟩ :=
        htaken.allocated hcarved.free hcarved.settled hpost (hpair hcfree).2 hn hcarved.room
      refine ⟨base + span width front, _, _, ?_, ⟨hrep, (hcarved.others _).trans hothers, ?_, hroom⟩, fun _ => ?_⟩
      · simp only [bind_apply, hrun, read_apply, hplace, modify_apply, pure_apply, payload_of]
      · have hkeep := hcarved.others (base + span width front + 1) (base + span width front) (by omega)
        rw [hkeep.liveAt_iff]
        exact hfresh
      · rw [hcarved.at_aligned]
        exact Nat.dvd_of_mod_eq_zero hplanned.aligned

end Rows

end fable.heap
