import FableOs.Heap.Steps

namespace fable.heap

open fable.exec Exec

/-- The cell `c` with the one after it merged in, if that is free. -/
def merged (c : cell_t) : List cell_t → cell_t
  | [] => c
  | d :: _ => if d.free then ⟨c.size + HDR + d.size, c.free⟩ else c

/-- The cells that are left after it. -/
def unmerged : List cell_t → List cell_t
  | [] => []
  | d :: rest => if d.free then rest else d :: rest

section Merge

variable (c : cell_t) (post : List cell_t)

theorem merged_free : (merged c post).free = c.free := by
  cases post with
  | nil => rfl
  | cons d rest => cases hd : d.free <;> simp [merged, hd]

theorem usedCount_unmerged : usedCount (unmerged post) = usedCount post := by
  cases post with
  | nil => rfl
  | cons d rest => cases hd : d.free <;> simp [unmerged, hd]

theorem inUse_unmerged : inUse (unmerged post) = inUse post := by
  cases post with
  | nil => rfl
  | cons d rest => cases hd : d.free <;> simp [unmerged, hd]

variable {post}

/-- What is left is settled and starts with a block in use. -/
theorem settled_unmerged (h : Settled post) :
    Settled (unmerged post) ∧ ∀ d ∈ (unmerged post).head?, d.free = false := by
  cases post with
  | nil => exact ⟨h, by simp [unmerged]⟩
  | cons d rest =>
    obtain ⟨-, hrest, hd⟩ := (@settled_middle [] rest d).mp h
    cases hfree : d.free with
    | false =>
      refine ⟨?_, ?_⟩
      · simpa [unmerged, hfree] using h
      · simp [unmerged, hfree]
    | true =>
      simp only [unmerged, hfree, if_true]
      exact ⟨hrest, (hd hfree).2⟩

end Merge

section Rows

variable {base : Nat} {pre post : List cell_t} {c : cell_t} {s : heap_t}

/-- What `coalesce_next` does to the row at the cell `c`. -/
structure Coalesced (base : Nat) (pre post : List cell_t) (c : cell_t) (s s' : heap_t) : Prop where
  laid : Laid base (pre ++ merged c post :: unmerged post) s'
  free_blocks : s'.stat_free_blocks + freeCount post = s.stat_free_blocks + freeCount (unmerged post)
  used_blocks : s'.stat_used_blocks = s.stat_used_blocks
  in_use : s'.stat_in_use = s.stat_in_use
  payload : ∀ i, base + span width pre + HDR ≤ i → i < base + span width pre + width c → s'.mem i = s.mem i
  others : ∀ ex, (c.free = false → base + span width pre = ex) →
    Others base ex (pre ++ c :: post) s.mem (pre ++ merged c post :: unmerged post) s'.mem

/-- The next block is taken in when it is free, and the counters follow. -/
theorem coalesce_next_spec (h : Laid base (pre ++ c :: post) s) (hfew : freeCount post ≤ s.stat_free_blocks)
    (hlt : s.stat_free_blocks < 2 ^ 63) :
    ∃ s', coalesce_next (base + span width pre) s = .ok () s' ∧ Coalesced base pre post c s s' := by
  have hp := h.placed
  cases post with
  | nil =>
    refine ⟨s, ?_, h, rfl, rfl, rfl, fun _ _ _ => rfl, fun ex _ => Others.refl base ex _ _⟩
    simp [coalesce_next, bind_apply, hp.head]
  | cons d rest =>
    have hpos : base + span width pre + width c ≠ 0 := by
      have hbase := hp.base_pos
      omega
    have hq := h.placed_next
    cases hd : d.free with
    | false =>
      have hrowEq : pre ++ merged c (d :: rest) :: unmerged (d :: rest) = pre ++ c :: d :: rest := by
        simp [merged, unmerged, hd]
      refine ⟨s, ?_, hrowEq ▸ h, ?_, rfl, rfl, fun _ _ _ => rfl, fun ex _ => ?_⟩
      · simp only [coalesce_next, bind_apply, read_apply, hp.head, reduceCtorEq, if_false, hpos, hq.head, hd,
          Bool.toNat_false, or_true, if_true, pure_apply]
      · simp [unmerged, hd]
      · rw [hrowEq]
        exact Others.refl base ex _ _
    | true =>
      have hmerged : merged c (d :: rest) = ⟨c.size + HDR + d.size, c.free⟩ := by simp [merged, hd]
      have hunmerged : unmerged (d :: rest) = rest := by simp [unmerged, hd]
      obtain ⟨hlaid, hframe⟩ := h.join
      refine ⟨absorb s (base + span width pre) (base + span width pre + width c), ?_, ?_, ?_, rfl, rfl, ?_, ?_⟩
      · simp only [coalesce_next, check_header, bind_apply, read_apply, hp.head, reduceCtorEq, if_false, hpos,
          hq.head, hd, Bool.toNat_true, or_self, ne_eq, not_true_eq_false, one_ne_zero, pure_apply,
          modify_apply]
      · rw [hmerged, hunmerged]
        exact hlaid
      · simp only [freeCount_cons, hd, if_true] at hfew ⊢
        simp only [absorb, hunmerged]
        rw [wsub_of_le (by omega) (by omega)]
        omega
      · intro i hlo hhi
        exact hframe i (by omega) (by omega) (by omega)
      · intro ex hex
        rw [hmerged, hunmerged]
        apply @others_of_local base ex _ _ pre [c, d] [⟨c.size + HDR + d.size, c.free⟩] rest
        · simp only [span_cons, span_nil, width]
          omega
        · intro x e hx hused
          simp only [cellAt_cons, cellAt_nil, or_false] at hx
          rcases hx with ⟨rfl, rfl⟩ | ⟨-, rfl⟩
          · exact hex hused
          · cases hd.symm.trans hused
        · intro x e hx hused
          simp only [cellAt_cons, cellAt_nil, or_false] at hx
          obtain ⟨rfl, rfl⟩ := hx
          exact hex hused
        · intro i hi
          simp only [span_cons, span_nil] at hi
          exact hframe i (by omega) (by omega) (by omega)

end Rows

end fable.heap
