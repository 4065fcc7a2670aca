import FableOs.Heap.Rewrite

namespace fable.heap

open List

/-- The bytes in use, as a walk over the row adds them up. -/
def inUse : List cell_t → Nat
  | [] => 0
  | c :: rest => (if c.free then 0 else c.size) + inUse rest

def usedCount (L : List cell_t) : Nat := L.countP fun c => !c.free

def freeCount (L : List cell_t) : Nat := L.countP fun c => c.free

/-- No two neighbours are both free. -/
abbrev Settled (L : List cell_t) : Prop := L.IsChain fun c d => ¬ (c.free = true ∧ d.free = true)

/-- The running statistics are those of the row. -/
structure Counted (L : List cell_t) (s : heap_t) : Prop where
  in_use : s.stat_in_use = inUse L
  used : s.stat_used_blocks = usedCount L
  free : s.stat_free_blocks = freeCount L

/-- The heap is in order: it is laid out as the row `L`, which is settled,
    and the statistics are the row's. -/
structure Rep (base : Nat) (L : List cell_t) (s : heap_t) : Prop where
  laid : Laid base L s
  settled : Settled L
  counted : Counted L s

section Counts

variable {L L' : List cell_t} {c : cell_t}

@[simp] theorem inUse_nil : inUse [] = 0 := rfl

@[simp] theorem inUse_cons : inUse (c :: L) = (if c.free then 0 else c.size) + inUse L := rfl

@[simp] theorem inUse_append : inUse (L ++ L') = inUse L + inUse L' := by
  induction L with
  | nil => simp
  | cons c rest ih => rw [cons_append, inUse_cons, inUse_cons, ih, Nat.add_assoc]

@[simp] theorem usedCount_nil : usedCount [] = 0 := rfl

@[simp] theorem usedCount_cons : usedCount (c :: L) = usedCount L + if c.free then 0 else 1 := by
  unfold usedCount
  rw [countP_cons]
  cases c.free <;> rfl

@[simp] theorem usedCount_append : usedCount (L ++ L') = usedCount L + usedCount L' := countP_append

@[simp] theorem freeCount_nil : freeCount [] = 0 := rfl

@[simp] theorem freeCount_cons : freeCount (c :: L) = freeCount L + if c.free then 1 else 0 := by
  unfold freeCount
  rw [countP_cons]

@[simp] theorem freeCount_append : freeCount (L ++ L') = freeCount L + freeCount L' := countP_append

/-- Headers and payloads add up to the arena. -/
theorem counts_le_span (L : List cell_t) :
    inUse L + HDR * (usedCount L + freeCount L) ≤ span width L := by
  induction L with
  | nil => simp
  | cons c rest ih =>
    simp only [inUse_cons, usedCount_cons, freeCount_cons, span_cons, width, HDR] at ih ⊢
    cases c.free <;> simp only [if_true, if_false, Bool.false_eq_true] <;> omega

end Counts

section Settled

variable {pre post : List cell_t} {c : cell_t}

/-- Only a free cell asks something of its neighbours. -/
theorem settled_middle :
    Settled (pre ++ c :: post) ↔ Settled pre ∧ Settled post ∧
      (c.free = true → (∀ d ∈ pre.getLast?, d.free = false) ∧ ∀ d ∈ post.head?, d.free = false) := by
  unfold Settled
  rw [isChain_append, isChain_cons]
  simp only [head?_cons, Option.mem_some_iff, forall_eq', not_and, Bool.not_eq_true]
  constructor
  · rintro ⟨hpre, ⟨hnext, hpost⟩, hlast⟩
    refine ⟨hpre, hpost, fun hc => ⟨fun d hd => ?_, fun d hd => hnext d hd hc⟩⟩
    by_contra hfree
    rw [Bool.not_eq_false] at hfree
    cases (hlast d hd hfree).symm.trans hc
  · rintro ⟨hpre, hpost, hc⟩
    refine ⟨hpre, ⟨fun d hd hfree => (hc hfree).2 d hd, hpost⟩, fun d hd hfree => ?_⟩
    by_contra hcfree
    rw [Bool.not_eq_false] at hcfree
    rw [(hc hcfree).1 d hd] at hfree
    cases hfree

theorem settled_used (hused : c.free = false) : Settled (pre ++ c :: post) ↔ Settled pre ∧ Settled post := by
  rw [settled_middle]
  simp [hused]

end Settled

section Frame

variable {base ex x : Nat} {L L' L'' : List cell_t} {m m' m'' : Mem}

/-- An allocation at `x` is there before exactly if it is there after, with the
    contents it had. -/
def Keeps (base : Nat) (L : List cell_t) (m : Mem) (L' : List cell_t) (m' : Mem) (x : Nat) : Prop :=
  ∀ c, c.free = false → (CellAt width base L x c ↔ CellAt width base L' x c) ∧
    (CellAt width base L x c → ∀ i, x + HDR ≤ i → i < x + width c → m' i = m i)

/-- Every allocation but the one at `ex` stays as it is, and there is no other
    new one. -/
def Others (base ex : Nat) (L : List cell_t) (m : Mem) (L' : List cell_t) (m' : Mem) : Prop :=
  ∀ x, x ≠ ex → Keeps base L m L' m' x

theorem Keeps.trans (h : Keeps base L m L' m' x) (h' : Keeps base L' m' L'' m'' x) : Keeps base L m L'' m'' x := by
  intro c hused
  obtain ⟨hiff, hbytes⟩ := h c hused
  obtain ⟨hiff', hbytes'⟩ := h' c hused
  refine ⟨hiff.trans hiff', fun hx i hlo hhi => ?_⟩
  rw [hbytes' (hiff.mp hx) i hlo hhi, hbytes hx i hlo hhi]

theorem Others.refl (base ex : Nat) (L : List cell_t) (m : Mem) : Others base ex L m L m :=
  fun _ _ _ _ => ⟨Iff.rfl, fun _ _ _ _ => rfl⟩

theorem Others.trans (h : Others base ex L m L' m') (h' : Others base ex L' m' L'' m'') :
    Others base ex L m L'' m'' :=
  fun x hx => (h x hx).trans (h' x hx)

/-- A change to some neighbouring cells, of which only the one at `ex` is in
    use before or after, leaves all others alone. -/
theorem others_of_local {pre mid mid' post} (hspan : span width mid' = span width mid)
    (hmid : ∀ x c, CellAt width (base + span width pre) mid x c → c.free = false → x = ex)
    (hmid' : ∀ x c, CellAt width (base + span width pre) mid' x c → c.free = false → x = ex)
    (hmem : ∀ i, i < base + span width pre ∨ base + span width pre + span width mid + HDR ≤ i → m' i = m i) :
    Others base ex (pre ++ (mid ++ post)) m (pre ++ (mid' ++ post)) m' := by
  intro x hne c hused
  have hout : ¬ CellAt width (base + span width pre) mid x c := fun hx => hne (hmid x c hx hused)
  have hout' : ¬ CellAt width (base + span width pre) mid' x c := fun hx => hne (hmid' x c hx hused)
  simp only [cellAt_append, hspan, hout, hout', false_or, true_and]
  rintro (hx | hx) i hlo hhi
  · have hbound := hx.bounds.2
    exact hmem i (Or.inl (by omega))
  · have hbound := hx.bounds.1
    exact hmem i (Or.inr (by omega))

end Frame

theorem outside_headers {base x y i : Nat} {L c d} (hx : CellAt width base L x c) (hlo : x + HDR ≤ i)
    (hhi : i < x + width c) (hy : CellAt width base L y d) : Outside i y := by
  rcases hx.apart hy with ⟨rfl, rfl⟩ | h | h
  · exact Or.inr hlo
  · left
    omega
  · right
    simp only [width] at h
    omega

theorem Laid.write {base x : Nat} {L s s' c} (h : Laid base L s) (hx : CellAt width base L x c)
    (hhead : s'.heap_head = s.heap_head) (harena : s'.arena_bytes = s.arena_bytes)
    (hmem : ∀ i, i < x + HDR ∨ x + width c ≤ i → s'.mem i = s.mem i) : Laid base L s' := by
  refine ⟨hhead.trans h.head_eq, h.base_pos, harena ▸ h.arena_pos, harena.trans h.arena_eq, h.bound, h.seg.congr ?_, h.aligned⟩
  intro y d hy
  refine header_congr fun i hlo hhi => hmem i ?_
  by_contra hin
  have hout := outside_headers hx (i := i) (by omega) (by omega) hy
  omega

end fable.heap
