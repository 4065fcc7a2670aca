import FableOs.Heap.Calls

namespace fable.heap

open fable.exec Exec

/-! What the callers of the allocator rely on, in every heap that a sequence of
calls leads to. -/

/-- When the call returns a pointer, the block behind it has the bytes that were
    asked for, is aligned as asked, and overlaps no other live allocation. -/
def Served (default_arena : Nat) (s : heap_t) (live : Set Nat) (call : call_t) : Prop :=
  ∀ r s', run_call default_arena call s = .ok r s' → r ≠ 0 →
    (∀ n, (requested call = some n ∨ ∃ p, call = .krealloc p n) → n ≤ usable s' r) ∧
      (∀ align n, call = .kmemalign align n → align.isPowerOfTwo → align ∣ r) ∧
      ∀ q ∈ live_after live call r, q ≠ r → r + usable s' r ≤ q ∨ q + usable s' q ≤ r

/-- The allocation behind `q` is still one, with the bytes it had. -/
def Intact (s s' : heap_t) (q : Nat) : Prop :=
  (header s'.mem (block_of q)).magic = BLOCK_MAGIC ∧ (header s'.mem (block_of q)).free = 0 ∧
    usable s' q = usable s q ∧ ∀ i, i < usable s q → s'.mem (q + i) = s.mem (q + i)

/-- The call leaves every allocation alone but the one it is about; a resized
    one keeps its first bytes, and a call that panics changes nothing. -/
def Preserved (default_arena : Nat) (s : heap_t) (live : Set Nat) (call : call_t) : Prop :=
  (∀ r s', run_call default_arena call s = .ok r s' →
    (∀ q ∈ live, q ≠ subject call → q ∈ live_after live call r ∧ Intact s s' q) ∧
      ∀ p n, call = .krealloc p n → p ≠ 0 → r ≠ 0 →
        min (usable s p) n ≤ usable s' r ∧ ∀ i, i < min (usable s p) n → s'.mem (r + i) = s.mem (p + i)) ∧
    ∀ text s', run_call default_arena call s = .stop text s' → ∀ q ∈ live, Intact s s' q

/-- A `krealloc` that wraps, of a block that is large enough to be split. -/
def Clobbers (s : heap_t) : call_t → Prop
  | .krealloc p n => p ≠ 0 ∧ SIZE_RANGE - 15 ≤ n ∧ HDR + MIN_PAYLOAD ≤ usable s p
  | _ => False

section Runs

variable {default_arena : Nat} {s s' : heap_t} {live : Set Nat}

/-- A sequence of calls, and what they return. -/
def run_calls (default_arena : Nat) : List call_t → M (List Nat)
  | [] => pure []
  | call :: calls => do
    let r ← run_call default_arena call
    let rs ← run_calls default_arena calls
    pure (r :: rs)

/-- Each call is admissible after the calls before it, which have returned what is
    noted with them. -/
def Admitted : Set Nat → List (call_t × Nat) → Prop
  | _, [] => True
  | live, (call, r) :: rest => Admissible live call ∧ Admitted (live_after live call r) rest

theorem Reached.calls {calls : List (call_t × Nat)} (h : Reached default_arena s live) (hcalls : Admitted live calls)
    (hrun : run_calls default_arena (calls.map Prod.fst) s = .ok (calls.map Prod.snd) s') :
    Reached default_arena s' (calls.foldl (fun live c => live_after live c.1 c.2) live) := by
  induction calls generalizing s live with
  | nil =>
    obtain ⟨-, rfl⟩ := Outcome.ok.inj hrun
    exact h
  | cons c rest ih =>
    obtain ⟨hcall, hrest⟩ := hcalls
    obtain ⟨r, mid, hfirst, hrun⟩ := bind_eq_ok_iff.mp hrun
    obtain ⟨rs, last, hlast, hrun⟩ := bind_eq_ok_iff.mp hrun
    obtain ⟨heq, rfl⟩ := Outcome.ok.inj hrun
    obtain ⟨rfl, rfl⟩ := List.cons.inj heq
    exact ih (h.call hcall hfirst) hrest hlast

/-- A heap of one page, as `heap_init` leaves it. -/
def page_heap : heap_t := fresh_heap ⟨fun _ => 0, 0, 0, 0, 0, 0, 0, 0, 0⟩ 4096 4096

theorem page_heap_reached : Reached 0 page_heap ∅ :=
  @Reached.init 0 4096 4096 ⟨fun _ => 0, 0, 0, 0, 0, 0, 0, 0, 0⟩ page_heap (by decide) rfl

/-- An allocation of 64 bytes, resized to the largest size there is. -/
theorem resized_to_size_max : ∃ s live s', Reached 0 s live ∧ Admissible live (.krealloc 4128 (2 ^ 64 - 1)) ∧
    usable s 4128 = 64 ∧ run_call 0 (.krealloc 4128 (2 ^ 64 - 1)) s = .ok 4128 s' ∧ usable s' 4128 = 0 := by
  obtain ⟨s', hrun⟩ : ∃ s', (do
      let p ← run_call 0 (.kmalloc 64)
      let before ← read
      let q ← run_call 0 (.krealloc 4128 (2 ^ 64 - 1))
      let after ← read
      pure (p, usable before 4128, q, usable after 4128) : M (Nat × Nat × Nat × Nat)) page_heap =
        .ok (4128, 64, 4128, 0) s' := Outcome.eq_ok_of_value (by decide +kernel)
  obtain ⟨p, s, halloc, hrun⟩ := bind_eq_ok_iff.mp hrun
  obtain ⟨before, s₁, hread, hrun⟩ := bind_eq_ok_iff.mp hrun
  obtain ⟨rfl, rfl⟩ := Outcome.ok.inj hread
  obtain ⟨q, s₂, hrealloc, hrun⟩ := bind_eq_ok_iff.mp hrun
  obtain ⟨after, s₃, hread, hrun⟩ := bind_eq_ok_iff.mp hrun
  obtain ⟨rfl, rfl⟩ := Outcome.ok.inj hread
  obtain ⟨heq, rfl⟩ := Outcome.ok.inj hrun
  simp only [Prod.mk.injEq] at heq
  obtain ⟨rfl, hbefore, rfl, hafter⟩ := heq
  have hcall : Admissible ∅ (.kmalloc 64) := show 64 < SIZE_RANGE by decide
  have hreached := Reached.call page_heap_reached hcall halloc
  exact ⟨_, _, _, hreached, ⟨Or.inr (Or.inl ⟨rfl, by decide⟩), by decide⟩, hbefore, hrealloc, hafter⟩

/-- What calls on the page lead to, seen through `f`. -/
theorem page_heap_after {A : Type} {calls : List (call_t × Nat)} {f : heap_t → A} {a : A} (hcalls : Admitted ∅ calls)
    (hrun : ((do
      let rs ← run_calls 0 (calls.map Prod.fst)
      let s ← read
      pure (rs, f s) : M (List Nat × A)) page_heap).value? = some (calls.map Prod.snd, a)) :
    ∃ s, Reached 0 s (calls.foldl (fun live c => live_after live c.1 c.2) ∅) ∧ f s = a := by
  obtain ⟨s', hrun⟩ := Outcome.eq_ok_of_value hrun
  obtain ⟨rs, s, hrs, hrun⟩ := bind_eq_ok_iff.mp hrun
  obtain ⟨after, s₁, hread, hrun⟩ := bind_eq_ok_iff.mp hrun
  obtain ⟨rfl, rfl⟩ := Outcome.ok.inj hread
  obtain ⟨heq, rfl⟩ := Outcome.ok.inj hrun
  obtain ⟨rfl, hlook⟩ := Prod.mk.inj heq
  exact ⟨s, page_heap_reached.calls hcalls hrs, hlook⟩

/-- Three allocations, of which the first is freed again. -/
def first_freed : List (call_t × Nat) := [(.kmalloc 64, 4128), (.kmalloc 100, 4224), (.kmalloc 32, 4368), (.kfree 4128, 0)]

theorem live_first_freed : first_freed.foldl (fun live c => live_after live c.1 c.2) ∅ = {4224, 4368} := by
  ext q
  simp [first_freed, live_after, subject]
  omega

/-- A page with a free block in front of two live ones, into the first of which its
    owner has written, and where the next calls would put their blocks. -/
theorem used_page_heap : ∃ s, Reached 0 s {4224, 4368} ∧ s.mem 4224 = 7 ∧ usable s 4224 = 112 ∧
    (run_call 0 (.kmalloc 40) s).value? = some 4128 ∧ (run_call 0 (.kmalloc 100) s).value? = some 4432 ∧
    (run_call 0 (.krealloc 4224 300) s).value? = some 4432 := by
  have hcalls : Admitted ∅ first_freed := by
    simp [first_freed, Admitted, Admissible, live_after, subject, SIZE_RANGE]
  obtain ⟨s, hreached, hlook⟩ := page_heap_after (f := fun s =>
      let s' := { s with mem := s.mem.setByte 4224 7 }
      (usable s 4224, usable s' 4224, [.kmalloc 40, .kmalloc 100, .krealloc 4224 300].map fun call =>
        (run_call 0 call s').value?)) (a := (112, 112, [some 4128, some 4432, some 4432])) hcalls
    (by decide +kernel)
  simp only [List.map_cons, List.map_nil, Prod.mk.injEq, List.cons.injEq, and_true] at hlook
  obtain ⟨husable, husable', hnext⟩ := hlook
  rw [live_first_freed] at hreached
  have hroom : 0 < usable s 4224 := husable ▸ (by decide : 0 < 112)
  exact ⟨_, hreached.write (by simp) hroom 7, by simp [Mem.setByte], husable', hnext⟩

/-- The same page once the other two are freed as well. -/
theorem freed_page_heap : ∃ s, Reached 0 s ∅ ∧ s.arena_bytes = 4096 ∧ s.stat_frees = 3 := by
  have hcalls : Admitted ∅ (first_freed ++ [(.kfree 4368, 0), (.kfree 4224, 0)]) := by
    simp [first_freed, Admitted, Admissible, live_after, subject, SIZE_RANGE]
  obtain ⟨s, hreached, hlook⟩ := page_heap_after (f := fun s => (s.arena_bytes, s.stat_frees)) (a := (4096, 3)) hcalls
    (by decide +kernel)
  have hlive : List.foldl (fun live c => live_after live c.1 c.2) {4224, 4368}
      ([(.kfree 4368, 0), (.kfree 4224, 0)] : List (call_t × Nat)) = ∅ := by
    ext q
    simp [live_after, subject]
    omega
  rw [List.foldl_append, live_first_freed, hlive] at hreached
  exact ⟨s, hreached, (Prod.mk.inj hlook).1, (Prod.mk.inj hlook).2⟩

end Runs

section Contract

variable {default_arena base r : Nat} {L L' : List cell_t} {s s' : heap_t} {live : Set Nat} {call : call_t}

/-- In every reachable heap the blocks tile the arena, their links agree, no
    two neighbours are free and every payload is aligned; the statistics are
    those of a walk over the blocks, and `heap_check` finds nothing. -/
theorem reachable_heap_well_formed (h : Reached default_arena s live) :
    ∃ base L, Rep base L s ∧ (∀ x c, CellAt width base L x c → payload_of x % ALIGN = 0) ∧
      heap_stats default_arena s = .ok (recounted L s) s ∧ heap_check default_arena s = .ok 0 s := by
  obtain ⟨base, L, hrep, -⟩ := h.rep
  refine ⟨base, L, hrep, fun x c hx => ?_, heap_stats_spec hrep default_arena, heap_check_spec hrep default_arena⟩
  have hx := hrep.laid.aligned x c hx
  simp only [payload_of, HDR, ALIGN] at hx ⊢
  omega

theorem used_page_heap_well_formed : ∃ s base L, Reached 0 s {4224, 4368} ∧ Rep base L s ∧
    heap_check 0 s = .ok 0 s := by
  obtain ⟨s, hreached, -⟩ := used_page_heap
  obtain ⟨base, L, hrep, -, -, hcheck⟩ := reachable_heap_well_formed hreached
  exact ⟨s, base, L, hreached, hrep, hcheck⟩

/-- On every reachable heap `kmalloc` takes the first free block that is large
    enough, and panics only when there is none. -/
theorem kmalloc_first_fit (h : Reached default_arena s live) :
    ∃ base L, Rep base L s ∧ ∀ n, FirstFit default_arena base n L s := by
  obtain ⟨base, L, hrep, -⟩ := h.rep
  exact ⟨base, L, hrep, kmalloc_fits hrep default_arena⟩

/-- The freed block is taken for 40 bytes and passed over for 100. -/
theorem used_page_heap_first_fit : ∃ s base L, Reached 0 s {4224, 4368} ∧ Rep base L s ∧
    (run_call 0 (.kmalloc 40) s).value? = some 4128 ∧ FirstFit 0 base 40 L s ∧
    (run_call 0 (.kmalloc 100) s).value? = some 4432 ∧ FirstFit 0 base 100 L s := by
  obtain ⟨s, hreached, -, -, hsmall, hlarge, -⟩ := used_page_heap
  obtain ⟨base, L, hrep, hfit⟩ := kmalloc_first_fit hreached
  exact ⟨s, base, L, hreached, hrep, hsmall, hfit 40, hlarge, hfit 100⟩

/-- Once every allocation was freed, the arena is one free block again, whatever
    the calls have been, and a request is served if it fits in that block. -/
theorem freed_heap_whole (h : Reached default_arena s ∅) : ∃ base, Rep base [⟨s.arena_bytes - HDR, true⟩] s ∧
    ∀ n want, round_request s n = some want → want + HDR ≤ s.arena_bytes →
      ∃ s', kmalloc default_arena n s = .ok (base + HDR) s' := by
  obtain ⟨base, L, hrep, howned⟩ := h.rep
  have hfree (c : cell_t) (hc : c ∈ L) : c.free = true := by
    by_contra hused
    obtain ⟨pre, post, rfl⟩ := List.append_of_mem hc
    exact (howned _).mpr ⟨_, rfl, c, cellAt_middle base pre c post, Bool.eq_false_iff.mpr hused⟩
  have harena := hrep.laid.arena_eq
  -- the row is not empty, and a second cell would be free beside the first
  obtain _ | ⟨c, _ | ⟨d, rest⟩⟩ := L
  · have hpos := hrep.laid.arena_pos
    simp only [span_nil] at harena
    omega
  · obtain ⟨size, free⟩ := c
    obtain rfl : free = true := hfree _ (List.mem_singleton.mpr rfl)
    obtain rfl : size = s.arena_bytes - HDR := by
      simp only [span_cons, span_nil, width] at harena
      omega
    refine ⟨base, hrep, fun n want hwant hroom => ?_⟩
    obtain ⟨hnone, -⟩ | ⟨_, pre, c, post, s', -, hL, -, -, hrun, -⟩ := kmalloc_fits hrep default_arena n
    · exact absurd ⟨rfl, Nat.le_sub_of_add_le hroom⟩ (hnone want hwant _ (List.mem_singleton.mpr rfl))
    · obtain ⟨rfl, -⟩ := List.singleton_eq_append_iff.mp hL |>.resolve_right (by simp)
      exact ⟨s', hrun⟩
  · have hpair := (List.isChain_cons_cons.mp hrep.settled).1
    exact absurd ⟨hfree c List.mem_cons_self, hfree d (List.mem_cons_of_mem c List.mem_cons_self)⟩ hpair

/-- A page that three allocations were taken from and given back to is one free
    block, which serves a request for nearly all of it. -/
theorem freed_page_whole : ∃ s base s', Reached 0 s ∅ ∧ s.stat_frees = 3 ∧ Rep base [⟨4064, true⟩] s ∧
    kmalloc 0 4060 s = .ok (base + HDR) s' := by
  obtain ⟨s, hreached, harena, hfrees⟩ := freed_page_heap
  obtain ⟨base, hrep, hserved⟩ := freed_heap_whole hreached
  rw [harena] at hrep hserved
  have hwant : round_request s 4060 = some 4064 := by simp [round_request, harena]; decide
  obtain ⟨s', hrun⟩ := hserved 4060 4064 hwant (by decide)
  exact ⟨s, base, s', hreached, hfrees, hrep, hrun⟩

theorem payloads_apart (h : Rep base L s) (howned : Owned base L live) {p q : Nat} (hp : p ∈ live) (hq : q ∈ live)
    (hne : q ≠ p) : p + usable s p ≤ q ∨ q + usable s q ≤ p := by
  obtain ⟨x, rfl, c, hc, -⟩ := (howned p).mp hp
  obtain ⟨y, rfl, d, hd, -⟩ := (howned q).mp hq
  rw [usable_eq h.laid hc, usable_eq h.laid hd]
  rcases hc.apart hd with ⟨rfl, -⟩ | hbefore | hafter
  · exact absurd rfl hne
  · left
    simp only [width] at hbefore
    omega
  · right
    simp only [width] at hafter
    omega

theorem Keeps.intact (h : Laid base L s) (h' : Laid base L' s') {x : Nat} (hx : LiveAt base L x)
    (hkeeps : Keeps base L s.mem L' s'.mem x) : Intact s s' (x + HDR) := by
  obtain ⟨c, hc, hused⟩ := hx
  obtain ⟨hiff, hbytes⟩ := hkeeps c hused
  have hc' := hiff.mp hc
  obtain ⟨p, hhead⟩ := h'.seg.header_eq hc'
  have hblock : block_of (x + HDR) = x := Nat.add_sub_cancel _ _
  rw [Intact, hblock, hhead, usable_eq h hc, usable_eq h' hc', hused]
  refine ⟨rfl, rfl, rfl, fun i hi => hbytes hc _ (by omega) (by simp only [width]; omega)⟩

/-- What a call that returns a pointer provides, unless its size has wrapped. -/
theorem Answer.provides (h : Answer base L s L' s' call r) (hrep : Rep base L s) (hwraps : ¬ Wraps call) (hr : r ≠ 0) :
    (∀ n, (requested call = some n ∨ ∃ p, call = .krealloc p n) → n ≤ usable s' r) ∧
      ∀ align n, call = .kmemalign align n → align.isPowerOfTwo → align ∣ r := by
  have hlaid' := (h.rep hrep).laid
  cases h with
  | @allocated _ n b hn halloc halign =>
    obtain ⟨c, hc, -, hroom⟩ := halloc.room
    refine ⟨fun k hk => ?_, halign⟩
    have hkn : k = n := by
      rcases hk with hk | ⟨p, rfl⟩
      · rw [hn] at hk
        exact (Option.some.inj hk).symm
      · simp only [requested] at hn
        split at hn
        · exact Option.some.inj hn
        · cases hn
    rw [usable_eq hlaid' hc, hkn]
    exact hroom
  | freed _ _ _ => exact absurd rfl hr
  | @resized b b' n c c' hc hused hresized =>
    refine ⟨fun k hk => ?_, fun align k heq => by cases heq⟩
    have hkn : k = n := by
      rcases hk with hk | ⟨p, heq⟩
      · simp [requested] at hk
      · exact (call_t.krealloc.inj heq).2.symm
    rw [usable_eq hlaid' hresized.cell, hkn]
    refine hresized.room ?_
    by_contra hbig
    refine hwraps ⟨?_, ?_⟩
    · simp only [HDR]
      omega
    · simp only [SIZE_RANGE]
      omega
  | nothing _ _ => exact absurd rfl hr

/-- A `krealloc` that wraps returns the block it was given, cut to the bytes
    that a request for nothing keeps. -/
theorem wrapped_answer (default_arena : Nat) (hrep : Rep base L s) (howned : Owned base L live) {p n : Nat}
    (hcall : Admissible live (.krealloc p n)) (hwraps : Wraps (.krealloc p n)) :
    ∃ s' c, run_call default_arena (.krealloc p n) s = .ok p s' ∧ usable s p = c.size ∧ usable s' p = kept c 0 := by
  rcases run_call_spec hrep howned hcall with ⟨text, hno, -⟩ | ⟨r, L', s', hrun, hanswer⟩
  · exact absurd hwraps hno
  · have hlaid' := (hanswer.rep hrep).laid
    obtain ⟨hp, hbig⟩ := hwraps
    cases hanswer with
    | allocated hn _ _ =>
      simp only [requested, if_neg hp, reduceCtorEq] at hn
    | freed _ hzero _ =>
      rw [hzero p n rfl] at hbig
      simp [SIZE_RANGE] at hbig
    | @resized b b' n c c' hc hused hresized =>
      obtain ⟨rfl, hsize⟩ := hresized.wraps hbig
      refine ⟨s', c, hrun, usable_eq hrep.laid hc, ?_⟩
      rw [usable_eq hlaid' hresized.cell, hsize]

/-- A call serves its caller exactly when it is not a `krealloc` to a size
    within 15 bytes of the largest: those round to nothing, and the block is
    cut to nothing instead. -/
theorem served_iff_not_wraps (h : Reached default_arena s live) (hcall : Admissible live call) :
    Served default_arena s live call ↔ ¬ Wraps call := by
  obtain ⟨base, L, hrep, howned⟩ := h.rep
  constructor
  · intro hserved hwraps
    cases call with
    | krealloc p n =>
      obtain ⟨s', c, hrun, -, hsize⟩ := wrapped_answer default_arena hrep howned hcall hwraps
      have hroom := (hserved p s' hrun hwraps.1).1 n (Or.inr ⟨p, rfl⟩)
      have hbig := hwraps.2
      have hkept := kept_zero_lt c
      simp only [SIZE_RANGE, HDR, MIN_PAYLOAD] at hbig hkept
      omega
    | _ => exact hwraps
  · intro hwraps r s' hrun hr
    rcases run_call_spec hrep howned hcall with ⟨text, -, hstop⟩ | ⟨r', L', s'', hok, hanswer⟩
    · cases hrun.symm.trans hstop
    · rw [hrun] at hok
      obtain ⟨rfl, rfl⟩ := Outcome.ok.inj hok
      obtain ⟨hroom, halign⟩ := hanswer.provides hrep hwraps hr
      refine ⟨hroom, halign, fun q hq hne => ?_⟩
      exact payloads_apart (hanswer.rep hrep) (hanswer.owned howned) (Or.inl ⟨rfl, hr⟩) hq hne

/-- Two blocks are live when the freed one in front of them is handed out again. -/
theorem freed_block_served : ∃ s s', Reached 0 s {4224, 4368} ∧ run_call 0 (.kmalloc 40) s = .ok 4128 s' ∧
    Served 0 s {4224, 4368} (.kmalloc 40) := by
  obtain ⟨s, hreached, -, -, hvalue, -⟩ := used_page_heap
  obtain ⟨s', hrun⟩ := Outcome.eq_ok_of_value hvalue
  have hcall : Admissible {4224, 4368} (.kmalloc 40) := show 40 < SIZE_RANGE by decide
  exact ⟨s, s', hreached, hrun, (served_iff_not_wraps hreached hcall).mpr id⟩

theorem size_max_not_served : ∃ s live p, Reached 0 s live ∧ Admissible live (.krealloc p (2 ^ 64 - 1)) ∧
    ¬ Served 0 s live (.krealloc p (2 ^ 64 - 1)) := by
  obtain ⟨s, live, s', hreached, hcall, -, hrun, hsize⟩ := resized_to_size_max
  refine ⟨s, live, 4128, hreached, hcall, fun hserved => ?_⟩
  have hroom := (hserved 4128 s' hrun (by decide)).1 (2 ^ 64 - 1) (Or.inr ⟨4128, rfl⟩)
  rw [hsize] at hroom
  exact absurd hroom (by decide)

/-- The bytes that a resized block keeps, unless it was cut to nothing. -/
theorem Answer.contents (h : Answer base L s L' s' call r) (hrep : Rep base L s) (hclobbers : ¬ Clobbers s call)
    {p n : Nat} (heq : call = .krealloc p n) (hp : p ≠ 0) (hr : r ≠ 0) :
    min (usable s p) n ≤ usable s' r ∧ ∀ i, i < min (usable s p) n → s'.mem (r + i) = s.mem (p + i) := by
  have hlaid' := (h.rep hrep).laid
  subst heq
  cases h with
  | allocated hn _ _ =>
    simp only [requested, if_neg hp, reduceCtorEq] at hn
  | freed _ _ _ => exact absurd rfl hr
  | @resized b b' n c c' hc hused hresized =>
    have hsize := usable_eq hrep.laid hc
    rw [usable_eq hlaid' hresized.cell, hsize]
    have hroom : min c.size n ≤ c'.size := by
      by_cases hsmall : n < 2 ^ 64 - 15
      · exact (min_le_right _ _).trans (hresized.room hsmall)
      · -- the size has wrapped, so the block was too small to be split
        obtain ⟨-, hkept⟩ := hresized.wraps (by omega)
        have hfew : c.size < 0 + HDR + MIN_PAYLOAD := by
          by_contra hlarge
          refine hclobbers ⟨hp, ?_, ?_⟩
          · simp only [SIZE_RANGE]
            omega
          · rw [hsize]
            omega
        rw [hkept, kept, if_pos hfew]
        exact min_le_left _ _
    refine ⟨hroom, fun i hi => hresized.contents i ?_ ?_ ?_⟩
    · exact lt_of_lt_of_le hi (min_le_left _ _)
    · exact lt_of_lt_of_le hi hroom
    · exact lt_of_lt_of_le hi (min_le_right _ _)

/-- A call preserves what it is not about, and a resized block its contents,
    exactly when it is not a `krealloc` of a block of 48 bytes or more to a size
    within 15 bytes of the largest. -/
theorem preserved_iff_not_clobbers (h : Reached default_arena s live) (hcall : Admissible live call) :
    Preserved default_arena s live call ↔ ¬ Clobbers s call := by
  obtain ⟨base, L, hrep, howned⟩ := h.rep
  constructor
  · intro hpreserved hclobbers
    cases call with
    | krealloc p n =>
      obtain ⟨hp, hbig, hlarge⟩ := hclobbers
      obtain ⟨s', c, hrun, hsize, hsize'⟩ :=
        wrapped_answer default_arena hrep howned hcall ⟨hp, hbig⟩
      have hroom := ((hpreserved.1 p s' hrun).2 p n rfl hp hp).1
      rw [hsize] at hlarge hroom
      rw [hsize', kept, if_neg (by omega)] at hroom
      simp only [SIZE_RANGE, HDR, MIN_PAYLOAD] at hbig hlarge
      omega
    | _ => exact hclobbers
  · intro hclobbers
    rcases run_call_spec hrep howned hcall with ⟨text, -, hstop⟩ | ⟨r, L', s', hok, hanswer⟩
    · refine ⟨fun r s' hrun => ?_, fun text' s' hrun q hq => ?_⟩
      · cases hrun.symm.trans hstop
      · rw [hrun] at hstop
        obtain ⟨-, rfl⟩ := Outcome.stop.inj hstop
        obtain ⟨x, rfl, hx⟩ := (howned q).mp hq
        exact Keeps.intact hrep.laid hrep.laid hx (Others.refl base (x + 1) L _ x (by omega))
    · refine ⟨fun r' s'' hrun => ?_, fun text s'' hrun => ?_⟩
      · rw [hrun] at hok
        obtain ⟨rfl, rfl⟩ := Outcome.ok.inj hok
        refine ⟨fun q hq hne => ⟨Or.inr ⟨hq, hne⟩, ?_⟩, fun p n heq hp hr => hanswer.contents hrep hclobbers heq hp hr⟩
        obtain ⟨x, rfl, hx⟩ := (howned q).mp hq
        exact Keeps.intact hrep.laid (hanswer.rep hrep).laid hx (hanswer.keeps hx hne)
      · cases hrun.symm.trans hok

/-- A block that is moved to grow takes its first byte along, and the other live
    block is not touched. -/
theorem moved_block_preserved : ∃ s s', Reached 0 s {4224, 4368} ∧
    run_call 0 (.krealloc 4224 300) s = .ok 4432 s' ∧ Preserved 0 s {4224, 4368} (.krealloc 4224 300) ∧
    Intact s s' 4368 ∧ s'.mem 4432 = 7 := by
  obtain ⟨s, hreached, hbyte, husable, -, -, hvalue⟩ := used_page_heap
  obtain ⟨s', hrun⟩ := Outcome.eq_ok_of_value hvalue
  have hcall : Admissible {4224, 4368} (.krealloc 4224 300) := ⟨Or.inr (by simp), by decide⟩
  have hpreserved := (preserved_iff_not_clobbers hreached hcall).mpr (by simp [Clobbers, SIZE_RANGE])
  obtain ⟨hothers, hresized⟩ := hpreserved.1 4432 s' hrun
  obtain ⟨-, hcontents⟩ := hresized 4224 300 rfl (by decide) (by decide)
  have hfirst : s'.mem 4432 = s.mem 4224 := hcontents 0 (by rw [husable]; decide)
  exact ⟨s, s', hreached, hrun, hpreserved, (hothers 4368 (by simp) (by decide)).2, hfirst.trans hbyte⟩

theorem size_max_not_preserved : ∃ s live p, Reached 0 s live ∧ Admissible live (.krealloc p (2 ^ 64 - 1)) ∧
    ¬ Preserved 0 s live (.krealloc p (2 ^ 64 - 1)) := by
  obtain ⟨s, live, s', hreached, hcall, hsize, hrun, hsize'⟩ := resized_to_size_max
  refine ⟨s, live, 4128, hreached, hcall, fun hpreserved => ?_⟩
  have hroom := ((hpreserved.1 4128 s' hrun).2 4128 (2 ^ 64 - 1) rfl (by decide) (by decide)).1
  rw [hsize, hsize'] at hroom
  exact absurd hroom (by decide)

end Contract

end fable.heap
