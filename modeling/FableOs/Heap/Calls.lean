import FableOs.Heap.Check
import FableOs.Heap.Memalign
import FableOs.Heap.Realloc

namespace fable.heap

open fable.exec

/-- The allocation surface of `heap.h`. -/
inductive call_t where
  | kmalloc (n : Nat)
  | kcalloc (count size : Nat)
  | krealloc (p n : Nat)
  | kmemalign (align n : Nat)
  | kfree (p : Nat)
  deriving DecidableEq, Repr

/-- Make a call; `kfree` returns nothing, which reads as `NULL` here. -/
def run_call (default_arena : Nat) : call_t → M Nat
  | .kmalloc n => kmalloc default_arena n
  | .kcalloc count size => kcalloc default_arena count size
  | .krealloc p n => krealloc default_arena p n
  | .kmemalign align n => kmemalign default_arena align n
  | .kfree p => do
    kfree default_arena p
    pure 0

/-- The allocation that a call resizes or frees; `NULL` when there is none. -/
def subject : call_t → Nat
  | .krealloc p _ => p
  | .kfree p => p
  | _ => 0

/-- Sizes are `size_t` values, and only live pointers, or `NULL`, are handed in. -/
def Admissible (live : Set Nat) : call_t → Prop
  | .kmalloc n => n < SIZE_RANGE
  | .kcalloc count size => count < SIZE_RANGE ∧ size < SIZE_RANGE
  | .krealloc p n => (p = 0 ∨ p ∈ live) ∧ n < SIZE_RANGE
  | .kmemalign align n => align < SIZE_RANGE ∧ n < SIZE_RANGE
  | .kfree p => p = 0 ∨ p ∈ live

/-- The live pointers after a call that returned `r`. -/
def live_after (live : Set Nat) (call : call_t) (r : Nat) : Set Nat :=
  {q | q = r ∧ r ≠ 0 ∨ q ∈ live ∧ q ≠ subject call}

/-- The payload bytes of the block behind a pointer, as its header has them. -/
def usable (s : heap_t) (p : Nat) : Nat := (header s.mem (block_of p)).size

/-- The heaps that calls lead to from a fresh one, with the pointers that are
    live in them. Between calls the owner of a pointer may write to the bytes
    behind it. -/
inductive Reached (default_arena : Nat) : heap_t → Set Nat → Prop
  | init {start size : Nat} {s₀ s : heap_t} (hregion : start + size ≤ 2 ^ 60)
      (hinit : heap_init start size s₀ = .ok () s) : Reached default_arena s ∅
  | call {s s' : heap_t} {live : Set Nat} {call : call_t} {r : Nat} (hreached : Reached default_arena s live)
      (hcall : Admissible live call) (hrun : run_call default_arena call s = .ok r s') :
      Reached default_arena s' (live_after live call r)
  | write {s : heap_t} {live : Set Nat} {p i : Nat} (hreached : Reached default_arena s live) (hp : p ∈ live)
      (hi : i < usable s p) (v : UInt8) : Reached default_arena { s with mem := s.mem.setByte (p + i) v } live

/-- A `krealloc` whose size the rounding wraps. -/
def Wraps : call_t → Prop
  | .krealloc p n => p ≠ 0 ∧ SIZE_RANGE - 15 ≤ n
  | _ => False

/-- How many bytes a call that allocates has to provide. -/
def requested : call_t → Option Nat
  | .kmalloc n => some n
  | .kcalloc count size => some (count * size)
  | .krealloc p n => if p = 0 then some n else none
  | .kmemalign _ n => some n
  | .kfree _ => none

/-- The four things a call can do when it returns `r`: allocate, free, resize,
    or nothing at all. -/
inductive Answer (base : Nat) (L : List cell_t) (s : heap_t) (L' : List cell_t) (s' : heap_t) : call_t → Nat → Prop
  | allocated {call : call_t} {n b : Nat} (hn : requested call = some n) (h : Allocated base b n L s L' s')
      (halign : ∀ align k, call = .kmemalign align k → align.isPowerOfTwo → align ∣ b + HDR) :
      Answer base L s L' s' call (b + HDR)
  | freed {call : call_t} {b : Nat} (hsubject : subject call = b + HDR)
      (hzero : ∀ p n, call = .krealloc p n → n = 0) (h : Freed base b L s L' s') :
      Answer base L s L' s' call 0
  | resized {b b' n : Nat} {c c' : cell_t} (hc : CellAt width base L b c) (hused : c.free = false)
      (h : Resized base b b' n c c' L s L' s') : Answer base L s L' s' (.krealloc (b + HDR) n) (b' + HDR)
  | nothing (hL : L' = L) (hs : s' = s) : Answer base L s L' s' (.kfree 0) 0

/-- The pointers in `live` are those of the row's cells in use. -/
def Owned (base : Nat) (L : List cell_t) (live : Set Nat) : Prop :=
  ∀ p, p ∈ live ↔ ∃ x, p = x + HDR ∧ LiveAt base L x

section Calls

variable {base default_arena r : Nat} {L L' : List cell_t} {s s' : heap_t} {live : Set Nat} {call : call_t}

theorem requested_subject {n : Nat} (h : requested call = some n) : subject call = 0 := by
  cases call with
  | krealloc p k =>
    by_cases hp : p = 0
    · exact hp
    · simp only [requested, if_neg hp, reduceCtorEq] at h
  | kfree p => cases h
  | _ => rfl

theorem Owned.cell (h : Owned base L live) {p : Nat} (hp : p ∈ live) :
    ∃ pre c post, L = pre ++ c :: post ∧ p = base + span width pre + HDR ∧ c.free = false := by
  obtain ⟨x, rfl, c, hc, hused⟩ := (h p).mp hp
  obtain ⟨pre, post, rfl, rfl⟩ := hc.split
  exact ⟨pre, c, post, rfl, rfl, hused⟩

theorem allocation_answer {n : Nat} {m : M Nat} (hn : requested call = some n) (hwraps : ¬ Wraps call)
    (hspec : (∃ text, m s = .stop text s) ∨ ∃ b L' s', m s = .ok (b + HDR) s' ∧ Allocated base b n L s L' s' ∧
      ∀ align k, call = .kmemalign align k → align.isPowerOfTwo → align ∣ b + HDR) :
    (∃ text, ¬ Wraps call ∧ m s = .stop text s) ∨ ∃ r L' s', m s = .ok r s' ∧ Answer base L s L' s' call r := by
  rcases hspec with ⟨text, hstop⟩ | ⟨b, L', s', hrun, halloc, halign⟩
  · exact Or.inl ⟨text, hwraps, hstop⟩
  · exact Or.inr ⟨_, L', s', hrun, .allocated hn halloc halign⟩

theorem kmalloc_answer (h : Rep base L s) {n : Nat} (hn : requested call = some n) (hwraps : ¬ Wraps call)
    (hother : ∀ align k, call ≠ .kmemalign align k) :
    (∃ text, ¬ Wraps call ∧ kmalloc default_arena n s = .stop text s) ∨
      ∃ r L' s', kmalloc default_arena n s = .ok r s' ∧ Answer base L s L' s' call r := by
  refine allocation_answer hn hwraps ?_
  rcases kmalloc_spec h default_arena n with hstop | ⟨b, L', s', hrun, halloc⟩
  · exact Or.inl ⟨_, hstop⟩
  · exact Or.inr ⟨b, L', s', hrun, halloc, fun align k heq => absurd heq (hother align k)⟩

/-- Every admissible call on a heap in order returns with one of the four
    answers, or panics with the heap as it was. -/
theorem run_call_spec (h : Rep base L s) (howned : Owned base L live) (hcall : Admissible live call) :
    (∃ text, ¬ Wraps call ∧ run_call default_arena call s = .stop text s) ∨
      ∃ r L' s', run_call default_arena call s = .ok r s' ∧ Answer base L s L' s' call r := by
  cases call with
  | kmalloc n => exact kmalloc_answer h rfl id (fun _ _ heq => by cases heq)
  | kcalloc count size =>
    refine allocation_answer rfl id ?_
    rcases kcalloc_spec h default_arena count size with hstop | ⟨b, L', s', hrun, halloc⟩
    · exact Or.inl hstop
    · exact Or.inr ⟨b, L', s', hrun, halloc, fun _ _ heq => by cases heq⟩
  | kmemalign align n =>
    refine allocation_answer rfl id ?_
    rcases kmemalign_spec h default_arena n hcall.1 with hstop | ⟨b, L', s', hrun, halloc, halign⟩
    · exact Or.inl hstop
    · refine Or.inr ⟨b, L', s', hrun, halloc, fun align' k heq => ?_⟩
      obtain ⟨rfl, rfl⟩ := call_t.kmemalign.inj heq
      exact halign
  | kfree p =>
    right
    rcases hcall with rfl | hp
    · exact ⟨0, L, s, rfl, .nothing rfl rfl⟩
    · obtain ⟨pre, c, post, rfl, rfl, hused⟩ := howned.cell hp
      obtain ⟨L', s', hrun, hfreed⟩ := kfree_spec h hused default_arena
      refine ⟨0, L', s', ?_, .freed rfl (fun _ _ heq => by cases heq) hfreed⟩
      simp [run_call, Exec.bind_apply, hrun]
  | krealloc p n =>
    obtain ⟨hp, hn⟩ := hcall
    by_cases hnull : p = 0
    · subst hnull
      have hrun : run_call default_arena (.krealloc 0 n) = kmalloc default_arena n := by
        simp [run_call, krealloc]
      rw [hrun]
      exact kmalloc_answer h rfl (fun hwraps => hwraps.1 rfl) (fun _ _ heq => by cases heq)
    obtain ⟨pre, c, post, rfl, rfl, hused⟩ := howned.cell (hp.resolve_left hnull)
    by_cases hzero : n = 0
    · subst hzero
      obtain ⟨L', s', hrun, hfreed⟩ := kfree_spec h hused default_arena
      refine Or.inr ⟨0, L', s', ?_, .freed rfl (fun _ _ heq => (call_t.krealloc.inj heq).2.symm) hfreed⟩
      simp only [run_call, krealloc, if_neg hnull, if_true, Exec.bind_apply, hrun, Exec.pure_apply]
    · rcases krealloc_spec h hused default_arena hzero hn with ⟨hsmall, hstop⟩ | ⟨b', c', L', s', hrun, hresized⟩
      · refine Or.inl ⟨_, ?_, hstop⟩
        rintro ⟨-, hbig⟩
        simp only [SIZE_RANGE] at hbig
        omega
      · exact Or.inr ⟨_, L', s', hrun, .resized (cellAt_middle base pre c post) hused hresized⟩

theorem Answer.rep (h : Answer base L s L' s' call r) (hrep : Rep base L s) : Rep base L' s' := by
  cases h with
  | allocated _ halloc _ => exact halloc.rep
  | freed _ _ hfreed => exact hfreed.rep
  | resized _ _ hresized => exact hresized.rep
  | nothing hL hs =>
    rw [hL, hs]
    exact hrep

/-- Every allocation but the one that the call is about stays as it is. -/
theorem Answer.keeps (h : Answer base L s L' s' call r) {x : Nat} (hx : LiveAt base L x)
    (hne : x + HDR ≠ subject call) : Keeps base L s.mem L' s'.mem x := by
  cases h with
  | allocated _ halloc _ =>
    refine halloc.others x ?_
    rintro rfl
    exact halloc.fresh hx
  | freed hsubject _ hfreed =>
    refine hfreed.others x ?_
    rintro rfl
    exact hne hsubject.symm
  | @resized b b' n c c' hc hused hresized =>
    have hxb : x ≠ b := by
      rintro rfl
      exact hne rfl
    refine hresized.others x hxb ?_
    rintro rfl
    exact (hresized.moved hxb).1 hx
  | nothing hL hs =>
    rw [hL, hs]
    exact Others.refl base (x + 1) L s.mem x (by omega)

theorem bystander_iff {x sub : Nat} (hr : x + HDR ≠ r) (hsub : x + HDR ≠ sub) (P : Prop) :
    P ↔ x + HDR = r ∨ P ∧ x + HDR ≠ sub := by
  simp [hr, hsub]

theorem Answer.liveAt_iff (h : Answer base L s L' s' call r) (x : Nat) :
    LiveAt base L' x ↔ x + HDR = r ∨ LiveAt base L x ∧ x + HDR ≠ subject call := by
  have hH : HDR = 32 := rfl
  cases h with
  | @allocated _ n b hn halloc _ =>
    rw [requested_subject hn]
    by_cases hx : x = b
    · subst hx
      obtain ⟨c, hc, hused, -⟩ := halloc.room
      exact ⟨fun _ => Or.inl rfl, fun _ => ⟨c, hc, hused⟩⟩
    · rw [← (halloc.others x hx).liveAt_iff]
      exact bystander_iff (by omega) (by omega) _
  | @freed _ b hsubject _ hfreed =>
    rw [hsubject]
    by_cases hx : x = b
    · subst hx
      constructor
      · exact fun hlive => absurd hlive hfreed.gone
      · rintro (heq | ⟨-, hne⟩)
        · omega
        · exact absurd rfl hne
    · rw [← (hfreed.others x hx).liveAt_iff]
      exact bystander_iff (by omega) (by omega) _
  | @resized b b' n c c' hc hused hresized =>
    simp only [subject]
    by_cases hx : x = b'
    · subst hx
      exact ⟨fun _ => Or.inl rfl, fun _ => ⟨c', hresized.cell, hresized.used⟩⟩
    by_cases hxb : x = b
    · subst hxb
      constructor
      · exact fun hlive => absurd hlive (hresized.moved (Ne.symm hx)).2
      · rintro (heq | ⟨-, hne⟩)
        · omega
        · exact absurd rfl hne
    · rw [← (hresized.others x hxb hx).liveAt_iff]
      exact bystander_iff (by omega) (by omega) _
  | nothing hL hs =>
    rw [hL]
    exact bystander_iff (by omega) (by simp only [subject]; omega) _

/-- The live pointers that the callers know of are the cells in use. -/
theorem Answer.owned (h : Answer base L s L' s' call r) (howned : Owned base L live) :
    Owned base L' (live_after live call r) := by
  have hpointer : r ≠ 0 → ∃ x, r = x + HDR := by
    intro hr
    cases h with
    | allocated _ _ _ => exact ⟨_, rfl⟩
    | freed _ _ _ => exact absurd rfl hr
    | resized _ _ _ => exact ⟨_, rfl⟩
    | nothing _ _ => exact absurd rfl hr
  intro p
  constructor
  · rintro (⟨rfl, hr⟩ | ⟨hp, hne⟩)
    · obtain ⟨x, rfl⟩ := hpointer hr
      exact ⟨x, rfl, (h.liveAt_iff x).mpr (Or.inl rfl)⟩
    · obtain ⟨x, rfl, hlive⟩ := (howned p).mp hp
      exact ⟨x, rfl, (h.liveAt_iff x).mpr (Or.inr ⟨hlive, hne⟩)⟩
  · rintro ⟨x, rfl, hlive⟩
    rcases (h.liveAt_iff x).mp hlive with rfl | ⟨hlive, hne⟩
    · exact Or.inl ⟨rfl, by simp only [HDR]; omega⟩
    · exact Or.inr ⟨(howned _).mpr ⟨x, rfl, hlive⟩, hne⟩

theorem usable_eq {x : Nat} {c} (h : Laid base L s) (hx : CellAt width base L x c) : usable s (x + HDR) = c.size := by
  obtain ⟨p, hhead⟩ := h.seg.header_eq hx
  have hblock : block_of (x + HDR) = x := Nat.add_sub_cancel _ _
  rw [usable, hblock, hhead]

/-- Every reachable heap is in order, and the live pointers are its cells in
    use: by induction over the run. -/
theorem Reached.rep (h : Reached default_arena s live) : ∃ base L, Rep base L s ∧ Owned base L live := by
  induction h with
  | init hregion hinit =>
    obtain ⟨base, c, hfree, hrep⟩ := heap_init_spec hregion hinit
    refine ⟨base, [c], hrep, fun p => ?_⟩
    constructor
    · exact fun hp => absurd hp (Set.notMem_empty p)
    · rintro ⟨x, -, d, hd, hused⟩
      simp only [cellAt_cons, cellAt_nil, or_false] at hd
      rw [hd.2, hfree] at hused
      cases hused
  | call hreached hcall hrun ih =>
    obtain ⟨base, L, hrep, howned⟩ := ih
    rcases run_call_spec hrep howned hcall with ⟨text, -, hstop⟩ | ⟨r, L', s', hok, hanswer⟩
    · cases hrun.symm.trans hstop
    · rw [hrun] at hok
      obtain ⟨rfl, rfl⟩ := Outcome.ok.inj hok
      exact ⟨base, L', hanswer.rep hrep, hanswer.owned howned⟩
  | @write s live p i hreached hp hi v ih =>
    obtain ⟨base, L, hrep, howned⟩ := ih
    obtain ⟨pre, c, post, rfl, rfl, hused⟩ := howned.cell hp
    have hcell := @cellAt_middle cell_t width base pre c post
    rw [usable_eq hrep.laid hcell] at hi
    have hwrite := hrep.write (m := s.mem.setByte (base + span width pre + HDR + i) v) hcell fun j hj =>
      Mem.setByte_of_ne (by simp only [width] at hj; omega)
    exact ⟨base, _, hwrite.1, howned⟩

/-- What runs first on a heap that was never set up runs on the one that `heap_init`
    makes of the compiled-in arena. -/
theorem ensure_init_cold {A : Type} {f : Unit → M A} {a : A} (hcold : s.heap_head = 0)
    (harena : default_arena + DEFAULT_ARENA_SIZE ≤ 2 ^ 60) (hrun : (ensure_init default_arena >>= f) s = .ok a s') :
    ∃ mid, heap_init default_arena DEFAULT_ARENA_SIZE s = .ok () mid ∧
      (ensure_init default_arena >>= f) mid = .ok a s' := by
  obtain ⟨_, mid, hinit, hrest⟩ := Exec.bind_eq_ok_iff.mp hrun
  simp only [ensure_init, Exec.bind_apply, Exec.read_apply, hcold, if_true] at hinit
  obtain ⟨base, c, -, hrep⟩ := heap_init_spec harena hinit
  exact ⟨mid, hinit, Exec.bind_eq_ok_iff.mpr ⟨(), mid, ensure_init_of_laid hrep.laid default_arena, hrest⟩⟩

/-- A heap need not be set up before its first call. -/
theorem Reached.cold (hcold : s.heap_head = 0) (harena : default_arena + DEFAULT_ARENA_SIZE ≤ 2 ^ 60)
    (hcall : Admissible ∅ call) (hfree : call ≠ .kfree 0) (hrun : run_call default_arena call s = .ok r s') :
    Reached default_arena s' (live_after ∅ call r) := by
  have hmalloc {n p : Nat} {t : heap_t} (hp : kmalloc default_arena n s = .ok p t) :
      ∃ mid, heap_init default_arena DEFAULT_ARENA_SIZE s = .ok () mid ∧ kmalloc default_arena n mid = .ok p t :=
    ensure_init_cold hcold harena hp
  suffices hwarm : ∃ mid, heap_init default_arena DEFAULT_ARENA_SIZE s = .ok () mid ∧
      run_call default_arena call mid = .ok r s' by
    obtain ⟨mid, hinit, hmid⟩ := hwarm
    exact (Reached.init harena hinit).call hcall hmid
  cases call with
  | kmalloc n => exact hmalloc hrun
  | kcalloc count size =>
    simp only [run_call, kcalloc] at hrun ⊢
    split_ifs at hrun ⊢
    · cases hrun
    · obtain ⟨p, t, hp, hrest⟩ := Exec.bind_eq_ok_iff.mp hrun
      obtain ⟨mid, hinit, hmid⟩ := hmalloc hp
      exact ⟨mid, hinit, Exec.bind_eq_ok_iff.mpr ⟨p, t, hmid, hrest⟩⟩
  | krealloc p n =>
    obtain rfl : p = 0 := hcall.1.resolve_right (Set.notMem_empty p)
    exact hmalloc hrun
  | kmemalign align n => exact ensure_init_cold hcold harena hrun
  | kfree p =>
    obtain rfl : p = 0 := hcall.resolve_right (Set.notMem_empty p)
    exact absurd rfl hfree

end Calls

end fable.heap
