import FableOs.Dvm.Fetch

namespace fable.dvm

open fable.exec List Exec

/-! What the block instructions do to the scratch arena. -/

variable {σ : Type}

/-- The first place of a string in a span, if there is one. -/
def First (span needle : List UInt8) : Option Nat → Prop
  | some i => needle <+: span.drop i ∧ ∀ j < i, ¬ needle <+: span.drop j
  | none => ∀ j, ¬ needle <+: span.drop j

/-- A search returns the place, or the end of the span with the flag clear. -/
def Searched (mem : CArray UInt8 DVM_MEM_SIZE) (hay n : UInt64) (needle : List UInt8) (flow : flow_t)
    (st' : run_t σ) : Prop :=
  st'.mem = mem ∧ ∃ found, First (mem.slice hay.toNat n.toNat) needle found ∧ st'.zero = found.isSome ∧
    flow.v = some (hay + UInt64.ofNat (found.getD n.toNat))

/-- The meaning of an instruction on an arena: its spans are in the arena, and
    this is what it leaves. -/
def Means (p : dvm_program_t) (insn : dvm_insn_t) (a b c : UInt64) (mem : CArray UInt8 DVM_MEM_SIZE) (flow : flow_t)
    (st' : run_t σ) : dvm_op_t → Prop
  | .MCPY => a.toNat + c.toNat ≤ DVM_MEM_SIZE ∧ b.toNat + c.toNat ≤ DVM_MEM_SIZE ∧ flow.v = some (a + c) ∧
      ∀ j, st'.mem.get? j =
        if a.toNat ≤ j ∧ j < a.toNat + c.toNat then mem.get? (b.toNat + (j - a.toNat)) else mem.get? j
  | .MSET => a.toNat + c.toNat ≤ DVM_MEM_SIZE ∧ flow.v = some (a + c) ∧
      ∀ j, st'.mem.get? j = if a.toNat ≤ j ∧ j < a.toNat + c.toNat then some b.toUInt8 else mem.get? j
  | .MCMP => a.toNat + c.toNat ≤ DVM_MEM_SIZE ∧ b.toNat + c.toNat ≤ DVM_MEM_SIZE ∧ st'.mem = mem ∧
      st'.zero = decide (mem.slice a.toNat c.toNat = mem.slice b.toNat c.toNat) ∧
      st'.below = decide (mem.slice a.toNat c.toNat < mem.slice b.toNat c.toNat)
  | .MFIND => b.toNat + c.toNat ≤ DVM_MEM_SIZE ∧
      ∃ needle, str_at p (insn.val 0) = some needle ∧ Searched mem b c needle flow st'
  | .MCHR => a.toNat + b.toNat ≤ DVM_MEM_SIZE ∧ Searched mem a b [c.toUInt8] flow st'
  | _ => False

section Rules

variable {env : env_t σ} {st : run_t σ} {what : String} {mem : CArray UInt8 DVM_MEM_SIZE} {A : Type} {m : M σ A}
  {Q : A → run_t σ → Prop}

theorem mem_span_meets {off len : UInt64} (hmem : st.mem = mem)
    (hf : off.toNat + len.toNat ≤ DVM_MEM_SIZE → (m st).Meets Q fun _ st' => st'.mem = mem) :
    ((do mem_span env off len what; m) st).Meets Q fun _ st' => st'.mem = mem := by
  by_cases hspan : off.toNat + len.toNat ≤ DVM_MEM_SIZE
  · rw [bind_apply, mem_span_of_le hspan]
    exact hf hspan
  · rw [mem_span, refuse, if_pos (by omega)]
    exact hmem

theorem mem_charge_meets {n : UInt64} (hmem : st.mem = mem)
    (hf : ∀ st', st'.mem = mem → (m st').Meets Q fun _ st' => st'.mem = mem) :
    ((do mem_charge env n what; m) st).Meets Q fun _ st' => st'.mem = mem := by
  unfold mem_charge refuse
  by_cases hspent : (st.res.mem_bytes + n.toNat) % 2 ^ 64 < st.res.mem_bytes ∨
      env.pol.max_mem_bytes.toNat < (st.res.mem_bytes + n.toNat) % 2 ^ 64
  · simp only [bind_apply, read_apply, if_pos hspent]
    exact hmem
  · simp only [bind_apply, read_apply, if_neg hspent]
    exact hf _ hmem

theorem tline_eq (env : env_t σ) (level : Int) (st : run_t σ) :
    ∃ quiet res, tline env level st = .ok () { st with quiet := quiet, res := res } := by
  unfold tline trace_budget
  split
  · rw [modify_apply]
    split
    · exact ⟨_, _, rfl⟩
    · exact ⟨_, _, rfl⟩
  · exact ⟨_, _, rfl⟩

end Rules

section Copy

variable {dst src n : Nat} (st : run_t σ)

theorem copy_byte_eq {i : Nat} {value} (hget : st.mem.get? (src + i) = some value) (hdst : dst + i < DVM_MEM_SIZE) :
    copy_byte dst src i st = .ok () { st with mem := st.mem.set (dst + i) value } := by
  simp [copy_byte, mem_get, mem_set, bind_apply, hget, inBounds_pos hdst]

/-- The arena after the bytes of a span have been copied to another one. -/
def Copied (dst src n : Nat) (mem mem' : CArray UInt8 DVM_MEM_SIZE) : Prop :=
  ∀ j, mem'.get? j = if dst ≤ j ∧ j < dst + n then mem.get? (src + (j - dst)) else mem.get? j

/-- Upwards, the bytes still to be read lie above those that are written. -/
theorem copy_up (h : dst < src) (hsrc : src + n ≤ DVM_MEM_SIZE) :
    ∃ mem', Exec.forUp (copy_byte dst src) n st = .ok () { st with mem := mem' } ∧ Copied dst src n st.mem mem' := by
  induction n with
  | zero => exact ⟨st.mem, rfl, fun j => (if_neg (by omega)).symm⟩
  | succ n ih =>
    obtain ⟨mem', hrun, hcopied⟩ := ih (by omega)
    obtain ⟨value, hvalue⟩ := st.mem.get?_isSome_of_lt (i := src + n) (by omega)
    have hread : mem'.get? (src + n) = some value := by rw [hcopied, if_neg (by omega), hvalue]
    refine ⟨mem'.set (dst + n) value, ?_, fun j => ?_⟩
    · rw [forUp, bind_apply, hrun]
      exact copy_byte_eq { st with mem := mem' } hread (by omega)
    · rw [CArray.get?_set, hcopied]
      by_cases hj : j = dst + n
      · subst hj
        rw [if_pos (by omega), if_pos (by omega), Nat.add_sub_cancel_left, hvalue]
      · rw [if_neg (by omega)]
        exact if_congr (by omega) rfl rfl

/-- Downwards, they lie below. -/
theorem copy_down (h : src ≤ dst) (hdst : dst + n ≤ DVM_MEM_SIZE) :
    ∃ mem', Exec.forDown (copy_byte dst src) n st = .ok () { st with mem := mem' } ∧ Copied dst src n st.mem mem' := by
  induction n generalizing st with
  | zero => exact ⟨st.mem, rfl, fun j => (if_neg (by omega)).symm⟩
  | succ n ih =>
    obtain ⟨value, hvalue⟩ := st.mem.get?_isSome_of_lt (i := src + n) (by omega)
    obtain ⟨mem', hrun, hcopied⟩ := ih { st with mem := st.mem.set (dst + n) value } (by omega)
    refine ⟨mem', ?_, fun j => ?_⟩
    · rw [forDown, bind_apply, copy_byte_eq st hvalue (by omega)]
      exact hrun
    · rw [hcopied, CArray.get?_set, CArray.get?_set]
      by_cases hj : j = dst + n
      · subst hj
        rw [if_neg (by omega), if_pos (by omega), if_pos (by omega), Nat.add_sub_cancel_left, hvalue]
      · rw [if_neg (c := j = dst + n ∧ _) (by omega)]
        by_cases hin : dst ≤ j ∧ j < dst + n
        · rw [if_pos hin, if_neg (by omega), if_pos (by omega)]
        · rw [if_neg hin, if_neg (by omega)]

theorem copy_span_copies (hdst : dst + n ≤ DVM_MEM_SIZE) (hsrc : src + n ≤ DVM_MEM_SIZE) :
    ∃ mem', copy_span dst src n st = .ok () { st with mem := mem' } ∧ Copied dst src n st.mem mem' := by
  unfold copy_span
  split
  · next h => exact copy_up st h hsrc
  · next h => exact copy_down st (Nat.not_lt.mp h) hdst

end Copy

/-- The flags of `mcmp` are the order of the spans. -/
theorem compare_spans_eq {us ws} (h : us.length = ws.length) :
    compare_spans us ws = (decide (us = ws), decide (us < ws)) := by
  induction us generalizing ws with
  | nil =>
    obtain rfl := length_eq_zero_iff.mp h.symm
    simp [compare_spans]
  | cons u us ih =>
    cases ws with
    | nil => cases h
    | cons w ws =>
      rw [compare_spans, ih (Nat.succ.inj h)]
      by_cases huw : u = w
      · simp [huw]
      · simp [huw, cons_lt_cons_iff]

section Search

variable {env : env_t σ} {st : run_t σ} {mem : CArray UInt8 DVM_MEM_SIZE} {hay n : Nat}

theorem match_len_eq {off len : Nat} {needle} (h : off + len ≤ DVM_MEM_SIZE) (hlen : needle.length ≤ len) :
    ∃ k, match_len off needle st = .ok k st ∧ (k = needle.length ↔ needle <+: st.mem.slice off len) := by
  induction needle generalizing off len with
  | nil => exact ⟨0, rfl, by simp⟩
  | cons c rest ih =>
    rw [length_cons] at hlen ⊢
    obtain ⟨len, rfl⟩ : ∃ len', len = len' + 1 := ⟨len - 1, by omega⟩
    obtain ⟨k, hk, hiff⟩ := @ih (off + 1) len (by omega) (by omega)
    obtain ⟨b, hb⟩ := st.mem.get?_isSome_of_lt (i := off) (by omega)
    rw [st.mem.slice_succ hb h, cons_prefix_cons]
    by_cases hbc : b = c
    · refine ⟨k + 1, ?_, by simp [hbc, hiff]⟩
      simp [match_len, mem_get, bind_apply, hb, hbc, hk]
    · refine ⟨0, ?_, by simp [Ne.symm hbc]⟩
      simp [match_len, mem_get, bind_apply, hb, hbc]

theorem drop_slice {i : Nat} (hi : i ≤ n) : (mem.slice hay n).drop i = mem.slice (hay + i) (n - i) := by
  rw [CArray.slice, CArray.slice, drop_drop, Nat.add_assoc, Nat.add_sub_cancel' hi]

/-- The loop finds the first match from where it starts. -/
theorem find_from_meets {first more} (turns i : Nat) (hmem : st.mem = mem) (hspan : hay + n ≤ DVM_MEM_SIZE)
    (hend : i + turns + more.length = n) (hbefore : ∀ j < i, ¬ first :: more <+: (mem.slice hay n).drop j) :
    (find_from env hay first more turns i st).Meets
      (fun found st' => st'.mem = mem ∧ First (mem.slice hay n) (first :: more) found)
      (fun _ st' => st'.mem = mem) := by
  induction turns generalizing i st with
  | zero =>
    refine ⟨hmem, fun j hj => ?_⟩
    by_cases hji : j < i
    · exact hbefore j hji hj
    · have hlen := hj.length_le
      rw [length_drop, CArray.length_slice _ hspan, length_cons] at hlen
      omega
  | succ turns ih =>
    obtain ⟨b, hb⟩ := mem.get?_isSome_of_lt (i := hay + i) (by omega)
    have hslice : (mem.slice hay n).drop i = b :: mem.slice (hay + i + 1) (n - i - 1) := by
      rw [drop_slice (by omega), ← mem.slice_succ hb (by omega), Nat.sub_add_cancel (by omega)]
    have hagain {st : run_t σ} (hmem : st.mem = mem) (hnot : ¬ first :: more <+: (mem.slice hay n).drop i) :=
      @ih st (i + 1) hmem (by omega) fun j hj hmatch => by
        obtain hlt | rfl := Nat.lt_succ_iff_lt_or_eq.mp hj
        · exact hbefore j hlt hmatch
        · exact hnot hmatch
    rw [hslice, cons_prefix_cons] at hagain
    refine mem_charge_meets hmem fun st₁ hmem₁ => ?_
    obtain ⟨k, hk, hiff⟩ := @match_len_eq σ st₁ (hay + i + 1) (n - i - 1) more (by omega) (by omega)
    have hget : mem_get (hay + i) st₁ = .ok b st₁ := by simp [mem_get, bind_apply, hmem₁, hb]
    rw [bind_apply, hget]
    by_cases hfirst : b = first
    · simp only [hfirst, ne_eq, not_true_eq_false, if_false, bind_apply, hk]
      refine mem_charge_meets hmem₁ fun st₂ hmem₂ => ?_
      rw [hmem₁] at hiff
      by_cases hall : k = more.length
      · rw [if_pos hall]
        refine ⟨hmem₂, ?_, hbefore⟩
        rw [hslice, cons_prefix_cons]
        exact ⟨hfirst.symm, hiff.mp hall⟩
      · rw [if_neg hall]
        exact hagain hmem₂ fun hmatch => hall (hiff.mpr hmatch.2)
    · simp only [ne_eq, hfirst, not_false_eq_true, if_true]
      exact hagain hmem₁ fun hmatch => hfirst hmatch.1.symm

theorem find_span_meets (hmem : st.mem = mem) (hspan : hay + n ≤ DVM_MEM_SIZE) (needle : List UInt8) :
    (find_span env hay n needle st).Meets (fun found st' => st'.mem = mem ∧ First (mem.slice hay n) needle found)
      (fun _ st' => st'.mem = mem) := by
  cases needle with
  | nil => exact ⟨hmem, nil_prefix, fun _ hj => absurd hj (Nat.not_lt_zero _)⟩
  | cons first more =>
    rw [find_span]
    split
    · next hfits => exact find_from_meets _ 0 hmem hspan (by omega) fun _ hj => absurd hj (Nat.not_lt_zero _)
    · next hlong =>
      refine ⟨hmem, fun j hj => ?_⟩
      have hlen := hj.length_le
      rw [length_drop, CArray.length_slice _ hspan, length_cons] at hlen
      omega

theorem first_findIdx (span : List UInt8) (c : UInt8) : First span [c] (span.findIdx? fun b => b = c) := by
  have hhere (j : Nat) : [c] <+: span.drop j ↔ span[j]? = some c := by
    rw [← head?_drop]
    cases span.drop j <;> simp [eq_comm]
  cases hfind : span.findIdx? fun b => b = c with
  | none =>
    intro j hj
    have hmem := mem_of_getElem? ((hhere j).mp hj)
    simpa using findIdx?_eq_none_iff.mp hfind c hmem
  | some i =>
    obtain ⟨hi, hc, hbefore⟩ := findIdx?_eq_some_iff_getElem.mp hfind
    refine ⟨(hhere i).mpr ?_, fun j hj hmatch => ?_⟩
    · rw [getElem?_eq_getElem hi]
      simpa using hc
    · obtain ⟨hlt, hval⟩ := List.getElem?_eq_some_iff.mp ((hhere j).mp hmatch)
      simpa [hval] using hbefore j hj

end Search

section Meaning

variable {env : env_t σ} {next : Nat}

/-- Of an accepted image, a block instruction means what it should on every
    arena and for all operands, or it stops the run with no byte changed; a span
    outside the arena leaves only the second. -/
theorem block_insn_means (hp : dvm_program_validate env.p = .ok ()) (op : dvm_op_t)
    (hop : op ∈ [.MCPY, .MSET, .MCMP, .MFIND, .MCHR]) (insn : dvm_insn_t) (a b c : UInt64) (st : run_t σ) :
    (exec_op env op insn next a b c st).Meets (fun flow st' => Means env.p insn a b c st.mem flow st' op)
      (fun _ st' => st'.mem = st.mem) := by
  simp only [mem_cons, not_mem_nil, or_false] at hop
  obtain rfl | rfl | rfl | rfl | rfl := hop
  · -- mcpy
    refine mem_span_meets rfl fun hdst => ?_
    refine mem_span_meets rfl fun hsrc => ?_
    refine mem_charge_meets rfl fun st₁ hmem => ?_
    obtain ⟨mem', hcopy, hcopied⟩ := copy_span_copies st₁ hdst hsrc
    rw [bind_apply, hcopy, ← hmem]
    exact ⟨hdst, hsrc, rfl, hcopied⟩
  · -- mset
    refine mem_span_meets rfl fun hdst => ?_
    refine mem_charge_meets rfl fun st₁ hmem => ?_
    have hlen : a.toNat + (replicate c.toNat b.toUInt8).length ≤ DVM_MEM_SIZE := by simpa using hdst
    rw [bind_apply, mem_write_eq hlen, ← hmem]
    refine ⟨hdst, rfl, fun j => ?_⟩
    refine (st₁.mem.get?_write _ _ hlen j).trans ?_
    rw [length_replicate]
    split
    · exact getElem?_replicate_of_lt (by omega)
    · rfl
  · -- mcmp
    refine mem_span_meets rfl fun hx => ?_
    refine mem_span_meets rfl fun hy => ?_
    refine mem_charge_meets rfl fun st₁ hmem => ?_
    have hflags := @compare_spans_eq (st₁.mem.slice a.toNat c.toNat) (st₁.mem.slice b.toNat c.toNat) (by
      rw [CArray.length_slice _ hx, CArray.length_slice _ hy])
    simp only [bind_apply, mem_read_eq hx, mem_read_eq hy, hflags, set_flags, count, modify_apply]
    obtain ⟨quiet, res, htrace⟩ := tline_eq env DVM_TRACE_ALL _
    rw [htrace, ← hmem]
    exact ⟨hx, hy, rfl, rfl, rfl⟩
  · -- mfind
    obtain ⟨needle, hneedle, -⟩ := str_at_some ((dvm_program_validate_eq_ok_iff _ ()).mp hp) (insn.val 0)
    refine Outcome.Meets.ofOption_bind hneedle (mem_span_meets rfl fun hspan => ?_)
    refine Outcome.Meets.modify_bind ((find_span_meets rfl hspan needle).bind ?_)
    rintro found st₁ ⟨hmem, hfirst⟩
    exact ⟨hspan, needle, hneedle, hmem, found, hfirst, rfl, rfl⟩
  · -- mchr
    refine mem_span_meets rfl fun hspan => ?_
    refine mem_charge_meets rfl fun st₁ hmem => ?_
    rw [bind_apply, mem_read_eq hspan]
    exact ⟨hspan, hmem, _, hmem ▸ first_findIdx _ _, rfl, rfl⟩

end Meaning

/-- `mset` of four bytes in the fresh arena of an accepted image. -/
theorem fresh_fill_means :
    dvm_program_validate (image_of [out8_insn]) = .ok () ∧
      (exec_op ⟨image_of [out8_insn], dvm_policy_init, bare_io, bare_plat, bare_bus⟩ .MSET out8_insn 1 0 7 4
        fetch_state).Meets (fun flow st' => Means (image_of [out8_insn]) out8_insn 0 7 4 fetch_state.mem flow st' .MSET)
        (fun _ st' => st'.mem = fetch_state.mem) :=
  ⟨rfl, block_insn_means rfl .MSET (by decide) out8_insn 0 7 4 fetch_state⟩

end fable.dvm
