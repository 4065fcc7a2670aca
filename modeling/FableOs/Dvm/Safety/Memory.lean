import FableOs.Dvm.Safety.Device

namespace fable.dvm

open fable.exec Yields

variable {σ : Type} {env : env_t σ} {steps : Nat} {Q : flow_t → Prop} {next : Nat}

theorem toNat_ofNat_of_le {n : Nat} (h : n ≤ DVM_STRPOOL) : (UInt64.ofNat n).toNat = n := by
  have hpool : DVM_STRPOOL = 512 := rfl
  exact UInt64.toNat_ofNat_of_lt' (by simp only [UInt64.size]; omega)

theorem span_charge_yields {off len cost : UInt64} {what : String} {m}
    (hm : off.toNat + len.toNat ≤ DVM_MEM_SIZE → Yields env steps m Q) :
    Yields env steps (do mem_span env off len what; mem_charge env cost what; m) Q :=
  bind (mem_span_yields _ _ _) fun _ hspan => bind (mem_charge_yields _ _) fun _ _ => hm hspan

theorem spans_charge_yields {x y len cost : UInt64} {what : String} {m}
    (hm : x.toNat + len.toNat ≤ DVM_MEM_SIZE → y.toNat + len.toNat ≤ DVM_MEM_SIZE → Yields env steps m Q) :
    Yields env steps (do mem_span env x len what; mem_span env y len what; mem_charge env cost what; m) Q :=
  bind (mem_span_yields _ _ _) fun _ hx => span_charge_yields fun hy => hm hx hy

theorem mem_load_quiet {off : UInt64} {w : Nat} (h : off.toNat + w ≤ DVM_MEM_SIZE) :
    Quiet (mem_load off w : M σ UInt64) :=
  Quiet.bind (mem_read_quiet h) fun _ => Quiet.pure _

theorem mem_store_quiet {off : UInt64} {w : Nat} (h : off.toNat + w ≤ DVM_MEM_SIZE) (val : UInt64) :
    Quiet (mem_store off w val : M σ Unit) :=
  Quiet.bind (mem_write_quiet (by simpa using h)) fun _ => raise_hwm_quiet _

theorem op_width_le (op : dvm_op_t) : op_width op ≤ 8 := by
  cases op <;> decide

theorem scratch_width (op : dvm_op_t) : (UInt64.ofNat (op_width op)).toNat = op_width op := by
  have hle := op_width_le op
  exact toNat_ofNat_of_le (by have hpool : DVM_STRPOOL = 512 := rfl; omega)

theorem exec_mld_yields (op : dvm_op_t) (a b : UInt64) (hsome : ∀ v, Q ⟨next, some v⟩) :
    Yields env steps (exec_mld env op a b next) Q := by
  refine bind (of_require (Mild.refuse (by decide))) fun _ _ => ?_
  refine span_charge_yields fun hspan => ?_
  rw [scratch_width] at hspan
  refine Yields.then (mem_load_quiet hspan) fun v => ?_
  exact Yields.then (Quiet.modify fun _ => rfl) fun _ => traced_yields _ (hsome v)

theorem exec_mst_yields (op : dvm_op_t) (a b c : UInt64) (hnone : Q ⟨next, none⟩) :
    Yields env steps (exec_mst env op a b c next) Q := by
  refine bind (of_require (Mild.refuse (by decide))) fun _ _ => ?_
  refine span_charge_yields fun hspan => ?_
  rw [scratch_width] at hspan
  refine Yields.then (mem_store_quiet hspan c) fun _ => ?_
  exact Yields.then (Quiet.modify fun _ => rfl) fun _ => traced_yields _ hnone

/-- The end of an instruction that has written a span: the mark and the
    counters are no part of the budgets. -/
theorem written_yields {stop : Nat} {f flow}
    (hf : ∀ st : run_t σ, ({ st with res := f st.res } : run_t σ).core = st.core) (hflow : Q flow) :
    Yields env steps (do raise_hwm stop; count f; pure flow) Q :=
  Yields.then (raise_hwm_quiet _) fun _ => Yields.then (Quiet.modify hf) fun _ => Yields.pure hflow

theorem exec_mstr_yields (hp : ProgramOk env.p) (insn : dvm_insn_t) (dst : UInt64)
    (hsome : ∀ v, Q ⟨next, some v⟩) : Yields env steps (exec_mstr env insn dst next) Q := by
  refine bind (of_str_at hp _) fun text hlen => ?_
  refine span_charge_yields fun hspan => ?_
  rw [toNat_ofNat_of_le hlen] at hspan
  exact Yields.then (mem_write_quiet hspan) fun _ => written_yields (fun _ => rfl) (hsome _)

theorem exec_mcpy_yields (dst src n : UInt64) (hsome : ∀ v, Q ⟨next, some v⟩) :
    Yields env steps (exec_mcpy env dst src n next) Q := by
  refine spans_charge_yields fun hdst hsrc => ?_
  exact Yields.then (copy_span_quiet hdst hsrc) fun _ => written_yields (fun _ => rfl) (hsome _)

theorem exec_mset_yields (dst b n : UInt64) (hsome : ∀ v, Q ⟨next, some v⟩) :
    Yields env steps (exec_mset env dst b n next) Q := by
  refine span_charge_yields fun hspan => ?_
  refine Yields.then (mem_write_quiet (by simpa using hspan)) fun _ => ?_
  exact written_yields (fun _ => rfl) (hsome _)

theorem exec_mcmp_yields (x y n : UInt64) (hnone : Q ⟨next, none⟩) :
    Yields env steps (exec_mcmp env x y n next) Q := by
  refine spans_charge_yields fun hx hy => ?_
  refine Yields.then (mem_read_quiet hx) fun us => Yields.then (mem_read_quiet hy) fun ws => ?_
  refine Yields.then (set_flags_quiet _ _) fun _ => ?_
  exact Yields.then (Quiet.modify fun _ => rfl) fun _ => traced_yields _ hnone

/-- The search loop stays inside the span: at offset `i` it looks no further
    than the needle reaches, and the loop ends before the span does. -/
theorem find_from_yields {hay : Nat} {first more} (turns i : Nat)
    (h : hay + i + turns + more.length ≤ DVM_MEM_SIZE) :
    Yields env steps (find_from env hay first more turns i) fun _ => True := by
  induction turns generalizing i with
  | zero => exact pure trivial
  | succ turns ih =>
    have hagain := ih (i + 1) (by omega)
    refine bind (mem_charge_yields _ _) fun _ _ => ?_
    refine Yields.then (mem_get_quiet (by omega)) fun b => ?_
    by_cases hfirst : b ≠ first
    · rw [if_pos hfirst]
      exact hagain
    rw [if_neg hfirst]
    refine Yields.then (match_len_quiet (by omega)) fun k => ?_
    refine bind (mem_charge_yields _ _) fun _ _ => ?_
    by_cases hall : k = more.length
    · rw [if_pos hall]
      exact pure trivial
    · rw [if_neg hall]
      exact hagain

theorem find_span_yields {hay n : Nat} (h : hay + n ≤ DVM_MEM_SIZE) (needle : List UInt8) :
    Yields env steps (find_span env hay n needle) fun _ => True := by
  cases needle with
  | nil => exact pure trivial
  | cons first more =>
    simp only [find_span]
    by_cases hfits : more.length + 1 ≤ n
    · rw [if_pos hfits]
      exact find_from_yields _ _ (by omega)
    · rw [if_neg hfits]
      exact pure trivial

theorem exec_mfind_yields (hp : ProgramOk env.p) (insn : dvm_insn_t) (hay n : UInt64)
    (hsome : ∀ v, Q ⟨next, some v⟩) : Yields env steps (exec_mfind env insn hay n next) Q := by
  refine bind (of_str_at hp _) fun needle _ => ?_
  refine bind (mem_span_yields _ _ _) fun _ hspan => ?_
  refine Yields.then (set_zero_quiet _) fun _ => ?_
  refine bind (find_span_yields hspan needle) fun found _ => ?_
  refine Yields.then (set_zero_quiet _) fun _ => ?_
  exact Yields.then (Quiet.modify fun _ => rfl) fun _ => pure (hsome _)

theorem exec_mchr_yields (hay n c : UInt64) (hsome : ∀ v, Q ⟨next, some v⟩) :
    Yields env steps (exec_mchr env hay n c next) Q := by
  refine span_charge_yields fun hspan => ?_
  refine Yields.then (mem_read_quiet hspan) fun bytes => ?_
  refine Yields.then (set_zero_quiet _) fun _ => ?_
  exact Yields.then (Quiet.modify fun _ => rfl) fun _ => pure (hsome _)

theorem exec_matoi_yields (off n base : UInt64) (hsome : ∀ v, Q ⟨next, some v⟩) :
    Yields env steps (exec_matoi env off n base next) Q := by
  refine bind (of_require (Mild.refuse (by decide))) fun _ _ => ?_
  refine span_charge_yields fun hspan => ?_
  refine Yields.then (mem_read_quiet hspan) fun bytes => ?_
  exact Yields.then (set_flags_quiet _ _) fun _ => traced_yields _ (hsome _)

theorem itoa_digits_length (base : UInt64) (room : Nat) (val : UInt64) :
    (itoa_digits base room val).length ≤ room := by
  induction room generalizing val with
  | zero => simp [itoa_digits]
  | succ room ih =>
    have htail := ih (val / base)
    unfold itoa_digits
    simp only [List.length_cons]
    split
    · simp
    · omega

theorem exec_mitoa_yields (dst val base : UInt64) (hsome : ∀ v, Q ⟨next, some v⟩) :
    Yields env steps (exec_mitoa env dst val base next) Q := by
  have hlen := itoa_digits_length base 64 val
  refine bind (of_require (Mild.refuse (by decide))) fun _ _ => ?_
  refine span_charge_yields fun hspan => ?_
  rw [toNat_ofNat_of_le (by have hpool : DVM_STRPOOL = 512 := rfl; omega)] at hspan
  refine Yields.then (mem_write_quiet (by simpa using hspan)) fun _ => ?_
  exact written_yields (fun _ => rfl) (hsome _)

end fable.dvm
