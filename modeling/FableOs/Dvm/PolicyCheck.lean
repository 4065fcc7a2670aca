import FableOs.Dvm.Policy

namespace fable.dvm

/-- What an accepted policy guarantees, in numbers that do not wrap. -/
structure PolicyOk (plat : platform_t) (p : dvm_policy_t) : Prop where
  mmio_fits : ∀ w ∈ p.mmios, w.base.toNat + w.size.toNat < 2 ^ 64
  dma_inside : p.dma_size ≠ 0 → plat.dma_arena.toNat ≤ p.dma_base.toNat ∧
    p.dma_base.toNat + p.dma_size.toNat ≤ plat.dma_arena.toNat + DVM_DMA_SIZE ∧
    plat.dma_arena.toNat + DVM_DMA_SIZE ≤ 2 ^ 32
  max_steps_pos : 0 < p.max_steps.toNat
  max_steps_le : p.max_steps.toNat ≤ CEIL_STEPS
  max_io_le : p.max_io.toNat ≤ CEIL_IO
  max_dma_le : p.max_dma_ops.toNat ≤ CEIL_DMA_OPS
  max_mem_le : p.max_mem_bytes.toNat ≤ CEIL_MEM_BYTES
  max_sys_le : p.max_sys.toNat ≤ CEIL_SYS
  root_terminated : (cstring p.fs_root).length < DVM_PATH_MAX
  root_ok : cstring p.fs_root ≠ [] → path_ok (cstring p.fs_root) = .ok ()
  max_delay_le : p.max_delay_us.toNat ≤ CEIL_DELAY_US
  max_prints_le : p.max_prints.toNat ≤ CEIL_PRINTS

theorem u64_add_fits {a b : UInt64} (h : ¬ a + b < a) : a.toNat + b.toNat < 2 ^ 64 := by
  have hb' := b.toNat_lt
  rw [UInt64.lt_iff_toNat_lt, UInt64.toNat_add] at h
  omega

theorem u64_toNat_add_of_fits {a b : UInt64} (h : a.toNat + b.toNat < 2 ^ 64) :
    (a + b).toNat = a.toNat + b.toNat := by
  rw [UInt64.toNat_add]
  exact Nat.mod_eq_of_lt h

theorem check_mmio_win_fits {plat} {i : Nat} {w} (h : check_mmio_win plat i w = .ok ()) :
    w.base.toNat + w.size.toNat < 2 ^ 64 := by
  unfold check_mmio_win at h
  simp only [except_bind_eq_ok_iff, refuse_eq_ok_iff, exists_const] at h
  obtain ⟨hwraps, -⟩ := h
  push Not at hwraps
  exact u64_add_fits (by simpa using hwraps.2)

/-- An accepted DMA grant lies inside the arena, and the arena below 4 GiB,
    wherever the linker has put it. -/
theorem check_dma_grant_inside {plat p} (h : check_dma_grant plat p = .ok ()) :
    plat.dma_arena.toNat ≤ p.dma_base.toNat ∧
      p.dma_base.toNat + p.dma_size.toNat ≤ plat.dma_arena.toNat + DVM_DMA_SIZE ∧
      plat.dma_arena.toNat + DVM_DMA_SIZE ≤ 2 ^ 32 := by
  unfold check_dma_grant dvm_dma_region at h
  simp only [except_bind_eq_ok_iff, refuse_eq_ok_iff, exists_const] at h
  obtain ⟨hrange, htop, -⟩ := h
  push Not at hrange
  obtain ⟨-, hwrap, hlow, hhigh⟩ := hrange
  have hfits := u64_add_fits (by simpa using hwrap)
  have hsum := u64_toNat_add_of_fits hfits
  have harena := plat.dma_arena.toNat_lt
  have hsize' : (UInt64.ofNat DVM_DMA_SIZE).toNat = DVM_DMA_SIZE := by decide
  rw [UInt64.lt_iff_toNat_lt] at hlow
  rw [UInt64.lt_iff_toNat_lt, UInt64.toNat_add, hsum, hsize'] at hhigh
  rw [UInt64.lt_iff_toNat_lt, UInt64.toNat_add, hsize'] at htop
  have htop' : MMIO_TOP.toNat = 2 ^ 32 := by decide
  rw [htop'] at htop
  have harenaSize : DVM_DMA_SIZE = 0x40000 := rfl
  -- a wrapped arena end would be below the arena's own start
  omega

theorem dvm_policy_check_ok {plat p} (h : dvm_policy_check plat p = .ok ()) : PolicyOk plat p := by
  unfold dvm_policy_check at h
  simp only [except_bind_eq_ok_iff, refuse_eq_ok_iff, exists_const] at h
  obtain ⟨-, -, -, u, hdma, v, hmmio, -, -, x, hbudgets, y, hsys, hpacing⟩ := h
  unfold check_budgets at hbudgets
  unfold check_syscalls at hsys
  unfold check_pacing at hpacing
  simp only [except_bind_eq_ok_iff, refuse_eq_ok_iff, exists_const] at hbudgets hsys hpacing
  obtain ⟨hsteps, hio, hdmaops, hmem, hnsys⟩ := hbudgets
  obtain ⟨-, hterm, hroot⟩ := hsys
  obtain ⟨hdelay, -, hprints, -⟩ := hpacing
  push Not at hsteps
  have hstepsPos : p.max_steps.toNat ≠ 0 := fun hzero => hsteps.1 (UInt64.toNat_inj.mp hzero)
  refine ⟨?_, ?_, by omega, hsteps.2, by omega, by omega, by omega, by omega, by omega, ?_, by omega, by omega⟩
  · have hall : ∀ xs : List dvm_mmio_win_t, ∀ i, checkFrom (check_mmio_win plat) i xs = .ok v →
        ∀ w ∈ xs, w.base.toNat + w.size.toNat < 2 ^ 64 := by
      intro xs
      induction xs with
      | nil => simp
      | cons w rest ih =>
        intro i hcheck
        simp only [checkFrom, except_bind_eq_ok_iff] at hcheck
        obtain ⟨u, hw, hrest⟩ := hcheck
        intro w' hmem'
        rcases List.mem_cons.mp hmem' with rfl | hin
        · exact check_mmio_win_fits hw
        · exact ih (i + 1) hrest w' hin
    exact hall p.mmios 0 hmmio
  · intro hsize
    unfold check_dma at hdma
    rw [if_pos (Or.inr hsize)] at hdma
    exact check_dma_grant_inside hdma
  · intro hne
    rw [if_pos hne] at hroot
    cases hok : path_ok (cstring p.fs_root) with
    | ok w => rfl
    | error why => rw [hok] at hroot; cases hroot

end fable.dvm
