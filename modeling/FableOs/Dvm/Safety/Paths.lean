import FableOs.Dvm.Safety.Budgets
import FableOs.Vfs.Path

namespace fable.dvm

open fable.exec List

/-- The component walk lets no "." and no ".." through. -/
theorem path_walk_ok {fuel : Nat} {s} (hfuel : s.length ≤ fuel) (h : path_walk fuel s = .ok ()) :
    ∀ comp ∈ fields SLASH s, comp ≠ [DOT] ∧ comp ≠ [DOT, DOT] := by
  induction fuel generalizing s with
  | zero =>
    have hnil : s = [] := length_eq_zero_iff.mp (by omega)
    simp [hnil]
  | succ fuel ih =>
    unfold path_walk at h
    by_cases hs : s = []
    · simp [hs]
    rw [if_neg hs] at h
    rw [← fields_dropWhile]
    have hdrop := (dropWhile_sublist (· == SLASH) (l := s)).length_le
    cases hp : s.dropWhile (· == SLASH) with
    | nil => simp
    | cons x rest =>
      have hx := head_dropWhile_ne hp
      have hlt := length_dropWhile_piece_lt hx rest
      rw [hp] at h hdrop
      rw [fields_cons_of_ne hx]
      by_cases hdots : (x :: rest).takeWhile (· != SLASH) = [DOT] ∨ (x :: rest).takeWhile (· != SLASH) = [DOT, DOT]
      · simp only [hdots, if_true] at h
        cases h
      · simp only [hdots, if_false] at h
        push Not at hdots
        intro comp hmem
        rcases mem_cons.mp hmem with rfl | hin
        · exact hdots
        · exact ih (by omega) h comp hin

theorem path_ok_no_dots {path} (h : path_ok path = .ok ()) :
    ∀ comp ∈ fields SLASH path, comp ≠ [DOT] ∧ comp ≠ [DOT, DOT] := by
  unfold path_ok at h
  simp only [except_bind_eq_ok_iff, refuse_eq_ok_iff, exists_const] at h
  obtain ⟨-, -, -, -, -, hwalk⟩ := h
  exact path_walk_ok le_rfl hwalk

theorem path_ok_head {path} (h : path_ok path = .ok ()) : path.head? = some SLASH := by
  unfold path_ok at h
  simp only [except_bind_eq_ok_iff, refuse_eq_ok_iff, exists_const, not_not] at h
  exact h.2.2.1

theorem path_ok_printable {path} (h : path_ok path = .ok ()) : ∀ c ∈ path, is_printable c = true := by
  unfold path_ok at h
  simp only [except_bind_eq_ok_iff, refuse_eq_ok_iff, exists_const, checkFrom_refuse_eq_ok_iff, not_not] at h
  exact h.2.2.2.1

/-- A path under the root has the root's components in front: the byte after
    the root is a separator or there is none, except for the root "/", which
    has no components at all. -/
theorem fields_prefix_of_under {root out} (hroot : root.head? = some SLASH)
    (hout : ∀ c ∈ out, is_printable c = true) (hunder : path_under root out = true) :
    fields SLASH root <+: fields SLASH out := by
  simp only [path_under, Bool.and_eq_true, Bool.or_eq_true, decide_eq_true_eq] at hunder
  obtain ⟨hfront, hnext⟩ := hunder
  obtain ⟨tail, rfl⟩ := isPrefixOf_iff_prefix.mp hfront
  rcases hnext with hshort | hsep
  · have hslash : root = [SLASH] := by
      cases root with
      | nil => cases hroot
      | cons c rest =>
        simp only [length_cons] at hshort
        have hrest : rest = [] := length_eq_zero_iff.mp (by omega)
        simp only [head?_cons, Option.some.injEq] at hroot
        rw [hroot, hrest]
    rw [hslash, fields_cons_sep, fields_nil]
    exact nil_prefix
  · rw [drop_left] at hsep
    cases tail with
    | nil => simp
    | cons c rest =>
      have hc : c = SLASH := by
        simp only [head?_cons, Option.all_some, Bool.or_eq_true, decide_eq_true_eq] at hsep
        rcases hsep with heq | hzero
        · exact heq
        · have hprint := hout c (by simp)
          rw [hzero] at hprint
          cases hprint
      rw [hc, fields_append_sep]
      exact prefix_append _ _

variable {σ : Type}

/-- Every path that a run has handed to the filesystem so far, split as the
    VFS splits it, has the components of the granted root in front and neither
    "." nor ".." among them. -/
theorem fs_paths_confined (plat : platform_t) (bus : dma_bus_t σ) (call : run_call_t σ) (fuel : Nat)
    (m : machine_t σ) :
    ∀ e ∈ (dvm_run_at plat bus call fuel m).accesses, ∀ path, e.path? = some path →
      ∃ pol, call.pol = some pol ∧
        ∀ comps, vfs.components path = some comps →
          ∃ root, vfs.components (cstring pol.fs_root) = some root ∧ root <+: comps ∧
            [DOT] ∉ comps ∧ [DOT, DOT] ∉ comps := by
  intro e he path hpath
  rcases dvm_run_at_cases plat bus call m with ⟨status, res, heq, -⟩ | ⟨env, hstart, heq⟩
  · rw [heq fuel] at he
    cases he
  rw [heq fuel] at he
  obtain ⟨-, steps, debt, c, hinv, hlog⟩ := hstart.log_inv m fuel
  rw [hlog] at he
  have hchecked := hinv.checked e he path hpath
  have hrootOk := hstart.policy_ok.root_ok hchecked.root_ne
  have hfront := fields_prefix_of_under (path_ok_head hrootOk) (path_ok_printable hchecked.path_ok_eq)
    hchecked.under
  have hdots := path_ok_no_dots hchecked.path_ok_eq
  refine ⟨env.pol, hstart.pol_eq, ?_⟩
  intro comps hcomps
  obtain ⟨rfl, hshort⟩ := vfs.components_eq_some_iff.mp hcomps
  refine ⟨fields SLASH (cstring env.pol.fs_root), ?_, hfront, ?_, ?_⟩
  · rw [vfs.components_eq_some_iff]
    exact ⟨rfl, fun comp hmem => hshort comp (hfront.subset hmem)⟩
  · exact fun hmem => (hdots _ hmem).1 rfl
  · exact fun hmem => (hdots _ hmem).2 rfl

/-- `mst32 [0], "/vm"; push 0; push 3; sys r0, fs.size; halt` -/
def size_insns : List dvm_insn_t :=
  let imm (count : Nat) (k : Fin 3) : UInt8 := if k.val < count then DVM_O_IMM else DVM_O_NONE
  [insn_of .MST32 DVM_NOREG (imm 3) fun k => if k = 2 then 0x6D762F else 0,
    insn_of .PUSH DVM_NOREG (imm 1) fun _ => 0,
    insn_of .PUSH DVM_NOREG (imm 1) fun k => if k = 0 then 3 else 0,
    insn_of .SYS 0 (imm 1) fun k => if k = 0 then 3 else 0,
    insn_of .HALT DVM_NOREG (imm 0) fun _ => 0]

/-- The default policy with `fs.size` granted below "/vm". -/
def size_policy : dvm_policy_t :=
  { dvm_policy_init with sys_allow := 8, fs_root := CArray.ofList _ [0x2F, 0x76, 0x6D] 0 }

def size_call : run_call_t Unit :=
  { bare_call size_insns size_policy with
    io := some { bare_io with
      sys := some ⟨none, none, none, some fun _ _ => (⟨5, ""⟩, ()), none, none, none⟩ } }

theorem size_path_confined :
    access_t.fs_size [0x2F, 0x76, 0x6D] ∈ (dvm_run_at bare_plat bare_bus size_call 6 bare_machine).accesses ∧
      ∃ pol, size_call.pol = some pol ∧
        ∀ comps, vfs.components [0x2F, 0x76, 0x6D] = some comps →
          ∃ root, vfs.components (cstring pol.fs_root) = some root ∧ root <+: comps ∧
            [DOT] ∉ comps ∧ [DOT, DOT] ∉ comps := by
  have hmade : access_t.fs_size [0x2F, 0x76, 0x6D] ∈
      (dvm_run_at bare_plat bare_bus size_call 6 bare_machine).accesses := by
    have hlog : (dvm_run_at bare_plat bare_bus size_call 6 bare_machine).accesses =
        [access_t.fs_size [0x2F, 0x76, 0x6D]] := by decide +kernel
    rw [hlog]
    exact mem_singleton_self _
  exact ⟨hmade, fs_paths_confined bare_plat bare_bus size_call 6 bare_machine _ hmade _ rfl⟩

end fable.dvm
