import FableOs.Dvm.Asm.Source

namespace fable.dvm

open List Option

variable {stmts : List stmt_t} {p : dvm_program_t}

/-- What the first pass has in its image after the statements `stmts`. -/
structure Collected (stmts : List stmt_t) (p : dvm_program_t) : Prop where
  ninsn_eq : p.ninsn.toNat = (stmt_insns stmts).length
  ninsn_le : (stmt_insns stmts).length ≤ DVM_MAX_INSNS
  nlabel_le : p.nlabel.toNat ≤ DVM_MAX_LABELS
  labels : (p.label.front p.nlabel.toNat).map (fun l => (cstring l.name, l.pc.toNat)) = label_defs 0 stmts
  distinct : ((label_defs 0 stmts).map fun d => d.1.map dlower).Nodup
  no_strings : p.nstr = 0 ∧ p.strused = 0

/-- Looking a name up in the label table is looking it up among the labels of
    the source. -/
theorem Collected.label_lookup_eq (h : Collected stmts p) (t : tok_t) :
    (label_lookup p t).map UInt32.toNat = ((label_defs 0 stmts).find? fun d => tok_ieq t d.1).map Prod.snd := by
  rw [← h.labels, find?_map, Option.map_map, label_lookup, Option.map_map]
  rfl

/-- A name that the table finds is a label of the source, and the only one of
    that name. -/
theorem Collected.label_lookup_some (h : Collected stmts p) {t} {target : UInt32}
    (hfound : label_lookup p t = some target) :
    (∃ name, tok_ieq t name = true ∧ (name, target.toNat) ∈ label_defs 0 stmts) ∧
      ∀ name pc, tok_ieq t name = true → (name, pc) ∈ label_defs 0 stmts → pc = target.toNat := by
  have heq := h.label_lookup_eq t
  rw [hfound, map_some, eq_comm, map_eq_some_iff] at heq
  obtain ⟨⟨name, pc⟩, hfind, rfl⟩ := heq
  have hmatch : tok_ieq t name = true := by simpa using find?_some hfind
  refine ⟨⟨name, hmatch, mem_of_find?_eq_some hfind⟩, ?_⟩
  intro other pc hother hmem
  rw [tok_ieq_iff] at hmatch hother
  have hsame := inj_on_of_nodup_map h.distinct hmem (mem_of_find?_eq_some hfind) (hother.symm.trans hmatch)
  exact congrArg Prod.snd hsame

/-- A name the table does not find is none of the labels so far. -/
theorem Collected.label_lookup_none (h : Collected stmts p) {t} (hnone : (label_lookup p t).isSome = false) :
    t.map dlower ∉ (label_defs 0 stmts).map fun d => d.1.map dlower := by
  have heq := h.label_lookup_eq t
  rw [isSome_eq_false_iff, isNone_iff_eq_none] at hnone
  rw [hnone, map_none, eq_comm, map_eq_none_iff, find?_eq_none] at heq
  intro hmem
  obtain ⟨d, hd, hname⟩ := mem_map.mp hmem
  exact heq d hd (tok_ieq_iff.mpr hname.symm)

theorem u32_toNat_succ (bound : Nat) {x : UInt32} (h : x.toNat < bound) (hbound : bound < 2 ^ 32) :
    (x + 1).toNat = x.toNat + 1 := by
  rw [UInt32.toNat_add, UInt32.toNat_one]
  omega

theorem cstring_ofList {n : Nat} {name} (hlen : name.length < n) (hnul : 0 ∉ name) :
    cstring (CArray.ofList n name 0) = name := by
  have hpos : n - name.length = n - name.length - 1 + 1 := by omega
  rw [cstring, CArray.front_ofList (by omega), hpos, replicate_succ, takeWhile_append_of_pos]
  · simp
  · intro c hc
    simp only [bne_iff_ne, ne_eq]
    rintro rfl
    exact hnul hc

theorem is_ident_char_ne_zero {name : tok_t} (h : name.all is_ident_char = true) : 0 ∉ name := by
  intro hmem
  have hzero := all_eq_true.mp h 0 hmem
  cases hzero

theorem add_label_collects {as as' : as_t} {name : tok_t} (h : Collected stmts as.p)
    (hok : add_label as name = .ok as') : Collected (stmts ++ [.label name]) as'.p := by
  simp only [add_label, except_bind_eq_ok_iff, refuse_eq_ok_iff, exists_const] at hok
  obtain ⟨hlen, -, hchars, -, -, hnew, -, hroom, hok⟩ := hok
  cases hok
  push Not at hlen hroom
  have hsucc : (as.p.nlabel + 1).toNat = as.p.nlabel.toNat + 1 := u32_toNat_succ _ hroom (by decide)
  have hname : cstring (CArray.ofList DVM_LABEL_MAX name 0) = name :=
    cstring_ofList hlen.2 (is_ident_char_ne_zero (by simpa using hchars))
  have hdefs : label_defs 0 (stmts ++ [.label name]) =
      label_defs 0 stmts ++ [(name, (stmt_insns stmts).length)] := by
    rw [label_defs_append, Nat.zero_add]
    rfl
  have hinsns : stmt_insns (stmts ++ [.label name]) = stmt_insns stmts := by
    rw [stmt_insns_append]
    exact append_nil _
  refine ⟨?_, ?_, ?_, ?_, ?_, h.no_strings⟩
  · rw [hinsns]
    exact h.ninsn_eq
  · rw [hinsns]
    exact h.ninsn_le
  · simp only [hsucc]
    omega
  · simp only [hsucc]
    rw [CArray.front_set_self _ hroom, map_append, h.labels, hdefs, ← h.ninsn_eq]
    simp only [map_cons, map_nil, hname]
  · rw [hdefs, map_append, nodup_append]
    refine ⟨h.distinct, nodup_singleton _, ?_⟩
    rintro a ha b hb rfl
    rw [map_cons, map_nil, mem_singleton] at hb
    subst hb
    exact h.label_lookup_none (by simpa using hnew) ha

theorem Collected.count (h : Collected stmts p) (hroom : p.ninsn.toNat < DVM_MAX_INSNS) (op : dvm_op_t)
    (args : List tok_t) : Collected (stmts ++ [.insn op args]) { p with ninsn := p.ninsn + 1 } := by
  have hinsns : (stmt_insns (stmts ++ [.insn op args])).length = (stmt_insns stmts).length + 1 := by
    rw [stmt_insns_append, length_append]
    rfl
  have hdefs : label_defs 0 (stmts ++ [.insn op args]) = label_defs 0 stmts := by
    rw [label_defs_append]
    exact append_nil _
  have hcount := h.ninsn_eq
  refine ⟨?_, ?_, h.nlabel_le, ?_, ?_, h.no_strings⟩
  · simp only [u32_toNat_succ _ hroom (by decide), hinsns, hcount]
  · rw [hinsns]
    omega
  · rw [hdefs]
    exact h.labels
  · rw [hdefs]
    exact h.distinct

theorem do_equ_image {as as' : as_t} {t} (hok : do_equ as t = .ok as') : as'.p = as.p := by
  unfold do_equ at hok
  split at hok
  · simp only [except_bind_eq_ok_iff] at hok
    obtain ⟨-, -, -, -, -, -, -, -, -, -, -, -, -, -, v, -, hok⟩ := hok
    cases hok
    rfl
  · cases hok

theorem zero_program_collected : Collected [] zero_program where
  ninsn_eq := rfl
  ninsn_le := Nat.zero_le _
  nlabel_le := Nat.zero_le _
  labels := rfl
  distinct := nodup_nil
  no_strings := ⟨rfl, rfl⟩

/-- The first pass leaves every label of the source in the table, and nothing
    else. -/
theorem first_pass_collects {src} {as : as_t} (hok : assemble_pass .first ⟨zero_program, []⟩ src = .ok as) :
    Collected (source_stmts src) as.p := by
  simp only [assemble_pass, except_bind_eq_ok_iff] at hok
  obtain ⟨mid, hlines, hok⟩ := hok
  cases hok
  have hmid : Collected (source_stmts src) mid.p := by
    refine assemble_lines_keeps (I := fun stmts as => Collected stmts as.p) ?_ ?_ ?_ zero_program_collected hlines
    · intro stmts as as' args h _ hconst
      rwa [do_equ_image hconst]
    · intro stmts as as' name h hlabel
      rw [define_label, if_pos rfl] at hlabel
      exact add_label_collects h hlabel
    · intro stmts as as' line op args mn h hcount
      simp only [assemble_stmt] at hcount
      split at hcount
      · cases hcount
      · next hroom =>
        cases hcount
        exact h.count (by omega) op args
  exact ⟨hmid.ninsn_eq, hmid.ninsn_le, hmid.nlabel_le, hmid.labels, hmid.distinct, hmid.no_strings⟩

end fable.dvm
