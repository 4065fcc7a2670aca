import FableOs.Dvm.Asm.Pass

namespace fable.dvm

open List

/-- What a source text says, line by line: where its labels stand and which
    instructions it has. Constants leave no statement. -/
inductive stmt_t where
  | label (name : tok_t)
  | insn (op : dvm_op_t) (args : List tok_t)
  deriving DecidableEq, Repr

def body_stmts : List tok_t → List stmt_t
  | [] => []
  | t :: args =>
    if t.head? = some 0x2E then []
    else
      match find_mnemonic t with
      | none => []
      | some op => [.insn op args]

def line_stmts (raw : List UInt8) : List stmt_t :=
  match line_tokens raw with
  | .error _ => []
  | .ok t => (split_label t).1.toList.map .label ++ body_stmts (split_label t).2

def source_stmts (src : List UInt8) : List stmt_t := (source_lines src).flatMap line_stmts

/-- The instructions of a source, in order. -/
def stmt_insns : List stmt_t → List (dvm_op_t × List tok_t)
  | [] => []
  | .label _ :: rest => stmt_insns rest
  | .insn op args :: rest => (op, args) :: stmt_insns rest

/-- The labels of a source that starts at instruction `k`, each with the
    number of instructions before it. -/
def label_defs (k : Nat) : List stmt_t → List (tok_t × Nat)
  | [] => []
  | .label name :: rest => (name, k) :: label_defs k rest
  | .insn _ _ :: rest => label_defs (k + 1) rest

@[simp] theorem stmt_insns_append (s s' : List stmt_t) :
    stmt_insns (s ++ s') = stmt_insns s ++ stmt_insns s' := by
  induction s with
  | nil => rfl
  | cons stmt rest ih =>
    cases stmt with
    | label name => simpa only [cons_append, stmt_insns] using ih
    | insn op args => simp [stmt_insns, ih]

theorem label_defs_append (k : Nat) (s s' : List stmt_t) :
    label_defs k (s ++ s') = label_defs k s ++ label_defs (k + (stmt_insns s).length) s' := by
  induction s generalizing k with
  | nil => simp [label_defs, stmt_insns]
  | cons stmt rest ih =>
    cases stmt with
    | label name => simp [label_defs, stmt_insns, ih]
    | insn op args =>
      have hshift : k + 1 + (stmt_insns rest).length = k + ((stmt_insns rest).length + 1) := by omega
      simp [label_defs, stmt_insns, ih, hshift]

/-- A label is listed with the number of instructions in front of it. -/
theorem mem_label_defs_iff {k : Nat} {stmts name} {pc : Nat} :
    (name, pc) ∈ label_defs k stmts ↔
      ∃ before after, stmts = before ++ .label name :: after ∧ pc = k + (stmt_insns before).length := by
  constructor
  · intro h
    induction stmts generalizing k with
    | nil => cases h
    | cons stmt rest ih =>
      cases stmt with
      | label first =>
        rcases mem_cons.mp h with heq | hrest
        · cases heq
          exact ⟨[], rest, rfl, rfl⟩
        · obtain ⟨before, after, rfl, hpc⟩ := ih hrest
          exact ⟨.label first :: before, after, rfl, hpc⟩
      | insn op args =>
        obtain ⟨before, after, rfl, hpc⟩ := ih (k := k + 1) h
        refine ⟨.insn op args :: before, after, rfl, ?_⟩
        simp only [stmt_insns, length_cons]
        omega
  · rintro ⟨before, after, rfl, rfl⟩
    rw [label_defs_append]
    exact mem_append_right _ mem_cons_self

theorem tok_ieq_iff {t word} : tok_ieq t word = true ↔ t.map dlower = word.map dlower := by
  induction t generalizing word with
  | nil => cases word <;> simp [tok_ieq]
  | cons c t ih => cases word <;> simp [tok_ieq, ih]

/-- A line after its label is empty, a constant, or an instruction. -/
theorem assemble_body_cases {pass} {as as' : as_t} {line : Nat} {t} (hok : assemble_body pass as line t = .ok as') :
    (body_stmts t = [] ∧ (as' = as ∨ (pass = .first ∧ ∃ args, do_equ as args = .ok as'))) ∨
      ∃ op args mn, body_stmts t = [.insn op args] ∧ assemble_stmt pass as line op args mn = .ok as' := by
  cases t with
  | nil =>
    cases hok
    exact Or.inl ⟨rfl, Or.inl rfl⟩
  | cons first args =>
    simp only [assemble_body] at hok
    simp only [body_stmts]
    by_cases hdot : first.head? = some 0x2E
    · rw [if_pos hdot] at hok ⊢
      left
      refine ⟨rfl, ?_⟩
      split at hok
      · cases pass with
        | first => exact Or.inr ⟨rfl, args, hok⟩
        | second =>
          cases hok
          exact Or.inl rfl
      · cases hok
    · rw [if_neg hdot] at hok ⊢
      right
      cases hop : find_mnemonic first with
      | none =>
        rw [hop] at hok
        cases hok
      | some op =>
        rw [hop] at hok
        exact ⟨op, args, _, rfl, hok⟩

section Pass

variable {pass : pass_t} {I : List stmt_t → as_t → Prop}
variable (hequ : ∀ stmts as as' args, I stmts as → pass = .first → do_equ as args = .ok as' → I stmts as')
variable (hlabel : ∀ stmts as as' name, I stmts as → define_label pass as (some name) = .ok as' →
  I (stmts ++ [.label name]) as')
variable (hinsn : ∀ stmts as as' line op args mn, I stmts as →
  assemble_stmt pass as line op args mn = .ok as' → I (stmts ++ [.insn op args]) as')
include hequ hlabel hinsn

theorem assemble_line_keeps {stmts} {as as' : as_t} {line : Nat} {raw} (h : I stmts as)
    (hok : assemble_line pass as line raw = .ok as') : I (stmts ++ line_stmts raw) as' := by
  rw [assemble_line, except_bind_eq_ok_iff] at hok
  obtain ⟨t, htokens, hok⟩ := hok
  rw [except_bind_eq_ok_iff] at hok
  obtain ⟨mid, hdefine, hok⟩ := hok
  have hmid : I (stmts ++ (split_label t).1.toList.map .label) mid := by
    cases hname : (split_label t).1 with
    | none =>
      rw [hname] at hdefine
      cases hdefine
      simpa using h
    | some name =>
      rw [hname] at hdefine
      exact hlabel stmts as mid name h hdefine
  simp only [line_stmts, htokens, ← append_assoc]
  rcases assemble_body_cases hok with ⟨hnone, rfl | ⟨hfirst, args, hconst⟩⟩ | ⟨op, args, mn, hone, hstmt⟩
  · rwa [hnone, append_nil]
  · rw [hnone, append_nil]
    exact hequ _ mid as' args hmid hfirst hconst
  · rw [hone]
    exact hinsn _ mid as' line op args mn hmid hstmt

/-- What every label, constant and instruction keeps, a pass keeps. -/
theorem assemble_lines_keeps {stmts} {as as' : as_t} {line : Nat} {lines} (h : I stmts as)
    (hok : assemble_lines pass as line lines = .ok as') : I (stmts ++ lines.flatMap line_stmts) as' := by
  induction lines generalizing stmts as line with
  | nil =>
    cases hok
    rwa [flatMap_nil, append_nil]
  | cons raw rest ih =>
    unfold assemble_lines at hok
    cases hline : assemble_line pass as line raw with
    | error msg =>
      rw [hline] at hok
      cases hok
    | ok mid =>
      rw [hline] at hok
      have hrest := ih (assemble_line_keeps hequ hlabel hinsn h hline) hok
      rwa [append_assoc, ← flatMap_cons] at hrest

end Pass

end fable.dvm
