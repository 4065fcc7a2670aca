import FableOs.Capability.Record
import FableOs.Dvm.Asm.Pass
import FableOs.Lib.Linkage

namespace fable.capability

/-! The capability store: the directory of records, and the registry that
`capability_init` makes of it. -/

open fable.record List Roster
open fable.sse (ascii)

section Disk

/-- How a write of a file ends: with the whole text in it, without a file to
    write to, or cut off, with whatever is left in the file then. -/
inductive write_t where
  | whole
  | refused
  | torn (left : List UInt8)
  deriving DecidableEq, Repr

/-- The store's directory: its files in the order of `vfs_readdir`, which of them
    cannot be read, and how the writes and the removals to come will end (well,
    when the list runs out). -/
structure disk_t where
  file : List (text_t × List UInt8)
  broken : text_t → Bool
  writes : List write_t
  unlinks : List Bool

def CAP_SUFFIX : text_t := ascii ['.', 'c', 'a', 'p']
def CAP_BAKSUFFIX : text_t := ascii ['.', 'b', 'a', 'k']

variable (d : disk_t)

def file_exists (leaf : text_t) : Bool := (Roster.find Prod.fst leaf d.file).isSome

/-- The code, and what the buffer holds. -/
def file_read_all (leaf : text_t) : Int × List UInt8 :=
  match Roster.find Prod.fst leaf d.file with
  | none => (CAP_ENOENT, [])
  | some (_, bytes) =>
    if d.broken leaf then ( CAP_EIO, [])
    else if CAP_FILE_MAX ≤ bytes.length then (CAP_ENOSPC, [])
    else (CAP_OK, bytes)

def file_write_all (leaf : text_t) (bytes : List UInt8) : disk_t × Int :=
  match d.writes with
  | [] => ({ d with file := Roster.put Prod.fst (leaf, bytes) d.file }, CAP_OK)
  | .whole :: rest => ({ d with file := Roster.put Prod.fst (leaf, bytes) d.file, writes := rest }, CAP_OK)
  | .refused :: rest => ({ d with writes := rest }, CAP_EIO)
  | .torn left :: rest => ({ d with file := Roster.put Prod.fst (leaf, left) d.file, writes := rest }, CAP_EIO)

def file_unlink (leaf : text_t) : disk_t × Int :=
  if (Roster.find Prod.fst leaf d.file).isNone then (d, CAP_EIO)
  else
    match d.unlinks with
    | [] => ({ d with file := Roster.remove Prod.fst leaf d.file }, CAP_OK)
    | true :: rest => ({ d with file := Roster.remove Prod.fst leaf d.file, unlinks := rest }, CAP_OK)
    | false :: rest => ({ d with unlinks := rest }, CAP_EIO)

end Disk

section Loading

/-- Why `load_one` does not register a record. -/
inductive load_why_t where
  | unreadable (rc : Int)
  | record (why : record_why_t)
  | other_name (name : text_t)
  | not_assembled (err : dvm.dvm_asm_err_t)
  | full
  deriving DecidableEq, Repr

/-- A stored program has to go through the assembler on this boot. -/
def reassembled (c : cap_t) (src : List UInt8) : Except load_why_t cap_t :=
  if c.kind = .program then
    match dvm.dvm_assemble (some src) with
    | .error err => .error (.not_assembled err)
    | .ok prog => .ok { c with ninsn := prog.ninsn }
  else .ok c

/-- `*slot = *c`, with the counters of the slot. -/
def registered (c : cap_t) (caps : List cap_t) : cap_t :=
  match Roster.find cap_t.name c.name caps with
  | none => { c with calls := 0, failures := 0 }
  | some slot => { c with calls := slot.calls, failures := slot.failures }

def load_one (d : disk_t) (leaf expect : text_t) (from_backup : Bool) (caps : List cap_t) :
    Except load_why_t (List cap_t) := do
  let (rc, file) := file_read_all d leaf
  refuse (rc ≠ CAP_OK) (.unreadable rc)
  let (c, src) ← (record_parse file).mapError load_why_t.record
  refuse (c.name ≠ expect) (.other_name c.name)
  let c ← reassembled c src
  refuse (Roster.find cap_t.name c.name caps = none ∧ CAP_MAX ≤ caps.length) load_why_t.full
  let c := { registered c caps with from_backup := from_backup, has_backup := file_exists d (c.name ++ CAP_BAKSUFFIX) }
  pure (Roster.put cap_t.name c caps)

/-- `ends_with` for the suffix of a record, with the stem it finds. -/
def ends_with (leaf suffix : text_t) : Option text_t :=
  let stem := leaf.take (leaf.length - suffix.length)
  if leaf.length ≤ suffix.length then none
  else if leaf.drop (leaf.length - suffix.length) ≠ suffix then none
  else if CAP_NAME_MAX < stem.length + 1 then none
  else some stem

/-- The registry, and the records that were rejected. -/
structure registry_t where
  caps : List cap_t
  rejected : Nat
  deriving DecidableEq, Repr

/-- One file of the directory: the record, or the backup beside it. -/
def load_file (d : disk_t) (r : registry_t) (leaf : text_t) : registry_t :=
  match ends_with leaf CAP_SUFFIX with
  | none => r
  | some stem =>
    if (capability_name_ok stem).isOk = false then { r with rejected := r.rejected + 1 }
    else
      match load_one d (stem ++ CAP_SUFFIX) stem false r.caps with
      | .ok caps => { r with caps := caps }
      | .error _ =>
        let r := { r with rejected := r.rejected + 1 }
        if file_exists d (stem ++ CAP_BAKSUFFIX) = false then r
        else
          match load_one d (stem ++ CAP_BAKSUFFIX) stem true r.caps with
          | .ok caps => { r with caps := caps }
          | .error _ => r

/-- The first pass of `capability_init`. -/
def load_files (d : disk_t) : registry_t := (d.file.map Prod.fst).foldl (load_file d) ⟨[], 0⟩

/-- The callee of a step: the composition itself, or what the registry has. -/
def callee (caps : List cap_t) (c : cap_t) (call : text_t) : Option cap_t :=
  if call = c.name then some c else Roster.find cap_t.name call caps

def step_dead (caps : List cap_t) (c : cap_t) (s : cap_step_t) : Bool :=
  match callee caps c s.call with
  | none => true
  | some callee => s.narg ≠ callee.nparam

def dead (caps : List cap_t) (c : cap_t) : Bool := c.kind = .compose && c.step.any (step_dead caps c)

/-- The second pass: `done` is `g_cap` up to `i`, `rest` the part from `i` on. -/
def reject_dead : List cap_t → List cap_t → Nat → registry_t
  | done, [], rejected => ⟨done, rejected⟩
  | done, c :: rest, rejected =>
    if dead (done ++ c :: rest) c then reject_dead done rest (rejected + 1) else reject_dead (done ++ [c]) rest rejected

def capability_init (d : disk_t) : registry_t :=
  let r := load_files d
  reject_dead [] r.caps r.rejected

end Loading

section Closed

/-- What a capability calls, each with the number of arguments. -/
def refs (c : cap_t) : List (text_t × Nat) :=
  if c.kind = .compose then c.step.map fun s => (s.call, s.narg) else []

/-- Every step of every composition names a registered capability that takes as
    many arguments. -/
def Callable (caps : List cap_t) : Prop :=
  ∀ c ∈ caps, c.kind = .compose → ∀ s ∈ c.step, ∃ callee ∈ caps, callee.name = s.call ∧ callee.nparam = s.narg

/-- The composition has a step that calls a name. -/
def Calls (c : cap_t) (name : text_t) : Prop := c.kind = .compose ∧ ∃ s ∈ c.step, s.call = name

variable {caps done rest : List cap_t} {c : cap_t} {d : disk_t}

theorem forall_refs {P : text_t × Nat → Prop} :
    (∀ r ∈ refs c, P r) ↔ (c.kind = .compose → ∀ s ∈ c.step, P (s.call, s.narg)) := by
  rw [refs]
  split
  · rename_i hkind
    simp [hkind]
  · rename_i hkind
    simp [hkind]

theorem resolves_iff : Linkage.Resolves cap_t.name cap_t.nparam refs caps c ↔
    (c.kind = .compose → ∀ s ∈ c.step, ∃ b ∈ caps, b.name = s.call ∧ b.nparam = s.narg) := forall_refs

theorem callable_iff : Callable caps ↔ Linkage.Closed cap_t.name cap_t.nparam refs caps :=
  forall₂_congr fun _ _ => resolves_iff.symm

theorem refers_iff {name} : Linkage.Refers refs c name ↔ Calls c name := by
  rw [Linkage.Refers, Calls, refs]
  split
  · rename_i hkind
    simp [hkind]
  · rename_i hkind
    simp [hkind]

/-- In a table without two of a name, a composition is dead when one of its
    references is bad. -/
theorem dead_iff (hunique : Roster.Unique cap_t.name caps) (hc : c ∈ caps) :
    dead caps c = false ↔ Linkage.Resolves cap_t.name cap_t.nparam refs caps c := by
  have hstep (s : cap_step_t) :
      step_dead caps c s = false ↔ ∃ b ∈ caps, b.name = s.call ∧ b.nparam = s.narg := by
    have hcallee : callee caps c s.call = find cap_t.name s.call caps := by
      rw [callee]
      split
      · rename_i hcall
        exact (hunique.find_eq_some.mpr ⟨hc, hcall.symm⟩).symm
      · rfl
    rw [step_dead, hcallee]
    cases hfind : find cap_t.name s.call caps with
    | none =>
      have hnone := find_eq_none.mp hfind
      simp only [Bool.true_eq_false, false_iff]
      rintro ⟨b, hb, hname, -⟩
      exact hnone b hb hname
    | some b =>
      obtain ⟨hb, hname⟩ := mem_of_find hfind
      simp only [decide_eq_false_iff_not, ne_eq, not_not]
      refine ⟨fun hcount => ⟨b, hb, hname, hcount.symm⟩, ?_⟩
      rintro ⟨b', hb', hname', hcount⟩
      rw [hunique.eq_of_name hb hb' (hname.trans hname'.symm), hcount]
  rw [resolves_iff, dead, Bool.and_eq_false_iff, decide_eq_false_iff_not, any_eq_false, imp_iff_not_or]
  refine or_congr_right (forall₂_congr fun s hs => ?_)
  rw [Bool.not_eq_true, hstep]

theorem reject_dead_caps (hunique : Roster.Unique cap_t.name (done ++ rest)) {rejected : Nat} :
    (reject_dead done rest rejected).caps = Linkage.sweep cap_t.name cap_t.nparam refs done rest := by
  induction rest generalizing done rejected with
  | nil => rfl
  | cons c rest ih =>
    have hiff := dead_iff hunique (mem_append_right done mem_cons_self)
    rw [reject_dead, Linkage.sweep]
    by_cases hdead : dead (done ++ c :: rest) c = true
    · have hbad : ¬ Linkage.Resolves cap_t.name cap_t.nparam refs (done ++ c :: rest) c := fun hgood => by
        cases (hiff.mpr hgood).symm.trans hdead
      rw [if_pos hdead, if_neg hbad]
      refine ih (hunique.sublist ?_)
      exact (List.Sublist.append_left (sublist_cons_self c rest) done).map cap_t.name
    · rw [if_neg hdead, if_pos (hiff.mp (Bool.eq_false_iff.mpr hdead))]
      refine ih ?_
      rwa [append_assoc]

theorem unique_load_one {leaf expect} {from_backup : Bool} {caps'} (hunique : Roster.Unique cap_t.name caps)
    (h : load_one d leaf expect from_backup caps = .ok caps') : Roster.Unique cap_t.name caps' := by
  simp only [load_one, except_bind_eq_ok_iff, refuse_eq_ok_iff] at h
  obtain ⟨-, -, ⟨c, src⟩, -, -, -, c', -, -, -, h⟩ := h
  cases h
  exact hunique.put

/-- What every record that goes in keeps, the first pass keeps. -/
theorem load_files_rule {P : List cap_t → Prop} (hnil : P [])
    (hone : ∀ {leaf stem from_backup caps caps'}, leaf = stem ++ CAP_SUFFIX ∨ leaf = stem ++ CAP_BAKSUFFIX → P caps →
      load_one d leaf stem from_backup caps = .ok caps' → P caps') : P (load_files d).caps := by
  suffices hfold : ∀ (leaves : List text_t) (r : registry_t), P r.caps → P (leaves.foldl (load_file d) r).caps from
    hfold _ _ hnil
  intro leaves
  induction leaves with
  | nil => exact fun r h => h
  | cons leaf leaves ih =>
    intro r h
    refine ih _ ?_
    rw [load_file]
    split
    · exact h
    split
    · exact h
    split
    · rename_i hload
      exact hone (.inl rfl) h hload
    dsimp only
    split
    · exact h
    split
    · rename_i hload
      exact hone (.inr rfl) h hload
    · exact h

theorem unique_load_files : Roster.Unique cap_t.name (load_files d).caps :=
  load_files_rule nodup_nil fun _ => unique_load_one

theorem init_sublist : (capability_init d).caps.Sublist (load_files d).caps := by
  rw [capability_init, @reject_dead_caps [] (load_files d).caps unique_load_files]
  exact Linkage.sweep_sublist

/-- The capability belongs to some records of the table that call only each
    other. -/
def Lasting (caps : List cap_t) (c : cap_t) : Prop := ∃ t, t ⊆ caps ∧ Callable t ∧ c ∈ t

theorem lasting_iff : Lasting caps c ↔ Linkage.Lasting cap_t.name cap_t.nparam refs caps c :=
  exists_congr fun _ => and_congr_right fun _ => and_congr_left fun _ => callable_iff

/-- Whatever is on the disk: after `capability_init` every registered composition
    is callable exactly when each loaded record that no set of records calling
    only each other has in it either has a step that fits no loaded record, or
    calls such a record that stands before it. A caller of a record that fails
    after it stays. -/
theorem init_callable_iff (d : disk_t) : Callable (capability_init d).caps ↔
    ∀ before c after, (load_files d).caps = before ++ c :: after → ¬ Lasting (load_files d).caps c →
      (c.kind = .compose ∧ ∃ s ∈ c.step, ∀ b ∈ (load_files d).caps, ¬ (b.name = s.call ∧ b.nparam = s.narg)) ∨
        ∃ b ∈ before, ¬ Lasting (load_files d).caps b ∧ Calls c b.name := by
  have hunique := @unique_load_files d
  have hbad (c : cap_t) : (∃ r ∈ refs c, ∀ b ∈ (load_files d).caps, ¬ (b.name = r.1 ∧ b.nparam = r.2)) ↔
      c.kind = .compose ∧ ∃ s ∈ c.step, ∀ b ∈ (load_files d).caps, ¬ (b.name = s.call ∧ b.nparam = s.narg) := by
    rw [refs]
    split
    · rename_i hkind
      simp [hkind]
    · rename_i hkind
      simp [hkind]
  rw [callable_iff, capability_init, @reject_dead_caps [] (load_files d).caps hunique, Linkage.closed_sweep_iff hunique]
  simp only [Linkage.Foreseen, refers_iff, lasting_iff, hbad]

/-- A composition of one step without arguments. -/
def calling (name call : text_t) : cap_t :=
  ⟨name, [0x64], 1, .compose, [], [⟨call, [], .none, .lit 0, .lit 0⟩], 0, 0, 0, 0, 0, false, false⟩

/-- A store with two records: `a` calls `b`, and `b` calls `c`, which is not there. -/
def chain_store : disk_t :=
  ⟨[([0x61] ++ CAP_SUFFIX, (record_write (calling [0x61] [0x62]) []).getD []),
    ([0x62] ++ CAP_SUFFIX, (record_write (calling [0x62] [0x63]) []).getD [])], fun _ => false, [], []⟩

/-- The pass lets `a` through while `b` is still registered, and then rejects `b`. -/
theorem chain_left_hanging : (capability_init chain_store).caps.map cap_t.name = [[0x61]] ∧
    ¬ Callable (capability_init chain_store).caps := by
  have hcaps : (capability_init chain_store).caps.map (fun c => (c.name, c.kind, c.step)) =
      [([0x61], .compose, [⟨[0x62], [], .none, .lit 0, .lit 0⟩])] := by decide +kernel
  have hname : (capability_init chain_store).caps.map cap_t.name = [[0x61]] := by
    have hmap := congrArg (map Prod.fst) hcaps
    rwa [map_map] at hmap
  refine ⟨hname, fun hcallable => ?_⟩
  obtain ⟨c, hc, heq⟩ := mem_map.mp (hcaps ▸ mem_singleton_self _)
  obtain ⟨-, hkind, hstep⟩ : c.name = [0x61] ∧ c.kind = .compose ∧ c.step = [⟨[0x62], [], .none, .lit 0, .lit 0⟩] := by
    simpa using heq
  obtain ⟨b, hb, hbname, -⟩ := hcallable c hc hkind _ (hstep ▸ mem_singleton_self _)
  have hb' := mem_map_of_mem (f := cap_t.name) hb
  rw [hname, hbname] at hb'
  exact absurd hb' (by decide)

end Closed

end fable.capability
