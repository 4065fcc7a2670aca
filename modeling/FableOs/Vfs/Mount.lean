import FableOs.Vfs.Path

namespace fable.vfs

open List

abbrev VFS_PATH_MAX : Nat := 127

/-- The component that names the directory it stands in. -/
def dot : List UInt8 := [0x2E]

abbrev VFS_ENOENT : Int := -2
abbrev VFS_ENOTDIR : Int := -20
abbrev VFS_EINVAL : Int := -22

/-- A mount point that `vfs_mount` has accepted: absolute, and short enough for
    `mountpoint[64]`. -/
structure mountpoint_t where
  text : List UInt8
  absolute : text.head? = some SEPARATOR
  short : text.length < 64

/-- What the mounted filesystems answer: which vnodes are directories, which have
    a lookup operation, and what a lookup finds. `root` gives the root of each
    mount of the table. -/
structure Mounted (V : Type) where
  root : Nat → V
  is_dir : V → Bool
  has_lookup : V → Bool
  lookup : V → List UInt8 → Option V

/-- The mount point is a whole-component prefix of a path, as texts. -/
def Covers (mountpoint path : List UInt8) : Prop :=
  mountpoint = [SEPARATOR] ∨ mountpoint <+: path ∧
    (path.drop mountpoint.length = [] ∨ (path.drop mountpoint.length).head? = some SEPARATOR)

instance (mountpoint path : List UInt8) : Decidable (Covers mountpoint path) := inferInstanceAs (Decidable (_ ∨ _ ∧ _))

/-- How many bytes of a path a mount point accounts for, if it is a
    whole-component prefix of it. The root mount accounts for none. -/
def mount_len (mountpoint path : List UInt8) : Option Nat :=
  if mountpoint = [SEPARATOR] then some 0
  else if mountpoint <+: path ∧
      (path.drop mountpoint.length = [] ∨ (path.drop mountpoint.length).head? = some SEPARATOR) then
    some mountpoint.length
  else none

/-- The longest match so far, with its place in the table; a later one wins a tie. -/
def better (path : List UInt8) (best : Option (Nat × Nat)) (m : mountpoint_t × Nat) : Option (Nat × Nat) :=
  match mount_len m.1.text path with
  | none => best
  | some len =>
    match best with
    | none => some (m.2, len)
    | some (_, best_len) => if best_len ≤ len then some (m.2, len) else best

/-- `mount_for` on a table of mount points: which mount takes a path, and how
    many bytes of the path it accounts for. -/
def mount_for (mounts : List mountpoint_t) (path : List UInt8) : Option (Nat × Nat) :=
  mounts.zipIdx.foldl (better path) none

/-- The component loop of `resolve`. Every component takes a byte, so the
    length of the path is fuel enough. -/
def walk {V : Type} (fs : Mounted V) : Nat → V → List UInt8 → Option V
  | 0, cur, _ => some cur
  | fuel + 1, cur, rel =>
    match next_component rel (VFS_NAME_MAX + 1) with
    | .none_left => some cur
    | .too_long => none
    | .one comp rest =>
      if comp = dot then walk fs fuel cur rest
      else if fs.is_dir cur && fs.has_lookup cur then
        match fs.lookup cur comp with
        | none => none
        | some next => walk fs fuel next rest
      else none

/-- The vnode an absolute path names. -/
def resolve {V : Type} (fs : Mounted V) (mounts : List mountpoint_t) (path : List UInt8) : Option V :=
  if path.head? ≠ some SEPARATOR then none
  else if VFS_PATH_MAX < path.length then none
  else
    match mount_for mounts path with
    | none => none
    | some (m, plen) => walk fs (path.drop plen).length (fs.root m) (path.drop plen)

/-- What stands behind the last separator of a path, and what stands before it. -/
def leaf (path : List UInt8) : List UInt8 := (path.reverse.takeWhile (· != SEPARATOR)).reverse

def dir (path : List UInt8) : List UInt8 :=
  let front := path.take (path.length - (leaf path).length - 1)
  if front = [] then [SEPARATOR] else front

/-- The parent directory and the final component of a path. There is a separator
    in a path that begins with one, and what stands before it fits `dir`. -/
def resolve_parent {V : Type} (fs : Mounted V) (mounts : List mountpoint_t) (path : List UInt8) :
    Except Int (V × List UInt8) :=
  if path.head? ≠ some SEPARATOR then .error VFS_EINVAL
  else if VFS_PATH_MAX < path.length then .error VFS_EINVAL
  else if leaf path = [] then .error VFS_EINVAL
  else if VFS_NAME_MAX < (leaf path).length then .error VFS_EINVAL
  else
    match resolve fs mounts (dir path) with
    | none => .error VFS_ENOENT
    | some p => if fs.is_dir p then .ok (p, leaf path) else .error VFS_ENOTDIR

/-- The components of a path that name something. -/
def names (path : List UInt8) : List (List UInt8) := (fields SEPARATOR path).filter (· ≠ dot)

/-- Looking up names one after the other. -/
def descend {V : Type} (fs : Mounted V) : V → List (List UInt8) → Option V
  | cur, [] => some cur
  | cur, c :: cs => if fs.is_dir cur && fs.has_lookup cur then (fs.lookup cur c).bind fun next => descend fs next cs else none

/-- A path spelled with more separators or with `/.` components. -/
inductive Respelled : List UInt8 → List UInt8 → Prop where
  | refl (p : List UInt8) : Respelled p p
  | slash {p a b : List UInt8} (h : Respelled p (a ++ b))
      (hsep : a.getLast? = some SEPARATOR ∨ b = [] ∨ b.head? = some SEPARATOR) : Respelled p (a ++ SEPARATOR :: b)
  | dot {p a b : List UInt8} (h : Respelled p (a ++ b)) (hsep : b = [] ∨ b.head? = some SEPARATOR) :
      Respelled p (a ++ SEPARATOR :: 0x2E :: b)

section Names

variable {a b p p' : List UInt8}

theorem names_append_sep (a b : List UInt8) : names (a ++ SEPARATOR :: b) = names a ++ names b := by
  unfold names
  rw [fields_append_sep, filter_append]

theorem names_cons_sep (b : List UInt8) : names (SEPARATOR :: b) = names b := by
  unfold names
  rw [fields_cons_sep]

@[simp] theorem names_nil : names [] = [] := by
  simp [names]

theorem names_dot_cons (hsep : b = [] ∨ b.head? = some SEPARATOR) : names (0x2E :: b) = names b := by
  have hdot : fields SEPARATOR [0x2E] = [dot] := fields_of_not_mem (by decide) (by decide)
  rcases hsep with rfl | hhead
  · unfold names
    rw [hdot]
    rfl
  · obtain ⟨rest, rfl⟩ := head?_eq_some_iff.mp hhead
    have hsplit := names_append_sep [0x2E] rest
    have hone : names [0x2E] = [] := by
      unfold names
      rw [hdot]
      rfl
    rw [hone, nil_append] at hsplit
    rw [names_cons_sep]
    exact hsplit

theorem names_append (hsep : b = [] ∨ b.head? = some SEPARATOR) : names (a ++ b) = names a ++ names b := by
  rcases hsep with rfl | hhead
  · simp
  · obtain ⟨rest, rfl⟩ := head?_eq_some_iff.mp hhead
    rw [names_append_sep, names_cons_sep]

/-- Another spelling of a path has the same names. -/
theorem Respelled.names_eq (h : Respelled p p') : names p' = names p := by
  induction h with
  | refl => rfl
  | @slash a b _ hsep ih =>
    rw [← ih]
    rcases hsep with hlast | hb
    · obtain ⟨front, rfl⟩ := getLast?_eq_some_iff.mp hlast
      rw [append_assoc, append_assoc]
      show names (front ++ SEPARATOR :: SEPARATOR :: b) = names (front ++ SEPARATOR :: b)
      rw [names_append_sep, names_append_sep, names_cons_sep]
    · rw [names_append_sep, names_append hb]
  | @dot a b _ hsep ih =>
    rw [← ih, names_append_sep, names_dot_cons hsep, names_append hsep]

theorem Respelled.absolute (h : Respelled p p') (hp : p.head? = some SEPARATOR) : p'.head? = some SEPARATOR := by
  induction h with
  | refl => exact hp
  | @slash a b _ _ ih | @dot a b _ _ ih =>
    cases a with
    | nil => rfl
    | cons x a => simpa using ih

theorem Respelled.length_le (h : Respelled p p') : p.length ≤ p'.length := by
  induction h with
  | refl => exact le_rfl
  | slash _ _ ih =>
    rw [length_append] at ih ⊢
    rw [length_cons]
    omega
  | dot _ _ ih =>
    rw [length_append] at ih ⊢
    rw [length_cons, length_cons]
    omega

end Names

section Walk

variable {V : Type} {fs : Mounted V} {rel : List UInt8} {cur : V}

theorem names_cons_of_ne {x} (hx : x ≠ SEPARATOR) (rest : List UInt8) :
    names (x :: rest) =
      if (x :: rest).takeWhile (· != SEPARATOR) = dot then names ((x :: rest).dropWhile (· != SEPARATOR))
      else (x :: rest).takeWhile (· != SEPARATOR) :: names ((x :: rest).dropWhile (· != SEPARATOR)) := by
  unfold names
  rw [fields_cons_of_ne hx, filter_cons]
  by_cases hdot : (x :: rest).takeWhile (· != SEPARATOR) = dot <;> simp [hdot]

/-- A path with a name that is too long cannot be walked. -/
abbrev Overlong (path : List UInt8) : Prop := ∃ c ∈ names path, VFS_NAME_MAX < c.length

/-- The walk looks the names up in order, and gives up when one is too long. -/
theorem walk_eq {fuel : Nat} (hfuel : rel.length ≤ fuel) :
    walk fs fuel cur rel = if Overlong rel then none else descend fs cur (names rel) := by
  induction fuel generalizing rel cur with
  | zero =>
    have hnil : rel = [] := length_eq_zero_iff.mp (by omega)
    subst hnil
    simp [walk, descend, Overlong]
  | succ fuel ih =>
    have hnames : names rel = names (rel.dropWhile (· == SEPARATOR)) := by
      unfold names
      rw [fields_dropWhile]
    have hdrop := (dropWhile_sublist (· == SEPARATOR) (l := rel)).length_le
    unfold walk next_component Overlong
    rw [hnames]
    cases hp : rel.dropWhile (· == SEPARATOR) with
    | nil => simp [descend]
    | cons x rest =>
      have hx := head_dropWhile_ne hp
      have hlt := length_dropWhile_piece_lt hx rest
      rw [hp] at hdrop
      rw [names_cons_of_ne hx]
      have hrest := fun cur => @ih ((x :: rest).dropWhile (· != SEPARATOR)) cur (by omega)
      simp only [reduceCtorEq, if_false, Nat.add_sub_cancel]
      generalize (x :: rest).takeWhile (· != SEPARATOR) = comp
      generalize (x :: rest).dropWhile (· != SEPARATOR) = left at hrest ⊢
      by_cases hlong : VFS_NAME_MAX < comp.length
      · have hne : comp ≠ dot := by
          rintro rfl
          exact absurd hlong (by decide)
        rw [if_pos hlong, if_neg hne, if_pos ⟨comp, mem_cons_self, hlong⟩]
      · rw [if_neg hlong]
        by_cases hdot : comp = dot
        · simp only [if_pos hdot]
          exact hrest cur
        · simp only [if_neg hdot, mem_cons, exists_eq_or_imp, hlong, false_or, descend]
          by_cases hdir : (fs.is_dir cur && fs.has_lookup cur) = true
          · rw [if_pos hdir, if_pos hdir]
            cases fs.lookup cur comp with
            | none => simp
            | some next => exact hrest next
          · rw [if_neg hdir, if_neg hdir, ite_self]

end Walk

section Selection

variable {mounts : List mountpoint_t} {p p' : List UInt8} {m plen : Nat}

theorem mount_len_of_covers {mountpoint} (h : Covers mountpoint p) :
    mount_len mountpoint p = some (if mountpoint = [SEPARATOR] then 0 else mountpoint.length) := by
  unfold mount_len
  by_cases hroot : mountpoint = [SEPARATOR]
  · rw [if_pos hroot, if_pos hroot]
  · rw [if_neg hroot, if_neg hroot, if_pos (h.resolve_left hroot)]

/-- A mount point that does not cover the path is not taken. -/
theorem mount_len_eq_none_iff {mountpoint} : mount_len mountpoint p = none ↔ ¬ Covers mountpoint p := by
  unfold mount_len Covers
  by_cases hroot : mountpoint = [SEPARATOR]
  · simp [hroot]
  · simp [hroot]

/-- A mount that takes a path accounts for its mount point and leaves the start
    of a component. -/
theorem names_of_mount_len {mountpoint} (h : mount_len mountpoint p = some plen) :
    names p = names mountpoint ++ names (p.drop plen) := by
  unfold mount_len at h
  split at h
  · next hroot =>
    cases h
    rw [hroot, names_cons_sep]
    rfl
  · split at h
    · next hstarts =>
      cases h
      obtain ⟨⟨rel, rfl⟩, hsep⟩ := hstarts
      rw [drop_left] at hsep ⊢
      exact names_append hsep
    · cases h

/-- The choice among the entries seen so far: one that matches, and none of the
    others is longer. -/
def Chosen (path : List UInt8) (entries : List (mountpoint_t × Nat)) (best : Option (Nat × Nat)) : Prop :=
  match best with
  | none => ∀ e ∈ entries, ¬ Covers e.1.text path
  | some (m, len) => (∃ e ∈ entries, e.2 = m ∧ mount_len e.1.text path = some len) ∧
      ∀ e ∈ entries, ∀ len', mount_len e.1.text path = some len' → len' ≤ len

/-- One more mount point: the longer one that covers is kept. -/
theorem Chosen.better {entries best} (h : Chosen p entries best) (e : mountpoint_t × Nat) :
    Chosen p (entries ++ [e]) (better p best e) := by
  unfold vfs.better
  cases hlen : mount_len e.1.text p with
  | none =>
    cases best with
    | none => exact forall_mem_append.mpr ⟨h, forall_mem_singleton.mpr (mount_len_eq_none_iff.mp hlen)⟩
    | some found =>
      obtain ⟨⟨e', he', hfound⟩, hmax⟩ := h
      refine ⟨⟨e', mem_append_left _ he', hfound⟩, forall_mem_append.mpr ⟨hmax, forall_mem_singleton.mpr fun len' hlen' => ?_⟩⟩
      cases hlen.symm.trans hlen'
  | some len =>
    have hself : ∃ e' ∈ entries ++ [e], e'.2 = e.2 ∧ mount_len e'.1.text p = some len :=
      ⟨e, mem_append_right _ mem_cons_self, rfl, hlen⟩
    have hle : ∀ len', mount_len e.1.text p = some len' → len' ≤ len := fun len' hlen' =>
      (Option.some.inj (hlen.symm.trans hlen')).ge
    cases best with
    | none =>
      refine ⟨hself, forall_mem_append.mpr ⟨fun e' he' len' hlen' => ?_, forall_mem_singleton.mpr hle⟩⟩
      cases (mount_len_eq_none_iff.mpr (h e' he')).symm.trans hlen'
    | some found =>
      obtain ⟨⟨e', he', hfound⟩, hmax⟩ := h
      simp only
      split
      · next hlonger =>
        exact ⟨hself, forall_mem_append.mpr ⟨fun e' he' len' hlen' => (hmax e' he' len' hlen').trans hlonger,
          forall_mem_singleton.mpr hle⟩⟩
      · next hshorter =>
        exact ⟨⟨e', mem_append_left _ he', hfound⟩, forall_mem_append.mpr ⟨hmax, forall_mem_singleton.mpr fun len' hlen' =>
          (hle len' hlen').trans (by omega)⟩⟩

theorem Chosen.foldl {entries entries' best} (h : Chosen p entries best) :
    Chosen p (entries ++ entries') (entries'.foldl (vfs.better p) best) := by
  induction entries' generalizing entries best with
  | nil =>
    rw [append_nil]
    exact h
  | cons e entries' ih =>
    have hstep := ih (h.better e)
    rwa [append_assoc] at hstep

/-- What `mount_for` picks: the longest mount point that covers the path. -/
theorem mount_for_chosen : Chosen p mounts.zipIdx (mount_for mounts p) := by
  have hempty : Chosen p [] none := forall_mem_nil _
  exact hempty.foldl

/-- No mount covers the path, or it has a name that cannot be walked. -/
def Nowhere (mounts : List mountpoint_t) (path : List UInt8) : Prop :=
  Overlong path ∨ ∀ mp ∈ mounts, ¬ Covers mp.text path

theorem overlong_iff {mp : mountpoint_t} (h : mount_len mp.text p = some plen) : Overlong (p.drop plen) ↔ Overlong p := by
  unfold Overlong
  rw [names_of_mount_len h]
  constructor
  · rintro ⟨c, hc, hlong⟩
    exact ⟨c, mem_append_right _ hc, hlong⟩
  · rintro ⟨c, hc, hlong⟩
    rcases mem_append.mp hc with hc | hc
    · have hshort := mp.short
      have hle := length_le_of_mem_fields (mem_filter.mp hc).1
      have hmax : VFS_NAME_MAX = 63 := rfl
      omega
    · exact ⟨c, hc, hlong⟩

/-- Resolution starts at the root of the mount that is picked and looks up the
    names that its mount point leaves. -/
theorem resolve_eq (mounts : List mountpoint_t) (habs : p.head? = some SEPARATOR) (hlen : p.length ≤ VFS_PATH_MAX) :
    Nowhere mounts p ∧ (∀ (V : Type) (fs : Mounted V), resolve fs mounts p = none) ∨
      ¬ Nowhere mounts p ∧ ∃ m mp rest, mounts[m]? = some mp ∧ Covers mp.text p ∧
        (∀ mp' ∈ mounts, Covers mp'.text p → mp'.text = [SEPARATOR] ∨ mp'.text.length ≤ mp.text.length) ∧
        names p = names mp.text ++ rest ∧
        (∃ plen, mount_for mounts p = some (m, plen)) ∧
        ∀ (V : Type) (fs : Mounted V), resolve fs mounts p = descend fs (fs.root m) rest := by
  have hresolve {V : Type} (fs : Mounted V) : resolve fs mounts p =
      match mount_for mounts p with
      | none => none
      | some (m, plen) => walk fs (p.drop plen).length (fs.root m) (p.drop plen) := by
    rw [resolve, if_neg (not_not_intro habs), if_neg (Nat.not_lt.mpr hlen)]
  have hchosen := @mount_for_chosen mounts p
  cases hfor : mount_for mounts p with
  | none =>
    rw [hfor] at hchosen
    refine .inl ⟨.inr fun mp hmp => ?_, fun V fs => by rw [hresolve, hfor]⟩
    obtain ⟨m, hm⟩ := mem_iff_getElem?.mp hmp
    exact hchosen _ (mk_mem_zipIdx_iff_getElem?.mpr hm)
  | some found =>
    obtain ⟨m, plen⟩ := found
    rw [hfor] at hchosen
    obtain ⟨⟨⟨mp, i⟩, hmem, rfl, hplen⟩, hmax⟩ := hchosen
    have hm := mk_mem_zipIdx_iff_getElem?.mp hmem
    have hcovers : Covers mp.text p := by
      by_contra hnot
      cases (mount_len_eq_none_iff.mpr hnot).symm.trans hplen
    have hwalk {V : Type} (fs : Mounted V) := hresolve fs
    simp only [hfor, walk_eq le_rfl, overlong_iff hplen] at hwalk
    by_cases hlong : Overlong p
    · exact .inl ⟨.inl hlong, fun V fs => by rw [hwalk, if_pos hlong]⟩
    · refine .inr ⟨?_, i, mp, names (p.drop plen), hm, hcovers, ?_, names_of_mount_len hplen, ⟨plen, rfl⟩, fun V fs => ?_⟩
      · rintro (h | h)
        · exact hlong h
        · exact h mp (mem_of_getElem? hm) hcovers
      · intro mp' hmp' hcovers'
        by_cases hroot : mp'.text = [SEPARATOR]
        · exact .inl hroot
        · right
          obtain ⟨m', hm'⟩ := mem_iff_getElem?.mp hmp'
          have hle := hmax _ (mk_mem_zipIdx_iff_getElem?.mpr hm') _ ((mount_len_of_covers hcovers').trans (by rw [if_neg hroot]))
          have hsize := Option.some.inj ((mount_len_of_covers hcovers).symm.trans hplen)
          split at hsize
          · omega
          · omega
      · rw [hwalk, if_neg hlong]

/-- The filesystems whose vnodes are the mount they belong to and the names
    looked up to reach them. -/
def spelled_out : Mounted (Nat × List (List UInt8)) where
  root m := (m, [])
  is_dir _ := true
  has_lookup _ := true
  lookup v c := some (v.1, v.2 ++ [c])

theorem descend_spelled_out (m : Nat) (seen cs : List (List UInt8)) :
    descend spelled_out (m, seen) cs = some (m, seen ++ cs) := by
  induction cs generalizing seen with
  | nil => simp [descend]
  | cons c cs ih => simpa [descend, spelled_out] using ih (seen ++ [c])

/-- The mount points that cover one text are those that cover the other, or
    neither text can be searched for. -/
def SameMounts (mounts : List mountpoint_t) (p p' : List UInt8) : Prop :=
  Nowhere mounts p ∧ Nowhere mounts p' ∨ ∀ mp ∈ mounts, Covers mp.text p ↔ Covers mp.text p'

theorem covers_of_le {mp mp' : mountpoint_t} (h : Covers mp.text p) (h' : Covers mp'.text p)
    (hle : mp'.text = [SEPARATOR] ∨ mp'.text.length ≤ mp.text.length) (hp' : Covers mp.text p') : Covers mp'.text p' := by
  rcases h' with hroot | ⟨hstarts, hsep⟩
  · exact .inl hroot
  have habs := mp'.absolute
  by_cases hroot' : mp'.text = [SEPARATOR]
  · exact .inl hroot'
  have hlen := hle.resolve_left hroot'
  rcases h with hroot | ⟨hstarts', -⟩
  · -- only the root mount point has one byte
    obtain ⟨rest, hrest⟩ := head?_eq_some_iff.mp habs
    rw [hroot, hrest, length_cons, length_singleton] at hlen
    rw [hrest, eq_nil_of_length_eq_zero (by omega : rest.length = 0)] at hroot'
    exact absurd rfl hroot'
  obtain ⟨more, hmore⟩ := prefix_of_prefix_length_le hstarts hstarts' hlen
  cases more with
  | nil =>
    rw [append_nil] at hmore
    rwa [hmore]
  | cons b more =>
    obtain ⟨rest, rfl⟩ := hstarts'
    rw [← hmore, append_assoc, drop_left] at hsep
    have hb : b = SEPARATOR := by simpa using hsep
    rcases hp' with hroot | ⟨⟨rest', rfl⟩, -⟩
    · rw [← hmore] at hroot
      obtain ⟨first, hfirst⟩ := head?_eq_some_iff.mp habs
      rw [hfirst] at hroot
      simp at hroot
    · rw [← hmore, append_assoc]
      exact .inr ⟨prefix_append _ _, .inr (by rw [drop_left, hb]; rfl)⟩

theorem mount_for_congr (h : ∀ mp ∈ mounts, Covers mp.text p ↔ Covers mp.text p') : mount_for mounts p = mount_for mounts p' := by
  have hlen : ∀ e ∈ mounts.zipIdx, mount_len e.1.text p = mount_len e.1.text p' := by
    rintro ⟨mp, i⟩ hmem
    have hiff := h mp (mem_of_getElem? (mk_mem_zipIdx_iff_getElem?.mp hmem))
    by_cases hcovers : Covers mp.text p
    · rw [mount_len_of_covers hcovers, mount_len_of_covers (hiff.mp hcovers)]
    · rw [mount_len_eq_none_iff.mpr hcovers, mount_len_eq_none_iff.mpr fun h' => hcovers (hiff.mpr h')]
  refine foldl_ext _ _ _ fun best e he => ?_
  rw [better, better, hlen e he]

section Same

variable (habs : p.head? = some SEPARATOR) (hlen : p.length ≤ VFS_PATH_MAX)
variable (habs' : p'.head? = some SEPARATOR) (hlen' : p'.length ≤ VFS_PATH_MAX)

include habs hlen

/-- A path under no mount resolves to nothing. -/
theorem resolve_of_nowhere (h : Nowhere mounts p) {V : Type} (fs : Mounted V) : resolve fs mounts p = none := by
  obtain ⟨-, hr⟩ | ⟨hyes, -⟩ := resolve_eq mounts habs hlen
  · exact hr V fs
  · exact absurd h hyes

theorem exists_of_not_nowhere (h : ¬ Nowhere mounts p) : ∃ v, resolve spelled_out mounts p = some v := by
  obtain ⟨hno, -⟩ | ⟨-, m, _, rest, -, -, -, -, -, hr⟩ := resolve_eq mounts habs hlen
  · exact absurd hno h
  · exact ⟨_, (hr _ spelled_out).trans (descend_spelled_out m [] rest)⟩

include habs' hlen'

/-- Paths with the same names under the same mounts resolve alike. -/
theorem resolve_eq_of_same (hnames : names p' = names p) (h : SameMounts mounts p p') {V : Type} (fs : Mounted V) :
    resolve fs mounts p' = resolve fs mounts p := by
  obtain ⟨hno, hr⟩ | ⟨hyes, m, mp, rest, hm, hcovers, -, hn, ⟨plen, hfor⟩, hr⟩ := resolve_eq mounts habs hlen <;>
  obtain ⟨hno', hr'⟩ | ⟨hyes', m', mp', rest', hm', hcovers', -, hn', ⟨plen', hfor'⟩, hr'⟩ := resolve_eq mounts habs' hlen'
  · rw [hr, hr']
  · rcases h with ⟨-, h⟩ | h
    · exact absurd h hyes'
    · rcases hno with hlong | hno
      · refine absurd (.inl ?_) hyes'
        rwa [Overlong, hnames]
      · exact absurd ((h mp' (mem_of_getElem? hm')).mpr hcovers') (hno mp' (mem_of_getElem? hm'))
  · rcases h with ⟨h, -⟩ | h
    · exact absurd h hyes
    · rcases hno' with hlong | hno'
      · refine absurd (.inl ?_) hyes
        rwa [Overlong, ← hnames]
      · exact absurd ((h mp (mem_of_getElem? hm)).mp hcovers) (hno' mp (mem_of_getElem? hm))
  · have hsame : m' = m := by
      rcases h with ⟨h, -⟩ | h
      · exact absurd h hyes
      · rw [mount_for_congr h, hfor'] at hfor
        exact (Prod.mk.inj (Option.some.inj hfor)).1
    subst hsame
    cases hm.symm.trans hm'
    -- the mount point accounts for the same names of both texts
    rw [hnames, hn] at hn'
    rw [hr, hr', append_cancel_left hn']

/-- The file system that spells paths out tells mounts apart. -/
theorem same_of_resolve_eq (h : resolve spelled_out mounts p' = resolve spelled_out mounts p) : SameMounts mounts p p' := by
  obtain ⟨hno, hr⟩ | ⟨-, m, mp, rest, hm, hcovers, hmax, -, -, hr⟩ := resolve_eq mounts habs hlen <;>
  obtain ⟨hno', hr'⟩ | ⟨-, m', mp', rest', hm', hcovers', hmax', -, -, hr'⟩ := resolve_eq mounts habs' hlen'
  · exact .inl ⟨hno, hno'⟩
  · rw [hr, hr'] at h
    cases h.symm.trans (descend_spelled_out m' [] rest')
  · rw [hr, hr'] at h
    cases h.trans (descend_spelled_out m [] rest)
  · rw [hr, hr'] at h
    have hpair := (descend_spelled_out m' [] rest').symm.trans (h.trans (descend_spelled_out m [] rest))
    cases hpair
    cases hm.symm.trans hm'
    exact .inr fun mp' hmp' => ⟨fun hp => covers_of_le hcovers hp (hmax mp' hmp' hp) hcovers', fun hp =>
      covers_of_le hcovers' hp (hmax' mp' hmp' hp) hcovers⟩

end Same

end Selection

section Parent

variable {mounts : List mountpoint_t} {p p' : List UInt8}

/-- A path has no final component that could be created. -/
def Leafless (path : List UInt8) : Prop := leaf path = [] ∨ VFS_NAME_MAX < (leaf path).length

/-- Both texts have no final component; or they have the same one, and the same
    mount points cover what stands before it; or neither directory can be searched
    for. -/
def SameParent (mounts : List mountpoint_t) (p p' : List UInt8) : Prop :=
  (Leafless p ↔ Leafless p') ∧ (¬ Leafless p → Nowhere mounts (dir p) ∧ Nowhere mounts (dir p') ∨
    leaf p = leaf p' ∧ SameMounts mounts (dir p) (dir p'))

/-- A path is its directory and its leaf. -/
theorem dir_spec (habs : p.head? = some SEPARATOR) :
    names p = names (dir p) ++ names (leaf p) ∧ (dir p).head? = some SEPARATOR ∧ (dir p).length ≤ p.length := by
  have hmem : SEPARATOR ∈ p := mem_of_mem_head? habs
  have hsplit := takeWhile_append_dropWhile (p := (· != SEPARATOR)) (l := p.reverse)
  obtain ⟨front, hfront⟩ : ∃ front, p.reverse.dropWhile (· != SEPARATOR) = SEPARATOR :: front := by
    cases hdrop : p.reverse.dropWhile (· != SEPARATOR) with
    | nil =>
      have hall := dropWhile_eq_nil_iff.mp hdrop SEPARATOR (mem_reverse.mpr hmem)
      simp at hall
    | cons b front =>
      have hhead := head?_dropWhile_not (· != SEPARATOR) p.reverse
      rw [hdrop] at hhead
      exact ⟨front, by simpa using hhead⟩
  have hp : p = front.reverse ++ SEPARATOR :: leaf p := by
    rw [hfront] at hsplit
    have hrev := congrArg reverse hsplit
    rw [reverse_append, reverse_cons, reverse_reverse, append_assoc] at hrev
    exact hrev.symm
  have htake : p.take (p.length - (leaf p).length - 1) = front.reverse := by
    have hlen : p.length - (leaf p).length - 1 = front.reverse.length := by
      have hcount := congrArg length hp
      rw [length_append, length_cons] at hcount
      omega
    rw [hlen]
    conv => lhs; rw [hp]
    exact take_left
  have hpos := length_pos_of_mem hmem
  unfold dir
  simp only [htake]
  split
  · next hnil =>
    rw [hnil, nil_append] at hp
    have hnames := names_cons_sep (leaf p)
    rw [← hp] at hnames
    exact ⟨hnames, rfl, hpos⟩
  · next hne =>
    have hnames := names_append_sep front.reverse (leaf p)
    have hcount := congrArg length hp
    rw [← hp] at hnames
    rw [length_append, length_cons] at hcount
    refine ⟨hnames, ?_, by omega⟩
    rw [hp, head?_append_of_ne_nil _ hne] at habs
    exact habs

theorem resolve_parent_eq {V : Type} (fs : Mounted V) (habs : p.head? = some SEPARATOR) (hlen : p.length ≤ VFS_PATH_MAX) :
    Leafless p ∧ resolve_parent fs mounts p = .error VFS_EINVAL ∨
      ¬ Leafless p ∧ resolve_parent fs mounts p =
        match resolve fs mounts (dir p) with
        | none => .error VFS_ENOENT
        | some v => if fs.is_dir v then .ok (v, leaf p) else .error VFS_ENOTDIR := by
  unfold resolve_parent Leafless
  rw [if_neg (not_not_intro habs), if_neg (Nat.not_lt.mpr hlen)]
  by_cases hnil : leaf p = []
  · exact .inl ⟨.inl hnil, if_pos hnil⟩
  · rw [if_neg hnil]
    by_cases hlong : VFS_NAME_MAX < (leaf p).length
    · exact .inl ⟨.inr hlong, if_pos hlong⟩
    · exact .inr ⟨fun h => h.elim hnil hlong, if_neg hlong⟩

/-- Every directory of `spelled_out` can be searched. -/
theorem parent_spelled_out (habs : p.head? = some SEPARATOR) (hlen : p.length ≤ VFS_PATH_MAX) (hleaf : ¬ Leafless p) :
    Nowhere mounts (dir p) ∧ resolve_parent spelled_out mounts p = .error VFS_ENOENT ∨
      ∃ v, resolve spelled_out mounts (dir p) = some v ∧ resolve_parent spelled_out mounts p = .ok (v, leaf p) := by
  obtain ⟨-, hdirabs, hdirlen⟩ := dir_spec habs
  obtain ⟨hno, -⟩ | ⟨-, hr⟩ := @resolve_parent_eq mounts p _ spelled_out habs hlen
  · exact absurd hno hleaf
  · by_cases hnowhere : Nowhere mounts (dir p)
    · rw [hr, resolve_of_nowhere hdirabs (hdirlen.trans hlen) hnowhere]
      exact .inl ⟨hnowhere, rfl⟩
    · obtain ⟨v, hv⟩ := exists_of_not_nowhere hdirabs (hdirlen.trans hlen) hnowhere
      rw [hr, hv]
      exact .inr ⟨v, rfl, rfl⟩

theorem same_parent_of_eq (habs : p.head? = some SEPARATOR) (habs' : p'.head? = some SEPARATOR)
    (hlen : p.length ≤ VFS_PATH_MAX) (hlen' : p'.length ≤ VFS_PATH_MAX)
    (h : resolve_parent spelled_out mounts p' = resolve_parent spelled_out mounts p) : SameParent mounts p p' := by
  obtain ⟨-, hdirabs, hdirlen⟩ := dir_spec habs
  obtain ⟨-, hdirabs', hdirlen'⟩ := dir_spec habs'
  have hleafless {q : List UInt8} (hq : q.head? = some SEPARATOR) (hqlen : q.length ≤ VFS_PATH_MAX) :
      Leafless q ↔ resolve_parent spelled_out mounts q = .error VFS_EINVAL := by
    constructor
    · intro hleaf
      obtain ⟨-, hr⟩ | ⟨hyes, -⟩ := @resolve_parent_eq mounts q _ spelled_out hq hqlen
      · exact hr
      · exact absurd hleaf hyes
    · intro hr
      by_contra hleaf
      obtain ⟨-, hr'⟩ | ⟨v, -, hr'⟩ := @parent_spelled_out mounts q hq hqlen hleaf
      · cases hr.symm.trans hr'
      · cases hr.symm.trans hr'
  refine ⟨by rw [hleafless habs hlen, hleafless habs' hlen', h], fun hleaf => ?_⟩
  have hleaf' : ¬ Leafless p' := by rwa [hleafless habs' hlen', h, ← hleafless habs hlen]
  obtain ⟨hno, hr⟩ | ⟨v, hv, hr⟩ := @parent_spelled_out mounts p habs hlen hleaf <;>
  obtain ⟨hno', hr'⟩ | ⟨v', hv', hr'⟩ := @parent_spelled_out mounts p' habs' hlen' hleaf' <;>
  rw [hr, hr'] at h
  · exact .inl ⟨hno, hno'⟩
  · cases h
  · cases h
  · obtain ⟨rfl, hsame⟩ := Prod.mk.inj (Except.ok.inj h)
    exact .inr ⟨hsame.symm, same_of_resolve_eq hdirabs (hdirlen.trans hlen) hdirabs' (hdirlen'.trans hlen')
      (hv'.trans hv.symm)⟩

/-- Such paths also have the same parent and the same leaf. -/
theorem parent_eq_of_same (hnames : names p' = names p) (habs : p.head? = some SEPARATOR)
    (habs' : p'.head? = some SEPARATOR) (hlen : p.length ≤ VFS_PATH_MAX) (hlen' : p'.length ≤ VFS_PATH_MAX)
    (h : SameParent mounts p p') {V : Type} (fs : Mounted V) : resolve_parent fs mounts p' = resolve_parent fs mounts p := by
  obtain ⟨hdir, hdirabs, hdirlen⟩ := dir_spec habs
  obtain ⟨hdir', hdirabs', hdirlen'⟩ := dir_spec habs'
  obtain ⟨hleafless, hparent⟩ := h
  obtain ⟨hno, hr⟩ | ⟨hyes, hr⟩ := @resolve_parent_eq mounts p _ fs habs hlen <;>
  obtain ⟨hno', hr'⟩ | ⟨hyes', hr'⟩ := @resolve_parent_eq mounts p' _ fs habs' hlen'
  · rw [hr, hr']
  · exact absurd (hleafless.mp hno) hyes'
  · exact absurd (hleafless.mpr hno') hyes
  · rw [hr, hr']
    rcases hparent hyes with ⟨hno, hno'⟩ | ⟨hleaf, hmounts⟩
    · rw [resolve_of_nowhere hdirabs (hdirlen.trans hlen) hno, resolve_of_nowhere hdirabs' (hdirlen'.trans hlen') hno']
    · rw [hdir, hdir', hleaf] at hnames
      rw [resolve_eq_of_same hdirabs (hdirlen.trans hlen) hdirabs' (hdirlen'.trans hlen') (append_cancel_right hnames)
        hmounts fs, hleaf]

end Parent

/-- Two spellings of a path name the same vnode, and the same place to create
    one, whatever is mounted, exactly if the same mount points are whole-component
    prefixes of their texts, and they end in the same component behind directories
    of which that is true. The mount is picked from the text of a path, before its
    separators and dots are skipped, and so is the component that is created. -/
theorem resolve_respelled_iff (mounts : List mountpoint_t) {p p' : List UInt8} (hspell : Respelled p p')
    (habs : p.head? = some SEPARATOR) (hlen : p'.length ≤ VFS_PATH_MAX) :
    (∀ (V : Type) (fs : Mounted V), resolve fs mounts p' = resolve fs mounts p ∧
      resolve_parent fs mounts p' = resolve_parent fs mounts p) ↔ SameMounts mounts p p' ∧ SameParent mounts p p' := by
  have habs' := hspell.absolute habs
  have hlen' := Nat.le_trans hspell.length_le hlen
  constructor
  · intro hall
    obtain ⟨hresolve, hparent⟩ := hall _ spelled_out
    exact ⟨same_of_resolve_eq habs hlen' habs' hlen hresolve, same_parent_of_eq habs habs' hlen' hlen hparent⟩
  · rintro ⟨hmounts, hparent⟩ V fs
    exact ⟨resolve_eq_of_same habs hlen' habs' hlen hspell.names_eq hmounts fs,
      parent_eq_of_same hspell.names_eq habs habs' hlen' hlen hparent fs⟩

/-- The text `/data/f`. -/
def data_f : List UInt8 := [0x2F, 0x64, 0x61, 0x74, 0x61, 0x2F, 0x66]

/-- A filesystem mounted on `/data` over the root. -/
def data_mounts : List mountpoint_t := [⟨data_f.take 5, rfl, by decide⟩, ⟨[SEPARATOR], rfl, by decide⟩]

theorem respelled_data_f : Respelled data_f (SEPARATOR :: data_f) :=
  .slash (a := []) (.refl data_f) (.inr (.inr rfl))

/-- A separator in the middle of `/data//f` changes nothing. -/
theorem resolve_respelled_inside :
    resolve spelled_out data_mounts (data_f.take 5 ++ SEPARATOR :: data_f.drop 5) =
        resolve spelled_out data_mounts data_f ∧
      resolve_parent spelled_out data_mounts (data_f.take 5 ++ SEPARATOR :: data_f.drop 5) =
        resolve_parent spelled_out data_mounts data_f := by
  have hspell : Respelled data_f (data_f.take 5 ++ SEPARATOR :: data_f.drop 5) :=
    .slash (a := data_f.take 5) (b := data_f.drop 5) (.refl data_f) (.inr (.inr rfl))
  have hcovers (q q' : List UInt8) (h : ∀ mp ∈ data_mounts, Covers mp.text q ∧ Covers mp.text q') : SameMounts data_mounts q q' :=
    .inr fun mp hmp => iff_of_true (h mp hmp).1 (h mp hmp).2
  have hleaf {q : List UInt8} (h : leaf q = [0x66]) : ¬ Leafless q := by
    rw [Leafless, h]
    decide
  refine (resolve_respelled_iff data_mounts hspell rfl (by decide)).mpr ⟨hcovers _ _ (by decide), ?_, fun _ => .inr ⟨rfl, ?_⟩⟩
    _ spelled_out
  · exact iff_of_false (hleaf rfl) (hleaf rfl)
  · exact hcovers _ _ (by decide)

/-- The path `//data/f` is looked up below the root mount, in the directory
    that the mount on `/data` hides. -/
theorem resolve_respelled_hidden :
    Respelled data_f (SEPARATOR :: data_f) ∧
      resolve spelled_out data_mounts data_f = some (0, [[0x66]]) ∧
      resolve spelled_out data_mounts (SEPARATOR :: data_f) = some (1, [[0x64, 0x61, 0x74, 0x61], [0x66]]) :=
  ⟨respelled_data_f, by decide, by decide⟩

end fable.vfs
