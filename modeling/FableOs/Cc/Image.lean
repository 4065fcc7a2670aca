import FableOs.Cc.Labels
import FableOs.Cc.Layout
import FableOs.Lib.CArray

namespace fable.cc

/-! The image of a unit, loaded somewhere, is its items with their jumps filled
in. -/

open List Option

/-- An image made from items, at an address. -/
def loaded (base : BitVec 64) (items : List item_t) (image : List UInt8) : code_t where
  base := base
  place l := label_off l 0 items
  holds a := (a - base).toNat < image.length
  bytes a := image.getD (a - base).toNat 0

section Labels

variable {l off : Nat} {T T' : List item_t}

theorem label_off_eq_none_iff : label_off l off T = none ↔ l ∉ placed T := by
  induction T generalizing off with
  | nil => simp [label_off, placed]
  | cons item T ih =>
    have hplaced : placed (item :: T) = placed [item] ++ placed T := placed_append [item] T
    rw [label_off, hplaced, mem_append, not_or]
    cases hrest : label_off l (off + item.size) T with
    | some t =>
      have hmem : ¬ l ∉ placed T := fun hnot => by simp [ih.mpr hnot] at hrest
      simp [hmem]
    | none =>
      have hmem := ih.mp hrest
      cases item <;> simp [placed] at hmem ⊢ <;> grind

/-- A label is placed where the code in front of it ends. -/
theorem label_off_placed (h : l ∉ placed T') :
    label_off l off (T ++ .label l :: T') = some (off + code_size T) := by
  induction T generalizing off with
  | nil =>
    rw [nil_append, label_off, label_off_eq_none_iff.mpr h]
    simp [code_size]
  | cons item T ih =>
    rw [cons_append, label_off, ih, code_size_cons, Nat.add_assoc]

/-- And only there. -/
theorem label_off_split {t : Nat} (h : label_off l off T = some t) :
    ∃ before after, T = before ++ .label l :: after ∧ t = off + code_size before := by
  induction T generalizing off with
  | nil => cases h
  | cons item T ih =>
    rw [label_off] at h
    split at h
    · next hrest =>
      cases h
      obtain ⟨before, after, rfl, rfl⟩ := ih hrest
      exact ⟨item :: before, after, rfl, by rw [code_size_cons, Nat.add_assoc]⟩
    · split at h
      · next hitem =>
        cases h
        exact ⟨[], T, by rw [hitem, nil_append], rfl⟩
      · cases h

theorem label_off_le {t : Nat} (h : label_off l off T = some t) : t ≤ off + code_size T := by
  obtain ⟨before, after, rfl, rfl⟩ := label_off_split h
  rw [code_size_append]
  omega

end Labels

section Resolve

variable {place : Nat → Option Nat} {base : BitVec 64} {items before T : List item_t} {image : List UInt8} {off : Nat}

theorem length_resolve_items (h : resolve_items place off T = some image) : image.length = code_size T := by
  induction T generalizing off image with
  | nil =>
    cases h
    rfl
  | cons item T ih =>
    rw [code_size_cons]
    cases item with
    | ins bs =>
      obtain ⟨rest, hrest, rfl⟩ := map_eq_some_iff.mp h
      rw [length_append, ih hrest, item_t.size]
    | jump op l =>
      simp only [resolve_items] at h
      split at h
      · cases h
      · obtain ⟨rest, hrest, rfl⟩ := map_eq_some_iff.mp h
        simp [ih hrest, item_t.size, Nat.add_assoc]
    | label l =>
      rw [ih h, item_t.size, Nat.zero_add]

theorem loaded_bytes {front bs back} (himage : image = front ++ (bs ++ back)) (hsize : image.length < 2 ^ 31) :
    (loaded base items image).BytesAt front.length bs := by
  intro i hi
  have hlt : front.length + i < image.length := by
    rw [himage]
    simp only [length_append]
    omega
  have hoff : ((loaded base items image).addr (front.length + i) - base).toNat = front.length + i := by
    change (base + BitVec.ofNat 64 (front.length + i) - base).toNat = _
    rw [BitVec.add_comm, BitVec.add_sub_cancel, BitVec.toNat_ofNat, Nat.mod_eq_of_lt (by omega)]
  refine ⟨?_, ?_⟩
  · change ((loaded base items image).addr (front.length + i) - base).toNat < _
    rwa [hoff]
  · change image.getD ((loaded base items image).addr (front.length + i) - base).toNat 0 = _
    rw [hoff, himage]
    simp [getD_eq_getElem?_getD, getElem?_append_right, getElem?_append_left hi, hi]

/-- The rest of the items stands behind what is in front of it. -/
theorem laid_from {front back} (hitems : items = before ++ T) (hnodup : (placed items).Nodup)
    (himage : image = front ++ back) (hfront : front.length = code_size before) (hsize : image.length < 2 ^ 31)
    (hlength : image.length = code_size items)
    (hback : resolve_items (fun l => label_off l 0 items) (code_size before) T = some back) :
    (loaded base items image).Laid (code_size before) T := by
  induction T generalizing before front back with
  | nil => trivial
  | cons item T ih =>
    have hnext : items = (before ++ [item]) ++ T := by rw [hitems, append_assoc, singleton_append]
    have hsum : code_size (before ++ [item]) = code_size before + item.size := by simp [code_size]
    cases item with
    | ins bs =>
      obtain ⟨rest, hrest, rfl⟩ := map_eq_some_iff.mp hback
      have hlaid := ih hnext (himage.trans (append_assoc front bs rest).symm)
        (by rw [length_append, hfront, hsum, item_t.size]) (by rwa [hsum])
      rw [hsum] at hlaid
      exact ⟨hfront ▸ loaded_bytes himage hsize, hlaid⟩
    | jump op l =>
      simp only [resolve_items] at hback
      split at hback
      · cases hback
      · next target htarget =>
        obtain ⟨rest, hrest, rfl⟩ := map_eq_some_iff.mp hback
        have hlaid := ih hnext (himage.trans (append_assoc front _ rest).symm)
          (by rw [hsum]; simp [hfront, item_t.size]) (by rwa [hsum])
        rw [hsum] at hlaid
        refine ⟨⟨target, htarget, ?_, ?_, ?_⟩, hlaid⟩
        · have := label_off_le htarget
          omega
        · have hle : code_size items = code_size before + (op.length + 4) + code_size T := by
            rw [hitems, code_size_append, code_size_cons, item_t.size]
            omega
          omega
        · rw [← hfront] at himage ⊢
          exact loaded_bytes himage hsize
    | label l =>
      have hlaid := ih hnext himage (by rw [hfront, hsum]; rfl) (by rwa [hsum])
      rw [hsum] at hlaid
      refine ⟨?_, hlaid⟩
      have hnot : l ∉ placed T := by
        rw [hitems, placed_append] at hnodup
        exact (nodup_cons.mp (List.Nodup.of_append_right hnodup)).1
      have hplace : label_off l 0 (before ++ .label l :: T) = some (0 + code_size before) := label_off_placed hnot
      rwa [← hitems, Nat.zero_add] at hplace

end Resolve

/-- The items of a unit that is taken are laid in its image. -/
theorem cc_codegen_laid {env funcs} {cap : Nat} {image} (hids : (unit_case_ids funcs).Nodup) (hcap : cap < 2 ^ 31)
    (h : cc_codegen env funcs cap = .ok image) :
    ∃ items E', (gen_unit env funcs).Gives emit_start () items E' ∧ image.length = code_size items ∧
      ∀ base, (loaded base items image).Laid 0 items := by
  obtain ⟨⟨u, items, E'⟩, hgen, hrest⟩ := except_bind_eq_ok_iff.mp h
  dsimp only at hrest
  split at hrest
  · cases hrest
  next hfits =>
  split at hrest
  · cases hrest
  next image' hresolve =>
  cases hrest
  have hlength := length_resolve_items hresolve
  have hsmall : image.length < 2 ^ 31 := by omega
  have hstart : image = [] ++ image := rfl
  exact ⟨items, E', hgen, hlength, fun base => laid_from (nil_append items).symm
    (gen_unit_placed_nodup hids hgen) hstart rfl hsmall hlength hresolve⟩

end fable.cc
