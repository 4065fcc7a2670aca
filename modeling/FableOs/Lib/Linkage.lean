import FableOs.Lib.Roster

namespace fable.Linkage

/-! Tables of named entries that refer to each other by name. A reference gives
the name and a number, and is good when the table has an entry of that name with
that number. A table is closed when all references of its entries are good. -/

open List

variable {A K N : Type} [DecidableEq K] [DecidableEq N] (name : A → K) (number : A → N) (refs : A → List (K × N))

/-- The entry's references are good in the table. -/
def Resolves (l : List A) (a : A) : Prop := ∀ r ∈ refs a, ∃ b ∈ l, name b = r.1 ∧ number b = r.2

def Closed (l : List A) : Prop := ∀ a ∈ l, Resolves name number refs l a

instance (l : List A) (a : A) : Decidable (Resolves name number refs l a) :=
  inferInstanceAs (Decidable (∀ r ∈ refs a, _))

/-- The entry refers to a name. -/
def Refers (a : A) (k : K) : Prop := ∃ r ∈ refs a, r.1 = k

variable {name number refs} {a b c : A} {k : K} {l done rest : List A}

omit [DecidableEq K] [DecidableEq N] in
theorem Resolves.mono {l'} (h : Resolves name number refs l a) (hkept : ∀ b ∈ l, Refers refs a (name b) → b ∈ l') :
    Resolves name number refs l' a := by
  intro r hr
  obtain ⟨b, hb, hname, hnumber⟩ := h r hr
  exact ⟨b, hkept b hb ⟨r, hr, hname.symm⟩, hname, hnumber⟩

omit [DecidableEq N] in
/-- An entry is put in: its own references have to be good in the new table, and
    the others' references to it have to fit it. -/
theorem Closed.put (h : Closed name number refs l) (hunique : Roster.Unique name l)
    (hself : Resolves name number refs (Roster.put name a l) a)
    (hcallers : ∀ b ∈ l, name b ≠ name a → ∀ r ∈ refs b, r.1 = name a → number a = r.2) :
    Closed name number refs (Roster.put name a l) := by
  intro b hb
  obtain rfl | ⟨hb, hne⟩ := hunique.mem_put.mp hb
  · exact hself
  · intro r hr
    by_cases hname : r.1 = name a
    · exact ⟨a, Roster.mem_put_self, hname.symm, hcallers b hb hne r hr hname⟩
    · obtain ⟨c, hc, hcname, hcnumber⟩ := h b hb r hr
      exact ⟨c, Roster.mem_put_of_ne hc fun heq => hname (hcname.symm.trans heq), hcname, hcnumber⟩

omit [DecidableEq N] in
/-- An entry nobody else refers to is taken out. -/
theorem Closed.remove (h : Closed name number refs l) (hunique : Roster.Unique name l)
    (hcallers : ∀ b ∈ l, name b ≠ k → ¬ Refers refs b k) : Closed name number refs (Roster.remove name k l) := by
  intro b hb
  obtain ⟨hb, hne⟩ := hunique.mem_remove.mp hb
  refine (h b hb).mono fun c hc hrefers => Roster.mem_remove_of_ne hc fun hname => hcallers b hb hne ?_
  rwa [hname] at hrefers

section Sweep

variable (name number refs)

/-- One pass over a table that drops the entries with a bad reference, each looked
    at in the table as it stands by then: `done` has been kept, `rest` is still
    to come. -/
def sweep : List A → List A → List A
  | done, [] => done
  | done, c :: rest => if Resolves name number refs (done ++ c :: rest) c then sweep (done ++ [c]) rest else sweep done rest

/-- The entry belongs to a part of the table that is closed: to its greatest
    closed part, as the union of two closed parts is one. -/
def Lasting (l : List A) (a : A) : Prop := ∃ t, t ⊆ l ∧ Closed name number refs t ∧ a ∈ t

/-- Every entry that has to go shows it in its turn: it has a reference that is
    bad in the whole table, or refers to an entry before it that has to go. -/
def Foreseen (l : List A) : Prop := ∀ front a rear, l = front ++ a :: rear → ¬ Lasting name number refs l a →
  (∃ r ∈ refs a, ∀ b ∈ l, ¬ (name b = r.1 ∧ number b = r.2)) ∨
    ∃ b ∈ front, ¬ Lasting name number refs l b ∧ Refers refs a (name b)

variable {name number refs}

omit [DecidableEq K] [DecidableEq N] in
theorem Lasting.mem (h : Lasting name number refs l a) : a ∈ l := by
  obtain ⟨t, hsub, -, ha⟩ := h
  exact hsub ha

omit [DecidableEq K] [DecidableEq N] in
/-- The references of a lasting entry are good wherever the lasting entries are. -/
theorem Lasting.resolves {l'} (h : Lasting name number refs l a) (hl' : ∀ b, Lasting name number refs l b → b ∈ l') :
    Resolves name number refs l' a := by
  obtain ⟨t, hsub, hclosed, ha⟩ := h
  exact (hclosed a ha).mono fun b hb _ => hl' b ⟨t, hsub, hclosed, hb⟩

theorem subset_sweep : done ⊆ sweep name number refs done rest := by
  induction rest generalizing done with
  | nil => exact Subset.refl done
  | cons c rest ih =>
    rw [sweep]
    split
    · exact Subset.trans (subset_append_left done [c]) ih
    · exact ih

theorem sweep_sublist : (sweep name number refs done rest).Sublist (done ++ rest) := by
  induction rest generalizing done with
  | nil => rw [sweep, append_nil]
  | cons c rest ih =>
    rw [sweep]
    split
    · rw [append_cons done c rest]
      exact ih
    · exact ih.trans (List.Sublist.append_left (sublist_cons_self c rest) done)

/-- An entry is kept if its references are good among what cannot have gone by
    then: the lasting entries before it, and all from it on. -/
theorem mem_sweep {front rear} (hrest : rest = front ++ a :: rear)
    (hlasting : ∀ b, Lasting name number refs l b → b ∈ done ++ rest)
    (hgood : ∀ kept, (∀ b ∈ done ++ front, Lasting name number refs l b → b ∈ kept) →
      Resolves name number refs (kept ++ a :: rear) a) : a ∈ sweep name number refs done rest := by
  induction front generalizing done rest with
  | nil =>
    subst hrest
    have hkeep : Resolves name number refs (done ++ a :: rear) a := by
      refine hgood done fun b hb _ => ?_
      rwa [append_nil] at hb
    rw [nil_append, sweep, if_pos hkeep]
    exact subset_sweep (mem_append_right done (mem_singleton_self a))
  | cons c front ih =>
    subst hrest
    rw [cons_append, sweep]
    split
    · refine ih rfl (fun b hb => ?_) fun kept hkept => hgood kept ?_
      · rw [append_assoc]
        exact hlasting b hb
      · intro b hb
        refine hkept b ?_
        rwa [append_assoc]
    · rename_i hbad
      -- a lasting entry would have had good references here
      have hnot : ¬ Lasting name number refs l c := fun hc => hbad (hc.resolves hlasting)
      have hne {b} (hb : Lasting name number refs l b) : b ≠ c := fun heq => hnot (heq ▸ hb)
      refine ih rfl (fun b hb => ?_) fun kept hkept => hgood kept ?_
      · obtain h | h := mem_append.mp (hlasting b hb)
        · exact mem_append_left _ h
        · exact mem_append_right _ ((mem_cons.mp h).resolve_left (hne hb))
      · intro b hb hblasting
        refine hkept b ?_ hblasting
        obtain h | h := mem_append.mp hb
        · exact mem_append_left _ h
        · exact mem_append_right _ ((mem_cons.mp h).resolve_left (hne hblasting))

/-- Where every entry that has to go shows it, the pass keeps just the lasting ones. -/
theorem lasting_of_mem_sweep {front} (hforeseen : Foreseen name number refs l) (hunique : Roster.Unique name l)
    (hl : l = front ++ rest) (hdone : ∀ b ∈ done, b ∈ front ∧ Lasting name number refs l b)
    (ha : a ∈ sweep name number refs done rest) : Lasting name number refs l a := by
  induction rest generalizing done front with
  | nil => exact (hdone a ha).2
  | cons c rest ih =>
    have hl' : l = (front ++ [c]) ++ rest := by rw [hl, append_assoc]; rfl
    rw [sweep] at ha
    split at ha
    · rename_i hgood
      have hlasting : Lasting name number refs l c := by
        by_contra hnot
        obtain ⟨r, hr, hbad⟩ | ⟨b, hb, hbnot, r, hr, hname⟩ := hforeseen front c rest hl hnot
        · obtain ⟨b, hb, hgood⟩ := hgood r hr
          have hmem : b ∈ l := by
            rw [hl]
            exact (mem_append.mp hb).elim (fun h => mem_append_left _ (hdone b h).1) (mem_append_right _)
          exact hbad b hmem hgood
        · -- the entry of that name has gone, and no other has it
          obtain ⟨b', hb', hname', -⟩ := hgood r hr
          have hsame : ∀ x ∈ l, name x = r.1 → x = b := fun x hx hxname =>
            hunique.eq_of_name hx (hl ▸ mem_append_left _ hb) (hxname.trans hname)
          obtain h | h := mem_append.mp hb'
          · exact hbnot (hsame b' (hl ▸ mem_append_left _ (hdone b' h).1) hname' ▸ (hdone b' h).2)
          · obtain rfl := hsame b' (hl ▸ mem_append_right _ h) hname'
            have hnodup : (front.map name ++ (c :: rest).map name).Nodup := by
              rw [← map_append, ← hl]
              exact hunique
            exact (nodup_append.mp hnodup).2.2 _ (mem_map_of_mem hb) _ (mem_map_of_mem h) rfl
      refine ih hl' (fun b hb => ?_) ha
      obtain h | h := mem_append.mp hb
      · exact ⟨mem_append_left _ (hdone b h).1, (hdone b h).2⟩
      · rw [mem_singleton.mp h]
        exact ⟨mem_append_right _ (mem_singleton_self c), hlasting⟩
    · exact ih hl' (fun b hb => ⟨mem_append_left _ (hdone b hb).1, (hdone b hb).2⟩) ha

/-- One pass leaves a closed table exactly when every entry that has to go shows
    it in its turn. -/
theorem closed_sweep_iff (hunique : Roster.Unique name l) :
    Closed name number refs (sweep name number refs [] l) ↔ Foreseen name number refs l := by
  constructor
  · intro hclosed front a rear hl hnot
    by_contra hno
    push Not at hno
    obtain ⟨hgood, hfront⟩ := hno
    refine hnot ⟨_, (@sweep_sublist A K N _ _ name number refs [] l).subset, hclosed, ?_⟩
    refine mem_sweep hl (fun b hb => hb.mem) fun kept hkept r hr => ?_
    obtain ⟨b, hb, hname, hnumber⟩ := hgood r hr
    refine ⟨b, ?_, hname, hnumber⟩
    rw [hl] at hb
    obtain h | h := mem_append.mp hb
    · refine mem_append_left _ (hkept b h ?_)
      by_contra hbnot
      exact hfront b h hbnot ⟨r, hr, hname.symm⟩
    · exact mem_append_right _ h
  · intro hforeseen a ha
    have hlasting {b} : b ∈ sweep name number refs [] l → Lasting name number refs l b :=
      lasting_of_mem_sweep hforeseen hunique (nil_append l).symm (forall_mem_nil _)
    refine (hlasting ha).resolves fun b hb => ?_
    obtain ⟨front, rear, hl⟩ := append_of_mem hb.mem
    refine mem_sweep hl (fun b hb => hb.mem) fun kept hkept => hb.resolves fun c hc => ?_
    have hmem := hc.mem
    rw [hl] at hmem
    exact (mem_append.mp hmem).elim (fun h => mem_append_left _ (hkept c h hc)) (mem_append_right _)

end Sweep

end fable.Linkage
