import FableOs.Heap.Arith
import FableOs.Heap.Layout

namespace fable.heap

/-- `i` is not a byte of the header at `b`. -/
abbrev Outside (i b : Nat) : Prop := i < b ∨ b + HDR ≤ i

/-- Set the back link of the block at `next`, where there is one. -/
def put_back (m : Mem) (next v : Nat) : Mem := if next ≠ 0 then put_prev m next v else m

section PutBack

variable {m : Mem} {next v x i : Nat}

theorem put_back_of_outside (h : next = 0 ∨ Outside i next) : put_back m next v i = m i := by
  rw [put_back]
  split
  · rename_i hne
    exact put_field_of_outside (by decide) (h.resolve_left hne)
  · rfl

theorem header_put_back_of_apart (h : next = 0 ∨ x + HDR ≤ next ∨ next + HDR ≤ x) :
    header (put_back m next v) x = header m x :=
  header_congr fun i hlo hhi => put_back_of_outside (by omega)

theorem header_put_back (hne : next ≠ 0) (hv : v < 2 ^ 64) :
    header (put_back m next v) next = { header m next with prev := v } := by
  rw [put_back, if_pos hne, header_put_prev hv]

end PutBack

/-- The headers that `insert_after` writes: the old block, the new one, and
    the back link of the block after them. -/
theorem insert_after_spec {s} {b rest size keep next : Nat} (hnext : (header s.mem b).next = next)
    (hb : b + HDR ≤ rest) (hrest : rest < 2 ^ 64) (hsize : size < 2 ^ 64) (hkeep : keep < 2 ^ 64)
    (hbehind : next = 0 ∨ rest + HDR ≤ next) (hbound : next < 2 ^ 64) :
    header (insert_after s b rest size keep).mem b = { header s.mem b with size := keep, next := rest } ∧
      header (insert_after s b rest size keep).mem rest = ⟨BLOCK_MAGIC, 1, size, b, next⟩ ∧
      (next ≠ 0 → header (insert_after s b rest size keep).mem next = { header s.mem next with prev := rest }) ∧
      ∀ i, Outside i b → Outside i rest → (next = 0 ∨ Outside i next) →
        (insert_after s b rest size keep).mem i = s.mem i := by
  have hH : HDR = 32 := rfl
  have hM : BLOCK_MAGIC < 2 ^ 32 := by decide
  have hmem : (insert_after s b rest size keep).mem = put_size (put_next (put_back (put_next (put_prev (put_size (put_free
      (put_magic s.mem rest BLOCK_MAGIC) rest 1) rest size) rest b) rest next) next rest) b rest) b keep := by
    simp (disch := omega) only [insert_after, put_back, header_put_field_of_apart, header_put_next, hnext]
  rw [hmem]
  refine ⟨?_, ?_, fun hne => ?_, ?_⟩
  · simp (disch := omega) only [header_put_size, header_put_next, header_put_field_of_apart, header_put_back_of_apart]
  · simp (disch := omega) only [header_put_size, header_put_next, header_put_prev, header_put_free, header_put_magic,
      header_put_field_of_apart, header_put_back_of_apart]
  · simp (disch := omega) only [header_put_back, header_put_field_of_apart]
  · intro i hib hirest hinext
    simp (disch := omega) only [put_field_of_outside, put_back_of_outside]

/-- The headers that `absorb` writes: the grown block, the dead one, and the
    back link of the block after them. -/
theorem absorb_spec {s} {b n next : Nat} (hnext : (header s.mem n).next = next) (hb : b + HDR ≤ n)
    (hbehind : next = 0 ∨ n + HDR ≤ next) (hbound : next < 2 ^ 64) (hb64 : b < 2 ^ 64) :
    header (absorb s b n).mem b =
        { header s.mem b with size := wadd (header s.mem b).size (HDR + (header s.mem n).size), next := next } ∧
      (next ≠ 0 → header (absorb s b n).mem next = { header s.mem next with prev := b }) ∧
      ∀ i, Outside i b → Outside i n → (next = 0 ∨ Outside i next) → (absorb s b n).mem i = s.mem i := by
  have hH : HDR = 32 := rfl
  have hsize : wadd (header s.mem b).size (HDR + (header s.mem n).size) < 2 ^ 64 := Nat.mod_lt _ (by decide)
  have hmem : (absorb s b n).mem = put_magic (put_back (put_next (put_size s.mem b
      (wadd (header s.mem b).size (HDR + (header s.mem n).size))) b next) next b) n 0 := by
    simp (disch := omega) only [absorb, put_back, header_put_field_of_apart, hnext]
  rw [hmem]
  refine ⟨?_, fun hne => ?_, ?_⟩
  · simp (disch := omega) only [header_put_size, header_put_next, header_put_field_of_apart, header_put_back_of_apart]
  · simp (disch := omega) only [header_put_back, header_put_field_of_apart]
  · intro i hib hin hinext
    simp (disch := omega) only [put_field_of_outside, put_back_of_outside]

section Rows

variable {base : Nat} {pre post : List cell_t} {c d : cell_t} {s s' : heap_t}

theorem link_over (e : Nat) (post : List cell_t) :
    link (e + span width post) e = if post = [] then 0 else e := by
  unfold link
  cases post with
  | nil => simp
  | cons c rest =>
    have hpos : e ≠ e + span width (c :: rest) := by
      simp only [span_cons, width, HDR]
      omega
    rw [if_neg hpos, if_neg (List.cons_ne_nil _ _)]

/-- What is known of a cell in the middle of the row. -/
structure Placed (base : Nat) (pre post : List cell_t) (c : cell_t) (s : heap_t) (b : Nat) : Prop where
  head : header s.mem b = ⟨BLOCK_MAGIC, c.free.toNat, c.size, lastStart width 0 base pre,
    if post = [] then 0 else b + width c⟩
  end_le : b + width c + span width post ≤ 2 ^ 60
  aligned : b % ALIGN = 0
  base_le : base ≤ b
  base_pos : 0 < base

theorem Laid.placed (h : Laid base (pre ++ c :: post) s) : Placed base pre post c s (base + span width pre) := by
  have hspan : base + span width (pre ++ c :: post) = base + span width pre + width c + span width post := by
    rw [span_append, span_cons]
    omega
  refine ⟨?_, ?_, ?_, Nat.le_add_right _ _, h.base_pos⟩
  · rw [h.at_mid, hspan, link_over]
  · rw [← hspan]
    exact h.bound
  · exact h.aligned _ c (cellAt_middle base pre c post)

theorem Laid.placed_next (h : Laid base (pre ++ c :: d :: post) s) :
    Placed base (pre ++ [c]) post d s (base + span width pre + width c) := by
  have hrow : pre ++ c :: d :: post = (pre ++ [c]) ++ d :: post := by simp
  rw [hrow] at h
  have hq := h.placed
  rw [span_append, span_cons, span_nil, Nat.add_zero, ← Nat.add_assoc] at hq
  exact hq

theorem Laid.cut (h : Laid base (pre ++ c :: post) s) {keep rest size : Nat} (hfit : keep + HDR ≤ c.size)
    (halign : keep % ALIGN = 0) (hrest : rest = base + span width pre + HDR + keep)
    (hsize : size = c.size - keep - HDR) :
    Laid base (pre ++ ⟨keep, c.free⟩ :: ⟨size, true⟩ :: post)
        (insert_after s (base + span width pre) rest size keep) ∧
      ∀ i, Outside i (base + span width pre) → Outside i rest → Outside i (base + span width pre + width c) →
        (insert_after s (base + span width pre) rest size keep).mem i = s.mem i := by
  have hp := h.placed
  generalize hb : base + span width pre = b at *
  have hH : HDR = 32 := rfl
  have hA : ALIGN = 16 := rfl
  have hend := hp.end_le
  have halignb := hp.aligned
  have hw : width c = HDR + c.size := rfl
  have hnext : (header s.mem b).next = if post = [] then 0 else b + width c := by rw [hp.head]
  obtain ⟨hself, hnew, hback, hframe⟩ := @insert_after_spec s b rest size keep _ hnext (by omega) (by omega)
    (by omega) (by omega) (by split <;> omega) (by split <;> omega)
  have hkeep (i : Nat) (hib : Outside i b) (hirest : Outside i rest) (hie : Outside i (b + width c)) :
      (insert_after s b rest size keep).mem i = s.mem i :=
    hframe i hib hirest (by split <;> simp [hie])
  have hrestEq : b + width ⟨keep, c.free⟩ = rest := by simp only [width]; omega
  have hendEq : rest + width ⟨size, true⟩ = b + width c := by simp only [width]; omega
  refine ⟨?_, hkeep⟩
  apply @Laid.replace base pre [c] [⟨keep, c.free⟩, ⟨size, true⟩] post s _ h b (b + width c) hb rfl
  · simp only [span_cons, span_nil]
    omega
  · rfl
  · rfl
  · exact fun i hi => hkeep i (by omega) (by omega) (by omega)
  · intro hpost
    rw [if_neg hpost] at hback
    simpa only [lastStart, hrestEq] using hback (by omega)
  · refine ⟨?_, ?_, trivial⟩
    · have hlink : link (b + width c + span width post) rest = rest := if_neg (by omega)
      rw [hself, hp.head, hrestEq, hlink]
    · rw [hrestEq, hendEq, hnew, link_over]
      rfl
  · intro x d hx
    simp only [cellAt_cons, cellAt_nil, or_false, hrestEq] at hx
    simp only [ALIGN] at halign halignb ⊢
    omega

theorem Laid.join (h : Laid base (pre ++ c :: d :: post) s) :
    Laid base (pre ++ ⟨c.size + HDR + d.size, c.free⟩ :: post)
        (absorb s (base + span width pre) (base + span width pre + width c)) ∧
      ∀ i, Outside i (base + span width pre) → Outside i (base + span width pre + width c) →
        Outside i (base + span width pre + width c + width d) →
          (absorb s (base + span width pre) (base + span width pre + width c)).mem i = s.mem i := by
  have hp := h.placed
  have hq := h.placed_next
  generalize hb : base + span width pre = b at *
  have hH : HDR = 32 := rfl
  have hend := hq.end_le
  have hw : width c = HDR + c.size := rfl
  have hwd : width d = HDR + d.size := rfl
  have hnext : (header s.mem (b + width c)).next = if post = [] then 0 else b + width c + width d := by rw [hq.head]
  obtain ⟨hself, hback, hframe⟩ := @absorb_spec s b (b + width c) _ hnext (by omega) (by split <;> omega)
    (by split <;> omega) (by omega)
  have hkeep (i : Nat) (hib : Outside i b) (hin : Outside i (b + width c)) (hie : Outside i (b + width c + width d)) :
      (absorb s b (b + width c)).mem i = s.mem i :=
    hframe i hib hin (by split <;> simp [hie])
  have hsum : wadd c.size (HDR + d.size) = c.size + HDR + d.size := by
    rw [wadd_of_lt (by omega)]
    omega
  have hendEq : b + width ⟨c.size + HDR + d.size, c.free⟩ = b + width c + width d := by simp only [width]; omega
  refine ⟨?_, hkeep⟩
  apply @Laid.replace base pre [c, d] [⟨c.size + HDR + d.size, c.free⟩] post s _ h b (b + width c + width d) hb
  · simp only [span_cons, span_nil]
    omega
  · simp only [span_cons, span_nil]
    omega
  · rfl
  · rfl
  · exact fun i hi => hkeep i (by omega) (by omega) (by omega)
  · intro hpost
    rw [if_neg hpost] at hback
    exact hback (by omega)
  · refine ⟨?_, trivial⟩
    rw [hendEq, link_over, hself, hp.head, hq.head]
    simp only [hsum]
  · intro x e hx
    simp only [cellAt_cons, cellAt_nil, or_false] at hx
    rw [hx.1]
    exact hp.aligned

theorem Laid.mark (h : Laid base (pre ++ c :: post) s) (free : Bool)
    (hmem : s'.mem = put_free s.mem (base + span width pre) free.toNat) (hhead : s'.heap_head = s.heap_head)
    (harena : s'.arena_bytes = s.arena_bytes) : Laid base (pre ++ ⟨c.size, free⟩ :: post) s' := by
  have hp := h.placed
  have hw : width c = HDR + c.size := rfl
  have hbit : free.toNat < 2 ^ 32 := by cases free <;> decide
  apply @Laid.replace base pre [c] [⟨c.size, free⟩] post s _ h _ (base + span width pre + width c) rfl rfl
  · rfl
  · exact hhead
  · exact harena
  · intro i hi
    rw [hmem]
    exact put_field_of_outside (by decide) (by omega)
  · intro hpost
    obtain ⟨d, rest, rfl⟩ := List.exists_cons_of_ne_nil hpost
    rw [hmem, header_put_field_of_apart (by decide) (by omega), h.placed_next.head, lastStart_append]
    rfl
  · refine ⟨?_, trivial⟩
    rw [hmem, header_put_free hbit, hp.head, ← link_over]
  · intro x d hx
    simp only [cellAt_cons, cellAt_nil, or_false] at hx
    rw [hx.1]
    exact hp.aligned

end Rows

end fable.heap
