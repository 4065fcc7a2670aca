import FableOs.Chat.Print

namespace fable.chat

/-! The two decoders of `lib/font.c`: the one that is fed a byte at a time and
`utf8_decode`, which looks ahead in a buffer. -/

open List

section Model

/-- The loop of `utf8_decode` behind the lead: how many bytes it takes, and the code
    point. -/
def continued (lowest : Nat) : Nat → Nat → List UInt8 → Nat × Nat
  | 0, acc, _ => (0, if value_ok acc lowest then acc else UNICODE_REPLACEMENT)
  | _ + 1, _, [] => (0, UNICODE_REPLACEMENT)
  | left + 1, acc, b :: s =>
    if b &&& 0xC0 ≠ 0x80 then (0, UNICODE_REPLACEMENT)
    else
      let (n, cp) := continued lowest left ((acc <<< 6) ||| (b &&& 0x3F).toNat) s
      (n + 1, cp)

def utf8_decode : List UInt8 → Nat × Nat
  | [] => (0, UNICODE_REPLACEMENT)
  | b :: s =>
    match lead_length b with
    | none => (1, UNICODE_REPLACEMENT)
    | some (len, acc, lowest) =>
      if len = 1 then (1, acc)
      else
        let (n, cp) := continued lowest (len - 1) acc s
        (n + 1, cp)

/-- `utf8_decode` from the front, again and again. -/
def decoded : List UInt8 → List Nat
  | [] => []
  | b :: s => (utf8_decode (b :: s)).2 :: decoded (s.drop ((utf8_decode (b :: s)).1 - 1))
termination_by s => s.length
decreasing_by simp

/-- What `utf8_feed` makes of the bytes one by one, a byte that it hands back fed
    again, and of a sequence that the end cuts short. -/
def streamed (st : utf8_stream_t) : List UInt8 → List Nat
  | [] => if st.pending ≠ 0 then [UNICODE_REPLACEMENT] else []
  | b :: s => (code_points st b).2 ++ streamed (code_points st b).1 s

end Model

section Agreement

variable {st : utf8_stream_t} {b : UInt8} {lowest acc : Nat}

theorem not_retried_of_lead (hst : st.pending = 0) : (utf8_feed st b).2 ≠ .bad_retry := by
  obtain ⟨-, h⟩ | ⟨-, h | ⟨st', -, h⟩⟩ := @utf8_feed_lead st b hst <;> rw [h] <;> nofun

theorem utf8_feed_of_abandoned (hst : st.pending ≠ 0) (hb : b &&& 0xC0 ≠ 0x80) :
    utf8_feed st b = (utf8_stream_reset, .bad_retry) := by
  rw [utf8_feed, if_pos hst, if_pos hb]

theorem lead_length_cases {len} (h : lead_length b = some (len, acc, lowest)) : (len = 1 ∧ acc < 0x80) ∨ 2 ≤ len := by
  by_cases hb : b < 0x80
  · cases (lead_length_ascii hb).symm.trans h
    exact .inl ⟨rfl, UInt8.lt_iff_toNat_lt.mp hb⟩
  · exact .inr (lead_length_high hb h)

theorem not_retried_twice (h : (utf8_feed st b).2 = .bad_retry) : (utf8_feed (utf8_feed st b).1 b).2 ≠ .bad_retry := by
  by_cases hst : st.pending = 0
  · exact absurd h (not_retried_of_lead hst)
  by_cases hb : b &&& 0xC0 = 0x80
  · simp only [utf8_feed, if_pos hst, if_neg (not_not.mpr hb)] at h
    split_ifs at h
  · rw [utf8_feed_of_abandoned hst hb]
    exact not_retried_of_lead rfl

/-- A byte that cannot continue a sequence ends it, and begins anew. -/
theorem code_points_of_abandoned (hst : st.pending ≠ 0) (hb : b &&& 0xC0 ≠ 0x80) :
    code_points st b = ((code_points utf8_stream_reset b).1, UNICODE_REPLACEMENT :: (code_points utf8_stream_reset b).2) := by
  have hfeed := utf8_feed_of_abandoned hst hb
  obtain ⟨-, h⟩ | ⟨-, h | ⟨st', -, h⟩⟩ := @utf8_feed_lead utf8_stream_reset b rfl <;> simp [code_points, hfeed, h]

/-- A sequence in progress comes to what the loop of the other decoder makes of it. -/
theorem streamed_continued (s : List UInt8) {left} (hst : st.pending = st.seen + (left + 1)) :
    streamed st s = (continued st.lowest (left + 1) st.acc s).2 ::
      streamed utf8_stream_reset (s.drop (continued st.lowest (left + 1) st.acc s).1) := by
  have hne : st.pending ≠ 0 := by omega
  induction s generalizing left st with
  | nil =>
    rw [streamed, if_pos hne]
    rfl
  | cons b s ih =>
    by_cases hb : b &&& 0xC0 = 0x80
    · have hfeed := @utf8_feed.eq_1 st b
      rw [if_pos hne, if_neg (not_not.mpr hb)] at hfeed
      rw [streamed, code_points, hfeed, continued, if_neg (not_not.mpr hb)]
      cases left with
      | zero =>
        rw [if_neg (by omega)]
        simp only [continued]
        generalize value_ok ((st.acc <<< 6) ||| (b &&& 0x3F).toNat) st.lowest = ok
        cases ok <;> rfl
      | succ left =>
        rw [if_pos (by omega)]
        exact @ih ⟨_, st.pending, st.seen + 1, st.lowest, st.multibyte⟩ left (by dsimp only; omega) hne
    · rw [streamed, code_points_of_abandoned hne hb, continued, if_pos hb]
      rfl

theorem streamed_eq_decoded (s : List UInt8) : streamed utf8_stream_reset s = decoded s := by
  fun_induction decoded s with
  | case1 => rfl
  | case2 b s ih =>
    have hidle : ¬ utf8_stream_reset.pending ≠ 0 := fun h => h rfl
    have hfeed := @utf8_feed.eq_1 utf8_stream_reset b
    rw [if_neg hidle] at hfeed
    rw [← ih, streamed, code_points, utf8_decode]
    split at hfeed <;> rename_i hlead <;> rw [hlead, hfeed]
    · rfl
    obtain ⟨rfl, -⟩ | hlen := lead_length_cases hlead
    · rfl
    · obtain ⟨left, rfl⟩ := Nat.exists_eq_add_of_le' hlen
      rw [dif_neg (by omega)]
      exact streamed_continued s (Nat.zero_add _).symm

end Agreement

section Scalars

variable {lowest acc : Nat}

theorem value_ok_iff : value_ok acc lowest = true ↔ lowest ≤ acc ∧ acc.isValidChar := by
  simp only [value_ok, Nat.isValidChar, Bool.and_eq_true, Bool.not_eq_true', decide_eq_true_eq, Bool.and_eq_false_iff,
    decide_eq_false_iff_not]
  omega

theorem scalar_continued (left : Nat) (s : List UInt8) : (continued lowest left acc s).2.isValidChar := by
  fun_induction continued lowest left acc s with
  | case1 acc =>
    split
    · exact (value_ok_iff.mp ‹_›).2
    · decide
  | case2 => decide
  | case3 => decide
  | case4 _ _ _ _ _ _ _ heq ih =>
    rw [heq] at ih
    exact ih

theorem scalar_utf8_decode (s : List UInt8) : (utf8_decode s).2.isValidChar := by
  fun_cases utf8_decode s with
  | case1 => decide
  | case2 => decide
  | case3 _ _ _ _ hlead =>
    obtain ⟨-, hacc⟩ | hlen := lead_length_cases hlead
    · exact .inl (hacc.trans (by decide))
    · cases Nat.not_succ_le_self 1 hlen
  | case4 b s len acc lowest _ _ n cp heq =>
    have := @scalar_continued lowest acc (len - 1) s
    rwa [heq] at this

theorem scalar_decoded (s : List UInt8) : ∀ cp ∈ decoded s, cp.isValidChar := by
  fun_induction decoded s with
  | case1 => exact forall_mem_nil _
  | case2 b s ih => exact forall_mem_cons.mpr ⟨scalar_utf8_decode _, ih⟩

end Scalars

section Encoded

variable {lowest acc : Nat}

theorem utf8_decode_lead {b left} (h : lead_length b = some (left + 2, acc, lowest)) (s : List UInt8) :
    utf8_decode (b :: s) =
      ((continued lowest (left + 1) acc s).1 + 1, (continued lowest (left + 1) acc s).2) := by
  rw [utf8_decode, h]
  rfl

theorem continued_byte {x} (hx : x < 64) (left : Nat) (s : List UInt8) :
    continued lowest (left + 1) acc (UInt8.ofNat (x + 0x80) :: s) =
      ((continued lowest left (acc * 64 + x) s).1 + 1, (continued lowest left (acc * 64 + x) s).2) := by
  have hbits : ∀ x < 64, UInt8.ofNat (x + 0x80) &&& 0xC0 = 0x80 ∧ (UInt8.ofNat (x + 0x80) &&& 0x3F).toNat = x := by
    decide
  have hshift : (acc <<< 6) ||| x = acc * 64 + x := by
    rw [← Nat.shiftLeft_add_eq_or_of_lt hx, Nat.shiftLeft_eq]
  rw [continued, if_neg (not_not.mpr (hbits x hx).1), (hbits x hx).2, hshift]

theorem utf8_decode_char (c : Char) (s : List UInt8) :
    utf8_decode (String.utf8EncodeChar c ++ s) = ((String.utf8EncodeChar c).length, c.toNat) := by
  have hvalid : c.toNat.isValidChar := c.valid
  have htwo : ∀ x < 30, lead_length (UInt8.ofNat (x + 2 + 0xC0)) = some (2, x + 2, 0x80) := by decide
  have hthree : ∀ x < 16, lead_length (UInt8.ofNat (x + 0xE0)) = some (3, x, 0x800) := by decide
  have hfour : ∀ x < 5, lead_length (UInt8.ofNat (x + 0xF0)) = some (4, x, 0x10000) := by decide
  -- the last byte of a sequence leaves the character's own value
  have hlast {lowest acc} (hacc : acc = c.toNat) (hle : lowest ≤ c.toNat) : continued lowest 0 acc s = (0, c.toNat) := by
    rw [hacc, continued, if_pos (value_ok_iff.mpr ⟨hle, hvalid⟩)]
  have hrange : c.toNat < 0x110000 := by
    unfold Nat.isValidChar at hvalid
    omega
  fun_cases String.utf8EncodeChar c with
  | case1 v hone =>
    have hsmall : (UInt8.ofNat v).toNat = v := UInt8.toNat_ofNat_of_lt' (Nat.lt_of_le_of_lt hone (by decide))
    have hlead := lead_length_ascii (UInt8.lt_iff_toNat_lt.mpr (hsmall.trans_lt (Nat.lt_succ_of_le hone)))
    rw [cons_append, utf8_decode, hlead, hsmall]
    rfl
  | case2 v =>
    have hv : c.toNat = v := rfl
    have hlead := htwo (v / 64 % 32 - 2) (by omega)
    rw [Nat.sub_add_cancel (by omega)] at hlead
    rw [cons_append, cons_append, utf8_decode_lead hlead, continued_byte (by omega), nil_append,
      hlast (by omega) (by omega)]
    rfl
  | case3 v =>
    have hv : c.toNat = v := rfl
    rw [cons_append, cons_append, cons_append, utf8_decode_lead (hthree _ (by omega)), continued_byte (by omega),
      continued_byte (by omega), nil_append, hlast (by omega) (by omega)]
    rfl
  | case4 v =>
    have hv : c.toNat = v := rfl
    have hlead := hfour (v / 262144 % 8) (by omega)
    rw [cons_append, cons_append, cons_append, cons_append, utf8_decode_lead hlead, continued_byte (by omega),
      continued_byte (by omega), continued_byte (by omega), nil_append, hlast (by omega) (by omega)]
    rfl

/-- A text in UTF-8 decodes to its own characters. -/
theorem decoded_encoded (cs : List Char) : decoded (cs.flatMap String.utf8EncodeChar) = cs.map Char.toNat := by
  induction cs with
  | nil => simp [decoded]
  | cons c cs ih =>
    obtain ⟨b, k, hc⟩ := exists_cons_of_ne_nil (@String.utf8EncodeChar_ne_nil c)
    have hchar := utf8_decode_char c (cs.flatMap String.utf8EncodeChar)
    rw [hc, cons_append] at hchar
    rw [flatMap_cons, hc, cons_append, decoded, hchar, map_cons, ← ih]
    simp

end Encoded

/-- Whatever the bytes are, both decoders give the same code points, all of them
    scalar values; a text in UTF-8 gives its own characters, and no byte is handed back
    twice. -/
theorem decoders_agree (s : List UInt8) :
    streamed utf8_stream_reset s = decoded s ∧ (∀ cp ∈ decoded s, cp.isValidChar) ∧
      (∀ cs : List Char, decoded (cs.flatMap String.utf8EncodeChar) = cs.map Char.toNat) ∧
      ∀ st b, (utf8_feed st b).2 = .bad_retry → (utf8_feed (utf8_feed st b).1 b).2 ≠ .bad_retry :=
  ⟨streamed_eq_decoded s, scalar_decoded s, decoded_encoded, fun _ _ => not_retried_twice⟩

end fable.chat
