import FableOs.Sse.Http

namespace fable.sse

open List

section Framing

variable {step : sse_parser_t → UInt8 → sse_parser_t × List sse_event_t} {p : sse_parser_t}

/-- Bytes that come in two pieces: the parser is the same, and the events are
    those of the one and then of the other. -/
theorem feed_all_append (a b : List UInt8) :
    feed_all step p (a ++ b) =
      ((feed_all step (feed_all step p a).1 b).1, (feed_all step p a).2 ++ (feed_all step (feed_all step p a).1 b).2) := by
  induction a generalizing p with
  | nil => rfl
  | cons c a ih =>
    rw [cons_append]
    simp [feed_all, ih]

end Framing

section Driver

variable {h : sse_http_t}

theorem feed_stream_append (a b : List UInt8) : feed_stream h (a ++ b) = feed_stream (feed_stream h a) b := by
  simp [feed_stream, sse_parser_feed, feed_all_append]

/-- What the first loop leaves is the body, if there is anything left. -/
theorem feed_headers_in_body (bytes : List UInt8) (hrest : (feed_headers h bytes).2 ≠ []) :
    (feed_headers h bytes).1.in_body = true := by
  induction bytes generalizing h with
  | nil => exact absurd rfl hrest
  | cons c bytes ih =>
    rw [feed_headers] at hrest ⊢
    split
    · rename_i hbody
      exact hbody
    · rename_i hbody
      rw [if_neg hbody] at hrest
      exact ih hrest

theorem feed_headers_of_in_body (hbody : h.in_body = true) (bytes : List UInt8) : feed_headers h bytes = (h, bytes) := by
  cases bytes with
  | nil => rfl
  | cons c bytes => rw [feed_headers, if_pos hbody]

theorem feed_headers_append (a b : List UInt8) :
    feed_headers h (a ++ b) =
      if (feed_headers h a).2 = [] then feed_headers (feed_headers h a).1 b
      else ((feed_headers h a).1, (feed_headers h a).2 ++ b) := by
  induction a generalizing h with
  | nil => rfl
  | cons c a ih =>
    by_cases hbody : h.in_body = true
    · simp only [cons_append, feed_headers, if_pos hbody]
      rfl
    · simp [feed_headers, if_neg hbody, ih]

theorem foldl_raw_byte_in_body (bytes : List UInt8) :
    (bytes.foldl raw_byte h).in_body = h.in_body ∧ (bytes.foldl raw_byte h).streaming = h.streaming := by
  induction bytes generalizing h with
  | nil => exact ⟨rfl, rfl⟩
  | cons c bytes ih =>
    have hstep : (raw_byte h c).in_body = h.in_body ∧ (raw_byte h c).streaming = h.streaming := by
      rw [raw_byte]
      split <;> exact ⟨rfl, rfl⟩
    rw [foldl_cons, ih.1, ih.2, hstep.1, hstep.2]
    exact ⟨rfl, rfl⟩

/-- In the body every byte goes the way that the headers decided. -/
theorem sse_http_feed_of_in_body (hbody : h.in_body = true) (bytes : List UInt8) :
    sse_http_feed h bytes = if h.streaming then feed_stream h bytes else bytes.foldl raw_byte h := by
  rw [sse_http_feed, feed_headers_of_in_body hbody]
  cases bytes with
  | nil =>
    cases h.streaming <;> rfl
  | cons c bytes => rfl

/-- A chunk and the next one are fed as if they had come together. -/
theorem sse_http_feed_append (a b : List UInt8) : sse_http_feed h (a ++ b) = sse_http_feed (sse_http_feed h a) b := by
  by_cases hrest : (feed_headers h a).2 = []
  · have ha : sse_http_feed h a = (feed_headers h a).1 := by
      rw [sse_http_feed]
      simp [hrest]
    rw [ha, sse_http_feed, feed_headers_append, if_pos hrest]
    rfl
  · have hbody := feed_headers_in_body a hrest
    have ha : sse_http_feed h a =
        if (feed_headers h a).1.streaming then feed_stream (feed_headers h a).1 (feed_headers h a).2
        else (feed_headers h a).2.foldl raw_byte (feed_headers h a).1 := by
      rw [sse_http_feed]
      simp only [if_neg hrest]
    have hboth : sse_http_feed h (a ++ b) =
        if (feed_headers h a).1.streaming then feed_stream (feed_headers h a).1 ((feed_headers h a).2 ++ b)
        else ((feed_headers h a).2 ++ b).foldl raw_byte (feed_headers h a).1 := by
      have hne : ¬ (feed_headers h a).2 ++ b = [] := fun h => hrest (append_eq_nil_iff.mp h).1
      rw [sse_http_feed, feed_headers_append, if_neg hrest]
      simp only [if_neg hne]
    rw [hboth, ha]
    cases hstream : (feed_headers h a).1.streaming with
    | true =>
      simp only [if_true]
      have hfed := @sse_http_feed_of_in_body (feed_stream (feed_headers h a).1 (feed_headers h a).2) hbody b
      rw [feed_stream_append, hfed]
      exact (if_pos hstream).symm
    | false =>
      simp only [Bool.false_eq_true, if_false]
      obtain ⟨hbody', hstream'⟩ := @foldl_raw_byte_in_body (feed_headers h a).1 (feed_headers h a).2
      rw [foldl_append, sse_http_feed_of_in_body (hbody'.trans hbody), hstream', hstream]
      rfl

theorem foldl_sse_http_feed (chunks : List (List UInt8)) :
    chunks.foldl sse_http_feed h = sse_http_feed h chunks.flatten := by
  induction chunks generalizing h with
  | nil => rfl
  | cons chunk chunks ih => rw [foldl_cons, flatten_cons, ih, sse_http_feed_append]

end Driver

/-- However a response is cut into chunks, the driver ends with the same code,
    the same response and the same flags as when it is fed at once. -/
theorem chunking_does_not_matter (buf : Bool) (cap : Nat) (chunks : List (List UInt8)) :
    sse_http_finish (chunks.foldl sse_http_feed (sse_http_init buf cap)) =
      sse_http_finish (sse_http_feed (sse_http_init buf cap) chunks.flatten) :=
  congrArg sse_http_finish (foldl_sse_http_feed chunks)

end fable.sse
