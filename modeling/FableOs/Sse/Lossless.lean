import FableOs.Sse.Replay

namespace fable.sse

open fable.json List

/-- The block goes into the document as its events mean it. -/
def block_spec.Kept : block_spec → Prop
  | .text start _ => start = []
  | .tool _ _ inputs => IsObject inputs.flatten → inputs.flatten.length ≤ SSE_TOOL_INPUT_MAX
  | .other pieces _ => ∀ p ∈ pieces, p.2 = []

section Blocks

variable {t : List UInt8}
variable {cb : json_value_t} {b : block_spec} {evs : List sse_event_t}

theorem Opens.found {ev} (h : Opens ev cb) : Found 31 cb := by
  obtain ⟨root, hcarries, hget, -⟩ := h
  exact (found_of_json_parse hcarries.1.1).get (by decide) hget

theorem Opens.span_mem {ev} (h : Opens ev cb) (key : cstr_t) : span_or (some cb) key EMPTY_STRING ∈ string := by
  have hdepth : 30 + 1 ≤ JSON_MAX_DEPTH := by decide
  refine span_or_mem hdepth ?_ empty_string_mem
  rintro _ ⟨⟩
  exact h.found

theorem OpensOther.object {ev} {text : List UInt8} (h : OpensOther ev text) : Value 31 .object text := by
  obtain ⟨cb, hopens, -, rfl⟩ := h
  have hcb := hopens.found.text
  obtain ⟨root, -, -, htype⟩ := hopens
  exact htype ▸ hcb

theorem length_pieces_le {pieces : List (List UInt8 × List UInt8)} :
    (pieces.flatMap Prod.fst).length ≤ (pieces.flatMap fun p => p.1 ++ p.2).length := by
  induction pieces with
  | nil => exact le_rfl
  | cons p pieces ih =>
    simp only [flatMap_cons, length_append]
    omega

theorem pieces_nil_of_length {pieces : List (List UInt8 × List UInt8)}
    (h : (pieces.flatMap Prod.fst).length = (pieces.flatMap fun p => p.1 ++ p.2).length) : ∀ p ∈ pieces, p.2 = [] := by
  induction pieces with
  | nil => exact forall_mem_nil _
  | cons p pieces ih =>
    have hle := @length_pieces_le pieces
    simp only [flatMap_cons, length_append] at h
    exact forall_mem_cons.mpr ⟨eq_nil_of_length_eq_zero (by omega), ih (by omega)⟩

theorem pieces_eq_of_nil {pieces : List (List UInt8 × List UInt8)} (h : ∀ p ∈ pieces, p.2 = []) :
    (pieces.flatMap fun p => p.1 ++ p.2) = pieces.flatMap Prod.fst := by
  induction pieces with
  | nil => rfl
  | cons p pieces ih =>
    obtain ⟨hp, hpieces⟩ := forall_mem_cons.mp h
    rw [flatMap_cons, flatMap_cons, ih hpieces, hp, List.append_nil]

/-- What is written for a block is no longer than the block that is meant. -/
theorem written_length_le (b : block_spec) : b.written.length ≤ b.meant.length := by
  cases b with
  | text start deltas =>
    simp only [block_spec.written, block_spec.meant, text_block, length_append]
    omega
  | tool id name inputs =>
    simp only [block_spec.written, block_spec.meant, tool_block, input_written, length_append]
    by_cases hobject : IsObject inputs.flatten
    · have htwo := hobject.two_le.1
      rw [if_pos hobject]
      split
      · exact le_rfl
      · simp only [length_cons, length_nil]
        omega
    · have husable : ¬ usable inputs.flatten = true := fun h => hobject (.of_usable h)
      rw [if_neg hobject, if_neg husable]
  | other pieces rest =>
    simp only [block_spec.written, block_spec.meant, length_append]
    have hle := @length_pieces_le pieces
    omega

/-- And if it is as long, then nothing of the block is lost. -/
theorem kept_of_length_eq (h : b.written.length = b.meant.length) : b.Kept := by
  cases b with
  | text start deltas =>
    simp only [block_spec.written, block_spec.meant, text_block, length_append] at h
    exact eq_nil_of_length_eq_zero (by omega)
  | tool id name inputs =>
    intro hobject
    simp only [block_spec.written, block_spec.meant, tool_block, input_written, length_append, if_pos hobject] at h
    split at h
    · rename_i husable
      exact (usable_iff.mp husable).1
    · obtain ⟨-, hshort⟩ := hobject.two_le
      simp only [length_cons, length_nil] at h
      rw [hshort (by omega)]
      decide
  | other pieces rest =>
    simp only [block_spec.written, block_spec.meant, length_append] at h
    exact pieces_nil_of_length (by omega)

/-- A block that is kept, and is not nested too deep, is written as it is meant. -/
theorem written_eq_meant (hevents : BlockEvents b evs) (hkept : b.Kept) (hvalue : Value BLOCK_DEPTH .object b.meant) :
    b.written = b.meant := by
  cases hevents with
  | @text first last evs start deltas hfirst hdeltas hlast =>
    obtain rfl : start = [] := hkept
    rfl
  | @tool first last evs id name inputs hfirst hinputs hlast =>
    simp only [block_spec.written, block_spec.meant, input_written] at hvalue ⊢
    by_cases hobject : IsObject inputs.flatten
    · rw [if_pos hobject] at hvalue ⊢
      have hlength := hkept hobject
      obtain ⟨cb, hopens, -, rfl, rfl⟩ := hfirst
      obtain ⟨depth, before, v, after, ⟨hbefore, hv, hafter⟩, htext⟩ := hobject
      have hend := value_end_object nil_mem_ws hvalue []
      rw [List.append_nil, List.nil_append, tool_block, htext, List.append_assoc, List.append_assoc] at hend
      obtain ⟨q, hinput⟩ := input_reached (hopens.span_mem K_ID) (hopens.span_mem K_NAME) hend
      have hshallow := object_of_accepted hbefore hv hinput
      have husable : usable inputs.flatten = true :=
        usable_iff.mpr ⟨hlength, before, v, after, ⟨hbefore, hshallow.mono (by decide), hafter⟩, htext⟩
      rw [if_pos husable]
    · have husable : ¬ usable inputs.flatten = true := fun h => hobject (.of_usable h)
      rw [if_neg hobject, if_neg husable]
  | other _ _ _ _ => rw [block_spec.written, block_spec.meant, pieces_eq_of_nil hkept]

theorem forall₂_units {deltas} (h : List.Forall₂ TextDelta evs deltas) : ∃ us, Units deltas.flatten us := by
  induction h with
  | nil => exact ⟨[], .nil⟩
  | cons hdelta _ ih =>
    obtain ⟨d, v, ⟨dt, hdelta, -⟩, hget, hraw⟩ := hdelta
    obtain ⟨us, hus⟩ := str_inner_units (hdelta.found.get (by decide) hget) hraw
    obtain ⟨us', hus'⟩ := ih
    exact ⟨us ++ us', hus.append hus'⟩

theorem start_text_units {depth : Nat} (hdepth : depth + 1 ≤ JSON_MAX_DEPTH) (hcb : Found (depth + 1) cb) :
    ∃ us, Units (start_text cb) us := by
  rw [start_text]
  cases hget : json_get (some cb) (some K_TEXT) with
  | mk rc v =>
    simp only
    split
    · rename_i hrc
      subst hrc
      cases hinner : str_inner v with
      | none => exact ⟨[], .nil⟩
      | some inner => exact str_inner_units (hcb.get hdepth hget) hinner
    · exact ⟨[], .nil⟩

/-- The block that is meant is an object, at some depth, if nothing is to be put
    into it. -/
theorem meant_object (h : BlockEvents b evs) (hkept : b.Kept) : ∃ depth, Value depth .object b.meant := by
  cases h with
  | @text first last evs start deltas hfirst hdeltas hlast =>
    obtain ⟨cb, hopens, -, rfl⟩ := hfirst
    obtain ⟨us, hus⟩ := start_text_units (by decide) hopens.found
    obtain ⟨us', hus'⟩ := forall₂_units hdeltas
    exact ⟨_, text_block_value (hus.append hus')⟩
  | @tool first last evs id name inputs hfirst hinputs hlast =>
    obtain ⟨cb, hopens, -, rfl, rfl⟩ := hfirst
    have hid := hopens.span_mem K_ID
    have hname := hopens.span_mem K_NAME
    simp only [block_spec.meant]
    by_cases hobject : IsObject inputs.flatten
    · rw [if_pos hobject]
      obtain ⟨depth, before, v, after, hdocument, htext⟩ := hobject
      cases depth with
      | zero => exact hdocument.2.1.elim
      | succ depth =>
        rw [htext]
        exact ⟨_, tool_block_value hid hname hdocument⟩
    · rw [if_neg hobject]
      exact ⟨_, empty_tool_block_value hid hname⟩
  | @other first last evs pieces rest hfirst hrest hdeltas hlast =>
    rw [block_spec.meant, pieces_eq_of_nil hkept]
    exact ⟨_, hfirst.object⟩

/-- And it ends like one in any case. -/
theorem meant_last (h : BlockEvents b evs) : ∃ t, b.meant = t ++ [CLOSE_BRACE] := by
  cases h with
  | @text first last evs start deltas hfirst hdeltas hlast =>
    refine ⟨TEXT_OPEN.bytes ++ (start ++ deltas.flatten) ++ [QUOTE], ?_⟩
    simp only [block_spec.meant, text_block, append_assoc]
    rfl
  | @tool first last evs id name inputs hfirst hinputs hlast =>
    simp only [block_spec.meant, tool_block, ← append_assoc]
    exact ⟨_, rfl⟩
  | @other first last evs pieces rest hfirst hrest hdeltas hlast =>
    obtain ⟨t, ht⟩ := object_last hfirst.object
    cases rest using reverseRecOn with
    | nil => exact absurd rfl hrest
    | append_singleton u c =>
      rw [← append_assoc] at ht
      obtain ⟨-, hc⟩ := append_inj' ht rfl
      rw [block_spec.meant, hc, ← append_assoc]
      exact ⟨_, rfl⟩

end Blocks

section Commas

variable {blocks : UInt32} {ts : List (List UInt8)}

theorem length_comma_before_le : (comma_before blocks).length ≤ 1 := by
  unfold comma_before
  split
  · exact le_rfl
  · exact Nat.zero_le 1

theorem length_joined_le : (joined blocks ts).length ≤ (more_blocks ts).length := by
  induction ts generalizing blocks with
  | nil => exact le_rfl
  | cons t ts ih =>
    have hrest := @ih (blocks + 1)
    have hcomma := @length_comma_before_le blocks
    simp only [joined, more_blocks, flatMap_cons, length_append, length_cons] at hrest ⊢
    omega

/-- Behind a block there is a comma before every other one, until the counter is
    back at zero. -/
theorem joined_eq (hne : blocks ≠ 0) (hwrap : blocks.toNat + ts.length ≤ 2 ^ 32) : joined blocks ts = more_blocks ts := by
  induction ts generalizing blocks with
  | nil => rfl
  | cons t ts ih =>
    rw [length_cons] at hwrap
    have hcomma : comma_before blocks = [COMMA] := if_pos hne
    have hrest : joined (blocks + 1) ts = more_blocks ts := by
      cases ts with
      | nil => rfl
      | cons t' ts =>
        rw [length_cons] at hwrap
        have hnext : (blocks + 1).toNat = blocks.toNat + 1 := by
          rw [UInt32.toNat_add]
          exact Nat.mod_eq_of_lt (by change blocks.toNat + 1 < 2 ^ 32; omega)
        refine ih ?_ (by rw [hnext, length_cons]; omega)
        intro hzero
        rw [hzero] at hnext
        cases hnext
    rw [joined, hcomma, hrest]
    simp [more_blocks]

theorem length_joined_lt (hwrap : 2 ^ 32 < blocks.toNat + ts.length) : (joined blocks ts).length < (more_blocks ts).length := by
  induction ts generalizing blocks with
  | nil =>
    have hlt := blocks.toNat_lt
    rw [length_nil] at hwrap
    omega
  | cons t ts ih =>
    simp only [joined, more_blocks, flatMap_cons, length_append, length_cons]
    rw [length_cons] at hwrap
    by_cases hlast : blocks.toNat + 1 = 2 ^ 32
    · -- the next block has no comma
      have hnext : blocks + 1 = 0 := by
        apply UInt32.toNat.inj
        rw [UInt32.toNat_add]
        change (blocks.toNat + 1) % 2 ^ 32 = 0
        rw [hlast, Nat.mod_self]
      cases ts with
      | nil =>
        rw [length_nil] at hwrap
        omega
      | cons t' ts =>
        have hle := @length_joined_le (0 + 1) ts
        have hnone : comma_before 0 = [] := rfl
        have hcomma := @length_comma_before_le blocks
        rw [hnext]
        simp only [joined, more_blocks, flatMap_cons, length_append, length_cons, hnone,
          length_nil] at hle ⊢
        omega
    · have hlt := blocks.toNat_lt
      have hnext : (blocks + 1).toNat = blocks.toNat + 1 := by
        rw [UInt32.toNat_add]
        exact Nat.mod_eq_of_lt (by change blocks.toNat + 1 < 2 ^ 32; omega)
      have hrest := @ih (blocks + 1) (by rw [hnext]; omega)
      have hcomma := @length_comma_before_le blocks
      simp only [more_blocks] at hrest
      omega

end Commas

section Content

variable {bs : List block_spec}

theorem length_more_blocks_le :
    (more_blocks (bs.map block_spec.written)).length ≤ (more_blocks (bs.map block_spec.meant)).length := by
  induction bs with
  | nil => exact le_rfl
  | cons b bs ih =>
    have hblock := written_length_le b
    simp only [more_blocks, map_cons, flatMap_cons, length_append, length_cons] at ih ⊢
    omega

theorem kept_of_length_more_blocks
    (h : (more_blocks (bs.map block_spec.written)).length = (more_blocks (bs.map block_spec.meant)).length) :
    ∀ b ∈ bs, b.Kept := by
  induction bs with
  | nil => exact forall_mem_nil _
  | cons b bs ih =>
    have hblock := written_length_le b
    have hrest := @length_more_blocks_le bs
    simp only [more_blocks, map_cons, flatMap_cons, length_append, length_cons] at h hrest ih
    intro x hx
    rcases mem_cons.mp hx with rfl | hx
    · exact kept_of_length_eq (by omega)
    · exact ih (by omega) x hx

theorem length_joined_le_content :
    (joined 0 (bs.map block_spec.written)).length ≤ (content (bs.map block_spec.meant)).length := by
  cases bs with
  | nil => exact le_rfl
  | cons b bs =>
    have hblock := written_length_le b
    have hrest := @length_more_blocks_le bs
    have hjoined := @length_joined_le (0 + 1) (bs.map block_spec.written)
    rw [map_cons, map_cons, content_cons, joined, length_append, length_append, length_append]
    change 0 + _ + _ ≤ _
    omega

/-- Where no byte is missing, every block is kept and every comma is there. -/
theorem kept_of_content_eq (h : joined 0 (bs.map block_spec.written) = content (bs.map block_spec.meant)) :
    (∀ b ∈ bs, b.Kept) ∧ bs.length ≤ 2 ^ 32 := by
  cases bs with
  | nil => exact ⟨forall_mem_nil _, Nat.zero_le _⟩
  | cons b bs =>
    have hblock := written_length_le b
    have hrest := @length_more_blocks_le bs
    have hjoined := @length_joined_le (0 + 1) (bs.map block_spec.written)
    have hlength := congrArg length h
    rw [map_cons, map_cons, content_cons, joined, length_append, length_append,
      length_append] at hlength
    change 0 + _ + _ = _ at hlength
    refine ⟨fun x hx => ?_, ?_⟩
    · rcases mem_cons.mp hx with rfl | hx
      · exact kept_of_length_eq (by omega)
      · exact kept_of_length_more_blocks (by omega) x hx
    · by_contra hmany
      have hlost := @length_joined_lt (0 + 1) (bs.map block_spec.written) (by
        rw [length_map]
        rw [length_cons] at hmany
        change 2 ^ 32 < 1 + bs.length
        omega)
      omega

theorem joined_eq_content (h : ∀ b ∈ bs, b.written = b.meant) (hcount : bs.length ≤ 2 ^ 32) :
    joined 0 (bs.map block_spec.written) = content (bs.map block_spec.meant) := by
  have hmap : bs.map block_spec.written = bs.map block_spec.meant := map_congr_left h
  rw [hmap]
  cases bs with
  | nil => rfl
  | cons b bs =>
    have hrest := @joined_eq (0 + 1) (bs.map block_spec.meant) (by decide) (by
      rw [length_map]
      rw [length_cons] at hcount
      change 1 + bs.length ≤ 2 ^ 32
      omega)
    rw [map_cons, content_cons, joined, hrest]
    rfl

end Content

section Stop

variable {stops : List (Option (List UInt8))}

theorem reported_append {reason} : reported (stops ++ [reason]) = reason.or (reported stops) := by
  cases reason with
  | none | some raw => simp [reported]

theorem stop_after_eq :
    stop_after [] stops =
      match reported stops with
      | none => []
      | some raw => if raw.length < SSE_STOP_MAX then raw else [] := by
  induction stops using reverseRecOn with
  | nil => rfl
  | append_singleton stops reason ih =>
    have hstep : stop_after [] (stops ++ [reason]) = stop_after (stop_after [] stops) [reason] := foldl_append
    rw [reported_append, hstep, ih]
    cases reason with
    | none | some raw => rfl

/-- The stop reason goes out as it was reported. -/
def StopKept (stops : List (Option (List UInt8))) : Prop :=
  ∀ raw, reported stops = some raw → raw ≠ [] ∧ raw.length < SSE_STOP_MAX

theorem stop_text_of_kept (h : StopKept stops) : stop_text (stop_after [] stops) = stop_meant stops := by
  rw [stop_after_eq, stop_meant]
  cases hreported : reported stops with
  | none => rfl
  | some raw =>
    obtain ⟨hne, hlength⟩ := h raw hreported
    simp only [if_pos hlength, stop_text, if_neg hne]

/-- The last byte before the end tells a string from `null`. -/
theorem stop_kept_of_eq {x y} (h : x ++ tail (stop_text (stop_after [] stops)) = y ++ tail (stop_meant stops)) :
    StopKept stops := by
  intro raw hreported
  by_contra hlost
  have hnull : stop_text (stop_after [] stops) = NULL := by
    rw [stop_after_eq, hreported, stop_text]
    simp only
    by_cases hlength : raw.length < SSE_STOP_MAX
    · have hnil : raw = [] := by
        by_contra hne
        exact hlost ⟨hne, hlength⟩
      rw [if_pos hlength, if_pos hnil]
    · rw [if_neg hlength, if_pos rfl]
  have hstring : stop_meant stops = QUOTE :: (raw ++ [QUOTE]) := by rw [stop_meant, hreported]
  rw [hnull, hstring, tail, tail] at h
  simp only [← append_assoc] at h
  have hlast := congrArg getLast? (append_cancel_right h)
  have hnull' : NULL = [0x6E, 0x75, 0x6C] ++ [0x6C] := rfl
  rw [hnull', ← cons_append, ← append_assoc, ← append_assoc, getLast?_concat, getLast?_concat] at hlast
  cases Option.some.inj hlast

end Stop

section Accepted

variable {id role model stop : List UInt8} {blocks : List (List UInt8)}

/-- A response made of objects is accepted exactly when none of them is nested
    too deep for its place. -/
theorem accepted_iff (hhead : Head id role model) (hblocks : ∀ b ∈ blocks, ∃ depth, Value depth .object b)
    (hstop : stop ∈ string ∨ stop = NULL) :
    (json_parse (some (head id role model ++ content blocks ++ tail stop))).1 = JSON_OK ↔ GoodBlocks blocks := by
  constructor
  · intro hok
    by_contra hbad
    simp only [GoodBlocks, not_forall, exists_prop] at hbad
    obtain ⟨bs, b, cs, rfl, hb, hbs⟩ := exists_first hbad
    obtain ⟨depth, hvalue⟩ := hblocks b (mem_append_right _ mem_cons_self)
    have hrejected := rejected_deep_block hhead (fun x hx => not_not.mp (hbs x hx)) hvalue hb
    refine hrejected (more_blocks cs ++ tail stop) ?_
    rw [content_split] at hok
    simpa only [append_assoc] using hok
  · intro hgood
    have hvalue := message_accepted hhead hgood hstop
    have haccepted := json_parse_complete ⟨nil_mem_ws, hvalue, nil_mem_ws⟩
    rw [List.append_nil, List.nil_append] at haccepted
    rw [append_assoc, haccepted]

theorem Starts.head {ev} (h : Starts ev id role model) : Head id role model := by
  obtain ⟨root, msg, hcarries, hget, -, rfl, rfl, rfl⟩ := h
  have hfound := (found_of_json_parse hcarries.1.1).get (by decide) hget
  have hdepth : 30 + 1 ≤ JSON_MAX_DEPTH := by decide
  have hobj : ∀ v ∈ some msg, Found (30 + 1) v := by
    rintro _ ⟨⟩
    exact hfound
  exact ⟨span_or_mem hdepth hobj empty_string_mem, span_or_mem hdepth hobj assistant_mem,
    span_or_mem hdepth hobj empty_string_mem⟩

theorem exists_events {bs parts} (h : List.Forall₂ BlockEvents bs parts) {b} (hb : b ∈ bs) :
    ∃ evs, BlockEvents b evs := by
  induction h with
  | nil => cases hb
  | @cons b' part bs parts hpart _ ih =>
    rcases mem_cons.mp hb with rfl | hb
    · exact ⟨part, hpart⟩
    · exact ih hb

end Accepted

section Room

variable {cap : Nat} {id role model : List UInt8} {bs : List block_spec}

theorem slack_eq (h : ∀ b ∈ bs, b.written = b.meant) :
    bs.foldl (fun _ b => b.slack b.written) 0 = bs.foldl (fun _ b => b.slack b.meant) 0 := by
  cases bs using reverseRecOn with
  | nil => rfl
  | append_singleton bs b =>
    rw [foldl_append, foldl_append, foldl_cons, foldl_cons, foldl_nil, foldl_nil,
      h b (mem_append_right _ mem_cons_self)]

/-- What needs no room is part of the blocks. -/
theorem slack_le_content (h : ∀ b ∈ bs, b.written = b.meant) :
    bs.foldl (fun _ b => b.slack b.meant) 0 ≤ (content (bs.map block_spec.meant)).length := by
  cases bs using reverseRecOn with
  | nil => exact le_rfl
  | append_singleton bs b =>
    have hslack := (@slack_le b).1
    rw [h b (mem_append_right _ mem_cons_self)] at hslack
    rw [foldl_append, foldl_cons, foldl_nil, map_append, map_cons, map_nil, content_append, length_append]
    omega

/-- The empty message is that of no other one. -/
theorem empty_of_body {parts} (hparts : List.Forall₂ BlockEvents bs parts)
    (h : EMPTY_MSG.bytes = body_meant id role model bs) : head id role model = EMPTY_MSG.bytes ∧ bs = [] := by
  cases bs using reverseRecOn with
  | nil =>
    rw [body_meant, map_nil, content_nil, List.append_nil] at h
    exact ⟨h.symm, rfl⟩
  | append_singleton bs b =>
    obtain ⟨evs, hevs⟩ := exists_events hparts (mem_append_right bs (mem_cons_self (a := b)))
    obtain ⟨t, ht⟩ := meant_last hevs
    rw [body_meant, map_append, map_cons, map_nil, content_append, ht, ← append_assoc, ← append_assoc] at h
    have hlast := congrArg getLast? h
    rw [getLast?_concat] at hlast
    cases hlast

end Room

/-- A message is reassembled into the document it means, byte for byte, exactly
    when no text block begins with a text of its own, no tool input that is an
    object is longer than `SSE_TOOL_INPUT_MAX`, the deltas of other blocks are
    empty, no block is nested too deep for its place, the stop reason is neither
    empty nor longer than its buffer, the blocks are not too many to be counted,
    and the buffer has room for them in front of its reserve. -/
theorem reassembly_lossless_iff (cap : Nat) (hcap : 192 ≤ cap) (id role model : List UInt8) (bs : List block_spec)
    (stops : List (Option (List UInt8))) (evs : List sse_event_t) (hevents : MessageEvents id role model bs stops evs) :
    ((sse_msg_finish (evs.foldl sse_msg_event (sse_msg_init true cap))).1 = SSE_OK ∧
      (sse_msg_finish (evs.foldl sse_msg_event (sse_msg_init true cap))).2.2.w.text =
        document_meant id role model bs stops) ↔
    (∀ b ∈ bs, b.Kept) ∧ (∀ b ∈ bs, Value BLOCK_DEPTH .object b.meant) ∧ StopKept stops ∧ bs.length ≤ 2 ^ 32 ∧
      Room cap id role model bs := by
  obtain ⟨x, hfront, htext, hcode, ⟨us, hus⟩, -⟩ := message_run hcap hevents
  obtain ⟨first, parts, deltas, last, hstarts, hparts, hdeltas, hends, -⟩ := hevents
  have hhead := hstarts.head
  have hobjects (hkept : ∀ b ∈ bs, b.Kept) : ∀ b ∈ bs.map block_spec.meant, ∃ depth, Value depth .object b := by
    intro b hb
    obtain ⟨b', hb', rfl⟩ := mem_map.mp hb
    obtain ⟨evs', hevs'⟩ := exists_events hparts hb'
    exact meant_object hevs' (hkept b' hb')
  have hwritten (hkept : ∀ b ∈ bs, b.Kept) (hvalue : ∀ b ∈ bs, Value BLOCK_DEPTH .object b.meant) :
      ∀ b ∈ bs, b.written = b.meant := by
    intro b hb
    obtain ⟨evs', hevs'⟩ := exists_events hparts hb
    exact written_eq_meant hevs' (hkept b hb) (hvalue b hb)
  rw [htext, hcode, document_meant]
  constructor
  · rintro ⟨hparse, hsame⟩
    have hstop := stop_kept_of_eq hsame
    have hvalueStop := stop_text_of_kept hstop ▸ stop_text_value hus
    rw [stop_text_of_kept hstop] at hsame hparse
    have hbody := append_cancel_right hsame
    cases hfront with
    | whole hjoined hroom =>
      rw [hjoined, body_meant] at hbody
      have hcontent := append_cancel_left hbody
      obtain ⟨hkept, hcount⟩ := kept_of_content_eq hcontent
      rw [hjoined, hcontent, accepted_iff hhead (hobjects hkept) hvalueStop] at hparse
      have hvalue : ∀ b ∈ bs, Value BLOCK_DEPTH .object b.meant := fun b hb => hparse _ (mem_map_of_mem hb)
      refine ⟨hkept, hvalue, hstop, hcount, Or.inr ?_⟩
      rwa [hjoined, hcontent, slack_eq (hwritten hkept hvalue)] at hroom
    | short hlt =>
      have hle := @length_joined_le_content bs
      rw [hbody, body_meant, length_append, length_append] at hlt
      omega
    | empty hempty =>
      obtain ⟨hhead', rfl⟩ := empty_of_body hparts (hempty.symm.trans hbody)
      exact ⟨forall_mem_nil _, forall_mem_nil _, hstop, Nat.zero_le _, Or.inl ⟨hhead', rfl⟩⟩
  · rintro ⟨hkept, hvalue, hstop, hcount, hroom⟩
    have hsame := hwritten hkept hvalue
    have hcontent := joined_eq_content hsame hcount
    have hbody : x = body_meant id role model bs := by
      cases hfront with
      | whole hjoined => rw [hjoined, hcontent, body_meant]
      | short hlt hfull hne =>
        rcases hroom with ⟨-, hnil⟩ | hroom
        · exact absurd hnil hne
        · rw [hcontent, slack_eq hsame] at hfull
          exact absurd hroom (Nat.not_lt.mpr hfull)
      | empty hempty hfull =>
        rcases hroom with ⟨hhead', rfl⟩ | hroom
        · rw [hempty, body_meant, map_nil, content_nil, List.append_nil, hhead']
        · have hle := slack_le_content hsame
          rw [body_meant, length_append] at hroom
          omega
    rw [hbody, stop_text_of_kept hstop]
    refine ⟨(accepted_iff hhead (hobjects hkept) (stop_text_of_kept hstop ▸ stop_text_value hus)).mpr ?_, rfl⟩
    intro b hb
    obtain ⟨b', hb', rfl⟩ := mem_map.mp hb
    exact hvalue b' hb'

/-- The conversation without a text in front of the pieces of its first block,
    and without a thought in the last one. -/
theorem conversation_lossless :
    (sse_msg_finish ((conversation [] []).foldl sse_msg_event (sse_msg_init true 4096))).1 = SSE_OK ∧
      (sse_msg_finish ((conversation [] []).foldl sse_msg_event (sse_msg_init true 4096))).2.2.w.text =
        document_meant (quoted K_NAME) ASSISTANT.bytes EMPTY_STRING.bytes (conversation_blocks [] [])
          [none, some K_TOOL_USE.bytes] := by
  have hmessage := @conversation_message [] []
    ⟨_, opens_of (by decide +kernel) (by decide +kernel) (by decide +kernel), by decide +kernel, by decide +kernel⟩
    (thought_piece_delta (by decide +kernel) (by decide +kernel) (by decide +kernel))
  refine (reassembly_lossless_iff 4096 (by decide) _ _ _ _ _ _ hmessage).mpr ⟨?_, ?_, ?_, by decide, Or.inr ?_⟩
  · simp only [conversation_blocks, forall_mem_cons]
    exact ⟨rfl, fun _ => by decide, forall_mem_singleton.mpr rfl, forall_mem_nil _⟩
  · exact fun b hb => @conversation_value _ [] ⟨_, .nil⟩ empty_string_mem _ (mem_map_of_mem hb)
  · intro raw hraw
    cases hraw
    decide
  · rw [body_meant, conversation_meant]
    decide +kernel

/-- The text that the first block begins with is not in the document. -/
theorem start_text_lost :
    MessageEvents (quoted K_NAME) ASSISTANT.bytes EMPTY_STRING.bytes (conversation_blocks K_TEXT.bytes [])
        [none, some K_TOOL_USE.bytes] (conversation K_TEXT.bytes []) ∧
      (document_meant (quoted K_NAME) ASSISTANT.bytes EMPTY_STRING.bytes (conversation_blocks K_TEXT.bytes [])
        [none, some K_TOOL_USE.bytes]).length < 4096 ∧
      (sse_msg_finish ((conversation K_TEXT.bytes []).foldl sse_msg_event (sse_msg_init true 4096))).2.2.w.text ≠
        document_meant (quoted K_NAME) ASSISTANT.bytes EMPTY_STRING.bytes (conversation_blocks K_TEXT.bytes [])
          [none, some K_TOOL_USE.bytes] := by
  have hmessage := @conversation_message K_TEXT.bytes []
    ⟨_, opens_of (by decide +kernel) (by decide +kernel) (by decide +kernel), by decide +kernel, by decide +kernel⟩
    (thought_piece_delta (by decide +kernel) (by decide +kernel) (by decide +kernel))
  rw [document_meant, body_meant, conversation_meant]
  exact ⟨hmessage, by decide +kernel, by decide +kernel⟩

end fable.sse
