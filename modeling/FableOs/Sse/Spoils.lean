import FableOs.Sse.Grows

namespace fable.sse

open fable.json List

/-- The event holds an object, which is what `apply_event` is given. -/
def Reads (ev : sse_event_t) (root : json_value_t) : Prop :=
  json_parse (some ev.data) = (JSON_OK, root) ∧ root.type = .object

/-- An `error` event. -/
def ReportsError (ev : sse_event_t) : Prop := ∃ root, Reads ev root ∧ event_kind ev root = K_ERROR.bytes

/-- The event writes something that no reader accepts where it stands: a tool
    input or a block that is nested too deep there, or a block without its comma. -/
inductive Spoils (m : sse_msg_t) (ev : sse_event_t) : Prop
  | stop {root : json_value_t} (hreads : Reads ev root) (hkind : event_kind ev root = K_CONTENT_BLOCK_STOP.bytes)
      (h : SpoilsClose m)
  | start {root : json_value_t} (hreads : Reads ev root) (hkind : event_kind ev root = K_CONTENT_BLOCK_START.bytes)
      (h : SpoilsClose m)
  | block {root cb : json_value_t} (hreads : Reads ev root) (hkind : event_kind ev root = K_CONTENT_BLOCK_START.bytes)
      (hcb : json_get (some root) (some K_CONTENT_BLOCK) = (JSON_OK, cb)) (htype : cb.type = .object)
      (h : SpoilsOpen (ready m) cb)

section Events

variable {m : sse_msg_t} {ev : sse_event_t} {root : json_value_t}

theorem Reads.not_done (h : Reads ev root) : ev.data ≠ DONE_TEXT.bytes := by
  intro hdone
  have hrefused : (json_parse (some DONE_TEXT.bytes)).1 ≠ JSON_OK := by decide
  rw [← hdone, h.1] at hrefused
  exact hrefused rfl

theorem sse_msg_event_eq (hclosed : m.closed = false) (h : Reads ev root) :
    sse_msg_event m ev = apply_event m (event_kind ev root) root := by
  have hgood : ¬ (JSON_OK ≠ JSON_OK ∨ root.type ≠ .object) := by
    rintro (hrc | htype)
    · exact hrc rfl
    · exact htype h.2
  rw [sse_msg_event, if_neg (by rw [hclosed]; exact Bool.false_ne_true), if_neg h.not_done, h.1]
  simp only [if_neg hgood]

theorem apply_event_start {kind} (h : kind = K_CONTENT_BLOCK_START.bytes) :
    apply_event m kind root = start_block m root := by
  rw [apply_event, if_neg (by rw [h]; decide), if_pos h]

theorem apply_event_stop {kind} (h : kind = K_CONTENT_BLOCK_STOP.bytes) :
    apply_event m kind root =
      close_block (if m.block = .none then { m with stray_deltas := m.stray_deltas + 1 } else m) := by
  rw [apply_event, if_neg (by rw [h]; decide), if_neg (by rw [h]; decide), if_pos h]

theorem apply_event_error {kind} (h : kind = K_ERROR.bytes) : apply_event m kind root = stream_error m root := by
  rw [apply_event, if_neg (by rw [h]; decide), if_neg (by rw [h]; decide), if_neg (by rw [h]; decide),
    if_neg (by rw [h]; decide), if_neg (by rw [h]; decide), if_neg (by rw [h]; decide), if_neg (by rw [h]; decide),
    if_pos h]

theorem stream_error_spec : (stream_error m root).err ≠ SSE_OK ∧ (stream_error m root).closed = m.closed := by
  have hstream : SSE_ESTREAM ≠ SSE_OK := by decide
  rw [stream_error]
  simp only [set_err]
  split
  · exact ⟨by assumption, rfl⟩
  · exact ⟨hstream, rfl⟩

theorem sse_msg_event_grows (h : ¬ ReportsError ev) : Grows m (sse_msg_event m ev) := by
  unfold sse_msg_event
  split
  · exact Grows.refl
  split
  · exact Grows.refl
  cases hparse : json_parse (some ev.data) with
  | mk rc root =>
    simp only
    split
    · exact Grows.refl
    · rename_i hgood
      rw [not_or, not_not, not_not] at hgood
      obtain ⟨rfl, htype⟩ := hgood
      exact apply_event_grows (fun hkind => h ⟨root, ⟨hparse, htype⟩, hkind⟩) root

theorem Inv.after_delta (h : Inv m) {depth : Nat} (hdepth : depth + 2 ≤ JSON_MAX_DEPTH) (hroot : Found (depth + 2) root) :
    Inv (apply_delta m root) := by
  rw [apply_delta]
  cases hget : json_get (some root) (some K_DELTA) with
  | mk rc d =>
    simp only
    split
    · exact h
    · rename_i hgood
      have hrc : rc = JSON_OK := by
        by_contra hne
        exact hgood (Or.inl hne)
      subst hrc
      have hd := hroot.get hdepth hget
      split
      · exact h
      split
      · exact h
      split
      · rename_i htext
        exact h.after_text_delta htext.2 (Nat.le_of_succ_le hdepth) hd
      split
      · exact h.after_input_delta d
      · exact h

/-- The stop reason that a `message_delta` reports, as it is written. -/
def stop_of (root : json_value_t) : Option (List UInt8) :=
  let (rc, d) := json_get (some root) (some K_DELTA)
  let (rc', sr) := json_get (some d) (some K_STOP_REASON)
  if rc = JSON_OK ∧ rc' = JSON_OK then str_inner sr else none

theorem stop_of_units {depth : Nat} (hdepth : depth + 2 ≤ JSON_MAX_DEPTH) (hroot : Found (depth + 2) root) {raw}
    (h : stop_of root = some raw) : ∃ us, Units raw us := by
  rw [stop_of] at h
  cases hget : json_get (some root) (some K_DELTA) with
  | mk rc d =>
    cases hget' : json_get (some d) (some K_STOP_REASON) with
    | mk rc' sr =>
      simp only [hget, hget'] at h
      split at h
      · rename_i hrc
        obtain ⟨rfl, rfl⟩ := hrc
        exact str_inner_units ((hroot.get hdepth hget).get (Nat.le_of_succ_le hdepth) hget') h
      · cases h

theorem stop_delta_eq : stop_delta m root =
    match stop_of root with
    | none => m
    | some inner =>
      if inner.length < SSE_STOP_MAX then { m with stop := inner }
      else { m with stop := [], unknown_events := m.unknown_events + 1 } := rfl

/-- The raw stop reason goes out between two quotes. -/
theorem Inv.after_stop_delta (h : Inv m) {depth : Nat} (hdepth : depth + 2 ≤ JSON_MAX_DEPTH)
    (hroot : Found (depth + 2) root) : Inv (stop_delta m root) := by
  rw [stop_delta_eq]
  split
  · exact h
  · rename_i inner hinner
    split
    · rename_i hlength
      exact { h with stop := stop_of_units hdepth hroot hinner, stop_length := hlength }
    · exact { h with stop := ⟨[], .nil⟩, stop_length := Nat.succ_pos 31 }

theorem Inv.after_stream_error (h : Inv m) : Inv (stream_error m root) := by
  rw [stream_error]
  simp only [set_err]
  split
  · exact h
  · exact h

theorem Inv.after_start (h : Inv m) (hroot : Found JSON_MAX_DEPTH root) (hclose : ¬ SpoilsClose m)
    (hopen : ∀ cb, json_get (some root) (some K_CONTENT_BLOCK) = (JSON_OK, cb) → cb.type = .object →
      ¬ SpoilsOpen (ready m) cb) : Inv (start_block m root) := by
  obtain ⟨hready, hblock, hbegun⟩ := h.after_ready hclose
  cases hget : json_get (some root) (some K_CONTENT_BLOCK) with
  | mk rc cb =>
    by_cases hgood : rc = JSON_OK ∧ cb.type = .object
    · obtain ⟨rfl, htype⟩ := hgood
      have hcb := hroot.get (by decide) hget
      rw [start_block_eq hready.ok hget htype hcb.len_eq]
      exact hready.after_open hblock hbegun (by decide) hcb (hopen cb hget htype)
    · have hbad : rc ≠ JSON_OK ∨ cb.type ≠ .object := by
        by_contra hneither
        rw [not_or, not_not, not_not] at hneither
        exact hgood hneither
      rw [start_block_bad hget hbad]
      exact hready

/-- An event that does not spoil the document keeps it completable. -/
theorem Inv.after_event (h : Inv m) (hspoils : ¬ Spoils m ev) : Inv (sse_msg_event m ev) := by
  rw [sse_msg_event]
  split
  · exact h
  split
  · exact h
  cases hparse : json_parse (some ev.data) with
  | mk rc root =>
    simp only
    split
    · exact h
    rename_i hgood
    rw [not_or, not_not, not_not] at hgood
    obtain ⟨rfl, htype⟩ := hgood
    have hreads : Reads ev root := ⟨hparse, htype⟩
    have hroot := found_of_json_parse hparse
    rw [apply_event]
    split
    · exact h.after_delta (by decide) hroot
    split
    · rename_i hkind
      exact h.after_start hroot (fun hclose => hspoils (.start hreads hkind hclose)) fun cb hcb htype' hopen =>
        hspoils (.block hreads hkind hcb htype' hopen)
    split
    · rename_i hkind
      split
      · rename_i hblock
        have hstray : Inv { m with stray_deltas := m.stray_deltas + 1 } := h
        refine hstray.after_close fun hclose => ?_
        have htool : m.block = .tool := hclose.1
        cases hblock.symm.trans htool
      · exact h.after_close fun hclose => hspoils (.stop hreads hkind hclose)
    split
    · cases hget : json_get (some root) (some K_MESSAGE) with
      | mk rc msg =>
        simp only
        have hmsg : ∀ v ∈ (if rc = JSON_OK ∧ msg.type = .object then some msg else none), Found (30 + 1) v := by
          intro v hv
          split at hv
          · rename_i hgood
            obtain ⟨rfl, -⟩ := hgood
            cases hv
            exact hroot.get (by decide) hget
          · cases hv
        exact h.after_begin (by decide) hmsg
    split
    · exact h.after_stop_delta (by decide) hroot
    split
    · exact h
    split
    · exact h
    split
    · exact h.after_stream_error
    · exact h

end Events

/-- `sse_msg_finish` will not succeed, whatever follows. -/
def Doomed (m : sse_msg_t) : Prop := m.err ≠ SSE_OK ∨ m.started = true ∧ Rejected m.w.text

section Doomed

variable {m m' : sse_msg_t} {ev : sse_event_t}

theorem Doomed.grows (h : Doomed m) (hgrows : Grows m m') : Doomed m' := by
  rcases h with herr | ⟨hstarted, hrejected⟩
  · exact Or.inl (hgrows.err ▸ herr)
  · obtain ⟨more, hmore⟩ := hgrows.text
    exact Or.inr ⟨hgrows.started hstarted, hmore ▸ hrejected.append more⟩

/-- The document of a tool block that is spoilt, at the moment it is closed. -/
theorem doomed_of_spoilsClose (h : Inv m) (hspoils : SpoilsClose m) : Doomed (close_block m) := by
  obtain ⟨hblock, hinput, hfits, hdeep⟩ := hspoils
  obtain ⟨before, v, after, ⟨hbefore, hvalue, hafter⟩, hinput'⟩ := input_ok_iff hinput
  have hv : ¬ Value INPUT_DEPTH .object v := fun hv => hdeep ⟨before, v, after, ⟨hbefore, hv, hafter⟩, hinput'⟩
  have hclose : (close_block m).w = m.w.push (m.tool ++ [CLOSE_BRACE]) := by
    rw [close_block, write_close_input hblock hinput hfits]
    rfl
  have hsame : (close_block m).started = m.started := by
    rw [close_block, write_close_input hblock hinput hfits]
    rfl
  have hfrozen := hfits.1
  cases h.doc with
  | waiting _ _ hb => cases hblock.symm.trans hb
  | refused _ _ hf => cases hfrozen.symm.trans hf
  | closed _ _ _ _ _ hb =>
    rw [hblock] at hb
    rcases hb hfrozen with hb | hb <;> cases hb
  | text _ _ _ _ _ _ hb => cases hblock.symm.trans hb
  | tool hstarted hhead hbs htool hname htext _ _ _ =>
    refine Or.inr ⟨hsame.trans hstarted, ?_⟩
    have hrejected := rejected_deep_input hhead hbs htool hname hbefore hvalue hv
      after
    have hshape := hrejected.append [CLOSE_BRACE]
    rw [hclose, push_text, htext, hinput']
    simpa only [append_assoc] using hshape

/-- The document of a block that is spoilt, at the moment it is opened. -/
theorem doomed_of_spoilsOpen {cb} (h : Inv m) (hblock : m.block = .none)
    (hbegun : m.started = true ∨ m.frozen = true) {depth : Nat} (hfound : Found depth cb)
    (htype : cb.type = .object) (hspoils : SpoilsOpen m cb) :
    Doomed { open_block m cb with blocks := (open_block m cb).blocks + 1 } := by
  obtain ⟨hfits, hwhy⟩ := hspoils
  obtain ⟨hstarted, id, role, model, bs, hhead, hbs, htext, hfirst⟩ := h.before_block hblock hbegun hfits
  have hopened : (open_block m cb).started = true ∧
      (open_block m cb).w.text = head id role model ++ (content bs ++ (comma_text m ++ opening cb)) := by
    rw [open_block]
    simp only [mput_n_of_fits hfits]
    cases block_kind cb <;> exact ⟨hstarted, by simp [htext]⟩
  refine Or.inr ⟨hopened.1, ?_⟩
  rw [hopened.2]
  by_cases hblocks : m.blocks = 0 ↔ bs = []
  · -- the comma is where it belongs, so it is the block itself
    rcases hwhy with ⟨hkind, hdeep⟩ | ⟨hzero, hlast⟩
    · have hcb : Value depth .object cb.text := htype ▸ hfound.text
      have hopening : opening cb = cb.text := by simp only [opening, hkind]
      rw [← append_assoc (content bs), content_comma hblocks, hopening]
      exact rejected_deep_block hhead hbs hcb hdeep
    · rw [htext] at hlast
      exact absurd ((last_bracket_iff hbs).mpr (hblocks.mp hzero)) hlast
  · -- there is a block before it and no comma
    have hzero : m.blocks = 0 := by
      by_contra hne
      exact hblocks ⟨fun hz => absurd hz hne, hfirst⟩
    have hne : bs ≠ [] := fun hnil => hblocks ⟨fun _ => hnil, fun _ => hzero⟩
    obtain ⟨bs', b, rfl⟩ : ∃ bs' b, bs = bs' ++ [b] := by
      rcases eq_nil_or_concat bs with hnil | ⟨bs', b, hconcat⟩
      · exact absurd hnil hne
      · exact ⟨bs', b, hconcat.trans concat_eq_append⟩
    obtain ⟨rest, hrest⟩ : ∃ rest, opening cb = OPEN_BRACE :: rest := by
      cases hkind : block_kind cb with
      | text => exact ⟨TEXT_OPEN.bytes.tail, by simp only [opening, hkind]; rfl⟩
      | tool =>
        have hhead := @tool_head_eq (span_or (some cb) K_ID EMPTY_STRING) (span_or (some cb) K_NAME EMPTY_STRING) []
        rw [List.append_nil] at hhead
        exact ⟨_, by simp only [opening, hkind]; exact hhead⟩
      | none => exact absurd hkind block_kind_ne_none
      | other =>
        obtain ⟨rest, hrest⟩ := object_head (htype ▸ hfound.text)
        exact ⟨rest, by simp only [opening, hkind]; exact hrest⟩
    rw [comma_text, if_neg (not_not.mpr hzero), nil_append, content_append, append_assoc, hrest]
    refine rejected_missing_comma hhead (fun x hx => hbs x ?_) (hbs b ?_)
    · exact mem_append_left _ hx
    · exact mem_append_right _ (mem_singleton_self b)

theorem doomed_of_start (h : Inv m) (hspoils : SpoilsClose m) (root : json_value_t) : Doomed (start_block m root) := by
  have hblock : m.block ≠ .none := by
    rw [hspoils.1]
    decide
  have hready : Grows (close_block m) (ready m) := by
    rw [ready, if_pos hblock]
    exact begin_message_grows none
  exact ((doomed_of_spoilsClose h hspoils).grows hready).grows (start_block_behind_ready root)

theorem doomed_of_spoils (h : Inv m) (hclosed : m.closed = false) (hspoils : Spoils m ev) :
    Doomed (sse_msg_event m ev) := by
  cases hspoils with
  | stop hreads hkind hclose =>
    have hblock : m.block ≠ .none := by
      rw [hclose.1]
      decide
    rw [sse_msg_event_eq hclosed hreads, apply_event_stop hkind, if_neg hblock]
    exact doomed_of_spoilsClose h hclose
  | @start root hreads hkind hclose =>
    rw [sse_msg_event_eq hclosed hreads, apply_event_start hkind]
    exact doomed_of_start h hclose root
  | @block root cb hreads hkind hcb htype hopen =>
    rw [sse_msg_event_eq hclosed hreads, apply_event_start hkind]
    by_cases hclose : SpoilsClose m
    · exact doomed_of_start h hclose root
    · obtain ⟨hready, hblock, hbegun⟩ := h.after_ready hclose
      have hfound := (found_of_json_parse hreads.1).get (by decide) hcb
      rw [start_block_eq hready.ok hcb htype hfound.len_eq]
      exact doomed_of_spoilsOpen hready hblock hbegun hfound htype hopen

theorem doomed_of_error (hclosed : m.closed = false) (herror : ReportsError ev) :
    Doomed (sse_msg_event m ev) ∧ (sse_msg_event m ev).closed = false := by
  obtain ⟨root, hreads, hkind⟩ := herror
  rw [sse_msg_event_eq hclosed hreads, apply_event_error hkind]
  exact ⟨Or.inl stream_error_spec.1, stream_error_spec.2.trans hclosed⟩

theorem event_closed (hclosed : m.closed = false) (ev : sse_event_t) : (sse_msg_event m ev).closed = false := by
  by_cases herror : ReportsError ev
  · exact (doomed_of_error hclosed herror).2
  · exact (sse_msg_event_grows herror).closed.trans hclosed

theorem Doomed.after_run (h : Doomed m) (hclosed : m.closed = false) (evs : List sse_event_t) :
    Doomed (evs.foldl sse_msg_event m) ∧ (evs.foldl sse_msg_event m).closed = false := by
  induction evs generalizing m with
  | nil => exact ⟨h, hclosed⟩
  | cons ev evs ih =>
    refine ih ?_ (event_closed hclosed ev)
    by_cases herror : ReportsError ev
    · exact (doomed_of_error hclosed herror).1
    · exact h.grows (sse_msg_event_grows herror)

end Doomed

end fable.sse
