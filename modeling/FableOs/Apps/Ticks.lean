import FableOs.Apps.Handler
import FableOs.Lib.Arbiter
import Mathlib.Data.List.FinRange

namespace fable.apps

/-! The periodic handlers of the open documents, and how one sound slot is
shared among them. -/

open Arbiter

abbrev APP_MAX_INSTANCES : Nat := 4

section Passes

inductive event_kind_t where
  | AE_CLICK
  | AE_SUBMIT
  | AE_TICK
  deriving DecidableEq, Repr

structure app_handler_t where
  ev : event_kind_t
  first : Nat
  count : Nat
  period : Nat
  due : Nat
  deriving DecidableEq, Repr

structure app_inst_t (V : Type) where
  used : Bool
  win : Nat
  doc : doc_t V
  vars : V
  handler : List app_handler_t

/-- The statics of `apps/runtime.c` and the broker's. -/
structure runtime_t (V : Type) where
  pool : Fin APP_MAX_INSTANCES → app_inst_t V
  rr_cursor : Nat
  cap : cap_t

variable {V : Type}

/-- Whether a handler runs at a reading, and its next due time. A due time more
    than one period away means that the clock went backwards. -/
def app_handler_t.schedule (h : app_handler_t) (env_ms : Nat) : Bool × app_handler_t :=
  if h.ev ≠ .AE_TICK ∨ h.period = 0 then (false, h)
  else
    let due := if (env_ms + h.period) % 2 ^ 64 < h.due then env_ms else h.due
    if env_ms < due then (false, { h with due := due })
    else (true, { h with due := (env_ms + h.period) % 2 ^ 64 })

/-- The handlers of one instance in order, each with a budget of its own. -/
def run_handlers (doc : doc_t V) (env : event_env_t) : List app_handler_t → exec_t V → List app_handler_t × exec_t V
  | [], st => ([], st)
  | h :: rest, st =>
    let (due, h') := h.schedule env.env_ms
    let st := if due then
        (exec_block doc env (APP_MAX_IF_DEPTH + 1) h.first h.count { st with budget := APP_MAX_STEPS }).2
      else st
    let (rest', st) := run_handlers doc env rest st
    (h' :: rest', st)

/-- One turn of the loop over the instances: instance `i` at position `pos` of
    the rotation. -/
def run_inst (env_ms : Nat) (audio : Bool) (r : runtime_t V) (i : Fin APP_MAX_INSTANCES) (pos : Nat) :
    runtime_t V × List ask_t :=
  let inst := r.pool i
  let (handler, st) := run_handlers inst.doc ⟨inst.win, env_ms, [], audio⟩ inst.handler ⟨inst.vars, 0, r.cap, []⟩
  ({ pool := Function.update r.pool i { inst with handler := handler, vars := st.vars }
     cap := st.cap
     -- whoever took the slot goes last next time
     rr_cursor := if r.cap.pend.isSome = false ∧ st.cap.pend.isSome = true then pos + 1 else r.rr_cursor }, st.asked)

/-- What each instance asked for in a pass, in the order of the pass. -/
abbrev pass_t := List (Fin APP_MAX_INSTANCES × List ask_t)

def run_insts (env_ms : Nat) (audio : Bool) : List (Fin APP_MAX_INSTANCES × Nat) → runtime_t V → runtime_t V × pass_t
  | [], r => (r, [])
  | (i, pos) :: rest, r =>
    let (r, asks) := run_inst env_ms audio r i pos
    let (r, pass) := run_insts env_ms audio rest r
    (r, (i, asks) :: pass)

def used_idx (pool : Fin APP_MAX_INSTANCES → app_inst_t V) : List (Fin APP_MAX_INSTANCES) :=
  (List.finRange APP_MAX_INSTANCES).filter fun i => (pool i).used

def any_tick (pool : Fin APP_MAX_INSTANCES → app_inst_t V) : Bool :=
  (used_idx pool).any fun i => (pool i).handler.any fun h => h.ev = .AE_TICK

/-- One pass: the used instances from the cursor on, around the end. -/
def run_ticks (r : runtime_t V) (env_ms : Nat) (audio : Bool) : runtime_t V × pass_t :=
  if any_tick r.pool = false then (r, [])
  else run_insts env_ms audio ((used_idx r.pool).zipIdx.rotate (r.rr_cursor % (used_idx r.pool).length)) r

/-- How `audio_tone_ex` ended. -/
inductive audio_rc_t where
  | AUDIO_OK
  | AUDIO_ENOSINK
  | AUDIO_ENOSPC
  | AUDIO_EINVAL
  | failed
  deriving DecidableEq, Repr

def audio_rc_t.phrase : audio_rc_t → text_t
  | .AUDIO_OK => sse.ascii ['o', 'k']
  | .AUDIO_ENOSINK => sse.ascii ['n', 'o', ' ', 'a', 'u', 'd', 'i', 'o', ' ', 'd', 'r', 'i', 'v', 'e', 'r']
  | .AUDIO_ENOSPC => sse.ascii ['t', 'o', 'o', ' ', 'l', 'o', 'n', 'g', ' ', 'f', 'o', 'r', ' ', 't', 'h', 'e', ' ',
      'b', 'u', 'f', 'f', 'e', 'r']
  | .AUDIO_EINVAL => sse.ascii ['t', 'h', 'e', ' ', 'k', 'e', 'r', 'n', 'e', 'l', ' ', 'r', 'e', 'f', 'u', 's', 'e', 'd',
      ' ', 'i', 't']
  | .failed => sse.ascii ['t', 'h', 'e', ' ', 'd', 'r', 'i', 'v', 'e', 'r', ' ', 'f', 'a', 'i', 'l', 'e', 'd']

def inst_of (pool : Fin APP_MAX_INSTANCES → app_inst_t V) (id : Nat) : Option (Fin APP_MAX_INSTANCES) :=
  (used_idx pool).find? fun i => (pool i).win = id

/-- `app_cap_deliver` -/
def deliver (pool : Fin APP_MAX_INSTANCES → app_inst_t V) (p : pend_t) (phrase : text_t) :
    Fin APP_MAX_INSTANCES → app_inst_t V :=
  match p.into, inst_of pool p.app with
  | some tgt, some i =>
    Function.update pool i { pool i with vars := (pool i).doc.put tgt (.AV_STR phrase) (pool i).vars }
  | _, _ => pool

/-- `app_service`, with the readings before and after the call. -/
def app_service (r : runtime_t V) (now_ms done_ms : Nat) (rc : audio_rc_t) : runtime_t V :=
  match r.cap.pend with
  | none => r
  | some p =>
    match app_cap_service r.cap now_ms (inst_of r.pool p.app).isSome done_ms with
    | (cap, none) => { r with cap := cap }
    | (cap, some p) => { r with cap := cap, pool := deliver r.pool p rc.phrase }

end Passes

section Runs

variable {V : Type}

inductive step_t where
  | pass (env_ms : Nat) (audio : Bool)
  | pump (now_ms done_ms : Nat) (rc : audio_rc_t)
  deriving DecidableEq, Repr

/-- What a pass shows: who asked for a sound, and who was granted the slot. -/
def turn_of (pass : pass_t) : Turn (Fin APP_MAX_INSTANCES) where
  asked i := pass.any fun x => x.1 = i && x.2.any ask_t.competes
  granted := (pass.find? fun x => x.2.any ask_t.granted).map Prod.fst

/-- The passes of a run. -/
def turns (r : runtime_t V) : List step_t → List (Turn (Fin APP_MAX_INSTANCES))
  | [] => []
  | .pass env_ms audio :: rest => turn_of (run_ticks r env_ms audio).2 :: turns (run_ticks r env_ms audio).1 rest
  | .pump now_ms done_ms rc :: rest => turns (app_service r now_ms done_ms rc) rest

end Runs

section Refinement

variable {V : Type} {r : runtime_t V} {env_ms : Nat} {audio : Bool}

theorem requests_handlers (doc : doc_t V) (env : event_env_t) (hs : List app_handler_t) (st : exec_t V) :
    Requests env st (run_handlers doc env hs st).2 := by
  induction hs generalizing st with
  | nil => exact .of_same rfl rfl
  | cons h rest ih =>
    simp only [run_handlers]
    cases (h.schedule env.env_ms).1 with
    | false => exact ih st
    | true =>
      have hstart : Requests env st { st with budget := APP_MAX_STEPS } := .of_same rfl rfl
      exact (hstart.trans (requests_block _ _ _ _)).trans (ih _)

theorem asked_inst (r : runtime_t V) (i : Fin APP_MAX_INSTANCES) (pos : Nat) :
    Asked audio env_ms r.cap (run_inst env_ms audio r i pos).2 (run_inst env_ms audio r i pos).1.cap := by
  obtain ⟨asks, hasks, hasked⟩ := requests_handlers (r.pool i).doc ⟨(r.pool i).win, env_ms, [], audio⟩ (r.pool i).handler
    ⟨(r.pool i).vars, 0, r.cap, []⟩
  have hlist : (run_inst env_ms audio r i pos).2 = asks := hasks.trans (List.nil_append asks)
  rw [hlist]
  exact hasked

/-- A slot that is not open: the instance gets nothing and the rotation stays. -/
theorem run_inst_of_not_open (hopen : ¬ Open r.cap env_ms) (i : Fin APP_MAX_INSTANCES) (pos : Nat) :
    (run_inst env_ms audio r i pos).2.any ask_t.granted = false ∧
      (run_inst env_ms audio r i pos).1.cap = r.cap ∧ (run_inst env_ms audio r i pos).1.rr_cursor = r.rr_cursor := by
  obtain ⟨hcap, hgranted⟩ := (@asked_inst V env_ms audio r i pos).of_not_open hopen
  refine ⟨hgranted, hcap, if_neg ?_⟩
  rintro ⟨hbefore, hafter⟩
  change (run_inst env_ms audio r i pos).1.cap.pend.isSome = true at hafter
  rw [hcap, hbefore] at hafter
  cases hafter

/-- An open slot: the instance gets it if it competes, and moves to the end of
    the rotation. -/
theorem run_inst_of_open (hopen : Open r.cap env_ms) (i : Fin APP_MAX_INSTANCES) (pos : Nat) :
    (run_inst env_ms audio r i pos).2.any ask_t.granted = (run_inst env_ms audio r i pos).2.any ask_t.competes ∧
      if (run_inst env_ms audio r i pos).2.any ask_t.competes then
        ¬ Open (run_inst env_ms audio r i pos).1.cap env_ms ∧ (run_inst env_ms audio r i pos).1.rr_cursor = pos + 1
      else
        (run_inst env_ms audio r i pos).1.cap = r.cap ∧ (run_inst env_ms audio r i pos).1.rr_cursor = r.rr_cursor := by
  obtain ⟨hgranted, hcap⟩ := (@asked_inst V env_ms audio r i pos).of_open hopen
  refine ⟨hgranted, ?_⟩
  have hcursor : (run_inst env_ms audio r i pos).1.rr_cursor =
      if r.cap.pend.isSome = false ∧ (run_inst env_ms audio r i pos).1.cap.pend.isSome = true then pos + 1
      else r.rr_cursor := rfl
  split_ifs at hcap ⊢
  · refine ⟨fun h => by simp [h.1] at hcap, ?_⟩
    rw [hcursor, if_pos ⟨by simp [hopen.1], hcap⟩]
  · refine ⟨hcap, ?_⟩
    rw [hcursor, hcap, if_neg (by simp [hopen.1])]

/-- Documents neither open nor close while handlers run. -/
theorem used_idx_update {pool i} {inst : app_inst_t V} (h : inst.used = (pool i).used) :
    used_idx (Function.update pool i inst) = used_idx pool := by
  have hused : (fun j => (Function.update pool i inst j).used) = fun j => (pool j).used := by
    funext j
    by_cases hj : j = i
    · subst hj
      simp [h]
    · simp [hj]
  rw [used_idx, hused, used_idx]

variable (ps : List (Fin APP_MAX_INSTANCES × Nat))

theorem used_idx_insts (r : runtime_t V) :
    used_idx (run_insts env_ms audio ps r).1.pool = used_idx r.pool := by
  induction ps generalizing r with
  | nil => rfl
  | cons p rest ih =>
    have hinst : used_idx (run_inst env_ms audio r p.1 p.2).1.pool = used_idx r.pool := used_idx_update rfl
    exact (ih _).trans hinst

theorem map_fst_insts (r : runtime_t V) :
    (run_insts env_ms audio ps r).2.map Prod.fst = ps.map Prod.fst := by
  induction ps generalizing r with
  | nil => rfl
  | cons p rest ih => simp [run_insts, ih]

/-- The cursor of the rotation after a pass in which `i` was granted the slot. -/
def moved (cursor : Nat) : Option (Fin APP_MAX_INSTANCES) → Nat
  | none => cursor
  | some i => ((ps.find? fun p => p.1 = i).map fun p => p.2 + 1).getD cursor

theorem run_insts_of_not_open (hopen : ¬ Open r.cap env_ms) :
    (run_insts env_ms audio ps r).2.find? (fun x => x.2.any ask_t.granted) = none ∧
      (run_insts env_ms audio ps r).1.rr_cursor = r.rr_cursor := by
  induction ps generalizing r with
  | nil => exact ⟨rfl, rfl⟩
  | cons p rest ih =>
    obtain ⟨hgranted, hcap, hcursor⟩ := @run_inst_of_not_open V r env_ms audio hopen p.1 p.2
    obtain ⟨hfind, hrest⟩ := ih (by rwa [hcap] : ¬ Open (run_inst env_ms audio r p.1 p.2).1.cap env_ms)
    refine ⟨?_, hrest.trans hcursor⟩
    change List.find? _ ((p.1, (run_inst env_ms audio r p.1 p.2).2) :: _) = none
    rw [List.find?_cons_of_neg (by simp [hgranted])]
    exact hfind

/-- An open slot goes to the first instance of the pass that competes for it. -/
theorem run_insts_of_open (hnodup : (ps.map Prod.fst).Nodup)
    (hopen : Open r.cap env_ms) :
    (run_insts env_ms audio ps r).2.find? (fun x => x.2.any ask_t.granted) =
        (run_insts env_ms audio ps r).2.find? (fun x => x.2.any ask_t.competes) ∧
      (run_insts env_ms audio ps r).1.rr_cursor = moved ps r.rr_cursor
        (((run_insts env_ms audio ps r).2.find? fun x => x.2.any ask_t.competes).map Prod.fst) := by
  induction ps generalizing r with
  | nil => exact ⟨rfl, rfl⟩
  | cons p rest ih =>
    obtain ⟨hgranted, hmove⟩ := @run_inst_of_open V r env_ms audio hopen p.1 p.2
    have hpass : (run_insts env_ms audio (p :: rest) r).2 = (p.1, (run_inst env_ms audio r p.1 p.2).2) ::
      (run_insts env_ms audio rest (run_inst env_ms audio r p.1 p.2).1).2 := rfl
    have hstate : (run_insts env_ms audio (p :: rest) r).1 =
      (run_insts env_ms audio rest (run_inst env_ms audio r p.1 p.2).1).1 := rfl
    rw [hpass, hstate]
    by_cases hask : (run_inst env_ms audio r p.1 p.2).2.any ask_t.competes = true
    · rw [if_pos hask] at hmove
      obtain ⟨hshut, hcursor⟩ := hmove
      rw [List.find?_cons_of_pos (by simpa only [hgranted]), List.find?_cons_of_pos (by simpa only)]
      refine ⟨rfl, ?_⟩
      rw [(run_insts_of_not_open rest hshut).2, hcursor]
      simp [moved]
    · rw [if_neg hask] at hmove
      obtain ⟨hcap, hcursor⟩ := hmove
      have hnodup' := List.nodup_cons.mp hnodup
      obtain ⟨hfind, hrest⟩ := ih hnodup'.2 (by rwa [hcap] : Open (run_inst env_ms audio r p.1 p.2).1.cap env_ms)
      rw [List.find?_cons_of_neg (by simpa only [hgranted]), List.find?_cons_of_neg (by simpa only)]
      refine ⟨hfind, ?_⟩
      rw [hrest, hcursor]
      cases hwin : (run_insts env_ms audio rest (run_inst env_ms audio r p.1 p.2).1).2.find? fun x => x.2.any ask_t.competes with
      | none => rfl
      | some x =>
        -- the winner is a later instance
        have hmem : x.1 ∈ rest.map Prod.fst := by
          rw [← map_fst_insts rest (run_inst env_ms audio r p.1 p.2).1]
          exact List.mem_map_of_mem (List.mem_of_find?_eq_some hwin)
        have hne : p.1 ≠ x.1 := fun heq => hnodup'.1 (heq ▸ hmem)
        simp [moved, hne]

theorem nodup_used_idx (pool : Fin APP_MAX_INSTANCES → app_inst_t V) : (used_idx pool).Nodup :=
  (List.nodup_finRange _).filter _

theorem map_fst_find? {A B : Type} [DecidableEq A] (p : B → Bool) {l : List (A × B)} (h : (l.map Prod.fst).Nodup) :
    (l.find? fun x => p x.2).map Prod.fst = (l.map Prod.fst).find? fun a => l.any fun x => x.1 = a && p x.2 := by
  induction l with
  | nil => rfl
  | cons x l ih =>
    obtain ⟨hhead, htail⟩ := List.nodup_cons.mp h
    by_cases hx : p x.2 = true
    · simp [hx]
    · simp only [Bool.not_eq_true] at hx
      have hnone : (l.any fun y => y.1 = x.1 && p y.2) = false := by
        rw [List.any_eq_false]
        intro y hy
        have hne : y.1 ≠ x.1 := fun heq => hhead (heq ▸ List.mem_map_of_mem hy)
        simp [hne]
      rw [List.find?_cons_of_neg (by simp [hx]), ih htail, List.map_cons, List.find?_cons_of_neg (by simp [hx, hnone])]
      simp [hx]

theorem map_fst_rotation (l : List (Fin APP_MAX_INSTANCES)) (cursor : Nat) :
    (l.zipIdx.rotate (cursor % l.length)).map Prod.fst = order l cursor := by
  rw [List.map_rotate, List.zipIdx_map_fst, List.rotate_mod, order]

theorem moved_rotation {l} (hnodup : l.Nodup) (cursor : Nat) {winner} (hwinner : ∀ i, winner = some i → i ∈ l) :
    moved (l.zipIdx.rotate (cursor % l.length)) cursor winner = next l cursor winner := by
  cases winner with
  | none => rfl
  | some i =>
    have hi : i ∈ (l.zipIdx.rotate (cursor % l.length)).map Prod.fst := by
      rw [map_fst_rotation, order, List.mem_rotate]
      exact hwinner i rfl
    obtain ⟨p, hp, rfl⟩ := List.mem_map.mp hi
    cases hfind : (l.zipIdx.rotate (cursor % l.length)).find? fun q => q.1 = p.1 with
    | none =>
      have hnone := List.find?_eq_none.mp hfind p hp
      simp at hnone
    | some q =>
      have hq : q.1 = p.1 := by simpa using List.find?_some hfind
      have hmem : q ∈ l.zipIdx := List.mem_rotate.mp (List.mem_of_find?_eq_some hfind)
      obtain ⟨hlt, hget⟩ := List.getElem?_eq_some_iff.mp (List.mem_zipIdx_iff_getElem?.mp hmem)
      have hidx : l.idxOf p.1 = q.2 := by
        rw [← hq, ← hget]
        exact hnodup.idxOf_getElem q.2 hlt
      simp [moved, next, hfind, hidx]

/-- A pass is a turn of the rotating arbiter among the open documents. -/
theorem run_ticks_turn (r : runtime_t V) (env_ms : Nat) (audio : Bool) :
    (∀ i, (turn_of (run_ticks r env_ms audio).2).asked i = true → i ∈ used_idx r.pool) ∧
    (∃ free, (turn_of (run_ticks r env_ms audio).2).granted =
      winner (used_idx r.pool) r.rr_cursor free (turn_of (run_ticks r env_ms audio).2).asked) ∧
    (run_ticks r env_ms audio).1.rr_cursor =
      next (used_idx r.pool) r.rr_cursor (turn_of (run_ticks r env_ms audio).2).granted ∧
    used_idx (run_ticks r env_ms audio).1.pool = used_idx r.pool := by
  unfold run_ticks
  split_ifs with hany
  · exact ⟨by simp [turn_of], ⟨false, rfl⟩, rfl, rfl⟩
  · generalize hps : (used_idx r.pool).zipIdx.rotate (r.rr_cursor % (used_idx r.pool).length) = ps
    have hfst : ps.map Prod.fst = order (used_idx r.pool) r.rr_cursor := by rw [← hps, map_fst_rotation]
    have hmem : ∀ i, i ∈ ps.map Prod.fst → i ∈ used_idx r.pool := by
      intro i hi
      rw [hfst] at hi
      exact List.mem_rotate.mp hi
    have hnames := @map_fst_insts V env_ms audio ps r
    have hasked : ∀ i, (turn_of (run_insts env_ms audio ps r).2).asked i = true → i ∈ used_idx r.pool := by
      intro i hi
      obtain ⟨x, hx, hxi⟩ := List.any_eq_true.mp hi
      have hname : x.1 = i := by simpa using (Bool.and_eq_true_iff.mp hxi).1
      refine hmem i ?_
      rw [← hnames, ← hname]
      exact List.mem_map_of_mem hx
    have hnodup : (ps.map Prod.fst).Nodup := by
      rw [hfst]
      exact List.nodup_rotate.mpr (nodup_used_idx r.pool)
    refine ⟨hasked, ?_, ?_, used_idx_insts ps r⟩
    · by_cases hopen : Open r.cap env_ms
      · refine ⟨true, ?_⟩
        rw [winner, if_pos rfl, ← hfst, ← hnames]
        simp only [turn_of]
        rw [(run_insts_of_open ps hnodup hopen).1]
        exact map_fst_find? (fun asks => asks.any ask_t.competes) (hnames ▸ hnodup)
      · refine ⟨false, ?_⟩
        simp only [turn_of]
        rw [(run_insts_of_not_open ps hopen).1]
        rfl
    · by_cases hopen : Open r.cap env_ms
      · obtain ⟨hfind, hcursor⟩ := @run_insts_of_open V r env_ms audio ps hnodup hopen
        simp only [turn_of]
        rw [hcursor, hfind, ← hps]
        refine moved_rotation (nodup_used_idx r.pool) _ fun i hi => hmem i ?_
        obtain ⟨x, hx, rfl⟩ := Option.map_eq_some_iff.mp hi
        rw [hps] at hx
        rw [← hnames]
        exact List.mem_map_of_mem (List.mem_of_find?_eq_some hx)
      · obtain ⟨hfind, hcursor⟩ := @run_insts_of_not_open V r env_ms audio ps hopen
        simp only [turn_of]
        rw [hcursor, hfind]
        rfl

theorem app_service_kept (r : runtime_t V) (now_ms done_ms : Nat) (rc : audio_rc_t) :
    used_idx (app_service r now_ms done_ms rc).pool = used_idx r.pool ∧
      (app_service r now_ms done_ms rc).rr_cursor = r.rr_cursor := by
  unfold app_service
  split
  · exact ⟨rfl, rfl⟩
  · split
    · exact ⟨rfl, rfl⟩
    · refine ⟨?_, rfl⟩
      simp only [deliver]
      split
      · exact used_idx_update rfl
      · rfl

/-- The passes of every run are turns of the rotating arbiter. -/
theorem turns_rotate (r : runtime_t V) (steps : List step_t) :
    Turns (used_idx r.pool) r.rr_cursor (turns r steps) := by
  induction steps generalizing r with
  | nil => exact .nil _
  | cons step rest ih =>
    cases step with
    | pass env_ms audio =>
      obtain ⟨hasked, ⟨free, hgranted⟩, hcursor, hused⟩ := run_ticks_turn r env_ms audio
      refine .cons free hasked hgranted ?_
      rw [← hcursor, ← hused]
      exact ih _
    | pump now_ms done_ms rc =>
      obtain ⟨hused, hcursor⟩ := app_service_kept r now_ms done_ms rc
      have hrest := ih (app_service r now_ms done_ms rc)
      rwa [hused, hcursor] at hrest

end Refinement

section Fairness

/-- A document that beeps every `period` milliseconds. -/
def beeper (win period : Nat) : app_inst_t Unit where
  used := true
  win := win
  doc := ⟨[.AS_CALL 0], [⟨0, some 0, none, none, none, none⟩], fun _ _ _ _ => ((), .AV_NUM 440000000), fun _ _ _ => ()⟩
  vars := ()
  handler := [⟨.AE_TICK, 0, 1, period, 0⟩]

/-- A slot of the pool that is not in use. -/
def unused : app_inst_t Unit := ⟨false, 0, ⟨[], [], fun _ _ _ _ => ((), .AV_ERR), fun _ _ _ => ()⟩, (), []⟩

/-- Three beepers right after their launch. -/
def three_beepers (first second third : Nat) : runtime_t Unit where
  pool := ![beeper 1 first, beeper 2 second, beeper 3 third, unused]
  rr_cursor := 0
  cap := app_cap_reset

/-- Passes at 0, 700 and 1200 ms, each followed by the pump. -/
def beeping : List step_t :=
  [.pass 0 true, .pump 0 100 .AUDIO_OK, .pass 700 true, .pump 700 700 .AUDIO_OK, .pass 1200 true]

/-- Two documents that beep every 1200 ms and one that beeps every 700 ms: the
    first is granted the slot at 0 and at 1200 ms, the second asks both times
    and is heard at neither nor in between. -/
theorem second_beeper_passed_over : ¬ Fair (turns (three_beepers 1200 1200 700) beeping) := by
  intro hfair
  have hturns : ((turns (three_beepers 1200 1200 700) beeping).map fun t => (t.granted, t.asked 1)) =
      [(some 0, true), (some 2, false), (some 0, true)] := by decide +kernel
  obtain ⟨p, m, q, hlist⟩ := List.length_eq_three.mp (by simpa using congrArg List.length hturns)
  rw [hlist] at hturns hfair
  simp only [List.map_cons, List.map_nil, List.cons.injEq, Prod.mk.injEq, and_true] at hturns
  obtain ⟨⟨hp, hpe⟩, ⟨hm, -⟩, ⟨hq, hqe⟩⟩ := hturns
  obtain ⟨r, hr, hre⟩ := hfair p [m] q List.infix_rfl 0 1 hp hq (by decide) hpe hqe
  simp only [List.cons_append, List.nil_append, List.mem_cons, List.not_mem_nil, or_false] at hr
  obtain rfl | rfl | rfl := hr
  · simp [hp] at hre
  · simp [hm] at hre
  · simp [hq] at hre

/-- The sound slot is shared fairly among the tick handlers in every run in which
    a document that waits asks again whenever a third one asks: so whenever at
    most two documents compete, or their handlers come due together. -/
theorem sound_slot_fair {V : Type} (r : runtime_t V) (steps : List step_t) (hsteady : Steady (turns r steps)) :
    Fair (turns r steps) :=
  (turns_rotate r steps).fair (nodup_used_idx r.pool) hsteady

/-- Five passes of 700 ms, each followed by the pump. -/
def beeping_together : List step_t :=
  [.pass 0 true, .pump 0 100 .AUDIO_OK, .pass 700 true, .pump 700 800 .AUDIO_OK, .pass 1400 true,
    .pump 1400 1500 .AUDIO_OK, .pass 2100 true, .pump 2100 2200 .AUDIO_OK, .pass 2800 true]

/-- Three documents that beep every 700 ms are heard in turn. -/
theorem beepers_heard_in_turn : Fair (turns (three_beepers 700 700 700) beeping_together) ∧
    (turns (three_beepers 700 700 700) beeping_together).map Turn.granted = [some 0, some 1, some 2, some 0, some 1] := by
  have hasked : ∀ t ∈ turns (three_beepers 700 700 700) beeping_together, t.asked = ![true, true, true, false] := by
    have hall : ((turns (three_beepers 700 700 700) beeping_together).map fun t => List.ofFn t.asked) =
        .replicate 5 (List.ofFn ![true, true, true, false]) := by decide +kernel
    intro t ht
    have hmem : List.ofFn t.asked ∈ List.replicate 5 (List.ofFn ![true, true, true, false]) :=
      hall ▸ List.mem_map_of_mem ht
    exact List.ofFn_injective (List.eq_of_mem_replicate hmem)
  refine ⟨sound_slot_fair _ _ (.of_lockstep fun t ht u hu => ?_), by decide +kernel⟩
  rw [hasked t ht, hasked u hu]

end Fairness

end fable.apps
