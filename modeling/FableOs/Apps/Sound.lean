import FableOs.Apps.Cap
import FableOs.Lib.Duty

namespace fable.apps

/-! How much of the machine app sounds can take: the pause that the broker keeps
after each performed call, over every run of requests and services. -/

open Stretch List

section Runs

/-- What reaches the broker: a request made by a handler, or a call of the pump
    with the readings before and after it. -/
inductive event_t where
  | request (audio : Bool) (rq : app_cap_req_t)
  | service (live : Bool) (at_ms : Stretch)

/-- The state after an event, and the sound that it made. -/
def cap_t.handle (s : cap_t) : event_t → cap_t × Option Stretch
  | .request audio rq => ((app_cap_request s audio rq).1, none)
  | .service live at_ms =>
    ((app_cap_service s at_ms.start live at_ms.stop).1,
      (app_cap_service s at_ms.start live at_ms.stop).2.map fun _ => at_ms)

/-- The app sounds of a run, in order. -/
def sounds (s : cap_t) : List event_t → List Stretch
  | [] => []
  | e :: rest => (s.handle e).2.toList ++ sounds (s.handle e).1 rest

/-- The readings of a run come from one clock that does not go backwards and
    has not reached the end of its 64 bits. -/
def Forward (t : Nat) : List event_t → Prop
  | [] => True
  | .request _ rq :: rest => t ≤ rq.now_ms ∧ rq.now_ms < 2 ^ 64 ∧ Forward rq.now_ms rest
  | .service _ at_ms :: rest => t ≤ at_ms.start ∧ at_ms.stop < 2 ^ 64 ∧ Forward at_ms.stop rest

end Runs

section Window

/-- A call whose pause the broker measures in full: one that took no time, or
    one within the clamp that ends before the clock does. -/
def Measured (call : Stretch) : Prop :=
  call.length = 0 ∨ call.length ≤ APP_CAP_QUIET_MAX_MS ∧ call.stop + quiet_ms call.length < 2 ^ 64

/-- No sound can start before `b` any more: a waiting call was accepted after
    it, and so will be the next one. -/
structure Shut (s : cap_t) (t b : Nat) : Prop where
  pending : s.pend.isSome → b ≤ t
  window : b ≤ t ∨ s.started_any = true ∧ b ≤ s.free_at_ms ∧ s.free_at_ms ≤ t + APP_CAP_QUIET_MAX_MS

variable {s : cap_t} {t b now : Nat}

theorem Shut.later (h : Shut s t b) (hle : t ≤ now) : Shut s now b := by
  refine ⟨fun hpend => (h.pending hpend).trans hle, ?_⟩
  obtain hopen | ⟨hany, hfree, hclose⟩ := h.window
  · exact .inl (hopen.trans hle)
  · exact .inr ⟨hany, hfree, by omega⟩

theorem Shut.open_of_not_early (h : Shut s now b) (hearly : ¬ Early s now) : b ≤ now := by
  obtain hopen | ⟨hany, hfree, hclose⟩ := h.window
  · exact hopen
  · by_contra hlt
    exact hearly ⟨hany, by omega, by omega⟩

theorem Shut.request (h : Shut s t b) {audio : Bool} {rq} (hle : t ≤ rq.now_ms) :
    Shut (app_cap_request s audio rq).1 rq.now_ms b := by
  have hnow := h.later hle
  unfold app_cap_request
  split
  · exact hnow
  · split_ifs with hpend hearly
    · exact hnow
    · exact hnow
    · exact ⟨fun _ => hnow.open_of_not_early hearly, hnow.window⟩

/-- The broker after a performed call. -/
def rested (call : Stretch) : cap_t :=
  ⟨none, (call.stop + quiet_ms call.length) % 2 ^ 64, min call.length APP_CAP_QUIET_MAX_MS, true⟩

/-- What the broker's silence is worth after a call that it measured in full. -/
theorem Shut.performed {call} (h : Measured call) : Shut (rested call) call.stop (call.stop + call.length) := by
  refine ⟨fun hpend => by simp [rested] at hpend, ?_⟩
  obtain hzero | ⟨hlen, hlt⟩ := h
  · exact .inl (by omega)
  · have hfree : (rested call).free_at_ms = call.stop + quiet_ms call.length := Nat.mod_eq_of_lt hlt
    refine .inr ⟨rfl, ?_, ?_⟩
    · rw [hfree]
      unfold quiet_ms
      omega
    · rw [hfree]
      unfold quiet_ms
      omega

end Window

section Spacing

variable {s : cap_t} {t b : Nat}

theorem sounds_request (audio : Bool) (rq : app_cap_req_t) (rest : List event_t) :
    sounds s (.request audio rq :: rest) = sounds (app_cap_request s audio rq).1 rest := rfl

theorem sounds_service {p} (hpend : s.pend = some p) (call : Stretch) (rest : List event_t) :
    sounds s (.service true call :: rest) = call :: sounds (rested call) rest := by
  simp [sounds, cap_t.handle, app_cap_service, hpend, rested, Stretch.length]

/-- The pump finds nothing to perform, or performs the waiting call. -/
theorem service_cases (s : cap_t) (live : Bool) (call : Stretch) (rest : List event_t) :
    (∃ s', s'.pend = none ∧ s'.free_at_ms = s.free_at_ms ∧ s'.started_any = s.started_any ∧
      sounds s (.service live call :: rest) = sounds s' rest) ∨
    (s.pend.isSome ∧ sounds s (.service live call :: rest) =
      call :: sounds (rested call) rest) := by
  cases hpend : s.pend with
  | none => exact .inl ⟨s, hpend, rfl, rfl, by simp [sounds, cap_t.handle, app_cap_service, hpend]⟩
  | some p =>
    cases live with
    | false => exact .inl ⟨{ s with pend := none }, rfl, rfl, rfl, by
        simp [sounds, cap_t.handle, app_cap_service, hpend]⟩
    | true => exact .inr ⟨rfl, sounds_service hpend call rest⟩

/-- Whatever follows, no sound starts before the window opens, and each one
    that the broker measures in full keeps its own distance. -/
theorem Shut.spaced {evs} (h : Shut s t b) (hclock : Forward t evs) (hmeas : ∀ call ∈ sounds s evs, Measured call) :
    (∀ call ∈ sounds s evs, b ≤ call.start) ∧ Spaced (sounds s evs) := by
  induction evs generalizing s t b with
  | nil => exact ⟨fun call hcall => by simp [sounds] at hcall, List.Pairwise.nil⟩
  | cons e rest ih =>
    cases e with
    | request audio rq =>
      obtain ⟨hle, -, hrest⟩ := hclock
      rw [sounds_request] at hmeas ⊢
      exact ih (h.request hle) hrest hmeas
    | service live call =>
      obtain ⟨hle, -, hrest⟩ := hclock
      have hstop : t ≤ call.stop := hle.trans call.le
      obtain ⟨s', hpend, hfree, hany, hsounds⟩ | ⟨hpend, hsounds⟩ := service_cases s live call rest
      · rw [hsounds] at hmeas ⊢
        have hkept : Shut s' call.stop b := by
          refine ⟨fun hsome => by simp [hpend] at hsome, ?_⟩
          rw [hfree, hany]
          exact (h.later hstop).window
        exact ih hkept hrest hmeas
      · rw [hsounds] at hmeas ⊢
        obtain ⟨hafter, hspaced⟩ := ih (Shut.performed (hmeas call (by simp))) hrest
          fun c hc => hmeas c (mem_cons_of_mem _ hc)
        have hstart : b ≤ call.start := (h.pending hpend).trans hle
        refine ⟨fun c hc => ?_, List.Pairwise.cons hafter hspaced⟩
        rcases mem_cons.mp hc with rfl | hc
        · exact hstart
        · have hc := hafter c hc
          have hlen := call.le
          omega

end Spacing

section Overrun

/-- A beep as a document writes it. -/
def beep (app now_ms : Nat) : app_cap_req_t := ⟨app, 0, now_ms, some (.AV_NUM 440000000), none, none, none, none⟩

theorem request_beep {s} (app : Nat) {now : Nat} (hpend : s.pend = none) (hearly : ¬ Early s now) :
    (app_cap_request s true (beep app now)).1 = { s with pend := some ⟨app, none, ⟨440, 120, 0, .AUDIO_WAVE_SINE⟩⟩ } := by
  have hchecked : checked true (beep app now) = .ok ⟨440, 120, 0, .AUDIO_WAVE_SINE⟩ := rfl
  unfold app_cap_request
  rw [hchecked]
  simp [hpend, beep, hearly]

/-- Two beeps, each performed as soon as it was asked for. -/
def two_beeps (first second : Stretch) : List event_t :=
  [.request true (beep 1 first.start), .service true first, .request true (beep 1 second.start), .service true second]

theorem sounds_two_beeps {first second} (hopen : ¬ Early (rested first) second.start) :
    sounds app_cap_reset (two_beeps first second) = [first, second] := by
  have hboot : ¬ Early app_cap_reset first.start := by simp [Early, app_cap_reset]
  rw [two_beeps, sounds_request, request_beep 1 rfl hboot, sounds_service rfl, sounds_request,
    request_beep 1 rfl hopen, sounds_service rfl]
  rfl

/-- In every run from the reset on in which each performed call is measured in
    full (none holds the machine for longer than `APP_CAP_QUIET_MAX_MS`, nor ends
    so late that the end of its pause does not fit the clock), the pause after an
    app sound is as long as the sound held the machine, and app sounds take at most
    half of the time from one start to a later one. -/
theorem app_sounds_spaced (evs : List event_t) (hclock : Forward 0 evs)
    (hmeasured : ∀ call ∈ sounds app_cap_reset evs, Measured call) :
    Spaced (sounds app_cap_reset evs) ∧ HalfBusy (sounds app_cap_reset evs) := by
  have hboot : Shut app_cap_reset 0 0 := ⟨fun _ => le_rfl, .inl le_rfl⟩
  have hspaced := (hboot.spaced hclock hmeasured).2
  exact ⟨hspaced, hspaced.halfBusy⟩

/-- A call of three seconds and one right after its pause of three and a half. -/
theorem two_beeps_spaced : ∃ evs, Forward 0 evs ∧
    (sounds app_cap_reset evs).map (fun call => (call.start, call.stop)) = [(0, 3000), (6500, 6620)] ∧
    Spaced (sounds app_cap_reset evs) ∧ HalfBusy (sounds app_cap_reset evs) := by
  refine ⟨two_beeps ⟨0, 3000, by decide⟩ ⟨6500, 6620, by decide⟩, ?_, by decide, app_sounds_spaced _ ?_ ?_⟩
  · simp [two_beeps, Forward, beep]
  · simp [two_beeps, Forward, beep]
  · rw [sounds_two_beeps (by decide)]
    simp [Measured, Stretch.length, quiet_ms, APP_CAP_QUIET_MAX_MS, APP_CAP_GAP_MS]

/-- A call that held the machine for five seconds is followed by a sound four
    seconds later. -/
theorem app_sounds_overrun :
    ∃ evs, Forward 0 evs ∧ (sounds app_cap_reset evs).map (fun call => (call.start, call.stop)) =
      [(0, 5000), (9000, 9120)] ∧ ¬ Spaced (sounds app_cap_reset evs) := by
  refine ⟨two_beeps ⟨0, 5000, by decide⟩ ⟨9000, 9120, by decide⟩, ?_, by decide, ?_⟩
  · simp [two_beeps, Forward, beep]
  · rw [sounds_two_beeps (by decide)]
    intro hspaced
    have hbefore := rel_of_pairwise_cons hspaced (mem_singleton.mpr rfl)
    exact absurd hbefore (by simp [Before, Stretch.length])

end Overrun

end fable.apps
