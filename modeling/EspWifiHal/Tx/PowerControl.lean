import EspWifiHal.Lib.Trace
import EspWifiHal.Tx.Params

/-!
# Power control after transmissions

The tasks of the five queues count the frames they have sent in one atomic counter of eight bits.
A task whose frame is the fifth runs the power control and only then sets the counter to zero.
The counter is no lock: while the power control runs, the other tasks go on counting, and the
counter wraps.

`power_control_of_run` says that the power control runs at most once for five frames, and, if no
more than 255 frames are sent while it runs, that it never runs twice at the same time and that
only these frames are not counted.
-/

namespace EspWifiHal

namespace PowerControl

open Trace

/-- The counter and the tasks between their two accesses to it, with what has happened so far. -/
structure State where
  /-- `FRAMES_SINCE_LAST_TXPWR_CTRL`. -/
  counter : BitVec 8 := 0
  /-- The queues whose task is in `run_power_control`. -/
  running : List HardwareTxQueue := []
  /-- The frames that were sent. -/
  frames : Nat := 0
  /-- How often the power control was started. -/
  runs : Nat := 0
  /-- The frames that were sent while it was running. -/
  uncounted : Nat := 0
  /-- Those of them since it was last started. -/
  meanwhile : Nat := 0
deriving DecidableEq, Repr

inductive Event where
  /-- The result of a transmission arrives. -/
  | result (queue : HardwareTxQueue) (ok : Bool)
  /-- `run_power_control` returns and the counter is set to zero. -/
  | controlled (queue : HardwareTxQueue)
deriving DecidableEq, Repr

/-- `fetch_add(1)`, with the start of the power control if there were four frames before. -/
def State.count (s : State) (queue : HardwareTxQueue) : State :=
  if s.counter = 4 then
    { s with
      counter := s.counter + 1
      running := queue :: s.running
      frames := s.frames + 1
      runs := s.runs + 1
      meanwhile := 0 }
  else if s.running = [] then
    { s with counter := s.counter + 1, frames := s.frames + 1 }
  else
    { s with
      counter := s.counter + 1
      frames := s.frames + 1
      uncounted := s.uncounted + 1
      meanwhile := s.meanwhile + 1 }

/-- A task does one thing after the other. -/
def step (s : State) : Event → Option State
  | .result queue ok =>
      if queue ∈ s.running then none else some (if ok then s.count queue else s)
  | .controlled queue =>
      if queue ∈ s.running then some { s with counter := 0, running := s.running.erase queue }
      else none

/-! ## Runs -/

/-- What a step can be. -/
theorem step_cases {s s' : State} {e : Event} (h : step s e = some s') :
    s' = s ∨ (∃ queue, queue ∉ s.running ∧ e = .result queue true ∧ s' = s.count queue) ∨
      ∃ queue ∈ s.running, s' = { s with counter := 0, running := s.running.erase queue } := by
  cases e with
  | result queue ok =>
      rw [step] at h
      split at h
      case isTrue => cases h
      case isFalse hnot =>
        cases ok with
        | false => exact Or.inl (Option.some.inj h).symm
        | true => exact Or.inr (Or.inl ⟨queue, hnot, rfl, (Option.some.inj h).symm⟩)
  | controlled queue =>
      rw [step] at h
      split at h
      case isTrue hmem => exact Or.inr (Or.inr ⟨queue, hmem, (Option.some.inj h).symm⟩)
      case isFalse => cases h

/-- Each start has taken five frames, and the counter has some of the others. -/
structure Paid (s : State) : Prop where
  runs_le : 5 * s.runs ≤ s.frames
  counter_le : s.counter.toNat ≤ 4 → 5 * s.runs + s.counter.toNat ≤ s.frames

theorem toNat_succ (x : BitVec 8) : (x + 1).toNat = (x.toNat + 1) % 256 := BitVec.toNat_add x 1

theorem Paid.count {s : State} (h : Paid s) (queue : HardwareTxQueue) : Paid (s.count queue) := by
  obtain ⟨hruns, hcounter⟩ := h
  have hsucc := toNat_succ s.counter
  rw [State.count]
  split
  case isTrue hfour =>
    have hvalue : s.counter.toNat = 4 := congrArg BitVec.toNat hfour
    constructor <;> dsimp only <;> omega
  case isFalse hfour =>
    have hvalue : s.counter.toNat ≠ 4 := fun heq => hfour (BitVec.eq_of_toNat_eq heq)
    split <;> constructor <;> dsimp only <;> omega

theorem Paid.step {s s' : State} {e : Event} (h : Paid s) (he : step s e = some s') : Paid s' := by
  obtain rfl | ⟨queue, -, -, rfl⟩ | ⟨queue, -, rfl⟩ := step_cases he
  · exact h
  · exact h.count queue
  · exact ⟨h.runs_le, fun _ => h.runs_le⟩

/-- While the power control runs, not more than 255 frames are sent. -/
def InTime (s : State) : Event → Prop
  | .result _ ok => ok = true → s.running ≠ [] → s.meanwhile < 255
  | .controlled _ => True

instance (s : State) : (e : Event) → Decidable (InTime s e)
  | .result _ ok => inferInstanceAs (Decidable (ok = true → _ → _))
  | .controlled _ => isTrue trivial

/-- The power control runs once, or it does not run and the counter has the frames since. -/
inductive Sound (s : State) : Prop
  | idle (hrunning : s.running = []) (hcounter : s.counter.toNat ≤ 4)
      (hframes : s.frames = 5 * s.runs + s.counter.toNat + s.uncounted)
  | busy (queue : HardwareTxQueue) (hrunning : s.running = [queue]) (hmeanwhile : s.meanwhile ≤ 255)
      (hcounter : s.counter.toNat = (5 + s.meanwhile) % 256)
      (hframes : s.frames = 5 * s.runs + s.uncounted)

theorem Sound.count {s : State} (h : Sound s) (queue : HardwareTxQueue)
    (hin : s.running ≠ [] → s.meanwhile < 255) : Sound (s.count queue) := by
  have hsucc := toNat_succ s.counter
  rw [State.count]
  cases h with
  | idle hrunning hcounter hframes =>
      split
      case isTrue hfour =>
        have hvalue : s.counter.toNat = 4 := congrArg BitVec.toNat hfour
        refine .busy queue ?_ (Nat.zero_le _) ?_ ?_ <;> dsimp only
        · rw [hrunning]
        · omega
        · omega
      case isFalse hfour =>
        have hvalue : s.counter.toNat ≠ 4 := fun heq => hfour (BitVec.eq_of_toNat_eq heq)
        refine .idle hrunning ?_ ?_ <;> dsimp only <;> omega
  | busy other hrunning hmeanwhile hcounter hframes =>
      have hbusy : s.running ≠ [] := by
        rw [hrunning]
        exact List.cons_ne_nil _ _
      have hlt := hin hbusy
      -- before 255 further frames the counter does not come back to four
      have hfour : s.counter ≠ 4 := by
        intro hfour
        have hvalue : s.counter.toNat = 4 := congrArg BitVec.toNat hfour
        omega
      rw [if_neg hfour, if_neg hbusy]
      refine .busy other hrunning ?_ ?_ ?_ <;> dsimp only <;> omega

theorem Sound.step {s s' : State} {e : Event} (h : Sound s) (hin : InTime s e)
    (he : step s e = some s') : Sound s' := by
  obtain rfl | ⟨queue, -, rfl, rfl⟩ | ⟨queue, hmem, rfl⟩ := step_cases he
  · exact h
  · exact h.count queue (hin rfl)
  · cases h with
    | idle hrunning =>
        rw [hrunning] at hmem
        exact absurd hmem List.not_mem_nil
    | busy other hrunning hmeanwhile hcounter hframes =>
        rw [hrunning, List.mem_singleton] at hmem
        subst hmem
        refine .idle ?_ (Nat.zero_le 4) hframes
        dsimp only
        rw [hrunning, List.erase_cons_head]

/-- In every run the power control is started at most once for five frames.  If no more than 255
frames are sent while it runs, then it never runs twice at the same time, and while it does not
run the counter has the number of frames modulo five, not counting those that were sent while
it was running. -/
theorem power_control_of_run {es : List Event} {s : State} (h : run step {} es = some s) :
    5 * s.runs ≤ s.frames ∧
      (Meets step InTime {} es →
        s.running.length ≤ 1 ∧
        (s.running = [] → s.runs = (s.frames - s.uncounted) / 5 ∧
          s.counter.toNat = (s.frames - s.uncounted) % 5)) := by
  have hpaid : Paid s := run_inv (fun _ _ _ => Paid.step) ⟨Nat.le_refl _, fun _ => Nat.le_refl _⟩ h
  refine ⟨hpaid.runs_le, fun hmeets => ?_⟩
  have hsound : Sound s := run_inv_of_meets (fun _ _ _ => Sound.step)
    (.idle rfl (Nat.zero_le _) rfl) hmeets h
  cases hsound with
  | idle hrunning hcounter hframes =>
      rw [hrunning]
      exact ⟨Nat.zero_le _, fun _ => by omega⟩
  | busy queue hrunning =>
      rw [hrunning]
      exact ⟨Nat.le_refl _, fun hnil => absurd hnil (List.cons_ne_nil _ _)⟩

/-- Two queues.  The frame of the beacon queue is sent while the other one runs the power
control. -/
def overlapping : List Event :=
  List.replicate 5 (.result (.edcaf .video) true) ++
    [.result .beacon true, .controlled (.edcaf .video), .result .beacon true]

theorem power_control_of_run_overlapping :
    ∃ s, run step {} overlapping = some s ∧ s.frames = 7 ∧ s.runs = 1 ∧ s.counter.toNat = 1 := by
  have hrun : run step {} overlapping = some _ := rfl
  exact ⟨_, hrun, rfl, ((power_control_of_run hrun).2 (by decide)).2 rfl⟩

end PowerControl

end EspWifiHal
