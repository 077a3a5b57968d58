import EspWifiHal.Lib.Trace
import EspWifiHal.Lib.Register
import EspWifiHal.Sync

/-!
# The TSF timers and the PWR interrupt

Four TSF timers and the TBTT generators of four interfaces share the status and
the mask register of the PWR interrupt.  `pwr_handler` reads and clears the
whole status register, masked bits included, and signals every source whose bit
it found.  The calls that arm or disarm a source access the registers and the
signal one at a time, so the handler can run between any two of these steps.

A timer belongs to its current arming when a wait completes only after a firing
since the timer was enabled, when no wait completes from the return of
`cancel_tsf_timer` on until the next `set_tsf_timer`, and when no firing since it
was enabled is lost (`Pwr.Sound`).  This can fail: `set_tsf_timer` and
`cancel_tsf_timer` reset the signal before the status bit is cleared, and a
handler that runs in between signals the old event again.  When no handler does,
it holds.
-/

namespace EspWifiHal

open Register

/-! ## The calls -/

/-- The sources of the PWR interrupt. -/
inductive PwrSource where
  | timer (timer : Fin 4)
  | tbtt (interface : Fin 4)
deriving DecidableEq, Repr

namespace PwrSource

/-- The bit of the source in the registers of the interrupt. -/
def bit : PwrSource → BitVec 32
  | .timer t => 0x100#32 >>> t.val
  | .tbtt i => 0x10#32 >>> i.val

/-- The position of the bit. -/
def index : PwrSource → Nat
  | .timer t => 8 - t
  | .tbtt i => 4 - i

theorem bit_eq_twoPow (s : PwrSource) : s.bit = BitVec.twoPow 32 s.index := by
  cases s with
  | timer t => revert t; decide
  | tbtt i => revert i; decide

theorem index_lt (s : PwrSource) : s.index < 32 := by
  cases s <;> simp only [index] <;> omega

def isTimer : PwrSource → Bool
  | .timer _ => true
  | .tbtt _ => false

/-- No two sources share a bit. -/
theorem index_injective : Function.Injective index := by
  intro s s' h
  cases s <;> cases s' <;> simp only [index] at h
  case timer.timer t t' => exact congrArg _ (by omega)
  case timer.tbtt t i => omega
  case tbtt.timer i t => omega
  case tbtt.tbtt i i' => exact congrArg _ (by omega)

theorem hasBit_or_bit (r : BitVec 32) (s s' : PwrSource) :
    hasBit (r ||| s.bit) s'.bit = (hasBit r s'.bit || decide (s = s')) := by
  rw [bit_eq_twoPow, bit_eq_twoPow, hasBit_or_twoPow r s'.index_lt]
  simp only [index_injective.eq_iff]

theorem hasBit_and_not_bit (r : BitVec 32) (s s' : PwrSource) :
    hasBit (r &&& ~~~s.bit) s'.bit = (hasBit r s'.bit && !decide (s = s')) := by
  rw [bit_eq_twoPow, bit_eq_twoPow, hasBit_and_not_twoPow r s'.index_lt]
  simp only [index_injective.eq_iff]

end PwrSource

/-- The accesses to the registers and to the signal of a source. -/
inductive PwrOp where
  /-- The enable bit of `tsf_timer_cfg`, or `tbtt_enable` of `tsf_cfg`. -/
  | setEnable (enabled : Bool)
  /-- The bit in `pwr_int_enable` is set. -/
  | unmask
  | mask
  /-- The bit is written to `pwr_int_clear`. -/
  | clear
  | setTarget (target : BitVec 32)
  | resetSignal
deriving DecidableEq, Repr

/-- The accesses that enable or disable a source of either kind. -/
def setSourceEnabled : Bool → List PwrOp
  | true => [.clear, .unmask, .setEnable true]
  | false => [.setEnable false, .mask]

/-- `LowLevelDriver::set_tsf_timer_enabled`. -/
def setTsfTimerEnabled (enabled : Bool) : List PwrOp := setSourceEnabled enabled

/-- `LowLevelDriver::set_tbtt_enabled`. -/
def llSetTbttEnabled (enabled : Bool) : List PwrOp := setSourceEnabled enabled

/-- `TsfControl::set_tsf_timer`. -/
def setTsfTimer (target : BitVec 32) : List PwrOp :=
  setTsfTimerEnabled false ++ [.resetSignal, .setTarget target] ++ setTsfTimerEnabled true

/-- `TsfControl::cancel_tsf_timer`. -/
def cancelTsfTimer : List PwrOp := setTsfTimerEnabled false ++ [.resetSignal]

/-- `TsfControl::set_tbtt_enabled`. -/
def setTbttEnabled (enabled : Bool) : List PwrOp :=
  llSetTbttEnabled enabled ++ if enabled then [] else [.resetSignal]

/-! ## The state -/

/-- How far the calls on a source are, with the steps that the running call has
still to perform. -/
inductive PwrPhase where
  /-- No call so far, or no call on the TBTT generator. -/
  | idle
  | setting (rest : List PwrOp)
  /-- `set_tsf_timer` returned. -/
  | armed
  | cancelling (rest : List PwrOp)
  /-- `cancel_tsf_timer` returned. -/
  | cancelled
  | tbtt (rest : List PwrOp)
deriving DecidableEq, Repr

/-- What the discard of an old event has achieved. -/
inductive DiscardStage where
  | free
  /-- The source is disabled. -/
  | off
  /-- The signal was reset, and the status bit was not cleared since. -/
  | dropped
  | clean
  | ready
  /-- The timer was enabled in the latest call. -/
  | live
deriving DecidableEq, Repr

namespace PwrPhase

def isSetting : PwrPhase → Bool
  | .setting _ => true
  | _ => false

/-- A call of `cancel_tsf_timer`, running or finished. -/
def isCancel : PwrPhase → Bool
  | .cancelling _ => true
  | .cancelled => true
  | _ => false

def stage : PwrPhase → DiscardStage
  | .setting (.mask :: _) => .off
  | .setting (.resetSignal :: _) => .off
  | .setting (.setTarget _ :: _) => .dropped
  | .setting (.clear :: _) => .dropped
  | .setting (.unmask :: _) => .clean
  | .setting (.setEnable true :: _) => .ready
  | .setting [] => .live
  | .armed => .live
  | .cancelling (.mask :: _) => .off
  | .cancelling (.resetSignal :: _) => .off
  | .cancelling [] => .dropped
  | .cancelled => .dropped
  | _ => .free

end PwrPhase

/-- A wait that completed: whether its timer was cancelled, and whether the
source fired since it was enabled. -/
structure CompletedWait where
  cancelled : Bool
  firedSince : Bool
deriving DecidableEq, Repr

/-- A timer or a TBTT generator. -/
structure SourceState where
  phase : PwrPhase := .idle
  /-- A `cancel_tsf_timer` returned, and no `set_tsf_timer` began since. -/
  cancelled : Bool := false
  enabled : Bool := false
  target : BitVec 32 := 0
  /-- The element of `TSF_TIMER_SIGNALS` or `TBTT_SIGNALS`. -/
  signal : EventSignal := {}
  /-- The source fired since it was enabled. -/
  firedSince : Bool := false
  /-- The timer fired since it was enabled by the latest call, and the handler
  did not run since. -/
  unhandled : Bool := false
  /-- The handler ran after such a firing, and no wait completed since. -/
  owed : Bool := false
  completed : List CompletedWait := []
deriving DecidableEq, Repr

namespace SourceState

/-- The bit of a cancelled timer is not cleared before its next `set_tsf_timer`,
also when it is cancelled once more. -/
def stage (x : SourceState) : DiscardStage := if x.cancelled then .dropped else x.phase.stage

/-- A call begins.  It may discard the events so far. -/
def begin (phase : PwrPhase) (x : SourceState) : SourceState :=
  { x with
    phase := phase
    cancelled := x.cancelled && !phase.isSetting
    unhandled := false
    owed := false }

/-- `cancel_tsf_timer` returns. -/
def cancel (x : SourceState) : SourceState := { x with phase := .cancelled, cancelled := true }

def fire (x : SourceState) : SourceState :=
  { x with firedSince := true, unhandled := x.unhandled || decide (x.stage = .live) }

/-- A poll of `wait_for_tsf_timer` or `wait_for_tbtt`. -/
def poll (x : SourceState) : SourceState :=
  match x.signal.wait with
  | (true, signal) =>
      { x with
        signal := signal
        owed := false
        completed := ⟨x.cancelled, x.firedSince⟩ :: x.completed }
  | (false, signal) => { x with signal := signal }

/-- The source in `pwr_handler`, when the cause has its bit or not. -/
def handle (fired : Bool) (x : SourceState) : SourceState :=
  { x with
    signal := if fired then x.signal.signal else x.signal
    unhandled := false
    owed := x.owed || x.unhandled }

end SourceState

structure Pwr where
  /-- `pwr_int_status`. -/
  status : BitVec 32 := 0
  /-- `pwr_int_enable`. -/
  enable : BitVec 32 := 0
  /-- An unmasked status bit is latched, or was since the latest handler. -/
  irq : Bool := false
  sources : PwrSource → SourceState := fun _ => {}

inductive PwrEvent where
  | setTsfTimer (timer : Fin 4) (target : BitVec 32)
  | cancelTsfTimer (timer : Fin 4)
  | setTbttEnabled (interface : Fin 4) (enabled : Bool)
  /-- The next step of the call on a source, or its return. -/
  | task (source : PwrSource)
  | poll (source : PwrSource)
  /-- The hardware latches the status bit of an enabled source. -/
  | fire (source : PwrSource)
  | pwrHandler

namespace Pwr

def modify (p : Pwr) (s : PwrSource) (f : SourceState → SourceState) : Pwr :=
  { p with sources := Function.update p.sources s (f (p.sources s)) }

/-- One access of a call on the source `s`. -/
def exec (p : Pwr) (s : PwrSource) : PwrOp → Pwr
  | .setEnable true => p.modify s fun x => { x with enabled := true, firedSince := false }
  | .setEnable false => p.modify s fun x => { x with enabled := false }
  | .unmask => { p with enable := p.enable ||| s.bit }
  | .mask => { p with enable := p.enable &&& ~~~s.bit }
  | .clear => { p with status := p.status &&& ~~~s.bit }
  | .setTarget target => p.modify s fun x => { x with target := target }
  | .resetSignal => p.modify s fun x => { x with signal := x.signal.reset }

/-- There is at most one call on a source at a time. -/
def call (p : Pwr) (s : PwrSource) (phase : PwrPhase) : Option Pwr :=
  match (p.sources s).phase with
  | .idle | .armed | .cancelled => some (p.modify s (·.begin phase))
  | _ => none

def task (p : Pwr) (s : PwrSource) : Option Pwr :=
  match (p.sources s).phase with
  | .setting (op :: rest) => some ((p.exec s op).modify s ({ · with phase := .setting rest }))
  | .setting [] => some (p.modify s ({ · with phase := .armed }))
  | .cancelling (op :: rest) =>
      some ((p.exec s op).modify s ({ · with phase := .cancelling rest }))
  | .cancelling [] => some (p.modify s SourceState.cancel)
  | .tbtt (op :: rest) => some ((p.exec s op).modify s ({ · with phase := .tbtt rest }))
  | .tbtt [] => some (p.modify s ({ · with phase := .idle }))
  | _ => none

def fire (p : Pwr) (s : PwrSource) : Option Pwr :=
  if (p.sources s).enabled then
    some { p.modify s SourceState.fire with status := p.status ||| s.bit }
  else none

/-- `pwr_handler` with `get_and_clear_pwr_interrupt_cause`. -/
def pwrHandler (p : Pwr) : Pwr :=
  { p with
    status := p.status &&& ~~~p.status
    irq := false
    sources := fun s => (p.sources s).handle (hasBit p.status s.bit) }

/-- The handler runs when an unmasked bit asked for it. -/
def perform (p : Pwr) : PwrEvent → Option Pwr
  | .setTsfTimer timer target => p.call (.timer timer) (.setting (EspWifiHal.setTsfTimer target))
  | .cancelTsfTimer timer => p.call (.timer timer) (.cancelling EspWifiHal.cancelTsfTimer)
  | .setTbttEnabled interface enabled =>
      p.call (.tbtt interface) (.tbtt (EspWifiHal.setTbttEnabled enabled))
  | .task s => p.task s
  | .poll s => some (p.modify s SourceState.poll)
  | .fire s => p.fire s
  | .pwrHandler => if p.irq then some p.pwrHandler else none

/-- A latched and unmasked bit asks for the handler. -/
def request (p : Pwr) : Pwr := { p with irq := p.irq || hasBit p.status p.enable }

def step (p : Pwr) (e : PwrEvent) : Option Pwr := (p.perform e).map request

end Pwr

/-! ## The registers, source by source -/

/-- A source with its bit in the status and in the mask register. -/
structure SourceView where
  state : SourceState
  latched : Bool
  unmasked : Bool

namespace SourceView

def modify (v : SourceView) (f : SourceState → SourceState) : SourceView :=
  { v with state := f v.state }

/-- One access of a call on the source. -/
def exec (v : SourceView) : PwrOp → SourceView
  | .setEnable true => v.modify fun x => { x with enabled := true, firedSince := false }
  | .setEnable false => v.modify fun x => { x with enabled := false }
  | .unmask => { v with unmasked := true }
  | .mask => { v with unmasked := false }
  | .clear => { v with latched := false }
  | .setTarget target => v.modify fun x => { x with target := target }
  | .resetSignal => v.modify fun x => { x with signal := x.signal.reset }

end SourceView

namespace Pwr

def view (p : Pwr) (s : PwrSource) : SourceView :=
  ⟨p.sources s, hasBit p.status s.bit, hasBit p.enable s.bit⟩

@[simp] theorem request_view (p : Pwr) (s : PwrSource) : p.request.view s = p.view s := rfl

theorem modify_view_self (p : Pwr) (s : PwrSource) (f : SourceState → SourceState) :
    (p.modify s f).view s = (p.view s).modify f := by
  simp [modify, view, SourceView.modify]

theorem modify_view_of_ne (p : Pwr) {s s' : PwrSource} (h : s' ≠ s)
    (f : SourceState → SourceState) : (p.modify s f).view s' = p.view s' := by
  simp [modify, view, h]

theorem exec_view_self (p : Pwr) (s : PwrSource) (op : PwrOp) :
    (p.exec s op).view s = (p.view s).exec op := by
  cases op with
  | setEnable enabled => cases enabled <;> simp only [exec, SourceView.exec, modify_view_self]
  | unmask => simp [exec, view, SourceView.exec, PwrSource.hasBit_or_bit]
  | mask => simp [exec, view, SourceView.exec, PwrSource.hasBit_and_not_bit]
  | clear => simp [exec, view, SourceView.exec, PwrSource.hasBit_and_not_bit]
  | setTarget target => simp only [exec, SourceView.exec, modify_view_self]
  | resetSignal => simp only [exec, SourceView.exec, modify_view_self]

/-- A call on one source leaves the others alone. -/
theorem exec_view_of_ne (p : Pwr) {s s' : PwrSource} (h : s' ≠ s) (op : PwrOp) :
    (p.exec s op).view s' = p.view s' := by
  cases op with
  | setEnable enabled => cases enabled <;> simp only [exec, modify_view_of_ne p h]
  | unmask => simp [exec, view, PwrSource.hasBit_or_bit, h.symm]
  | mask => simp [exec, view, PwrSource.hasBit_and_not_bit, h.symm]
  | clear => simp [exec, view, PwrSource.hasBit_and_not_bit, h.symm]
  | setTarget target => simp only [exec, modify_view_of_ne p h]
  | resetSignal => simp only [exec, modify_view_of_ne p h]

end Pwr

/-! ## What a source can do -/

namespace SourceView

def enter (v : SourceView) (phase : PwrPhase) : SourceView :=
  v.modify ({ · with phase := phase })

/-- The transitions of a source.  In `handle` the condition of a sound run is
kept. -/
inductive Step (v : SourceView) : PwrSource → SourceView → Prop where
  /-- A step of another source. -/
  | stay (s : PwrSource) : Step v s v
  | set (t : Fin 4) (target : BitVec 32) :
      Step v (.timer t) (v.modify (·.begin (.setting (setTsfTimer target))))
  | cancel (t : Fin 4) : Step v (.timer t) (v.modify (·.begin (.cancelling cancelTsfTimer)))
  | tbtt (i : Fin 4) (enabled : Bool) :
      Step v (.tbtt i) (v.modify (·.begin (.tbtt (setTbttEnabled enabled))))
  | setting (s : PwrSource) (op : PwrOp) (rest : List PwrOp)
      (hphase : v.state.phase = .setting (op :: rest)) :
      Step v s ((v.exec op).enter (.setting rest))
  | armed (s : PwrSource) (hphase : v.state.phase = .setting []) : Step v s (v.enter .armed)
  | cancelling (s : PwrSource) (op : PwrOp) (rest : List PwrOp)
      (hphase : v.state.phase = .cancelling (op :: rest)) :
      Step v s ((v.exec op).enter (.cancelling rest))
  | cancelled (s : PwrSource) (hphase : v.state.phase = .cancelling []) :
      Step v s (v.modify SourceState.cancel)
  | tbttOp (s : PwrSource) (op : PwrOp) (rest : List PwrOp)
      (hphase : v.state.phase = .tbtt (op :: rest)) : Step v s ((v.exec op).enter (.tbtt rest))
  | tbttDone (s : PwrSource) (hphase : v.state.phase = .tbtt []) : Step v s (v.enter .idle)
  | poll (s : PwrSource) : Step v s (v.modify SourceState.poll)
  | fire (s : PwrSource) (hon : v.state.enabled = true) :
      Step v s { v.modify SourceState.fire with latched := true }
  | handle (s : PwrSource) (hok : v.state.stage = .dropped → v.latched = false) :
      Step v s { v.modify (·.handle v.latched) with latched := false }

end SourceView

namespace Pwr

/-- The handler does not find the bit of a source whose signal was reset and
whose bit was not cleared since.  After `cancel_tsf_timer` this is so until the
next `set_tsf_timer`. -/
def NoStaleEvent (p : Pwr) : PwrEvent → Prop
  | .pwrHandler =>
      ∀ s, (p.sources s).stage = .dropped → hasBit p.status s.bit = false
  | _ => True

open SourceView (Step)

variable {p p' : Pwr}

/-- A step of one source, seen from every source. -/
theorem step_of_own {s : PwrSource} {v : SourceView} (hown : Step (p.view s) s v)
    (hself : p'.view s = v) (hother : ∀ s', s' ≠ s → p'.view s' = p.view s') (s' : PwrSource) :
    Step (p.view s') s' (p'.view s') := by
  by_cases h : s' = s
  · subst h
    exact hself ▸ hown
  · rw [hother s' h]
    exact .stay s'

theorem step_modify {s : PwrSource} {f : SourceState → SourceState}
    (hown : Step (p.view s) s ((p.view s).modify f)) (s' : PwrSource) :
    Step (p.view s') s' ((p.modify s f).view s') :=
  step_of_own hown (modify_view_self p s f) (fun _ h => modify_view_of_ne p h f) s'

theorem step_exec {s : PwrSource} {op : PwrOp} {phase : PwrPhase}
    (hown : Step (p.view s) s (((p.view s).exec op).enter phase)) (s' : PwrSource) :
    Step (p.view s') s' (((p.exec s op).modify s ({ · with phase := phase })).view s') := by
  refine step_of_own hown ?_ ?_ s'
  · rw [modify_view_self, exec_view_self]
    rfl
  · intro s' h
    rw [modify_view_of_ne _ h, exec_view_of_ne p h]

theorem step_call {s : PwrSource} {phase : PwrPhase}
    (hown : Step (p.view s) s ((p.view s).modify (·.begin phase))) (h : p.call s phase = some p')
    (s' : PwrSource) : Step (p.view s') s' (p'.view s') := by
  unfold call at h
  split at h
  all_goals
    cases h
    try exact step_modify hown s'

theorem step_task {s : PwrSource} (h : p.task s = some p') (s' : PwrSource) :
    Step (p.view s') s' (p'.view s') := by
  unfold task at h
  split at h
  · rename_i op rest hphase
    cases h
    exact step_exec (.setting s op rest hphase) s'
  · rename_i hphase
    cases h
    exact step_modify (.armed s hphase) s'
  · rename_i op rest hphase
    cases h
    exact step_exec (.cancelling s op rest hphase) s'
  · rename_i hphase
    cases h
    exact step_modify (.cancelled s hphase) s'
  · rename_i op rest hphase
    cases h
    exact step_exec (.tbttOp s op rest hphase) s'
  · rename_i hphase
    cases h
    exact step_modify (.tbttDone s hphase) s'
  · cases h

theorem fire_view_self (p : Pwr) (s : PwrSource) :
    ({ p.modify s SourceState.fire with status := p.status ||| s.bit } : Pwr).view s =
      { (p.view s).modify SourceState.fire with latched := true } := by
  simp [view, modify, SourceView.modify, PwrSource.hasBit_or_bit]

theorem fire_view_of_ne (p : Pwr) {s s' : PwrSource} (h : s' ≠ s) :
    ({ p.modify s SourceState.fire with status := p.status ||| s.bit } : Pwr).view s' =
      p.view s' := by
  simp [view, modify, h, h.symm, PwrSource.hasBit_or_bit]

theorem pwrHandler_view (p : Pwr) (s : PwrSource) :
    p.pwrHandler.view s =
      { (p.view s).modify (·.handle (p.view s).latched) with latched := false } := by
  simp [view, pwrHandler, SourceView.modify, hasBit]

theorem step_view {e : PwrEvent} (hok : p.NoStaleEvent e) (h : p.step e = some p')
    (s : PwrSource) : Step (p.view s) s (p'.view s) := by
  obtain ⟨q, hq, rfl⟩ := Option.map_eq_some_iff.mp h
  rw [request_view]
  cases e with
  | setTsfTimer t target => exact step_call (.set t target) hq s
  | cancelTsfTimer t => exact step_call (.cancel t) hq s
  | setTbttEnabled i enabled => exact step_call (.tbtt i enabled) hq s
  | task s' => exact step_task hq s
  | poll s' =>
      cases hq
      exact step_modify (.poll s') s
  | fire s' =>
      change p.fire s' = some q at hq
      unfold fire at hq
      split at hq
      · rename_i hon
        cases hq
        exact step_of_own (.fire s' hon) (fire_view_self p s') (fun _ h => fire_view_of_ne p h) s
      · cases hq
  | pwrHandler =>
      change (if p.irq then some p.pwrHandler else none) = some q at hq
      split at hq
      · cases hq
        rw [pwrHandler_view]
        exact .handle s (hok s)
      · cases hq

end Pwr

/-! ## What a source keeps -/

/-- The wait completed after a firing since the timer was enabled, and not while
the timer was cancelled. -/
structure CompletedWait.Sound (c : CompletedWait) : Prop where
  fired : c.firedSince = true
  notCancelled : c.cancelled = false

namespace SourceView

/-- No firing waits for the handler or for a wait. -/
def Quiet (v : SourceView) : Prop := v.state.unhandled = false ∧ v.state.owed = false

/-- Every event of the source is a firing since it was enabled. -/
def Own (v : SourceView) : Prop :=
  v.latched = true ∨ v.state.signal.fired = true → v.state.firedSince = true

/-- No firing since the source was enabled is lost. -/
structure Live (v : SourceView) : Prop where
  unmasked : v.unmasked = true
  unhandled : v.state.unhandled = true → v.latched = true
  owed : v.state.owed = true → v.state.signal.fired = true

end SourceView

/-- What holds of a source at each stage of the discard. -/
def DiscardStage.Holds (v : SourceView) : DiscardStage → Prop
  | .free => v.Quiet
  | .off => v.Quiet ∧ v.state.enabled = false
  | .dropped => v.Quiet ∧ v.state.enabled = false ∧ v.state.signal.fired = false
  | .clean =>
      v.Quiet ∧ v.state.enabled = false ∧ v.state.signal.fired = false ∧ v.latched = false
  | .ready =>
      v.Quiet ∧ v.state.enabled = false ∧ v.state.signal.fired = false ∧ v.latched = false ∧
        v.unmasked = true
  | .live => v.Live

/-- The remaining steps are the end of a call on a source of that kind. -/
def PwrPhase.InCall (s : PwrSource) : PwrPhase → Prop
  | .setting rest => ∃ target, rest <:+ setTsfTimer target
  | .cancelling rest => s.isTimer = true ∧ rest <:+ cancelTsfTimer
  | .tbtt _ => s.isTimer = false
  | _ => True

namespace SourceView

/-- What holds in every reachable state of a source. -/
structure Inv (s : PwrSource) (v : SourceView) : Prop where
  inCall : v.state.phase.InCall s
  inCancel : v.state.cancelled = true → s.isTimer = true ∧ v.state.phase.isCancel = true
  holds : v.state.stage.Holds v
  own : s.isTimer = true → v.Own
  completed : s.isTimer = true → ∀ c ∈ v.state.completed, c.Sound

variable {v v' : SourceView}

@[simp] theorem exec_completed (v : SourceView) (op : PwrOp) :
    (v.exec op).state.completed = v.state.completed := by
  cases op with
  | setEnable enabled => cases enabled <;> rfl
  | _ => rfl

@[simp] theorem exec_cancelled (v : SourceView) (op : PwrOp) :
    (v.exec op).state.cancelled = v.state.cancelled := by
  cases op with
  | setEnable enabled => cases enabled <;> rfl
  | _ => rfl

theorem stage_of_cancelled {x : SourceState} (h : x.cancelled = true) : x.stage = .dropped := by
  rw [SourceState.stage, h, if_pos rfl]

theorem stage_of_not_cancelled {x : SourceState} (h : x.cancelled = false) :
    x.stage = x.phase.stage := by
  simp [SourceState.stage, h]

/-- Each step of `set_tsf_timer` takes the discard to its next stage. -/
theorem holds_setting {op : PwrOp} {rest : List PwrOp} {target : BitVec 32}
    (hcall : op :: rest <:+ setTsfTimer target)
    (h : (PwrPhase.setting (op :: rest)).stage.Holds v) :
    (PwrPhase.setting rest).stage.Holds ((v.exec op).enter (.setting rest)) := by
  simp only [setTsfTimer, setTsfTimerEnabled, setSourceEnabled, List.cons_append, List.nil_append,
    List.suffix_cons_iff, List.suffix_nil, reduceCtorEq, or_false] at hcall
  rcases hcall with hop | hop | hop | hop | hop | hop | hop
  all_goals obtain ⟨rfl, rfl⟩ := List.cons.inj hop
  · exact ⟨h, rfl⟩
  · exact h
  · exact ⟨h.1, h.2, rfl⟩
  · exact h
  · exact ⟨h.1, h.2.1, h.2.2, rfl⟩
  · exact ⟨h.1, h.2.1, h.2.2.1, h.2.2.2, rfl⟩
  · -- nothing is pending when the timer is enabled
    obtain ⟨⟨hunhandled, howed⟩, -, -, -, hunmasked⟩ := h
    exact ⟨hunmasked, fun hun => absurd (hunhandled.symm.trans hun) nofun,
      fun how => absurd (howed.symm.trans how) nofun⟩

theorem holds_cancelling {op : PwrOp} {rest : List PwrOp} (hcall : op :: rest <:+ cancelTsfTimer)
    (h : (PwrPhase.cancelling (op :: rest)).stage.Holds v) :
    (PwrPhase.cancelling rest).stage.Holds ((v.exec op).enter (.cancelling rest)) := by
  simp only [cancelTsfTimer, setTsfTimerEnabled, setSourceEnabled, List.cons_append,
    List.nil_append, List.suffix_cons_iff, List.suffix_nil, reduceCtorEq, or_false] at hcall
  rcases hcall with hop | hop | hop
  all_goals obtain ⟨rfl, rfl⟩ := List.cons.inj hop
  · exact ⟨h, rfl⟩
  · exact h
  · exact ⟨h.1, h.2, rfl⟩

/-- No step of `cancel_tsf_timer` brings an event of a cancelled timer back. -/
theorem holds_cancelled {op : PwrOp} {phase : PwrPhase} (hop : op ≠ .setEnable true)
    (h : DiscardStage.dropped.Holds v) : DiscardStage.dropped.Holds ((v.exec op).enter phase) := by
  cases op with
  | setEnable enabled =>
      cases enabled with
      | true => exact absurd rfl hop
      | false => exact ⟨h.1, rfl, h.2.2⟩
  | resetSignal => exact ⟨h.1, h.2.1, rfl⟩
  | _ => exact h

theorem Quiet.exec (h : v.Quiet) (op : PwrOp) : (v.exec op).Quiet := by
  cases op with
  | setEnable enabled => cases enabled <;> exact h
  | _ => exact h

theorem Own.exec (h : v.Own) {op : PwrOp} (hop : op ≠ .setEnable true) : (v.exec op).Own := by
  cases op with
  | setEnable enabled =>
      cases enabled with
      | true => exact absurd rfl hop
      | false => exact h
  | clear =>
      rintro (hlatched | hfired)
      · cases hlatched
      · exact h (.inr hfired)
  | resetSignal =>
      rintro (hlatched | hfired)
      · exact h (.inl hlatched)
      · cases hfired
  | _ => exact h

/-- When the timer is enabled the events so far are discarded. -/
theorem own_setting {op : PwrOp} {rest : List PwrOp} (hown : v.Own)
    (h : (PwrPhase.setting (op :: rest)).stage.Holds v) : (v.exec op).Own := by
  by_cases hop : op = .setEnable true
  · subst hop
    obtain ⟨-, -, hfired, hlatched, -⟩ := h
    rintro (hlat | hfir)
    · exact absurd (hlatched.symm.trans hlat) nofun
    · exact absurd (hfired.symm.trans hfir) nofun
  · exact hown.exec hop

theorem ne_enable_of_cancelTsfTimer {op : PwrOp} {rest : List PwrOp}
    (hcall : op :: rest <:+ cancelTsfTimer) : op ≠ .setEnable true := by
  rintro rfl
  have hmem : PwrOp.setEnable true ∈ cancelTsfTimer := hcall.subset (.head rest)
  revert hmem
  decide

/-- Only a source that is not disabled can fire. -/
theorem holds_fire (hon : v.state.enabled = true) (h : v.state.stage.Holds v) :
    v.state.stage.Holds { v.modify SourceState.fire with latched := true } := by
  cases hstage : v.state.stage <;> rw [hstage] at h
  case free =>
    refine ⟨?_, h.2⟩
    simp [modify, SourceState.fire, hstage, h.1]
  case live => exact ⟨h.unmasked, fun _ => rfl, h.owed⟩
  case off => exact absurd (h.2.symm.trans hon) nofun
  all_goals exact absurd (h.2.1.symm.trans hon) nofun

/-- The handler takes the events of an armed timer, and finds none of a timer
whose old events are being discarded. -/
theorem holds_handle (hok : v.state.stage = .dropped → v.latched = false)
    (h : v.state.stage.Holds v) :
    v.state.stage.Holds { v.modify (·.handle v.latched) with latched := false } := by
  have hquiet : v.Quiet →
      Quiet { v.modify (·.handle v.latched) with latched := false } := by
    intro hq
    refine ⟨rfl, ?_⟩
    simp [modify, SourceState.handle, hq.1, hq.2]
  have hfired : v.latched = false → v.state.signal.fired = false →
      (v.state.handle v.latched).signal.fired = false := by
    intro hlatched hfired
    simp [SourceState.handle, hlatched, hfired]
  cases hstage : v.state.stage <;> rw [hstage] at h
  case free => exact hquiet h
  case off => exact ⟨hquiet h.1, h.2⟩
  case dropped => exact ⟨hquiet h.1, h.2.1, hfired (hok hstage) h.2.2⟩
  case clean => exact ⟨hquiet h.1, h.2.1, hfired h.2.2.2 h.2.2.1, rfl⟩
  case ready => exact ⟨hquiet h.1, h.2.1, hfired h.2.2.2.1 h.2.2.1, rfl, h.2.2.2.2⟩
  case live =>
    refine ⟨h.unmasked, nofun, ?_⟩
    intro howed
    change (if v.latched then v.state.signal.signal else v.state.signal).fired = true
    cases hlat : v.latched with
    | true => rfl
    | false =>
        have hun : v.state.unhandled = false := by
          cases hun : v.state.unhandled with
          | false => rfl
          | true => exact absurd (hlat.symm.trans (h.unhandled hun)) nofun
        simp only [modify, SourceState.handle, hun, Bool.or_false] at howed
        exact h.owed howed

theorem Own.handle (h : v.Own) :
    Own { v.modify (·.handle v.latched) with latched := false } := by
  rintro (hlatched | hsignal)
  · cases hlatched
  · cases hlat : v.latched with
    | true => exact h (.inl hlat)
    | false =>
        simp only [modify, SourceState.handle, hlat] at hsignal
        exact h (.inr hsignal)

theorem poll_of_fired {x : SourceState} (h : x.signal.fired = true) :
    x.poll =
      { x with
        signal := x.signal.reset
        owed := false
        completed := ⟨x.cancelled, x.firedSince⟩ :: x.completed } := by
  simp [SourceState.poll, EventSignal.wait, EventSignal.reset, h]

theorem poll_of_not_fired {x : SourceState} (h : x.signal.fired = false) :
    x.poll = { x with signal := ⟨false, x.signal.waker.register⟩ } := by
  simp [SourceState.poll, EventSignal.wait, h]

/-- A poll leaves no event in the signal and makes none. -/
theorem holds_poll (h : v.state.stage.Holds v) :
    v.state.stage.Holds (v.modify SourceState.poll) := by
  cases hfired : v.state.signal.fired with
  | true =>
      simp only [modify, poll_of_fired hfired]
      cases hstage : v.state.stage <;> rw [hstage] at h
      case free => exact ⟨h.1, rfl⟩
      case off => exact ⟨⟨h.1.1, rfl⟩, h.2⟩
      case dropped => exact absurd (h.2.2.symm.trans hfired) nofun
      case clean => exact absurd (h.2.2.1.symm.trans hfired) nofun
      case ready => exact absurd (h.2.2.1.symm.trans hfired) nofun
      case live => exact ⟨h.unmasked, h.unhandled, nofun⟩
  | false =>
      simp only [modify, poll_of_not_fired hfired]
      cases hstage : v.state.stage <;> rw [hstage] at h
      case free => exact h
      case off => exact h
      case dropped => exact ⟨h.1, h.2.1, rfl⟩
      case clean => exact ⟨h.1, h.2.1, rfl, h.2.2.2⟩
      case ready => exact ⟨h.1, h.2.1, rfl, h.2.2.2⟩
      case live =>
        refine ⟨h.unmasked, h.unhandled, fun howed => ?_⟩
        exact absurd (hfired.symm.trans (h.owed howed)) nofun

/-- After a poll the signal is empty, and nothing else but the bookkeeping
changed. -/
theorem poll_keeps (x : SourceState) :
    x.poll.phase = x.phase ∧ x.poll.cancelled = x.cancelled ∧
      x.poll.firedSince = x.firedSince ∧ x.poll.signal.fired = false := by
  cases hfired : x.signal.fired with
  | true =>
      rw [poll_of_fired hfired]
      exact ⟨rfl, rfl, rfl, rfl⟩
  | false =>
      rw [poll_of_not_fired hfired]
      exact ⟨rfl, rfl, rfl, rfl⟩

/-- A wait that completes takes an event of the current arming. -/
theorem completedWait_sound (h : v.state.stage.Holds v) (hown : v.Own)
    (hfired : v.state.signal.fired = true) :
    CompletedWait.Sound ⟨v.state.cancelled, v.state.firedSince⟩ where
  fired := hown (.inr hfired)
  notCancelled := by
    cases hcancelled : v.state.cancelled with
    | false => rfl
    | true =>
        rw [stage_of_cancelled hcancelled] at h
        exact absurd (h.2.2.symm.trans hfired) nofun

variable {s : PwrSource}

theorem inv_poll (h : v.Inv s) : (v.modify SourceState.poll).Inv s := by
  obtain ⟨hphase, hcancelled, hsince, hsignal⟩ := poll_keeps v.state
  have hstage : v.state.poll.stage = v.state.stage := by
    rw [SourceState.stage, hphase, hcancelled, SourceState.stage]
  refine ⟨hphase.symm ▸ h.inCall, fun hc => hphase.symm ▸ h.inCancel (hcancelled ▸ hc),
    hstage.symm ▸ holds_poll h.holds, fun htimer => ?_, fun htimer c hc => ?_⟩
  · rintro (hlatched | hfired)
    · exact hsince.trans (h.own htimer (.inl hlatched))
    · exact absurd (hsignal.symm.trans hfired) nofun
  · cases hfired : v.state.signal.fired with
    | true =>
        rw [modify, poll_of_fired hfired] at hc
        rcases List.mem_cons.mp hc with rfl | hc
        · exact completedWait_sound h.holds (h.own htimer) hfired
        · exact h.completed htimer c hc
    | false =>
        rw [modify, poll_of_not_fired hfired] at hc
        exact h.completed htimer c hc

/-- The first phase of a call.  Only `set_tsf_timer` ends the state of being
cancelled. -/
theorem inv_begin {phase : PwrPhase} (h : v.Inv s) (hcall : phase.InCall s)
    (hfree : phase.stage = .free)
    (hcancel : v.state.cancelled = true → phase.isSetting = true ∨ phase.isCancel = true) :
    (v.modify (·.begin phase)).Inv s := by
  have hkept : (v.state.begin phase).cancelled = true →
      v.state.cancelled = true ∧ phase.isSetting = false := by
    simp [SourceState.begin]
  refine ⟨hcall, fun hc => ?_, ?_, h.own, h.completed⟩
  · obtain ⟨hcancelled, hsetting⟩ := hkept hc
    refine ⟨(h.inCancel hcancelled).1, ?_⟩
    rcases hcancel hcancelled with hset | hcan
    · exact absurd (hsetting.symm.trans hset) nofun
    · exact hcan
  · cases hc : (v.state.begin phase).cancelled with
    | true =>
        have hdropped := h.holds
        rw [stage_of_cancelled (hkept hc).1] at hdropped
        rw [modify, stage_of_cancelled hc]
        exact ⟨⟨rfl, rfl⟩, hdropped.2⟩
    | false =>
        rw [modify, stage_of_not_cancelled hc]
        show phase.stage.Holds _
        rw [hfree]
        exact ⟨rfl, rfl⟩

theorem Inv.not_cancelled (h : v.Inv s) (hphase : v.state.phase.isCancel = false) :
    v.state.cancelled = false := by
  cases hc : v.state.cancelled with
  | false => rfl
  | true => exact absurd (hphase.symm.trans (h.inCancel hc).2) nofun

theorem inv_setting {op : PwrOp} {rest : List PwrOp} (h : v.Inv s)
    (hphase : v.state.phase = .setting (op :: rest)) :
    ((v.exec op).enter (.setting rest)).Inv s := by
  have hcancelled : v.state.cancelled = false := h.not_cancelled (by rw [hphase]; rfl)
  have hcall := h.inCall
  have hholds := h.holds
  rw [stage_of_not_cancelled hcancelled] at hholds
  rw [hphase] at hcall hholds
  obtain ⟨target, hsuffix⟩ := hcall
  have hcancelled' : ((v.exec op).enter (.setting rest)).state.cancelled = false :=
    (exec_cancelled v op).trans hcancelled
  refine ⟨⟨target, (List.suffix_cons op rest).trans hsuffix⟩,
    fun hc => absurd (hcancelled'.symm.trans hc) nofun, ?_,
    fun htimer => own_setting (h.own htimer) hholds, fun htimer => ?_⟩
  · rw [stage_of_not_cancelled hcancelled']
    exact holds_setting hsuffix hholds
  · exact (exec_completed v op).symm ▸ h.completed htimer

theorem inv_cancelling {op : PwrOp} {rest : List PwrOp} (h : v.Inv s)
    (hphase : v.state.phase = .cancelling (op :: rest)) :
    ((v.exec op).enter (.cancelling rest)).Inv s := by
  have hcall := h.inCall
  have hholds := h.holds
  rw [hphase] at hcall
  obtain ⟨hkind, hsuffix⟩ := hcall
  have hop := ne_enable_of_cancelTsfTimer hsuffix
  have hkept : ((v.exec op).enter (.cancelling rest)).state.cancelled = v.state.cancelled :=
    exec_cancelled v op
  refine ⟨⟨hkind, (List.suffix_cons op rest).trans hsuffix⟩, fun _ => ⟨hkind, rfl⟩, ?_,
    fun htimer => (h.own htimer).exec hop, fun htimer => ?_⟩
  · cases hc : v.state.cancelled with
    | true =>
        rw [stage_of_cancelled hc] at hholds
        rw [stage_of_cancelled (hkept.trans hc)]
        exact holds_cancelled hop hholds
    | false =>
        rw [stage_of_not_cancelled hc, hphase] at hholds
        rw [stage_of_not_cancelled (hkept.trans hc)]
        exact holds_cancelling hsuffix hholds
  · exact (exec_completed v op).symm ▸ h.completed htimer

/-- When `cancel_tsf_timer` returns its signal was reset. -/
theorem inv_cancelled (h : v.Inv s) (hphase : v.state.phase = .cancelling []) :
    (v.modify SourceState.cancel).Inv s := by
  have hcall := h.inCall
  rw [hphase] at hcall
  have hstage : v.state.stage = .dropped := by
    rw [SourceState.stage, hphase]
    split <;> rfl
  have hholds := h.holds
  rw [hstage] at hholds
  exact ⟨trivial, fun _ => ⟨hcall.1, rfl⟩, hholds, h.own, h.completed⟩

theorem inv_tbttOp {op : PwrOp} {rest : List PwrOp} (h : v.Inv s)
    (hphase : v.state.phase = .tbtt (op :: rest)) : ((v.exec op).enter (.tbtt rest)).Inv s := by
  have hcancelled : v.state.cancelled = false := h.not_cancelled (by rw [hphase]; rfl)
  have hkind := h.inCall
  have hholds := h.holds
  rw [stage_of_not_cancelled hcancelled] at hholds
  rw [hphase] at hkind hholds
  have hcancelled' : ((v.exec op).enter (.tbtt rest)).state.cancelled = false :=
    (exec_cancelled v op).trans hcancelled
  have hnot : s.isTimer = true → False := fun htimer => absurd (hkind.symm.trans htimer) nofun
  refine ⟨hkind, fun hc => absurd (hcancelled'.symm.trans hc) nofun, ?_,
    fun htimer => (hnot htimer).elim, fun htimer => (hnot htimer).elim⟩
  rw [stage_of_not_cancelled hcancelled']
  exact Quiet.exec hholds op

/-- A call that is not a cancellation returns. -/
theorem inv_enter {phase : PwrPhase} (h : v.Inv s) (hphase : v.state.phase.isCancel = false)
    (hcall : phase.InCall s) (hstage : phase.stage = v.state.phase.stage) :
    (v.enter phase).Inv s := by
  have hcancelled := h.not_cancelled hphase
  have hholds := h.holds
  rw [stage_of_not_cancelled hcancelled, ← hstage] at hholds
  refine ⟨hcall, fun hc => absurd (hcancelled.symm.trans hc) nofun, ?_, h.own, h.completed⟩
  have hcancelled' : (v.enter phase).state.cancelled = false := hcancelled
  rw [stage_of_not_cancelled hcancelled']
  show phase.stage.Holds _
  cases hphase : phase.stage <;> rw [hphase] at hholds
  case live => exact ⟨hholds.unmasked, hholds.unhandled, hholds.owed⟩
  all_goals exact hholds

theorem Inv.step (h : v.Inv s) (hs : Step v s v') : v'.Inv s := by
  cases hs with
  | stay => exact h
  | set t target => exact inv_begin h ⟨target, List.suffix_rfl⟩ rfl fun _ => .inl rfl
  | cancel t => exact inv_begin h ⟨rfl, List.suffix_rfl⟩ rfl fun _ => .inr rfl
  | tbtt i enabled =>
      exact inv_begin h rfl rfl fun hc => absurd (h.inCancel hc).1 nofun
  | setting s op rest hphase => exact inv_setting h hphase
  | armed s hphase => exact inv_enter h (by rw [hphase]; rfl) trivial (by rw [hphase]; rfl)
  | cancelling s op rest hphase => exact inv_cancelling h hphase
  | cancelled s hphase => exact inv_cancelled h hphase
  | tbttOp s op rest hphase => exact inv_tbttOp h hphase
  | tbttDone s hphase => exact inv_enter h (by rw [hphase]; rfl) trivial (by rw [hphase]; rfl)
  | poll => exact inv_poll h
  | fire s hon =>
      exact ⟨h.inCall, h.inCancel, holds_fire hon h.holds, fun _ _ => rfl, h.completed⟩
  | handle s hok =>
      exact ⟨h.inCall, h.inCancel, holds_handle hok h.holds, fun htimer => (h.own htimer).handle,
        h.completed⟩

end SourceView

/-! ## Runs -/

namespace Pwr

/-- The events of every timer belong to its current arming. -/
structure Sound (p : Pwr) : Prop where
  /-- Every wait on a timer completed after a firing since the timer was enabled,
  and none while the timer was cancelled. -/
  completed : ∀ t, ∀ c ∈ (p.sources (.timer t)).completed, c.Sound
  /-- A firing that the handler did not see yet is latched, and the handler will
  run. -/
  pending : ∀ t, (p.sources (.timer t)).unhandled = true →
    hasBit p.status (PwrSource.timer t).bit = true ∧ p.irq = true
  /-- After the handler the next wait completes. -/
  delivered : ∀ t, (p.sources (.timer t)).owed = true →
    (p.sources (.timer t)).signal.wait.1 = true

/-- What holds in every reachable state. -/
structure Inv (p : Pwr) : Prop where
  source : ∀ s, (p.view s).Inv s
  requested : hasBit p.status p.enable = true → p.irq = true

theorem inv_init : Inv {} where
  source s :=
    ⟨trivial, nofun, ⟨rfl, rfl⟩, fun _ hevent => by simp [view, hasBit] at hevent, fun _ => nofun⟩
  requested h := by simp [hasBit] at h

variable {p p' : Pwr}

theorem Inv.step (h : p.Inv) {e : PwrEvent} (hok : p.NoStaleEvent e) (hs : p.step e = some p') :
    p'.Inv where
  source s := (h.source s).step (step_view hok hs s)
  requested hbits := by
    obtain ⟨q, -, rfl⟩ := Option.map_eq_some_iff.mp hs
    have hq : hasBit q.status q.enable = true := hbits
    simp [request, hq]

theorem Inv.live_of_not_quiet (h : p.Inv) {s : PwrSource}
    (hnot : ¬(p.view s).Quiet) : (p.view s).Live := by
  have hholds := (h.source s).holds
  cases hstage : (p.view s).state.stage <;> rw [hstage] at hholds
  case live => exact hholds
  case free => exact absurd hholds hnot
  all_goals exact absurd hholds.1 hnot

theorem Inv.sound (h : p.Inv) : p.Sound where
  completed t := (h.source (.timer t)).completed rfl
  pending t hunhandled := by
    have hlive := h.live_of_not_quiet (s := .timer t)
      fun hquiet => absurd (hquiet.1.symm.trans hunhandled) nofun
    have hlatched : hasBit p.status (PwrSource.timer t).bit = true := hlive.unhandled hunhandled
    have hunmasked : hasBit p.enable (PwrSource.timer t).bit = true := hlive.unmasked
    refine ⟨hlatched, h.requested ?_⟩
    rw [PwrSource.bit_eq_twoPow] at hlatched hunmasked
    exact hasBit_of_common (PwrSource.index_lt _) hlatched hunmasked
  delivered t howed := by
    have hlive := h.live_of_not_quiet (s := .timer t)
      fun hquiet => absurd (hquiet.2.symm.trans howed) nofun
    have hfired : (p.sources (.timer t)).signal.fired = true := hlive.owed howed
    simp [EventSignal.wait, hfired]

/-- In every run in which no handler finds an event that is being discarded, the
events of every timer belong to its current arming. -/
theorem timers_sound_of_run {es : List PwrEvent} {p : Pwr}
    (hmeets : Trace.Meets step NoStaleEvent {} es) (hrun : Trace.run step {} es = some p) :
    p.Sound :=
  (Trace.run_inv_of_meets (fun _ _ _ h hok hs => Inv.step h hok hs) inv_init hmeets hrun).sound

/-- Timer 0 is armed and fires. -/
def firedRun : List PwrEvent :=
  [.setTsfTimer 0 500] ++ List.replicate 8 (.task (.timer 0)) ++ [.fire (.timer 0)]

theorem timers_sound_of_run_fired :
    ∃ p, Trace.run step {} (firedRun ++ [.pwrHandler, .poll (.timer 0)]) = some p ∧
      (p.sources (.timer 0)).completed = [⟨false, true⟩] ∧ p.Sound := by
  have hprefix : Trace.Meets step NoStaleEvent {} firedRun := by
    refine Trace.meets_of_forall (fun e he p => ?_) _
    simp only [firedRun, List.mem_append, List.mem_singleton, List.mem_replicate] at he
    rcases he with (rfl | ⟨-, rfl⟩) | rfl <;> trivial
  have hmeets : Trace.Meets step NoStaleEvent {} (firedRun ++ [.pwrHandler, .poll (.timer 0)]) := by
    refine hprefix.append rfl ⟨?_, fun p _ => ⟨trivial, fun _ _ => trivial⟩⟩
    -- timer 0 is armed, and no other source had a call
    rintro (t | i)
    · revert t
      decide
    · revert i
      decide
  obtain ⟨p, hrun, hcompleted⟩ :
      ∃ p, Trace.run step {} (firedRun ++ [.pwrHandler, .poll (.timer 0)]) = some p ∧
        (p.sources (.timer 0)).completed = [⟨false, true⟩] := ⟨_, rfl, rfl⟩
  exact ⟨p, hrun, hcompleted, timers_sound_of_run hmeets hrun⟩

/-- Timer 1 is armed, then timer 0.  Timer 0 fires, and its next `set_tsf_timer`
runs up to the reset of the signal.  Then timer 1 fires, the handler runs, the
call returns and the new wait is polled. -/
def staleRun : List PwrEvent :=
  List.flatten
    [[.setTsfTimer 1 1000], List.replicate 8 (.task (.timer 1)),
      [.setTsfTimer 0 500], List.replicate 8 (.task (.timer 0)),
      [.fire (.timer 0), .setTsfTimer 0 2000], List.replicate 3 (.task (.timer 0)),
      [.fire (.timer 1), .pwrHandler], List.replicate 5 (.task (.timer 0)),
      [.poll (.timer 0)]]

/-- The wait completes although the timer did not fire since it was enabled. -/
theorem stale_event_completes_wait :
    ∃ p, Trace.run step {} staleRun = some p ∧
      (p.sources (.timer 0)).completed = [⟨false, false⟩] ∧ ¬p.Sound := by
  have hwaits : (Trace.run step {} staleRun).map (fun p => (p.sources (.timer 0)).completed) =
      some [⟨false, false⟩] := by
    decide +kernel
  obtain ⟨p, hrun, hcompleted⟩ := Option.map_eq_some_iff.mp hwaits
  refine ⟨p, hrun, hcompleted, fun hsound => ?_⟩
  have hmem : (⟨false, false⟩ : CompletedWait) ∈ (p.sources (.timer 0)).completed := by
    rw [hcompleted]
    exact List.mem_singleton_self _
  exact absurd (hsound.completed 0 _ hmem).fired nofun

end Pwr

end EspWifiHal
