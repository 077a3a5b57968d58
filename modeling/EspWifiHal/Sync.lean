import EspWifiHal.Tx.Params

/-!
# Signals between the interrupt handlers and the tasks

The primitives of `sync.rs`.  A poll runs under a lock, so it is one step with
respect to an interrupt handler.  It returns `none` or `false` when the future
is still pending.
-/

namespace EspWifiHal

/-- `AtomicWaker`: whether the waker of a task is stored. -/
structure AtomicWaker where
  registered : Bool := false
deriving DecidableEq, Repr

namespace AtomicWaker

def register (_ : AtomicWaker) : AtomicWaker := { registered := true }

/-- The stored waker is taken and used. -/
def wake (_ : AtomicWaker) : AtomicWaker := { registered := false }

end AtomicWaker

/-- `Result<(), ChannelAccessError>`. -/
abbrev SlotResult := Except ChannelAccessError Unit

/-- The state `none` is `PENDING_OR_INACTIVE`. -/
structure HardwareTxResultSignal where
  state : Option SlotResult := none
  waker : AtomicWaker := {}

namespace HardwareTxResultSignal

def reset (s : HardwareTxResultSignal) : HardwareTxResultSignal := { s with state := none }

def signal (slotStatus : SlotResult) (s : HardwareTxResultSignal) : HardwareTxResultSignal :=
  { state := some slotStatus, waker := s.waker.wake }

/-- A poll of `wait`. -/
def wait (s : HardwareTxResultSignal) : Option SlotResult × HardwareTxResultSignal :=
  match s.state with
  | some result => (some result, s.reset)
  | none => (none, { s with waker := s.waker.register })

theorem wait_ready {s s' : HardwareTxResultSignal} {result : SlotResult}
    (h : s.wait = (some result, s')) : s.state = some result := by
  unfold wait at h
  split at h
  · rename_i result' hstate
    cases h
    exact hstate
  · cases h

theorem wait_pending {s s' : HardwareTxResultSignal} (h : s.wait = (none, s')) :
    s'.state = none := by
  unfold wait at h
  split at h
  · cases h
  · rename_i hstate
    cases h
    exact hstate

end HardwareTxResultSignal

structure EventSignal where
  fired : Bool := false
  waker : AtomicWaker := {}
deriving DecidableEq, Repr

namespace EventSignal

def signal (s : EventSignal) : EventSignal := { fired := true, waker := s.waker.wake }

def reset (s : EventSignal) : EventSignal := { s with fired := false }

/-- A poll of `wait`. -/
def wait (s : EventSignal) : Bool × EventSignal :=
  if s.fired then (true, { s with fired := false })
  else (false, { s with waker := s.waker.register })

end EventSignal

/-- The counter is a `usize`, which has 32 bits on these chips. -/
structure SignalQueue where
  queuedSignals : BitVec 32 := 0
  waker : AtomicWaker := {}
deriving DecidableEq, Repr

namespace SignalQueue

/-- Only the first signal wakes the task. -/
def put (s : SignalQueue) : SignalQueue :=
  { queuedSignals := s.queuedSignals + 1
    waker := if s.queuedSignals = 0 then s.waker.wake else s.waker }

def reset (s : SignalQueue) : SignalQueue := { s with queuedSignals := 0 }

/-- A poll of `next`. -/
def next (s : SignalQueue) : Bool × SignalQueue :=
  if s.queuedSignals = 0 then (false, { s with waker := s.waker.register })
  else (true, { s with queuedSignals := s.queuedSignals - 1 })

end SignalQueue

end EspWifiHal
