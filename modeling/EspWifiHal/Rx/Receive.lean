import EspWifiHal.Dma.Ownership
import EspWifiHal.Rx.Length
import EspWifiHal.Sync
import Mathlib.Algebra.Group.Nat.Defs

/-!
# Receiving frames

The task that runs `receive` and `clear_rx_queue`, the receive queue of the
ESP32-S3 and ESP32-C3, the hardware that completes descriptors, and the MAC
interrupt handler.  Each call of the queue is one step, since it holds a lock.
Between two statements of the task the hardware and the handler may run.

A receiver that waits must not sleep while a frame is ready for it.
`receive_sound_of_run` proves this for every run in which the counter of
`WIFI_RX_SIGNAL_QUEUE` does not overflow.  The counter only goes down when the
queue is found empty, and `overflow_strands_frame` is a run in which it wraps.
-/

namespace EspWifiHal

/-! ## The receiver -/

/-- Where the task is in `receive` or `clear_rx_queue`. -/
inductive RecvPc where
  | idle
  /-- The future of `receive` exists and was not polled yet. -/
  | created
  /-- Next is `take_first`. -/
  | take
  /-- Next is `is_rx_frame_valid`. -/
  | check (d : Addr)
  /-- Next is `recycle`. -/
  | recycle (d : Addr)
  /-- Next is a poll of `WIFI_RX_SIGNAL_QUEUE.next()`. -/
  | next
  /-- The future is pending in `next`. -/
  | parked
  /-- Next is `WIFI_RX_SIGNAL_QUEUE.reset()`. -/
  | clearReset
deriving DecidableEq, Repr

/-- The descriptor that the task holds. -/
def RecvPc.owned : RecvPc → List Addr
  | .check d => [d]
  | .recycle d => [d]
  | _ => []

/-- The descriptor that was rejected and is not recycled yet. -/
def RecvPc.refused : RecvPc → List Addr
  | .recycle d => [d]
  | _ => []

structure Receiver where
  ledger : Ledger
  ram : Ram
  /-- `WIFI_RX_SIGNAL_QUEUE`. -/
  signals : SignalQueue
  /-- The receive interrupt is pending. -/
  irq : Bool
  pc : RecvPc
  /-- The descriptors of the returned buffers that were not dropped yet. -/
  held : List Addr
  /-- Every returned frame: its descriptor and the memory at that time. -/
  returned : List (DmaDescriptor × Ram)
  /-- Every rejected descriptor, oldest first. -/
  rejected : List Addr
  /-- Every descriptor that `receive` recycled, oldest first. -/
  recycled : List Addr

/-- What the hardware writes for a frame: the length, the bytes, and the state of
its registers afterwards. -/
structure RxFrame where
  length : BitVec 12
  bytes : Nat → Byte
  next : Option Addr
  last : Option Addr
  prefetchedNull : Bool

/-- The change of the descriptors when the frame goes to `d`. -/
def RxFrame.change (f : RxFrame) (d : Addr) (s : RxState) : HwChange :=
  { sucEof := Function.update s.mem.completed d true
    length := Function.update (fun p => (s.mem p).flags.length) d f.length
    next := f.next
    last := f.last
    prefetchedNull := f.prefetchedNull }

/-- The memory when the frame goes to the buffer of `d`. -/
def RxFrame.write (f : RxFrame) (size : Nat) (d : DmaDescriptor) (ram : Ram) : Ram :=
  match d.buffer with
  | some buffer => fun a =>
      if buffer ≤ a ∧ a < buffer + size then f.bytes (a - buffer) else ram a
  | none => ram

/-- The first descriptor from the software head on that is not completed. -/
def RxState.firstIncomplete (fuel : Nat) (s : RxState) : Option (Option Addr) :=
  Linked.walk s.mem.link (fun p => !s.mem.completed p) fuel s.head

inductive RecvEvent where
  /-- A call of `receive`. -/
  | receive
  | poll
  /-- The next statement of `receive` or of `clear_rx_queue`. -/
  | task
  /-- The pending future is dropped. -/
  | drop
  /-- A call of `clear_rx_queue`, with its first statement. -/
  | clearRxQueue
  /-- A returned buffer is dropped. -/
  | release (d : Addr)
  /-- The hardware receives a frame. -/
  | complete (f : RxFrame)
  | macHandler

namespace Receiver

/-- The receiver after `DmaBufferSlab::init` and `DmaList::new`. -/
def start (slab : DmaBufferSlab) (mem : Mem) (ram : Ram) : Option Receiver :=
  (Ledger.start slab mem).map fun ledger =>
    { ledger := ledger
      ram := ram
      signals := {}
      irq := false
      pc := .idle
      held := []
      returned := []
      rejected := []
      recycled := [] }

/-- The loop of `receive` and the second statement of `clear_rx_queue`. -/
def task (slab : DmaBufferSlab) (r : Receiver) : Option Receiver :=
  match r.pc with
  | .take =>
      (r.ledger.rx.takeFirst slab.bufferCount).map fun (taken, rx) =>
        { r with
          ledger := r.ledger.noteTaken (taken, rx)
          pc := taken.elim .next .check }
  | .check d =>
      if isRxFrameValid r.ram (r.ledger.rx.mem d) then
        some
          { r with
            pc := .idle
            held := d :: r.held
            returned := (r.ledger.rx.mem d, r.ram) :: r.returned }
      else some { r with pc := .recycle d, rejected := r.rejected ++ [d] }
  | .recycle d =>
      (r.ledger.step slab (.recycle d)).map fun ledger =>
        { r with ledger := ledger, pc := .take, recycled := r.recycled ++ [d] }
  | .next =>
      match r.signals.next with
      | (true, signals) => some { r with signals := signals, pc := .take }
      | (false, signals) => some { r with signals := signals, pc := .parked }
  | .clearReset => some { r with signals := r.signals.reset, pc := .idle }
  | _ => none

/-- The hardware completes the first descriptor that is not completed. -/
def complete (slab : DmaBufferSlab) (f : RxFrame) (r : Receiver) : Option Receiver :=
  match r.ledger.rx.firstIncomplete slab.bufferCount with
  | some (some d) =>
      some
        { r with
          ledger := { r.ledger with rx := r.ledger.rx.hardware (f.change d r.ledger.rx) }
          ram := f.write slab.bufferSize (r.ledger.rx.mem d) r.ram
          irq := true }
  | _ => none

/-- `mac_handler`, as far as reception is concerned. -/
def macHandler (r : Receiver) : Receiver :=
  if r.irq then { r with irq := false, signals := r.signals.put } else r

def step (slab : DmaBufferSlab) (r : Receiver) : RecvEvent → Option Receiver
  | .receive =>
      match r.pc with
      | .idle => some { r with pc := .created }
      | _ => none
  | .poll =>
      match r.pc with
      | .created => some { r with pc := .take }
      | .parked => some { r with pc := .next }
      | _ => none
  | .task => r.task slab
  | .drop =>
      match r.pc with
      | .created => some { r with pc := .idle }
      | .parked => some { r with pc := .idle }
      | _ => none
  | .clearRxQueue =>
      match r.pc with
      | .idle =>
          (r.ledger.step slab .clear).map fun ledger =>
            { r with ledger := ledger, pc := .clearReset }
      | _ => none
  | .release d =>
      if d ∈ r.held then
        (r.ledger.step slab (.recycle d)).map fun ledger =>
          { r with ledger := ledger, held := r.held.erase d }
      else none
  | .complete f => r.complete slab f
  | .macHandler => some r.macHandler

/-- The transitions of the receiver. -/
inductive Step (slab : DmaBufferSlab) (r : Receiver) : RecvEvent → Receiver → Prop where
  | receive (hpc : r.pc = .idle) : Step slab r .receive { r with pc := .created }
  | poll (hpc : r.pc = .created) : Step slab r .poll { r with pc := .take }
  | repoll (hpc : r.pc = .parked) : Step slab r .poll { r with pc := .next }
  | take (taken : Option Addr) (rx : RxState) (hpc : r.pc = .take)
      (htake : r.ledger.rx.takeFirst slab.bufferCount = some (taken, rx)) :
      Step slab r .task { r with
        ledger := r.ledger.noteTaken (taken, rx)
        pc := taken.elim .next .check }
  | accept (d : Addr) (hpc : r.pc = .check d)
      (hvalid : isRxFrameValid r.ram (r.ledger.rx.mem d) = true) :
      Step slab r .task { r with
        pc := .idle
        held := d :: r.held
        returned := (r.ledger.rx.mem d, r.ram) :: r.returned }
  | reject (d : Addr) (hpc : r.pc = .check d)
      (hvalid : isRxFrameValid r.ram (r.ledger.rx.mem d) = false) :
      Step slab r .task { r with pc := .recycle d, rejected := r.rejected ++ [d] }
  | recycle (d : Addr) (ledger : Ledger) (hpc : r.pc = .recycle d)
      (hrecycle : r.ledger.step slab (.recycle d) = some ledger) :
      Step slab r .task { r with
        ledger := ledger
        pc := .take
        recycled := r.recycled ++ [d] }
  | ready (signals : SignalQueue) (hpc : r.pc = .next)
      (hnext : r.signals.next = (true, signals)) :
      Step slab r .task { r with signals := signals, pc := .take }
  | park (signals : SignalQueue) (hpc : r.pc = .next)
      (hnext : r.signals.next = (false, signals)) :
      Step slab r .task { r with signals := signals, pc := .parked }
  | clearReset (hpc : r.pc = .clearReset) :
      Step slab r .task { r with signals := r.signals.reset, pc := .idle }
  | drop (hpc : r.pc = .created ∨ r.pc = .parked) : Step slab r .drop { r with pc := .idle }
  | clear (ledger : Ledger) (hpc : r.pc = .idle)
      (hclear : r.ledger.step slab .clear = some ledger) :
      Step slab r .clearRxQueue { r with ledger := ledger, pc := .clearReset }
  | release (d : Addr) (ledger : Ledger) (hd : d ∈ r.held)
      (hrecycle : r.ledger.step slab (.recycle d) = some ledger) :
      Step slab r (.release d) { r with ledger := ledger, held := r.held.erase d }
  | complete (f : RxFrame) (d : Addr) :
      Step slab r (.complete f) { r with
        ledger := { r.ledger with rx := r.ledger.rx.hardware (f.change d r.ledger.rx) }
        ram := f.write slab.bufferSize (r.ledger.rx.mem d) r.ram
        irq := true }
  | serve (hirq : r.irq = true) :
      Step slab r .macHandler { r with irq := false, signals := r.signals.put }
  | spurious (hirq : r.irq = false) : Step slab r .macHandler r

variable {slab : DmaBufferSlab} {r r' : Receiver}

theorem step_of_task (hs : r.task slab = some r') : Step slab r .task r' := by
  unfold task at hs
  split at hs
  · rename_i hpc
    obtain ⟨⟨taken, rx⟩, htake, rfl⟩ := Option.map_eq_some_iff.mp hs
    exact .take taken rx hpc htake
  · rename_i d hpc
    split at hs
    · rename_i hvalid
      cases hs
      exact .accept d hpc hvalid
    · rename_i hvalid
      cases hs
      exact .reject d hpc (Bool.eq_false_iff.mpr hvalid)
  · rename_i d hpc
    obtain ⟨ledger, hrecycle, rfl⟩ := Option.map_eq_some_iff.mp hs
    exact .recycle d ledger hpc hrecycle
  · rename_i hpc
    split at hs
    · rename_i signals hnext
      cases hs
      exact .ready signals hpc hnext
    · rename_i signals hnext
      cases hs
      exact .park signals hpc hnext
  · rename_i hpc
    cases hs
    exact .clearReset hpc
  · cases hs

theorem step_of_eq {e : RecvEvent} (hs : r.step slab e = some r') : Step slab r e r' := by
  cases e with
  | receive =>
      cases hpc : r.pc <;> simp only [step, hpc, Option.some.injEq, reduceCtorEq] at hs
      case idle => exact hs ▸ .receive hpc
  | poll =>
      cases hpc : r.pc <;> simp only [step, hpc, Option.some.injEq, reduceCtorEq] at hs
      case created => exact hs ▸ .poll hpc
      case parked => exact hs ▸ .repoll hpc
  | task => exact step_of_task hs
  | drop =>
      cases hpc : r.pc <;> simp only [step, hpc, Option.some.injEq, reduceCtorEq] at hs
      case created => exact hs ▸ .drop (Or.inl hpc)
      case parked => exact hs ▸ .drop (Or.inr hpc)
  | clearRxQueue =>
      cases hpc : r.pc <;> simp only [step, hpc, reduceCtorEq] at hs
      case idle =>
        obtain ⟨ledger, hclear, rfl⟩ := Option.map_eq_some_iff.mp hs
        exact .clear ledger hpc hclear
  | release d =>
      by_cases hd : d ∈ r.held
      · simp only [step, hd, if_true] at hs
        obtain ⟨ledger, hrecycle, rfl⟩ := Option.map_eq_some_iff.mp hs
        exact .release d ledger hd hrecycle
      · simp only [step, hd, if_false, reduceCtorEq] at hs
  | complete f =>
      change r.complete slab f = some r' at hs
      unfold Receiver.complete at hs
      split at hs
      · rename_i d _
        cases hs
        exact .complete f d
      · cases hs
  | macHandler =>
      change some r.macHandler = some r' at hs
      unfold macHandler at hs
      split at hs
      · rename_i hirq
        cases hs
        exact .serve hirq
      · rename_i hirq
        cases hs
        exact .spurious (Bool.eq_false_iff.mpr hirq)

end Receiver

/-! ## The head of the queue -/

/-- The descriptor at the software head is completed. -/
def RxState.HeadCompleted (s : RxState) : Prop :=
  ∃ d, s.head = some d ∧ s.mem.completed d = true

theorem Refines.headCompleted_iff {s : RxState} {q : Fifo} (h : Refines s q) :
    s.HeadCompleted ↔ ∃ x xs, q.chain = x :: xs ∧ q.done x = true := by
  have hhead := h.path.head?_eq
  constructor
  · rintro ⟨d, hd, hdone⟩
    rw [hd, List.head?_eq_some_iff] at hhead
    obtain ⟨xs, hxs⟩ := hhead
    exact ⟨d, xs, hxs, h.done ▸ hdone⟩
  · rintro ⟨x, xs, hxs, hdone⟩
    rw [hxs, List.head?_cons] at hhead
    exact ⟨x, hhead.symm, h.done.symm ▸ hdone⟩

namespace Ledger

variable {slab : DmaBufferSlab} {l l' : Ledger} {q : Fifo}

/-- After `take_first` returned nothing, there was nothing to return. -/
theorem Inv.not_headCompleted {rx : RxState} (h : l.Inv slab q)
    (htake : l.rx.takeFirst slab.bufferCount = some (none, rx)) : ¬rx.HeadCompleted := by
  obtain ⟨rx', hrun, hinv⟩ := h.takeFirst
  rw [htake, Option.some.injEq, Prod.mk.injEq] at hrun
  obtain ⟨hnone, rfl⟩ := hrun
  rw [← hnone] at hinv
  intro hhead
  obtain ⟨x, xs, hchain, hdone⟩ := hinv.refines.headCompleted_iff.mp hhead
  have hsame : q.chain = x :: xs := by
    rw [q.takeFirst_chain, ← hnone, hchain]
    rfl
  rw [q.takeFirst_done] at hdone
  cases xs with
  | nil =>
      rw [Fifo.takeFirst_last hsame hdone] at hnone
      cases hnone
  | cons y ys =>
      rw [Fifo.takeFirst_next hsame hdone] at hnone
      cases hnone

/-- What a return does to the ledger: the head is as before, or it is new. -/
theorem Inv.recycled {d : Addr} (h : l.Inv slab q) (hs : l.step slab (.recycle d) = some l') :
    d ∈ l.borrowed ∧ l'.borrowed = l.borrowed.erase d ∧
      (l'.rx.HeadCompleted → l.rx.HeadCompleted) := by
  by_cases hd : d ∈ l.borrowed
  · obtain ⟨rx, hrun, hinv⟩ := h.recycle hd
    simp only [step, hd, if_true, hrun, Option.map_some, Option.some.injEq] at hs
    subst hs
    refine ⟨hd, rfl, fun hhead => ?_⟩
    obtain ⟨x, xs, hchain, hdone⟩ := hinv.refines.headCompleted_iff.mp hhead
    rw [Fifo.recycle_chain] at hchain
    rw [Fifo.recycle_done] at hdone
    have hxd : x ≠ d := by
      rintro rfl
      rw [Function.update_self] at hdone
      cases hdone
    rw [Function.update_of_ne hxd] at hdone
    cases hq : q.chain with
    | nil =>
        rw [hq, List.nil_append, List.cons.injEq] at hchain
        exact absurd hchain.1.symm hxd
    | cons y ys =>
        rw [hq, List.cons_append, List.cons.injEq] at hchain
        exact h.refines.headCompleted_iff.mpr ⟨x, ys, by rw [hq, hchain.1], hdone⟩
  · simp only [step, hd, if_false, reduceCtorEq] at hs

end Ledger

theorem SignalQueue.next_ready {s s' : SignalQueue} (h : s.next = (true, s')) :
    s.queuedSignals ≠ 0 ∧ s'.waker = s.waker := by
  unfold next at h
  split at h
  · cases h
  · rename_i hne
    cases h
    exact ⟨hne, rfl⟩

theorem SignalQueue.next_pending {s s' : SignalQueue} (h : s.next = (false, s')) :
    s.queuedSignals = 0 ∧ s'.queuedSignals = 0 := by
  unfold next at h
  split at h
  · rename_i heq
    cases h
    exact ⟨heq, heq⟩
  · cases h

/-- A stored waker is only left by a counter at zero. -/
theorem SignalQueue.put_waker {s : SignalQueue}
    (h : s.waker.registered = true → s.queuedSignals = 0) :
    s.put.waker.registered = false := by
  unfold put
  by_cases hzero : s.queuedSignals = 0
  · simp only [hzero, if_true, AtomicWaker.wake]
  · simp only [hzero, if_false]
    exact Bool.eq_false_iff.mpr (mt h hzero)

/-! ## What every run keeps -/

namespace Receiver

variable {slab : DmaBufferSlab} {r r' : Receiver}

/-- What holds of the receiver: it is not asleep while a frame is ready, it
returned no rejected frame, and it recycled every rejected descriptor once. -/
structure Sound (r : Receiver) : Prop where
  awake : r.pc = .parked → r.signals.waker.registered = true →
    ¬r.ledger.rx.HeadCompleted ∨ r.irq = true
  valid : ∀ f ∈ r.returned, isRxFrameValid f.2 f.1 = true
  recycled : r.rejected = r.recycled ++ r.pc.refused

structure Inv (slab : DmaBufferSlab) (r : Receiver) : Prop where
  queue : ∃ q, r.ledger.Inv slab q
  owned : r.ledger.borrowed.Perm (r.pc.owned ++ r.held)
  waker : r.signals.waker.registered = true → r.signals.queuedSignals = 0
  /-- A frame at the head leaves a trace for a receiver that is about to wait. -/
  awake : r.pc = .next ∨ r.pc = .parked → r.ledger.rx.HeadCompleted →
    r.irq = true ∨ r.signals.queuedSignals ≠ 0
  valid : ∀ f ∈ r.returned, isRxFrameValid f.2 f.1 = true
  recycled : r.rejected = r.recycled ++ r.pc.refused

theorem Inv.sound (h : r.Inv slab) : r.Sound := by
  refine ⟨fun hpc hreg => ?_, h.valid, h.recycled⟩
  by_cases hhead : r.ledger.rx.HeadCompleted
  · exact Or.inr ((h.awake (Or.inr hpc) hhead).resolve_right fun hne => hne (h.waker hreg))
  · exact Or.inl hhead

/-- The interrupt handler does not overflow the counter. -/
def NoOverflow (r : Receiver) : RecvEvent → Prop
  | .macHandler => r.irq = true → r.signals.queuedSignals ≠ BitVec.allOnes 32
  | _ => True

theorem add_one_ne_zero_of_ne_allOnes {n : BitVec 32} (h : n ≠ BitVec.allOnes 32) : n + 1 ≠ 0 := by
  intro hzero
  apply h
  have hmax : BitVec.allOnes 32 = 4294967295#32 := rfl
  bv_omega

theorem inv_step {e : RecvEvent} (h : r.Inv slab) (hok : r.NoOverflow e)
    (hs : Step slab r e r') : r'.Inv slab := by
  obtain ⟨⟨q, queue⟩, owned, waker, awake, valid, recycled⟩ := h
  cases hs with
  | receive hpc =>
      rw [hpc] at owned recycled
      exact ⟨⟨q, queue⟩, owned, waker, nofun, valid, recycled⟩
  | poll hpc =>
      rw [hpc] at owned recycled
      exact ⟨⟨q, queue⟩, owned, waker, nofun, valid, recycled⟩
  | repoll hpc =>
      rw [hpc] at owned recycled
      exact ⟨⟨q, queue⟩, owned, waker, fun _ => awake (Or.inr hpc), valid, recycled⟩
  | take taken rx hpc htake =>
      rw [hpc] at owned recycled
      obtain ⟨rx', hrun, hinv⟩ := queue.takeFirst
      obtain ⟨rfl, rfl⟩ := Prod.mk.inj (Option.some.inj (htake.symm.trans hrun))
      cases htaken : q.takeFirst.1 with
      | none =>
          rw [htaken] at htake hinv
          exact ⟨⟨_, hinv⟩, owned, waker,
            fun _ hhead => absurd hhead (queue.not_headCompleted htake), valid, recycled⟩
      | some d =>
          rw [htaken] at hinv
          exact ⟨⟨_, hinv⟩, owned.cons d, waker, nofun, valid, recycled⟩
  | accept d hpc hvalid =>
      rw [hpc] at owned recycled
      refine ⟨⟨q, queue⟩, owned, waker, nofun, fun f hf => ?_, recycled⟩
      rcases List.mem_cons.mp hf with rfl | hf
      · exact hvalid
      · exact valid f hf
  | reject d hpc hvalid =>
      rw [hpc] at owned recycled
      refine ⟨⟨q, queue⟩, owned, waker, nofun, valid, ?_⟩
      show r.rejected ++ [d] = r.recycled ++ [d]
      rw [recycled]
      exact congrArg (· ++ [d]) (List.append_nil _)
  | recycle d ledger hpc hrecycle =>
      rw [hpc] at owned recycled
      obtain ⟨_, hborrowed, _⟩ := queue.recycled hrecycle
      refine ⟨Ledger.inv_step ⟨q, queue⟩ hrecycle, ?_, waker, nofun, valid, ?_⟩
      · show ledger.borrowed.Perm r.held
        rw [hborrowed, ← List.erase_cons_head d r.held]
        exact owned.erase d
      · rw [recycled]
        exact (List.append_nil _).symm
  | ready signals hpc hnext =>
      rw [hpc] at owned recycled
      obtain ⟨hne, hwaker⟩ := SignalQueue.next_ready hnext
      refine ⟨⟨q, queue⟩, owned, fun hreg => ?_, nofun, valid, recycled⟩
      exact absurd (waker (hwaker ▸ hreg)) hne
  | park signals hpc hnext =>
      rw [hpc] at owned recycled
      obtain ⟨hzero, hzero'⟩ := SignalQueue.next_pending hnext
      refine ⟨⟨q, queue⟩, owned, fun _ => hzero', fun _ hhead => Or.inl ?_, valid, recycled⟩
      exact (awake (Or.inl hpc) hhead).resolve_right fun hne => hne hzero
  | clearReset hpc =>
      rw [hpc] at owned recycled
      exact ⟨⟨q, queue⟩, owned, fun _ => rfl, nofun, valid, recycled⟩
  | drop hpc =>
      have hnone : r.pc.owned = [] ∧ r.pc.refused = [] := by
        rcases hpc with hpc | hpc <;> exact hpc ▸ ⟨rfl, rfl⟩
      rw [hnone.1] at owned
      rw [hnone.2] at recycled
      exact ⟨⟨q, queue⟩, owned, waker, nofun, valid, recycled⟩
  | clear ledger hpc hclear =>
      rw [hpc] at owned recycled
      have hinv := Ledger.inv_step ⟨q, queue⟩ hclear
      obtain ⟨rx, _, rfl⟩ := Option.map_eq_some_iff.mp hclear
      exact ⟨hinv, owned, waker, nofun, valid, recycled⟩
  | release d ledger hd hrecycle =>
      obtain ⟨_, hborrowed, hhead⟩ := queue.recycled hrecycle
      have hnodup : (r.pc.owned ++ r.held).Nodup :=
        owned.nodup_iff.mp (List.nodup_append.mp queue.nodup).2.1
      have hnotin : d ∉ r.pc.owned := fun hpc =>
        (List.nodup_append.mp hnodup).2.2 d hpc d hd rfl
      refine ⟨Ledger.inv_step ⟨q, queue⟩ hrecycle, ?_, waker, fun hpc h => awake hpc (hhead h),
        valid, recycled⟩
      show ledger.borrowed.Perm (r.pc.owned ++ r.held.erase d)
      rw [hborrowed, ← List.erase_append_right _ hnotin]
      exact owned.erase d
  | complete f d =>
      exact ⟨⟨_, queue.hardware _⟩, owned, waker, fun _ _ => Or.inl rfl, valid, recycled⟩
  | serve hirq =>
      refine ⟨⟨q, queue⟩, owned, fun hreg => ?_, fun _ _ => Or.inr ?_, valid, recycled⟩
      · exact absurd hreg (Bool.eq_false_iff.mp (SignalQueue.put_waker waker))
      · exact add_one_ne_zero_of_ne_allOnes (hok hirq)
  | spurious hirq => exact ⟨⟨q, queue⟩, owned, waker, awake, valid, recycled⟩

theorem inv_start (slab : DmaBufferSlab) (mem : Mem) (ram : Ram) :
    ∃ r, start slab mem ram = some r ∧ r.Inv slab := by
  obtain ⟨l, hstart, hinv⟩ := Ledger.inv_start slab mem
  have hborrowed : l.borrowed = [] := by
    obtain ⟨rx, _, rfl⟩ := Option.map_eq_some_iff.mp hstart
    rfl
  refine ⟨_, by rw [start, hstart]; rfl, ?_⟩
  refine ⟨hinv, ?_, nofun, nofun, nofun, rfl⟩
  show l.borrowed.Perm []
  rw [hborrowed]

/-- The task is between two statements. -/
def Running (r : Receiver) : Prop :=
  r.pc ≠ .idle ∧ r.pc ≠ .created ∧ r.pc ≠ .parked

/-- A running task can always go on: its calls of the queue return. -/
theorem Inv.task_isSome (h : r.Inv slab) (hrun : r.Running) : (r.step slab .task).isSome := by
  obtain ⟨q, queue⟩ := h.queue
  have howned := h.owned
  change (r.task slab).isSome
  unfold task
  split
  · obtain ⟨rx, htake, _⟩ := queue.takeFirst
    rw [htake]
    rfl
  · split <;> rfl
  · rename_i d hpc
    rw [hpc] at howned
    have hd : d ∈ r.ledger.borrowed := howned.mem_iff.mpr List.mem_cons_self
    rw [Option.isSome_map]
    exact queue.step_isSome (e := .recycle d) hd
  · split <;> rfl
  · rfl
  · rename_i hnone
    obtain ⟨hidle, hcreated, hparked⟩ := hrun
    cases hpc : r.pc <;> simp_all

/-- In every run without an overflow the receiver is sound and never stuck. -/
theorem receive_sound_of_run (slab : DmaBufferSlab) (mem : Mem) (ram : Ram) :
    ∃ r₀, start slab mem ram = some r₀ ∧
      ∀ (es : List RecvEvent) (r : Receiver), Trace.Meets (step slab) NoOverflow r₀ es →
        Trace.run (step slab) r₀ es = some r →
          r.Sound ∧ (r.Running → (r.step slab .task).isSome) := by
  obtain ⟨r₀, hstart, hinv⟩ := inv_start slab mem ram
  refine ⟨r₀, hstart, fun es r hmeets hrun => ?_⟩
  have h : r.Inv slab := Trace.run_inv_of_meets
    (fun _ _ _ h hok hs => inv_step h hok (step_of_eq hs)) hinv hmeets hrun
  exact ⟨h.sound, h.task_isSome⟩

/-! ## A run with an overflow -/

end Receiver

theorem RxState.restartExhaustedRx_mem {fuel : Nat} {s s' : RxState}
    (h : s.restartExhaustedRx fuel = some s') : s'.mem = s.mem := by
  unfold restartExhaustedRx at h
  split at h
  · cases h
    rfl
  · obtain ⟨found, _, rfl⟩ := Option.map_eq_some_iff.mp h
    cases found <;> rfl

/-- Taking a descriptor out of the queue keeps the lengths. -/
theorem RxState.takeFirst_len {fuel : Nat} {s s' : RxState} {taken : Option Addr}
    (h : s.takeFirst fuel = some (taken, s')) (p : Addr) : (s'.mem p).len = (s.mem p).len := by
  have hmodify : ∀ (mem : Mem) (d : Addr),
      (((mem.modify d (.setOwner .cpu)).modify d (.setNext none)) p).len = (mem p).len := by
    intro mem d
    rcases eq_or_ne p d with rfl | hne
    · rw [Mem.modify_self, Mem.modify_self]
      rfl
    · rw [Mem.modify_of_ne hne, Mem.modify_of_ne hne]
  unfold takeFirst at h
  split at h
  · cases h
    rfl
  · split at h
    · obtain ⟨s₁, hadvanced, heq⟩ := Option.map_eq_some_iff.mp h
      have hmem : s₁.mem = s.mem := by
        split at hadvanced
        · have hkept := restartExhaustedRx_mem hadvanced
          exact hkept
        · cases hadvanced
          rfl
      cases heq
      rw [← hmem]
      exact hmodify s₁.mem _
    · obtain ⟨s₁, hrestart, heq⟩ := Option.map_eq_some_iff.mp h
      cases heq
      rw [restartExhaustedRx_mem hrestart]

theorem isRxFrameValid_of_len_lt {ram : Ram} {d : DmaDescriptor} (h : d.len < 48) :
    isRxFrameValid ram d = false := by
  rw [Bool.eq_false_iff]
  intro hvalid
  cases hbuffer : d.buffer with
  | none => simp only [isRxFrameValid, hbuffer, Bool.false_eq_true] at hvalid
  | some buffer =>
      obtain ⟨_, hlen, _⟩ := (isRxFrameValid_iff hbuffer).mp hvalid
      omega

theorem Refines.firstIncomplete_eq {s : RxState} {q : Fifo} {x : Addr} {xs : List Addr}
    {fuel : Nat} (h : Refines s q) (hq : q.chain = x :: xs) (hx : q.done x = false)
    (hf : q.chain.length ≤ fuel) : s.firstIncomplete fuel = some (some x) := by
  rw [RxState.firstIncomplete, Linked.walk_eq_find? _ h.path hf, hq, h.done, List.find?_cons, hx]
  rfl

namespace Receiver

variable {slab : DmaBufferSlab} {r : Receiver}

/-- A completion that is too short for its header. -/
def shortFrame : RxFrame :=
  { length := 0, bytes := fun _ => 0, next := none, last := none, prefetchedNull := false }

/-- The receiver is about to look for a frame, no frame is there, and `n`
signals were counted. -/
structure Waiting (slab : DmaBufferSlab) (n : Nat) (r : Receiver) : Prop where
  queue : ∃ q x xs, r.ledger.Inv slab q ∧ q.chain = x :: xs ∧ ∀ p ∈ q.chain, q.done p = false
  pc : r.pc = .take
  irq : r.irq = false
  signals : r.signals.queuedSignals = BitVec.ofNat 32 n

/-- The hardware completes the head with a short frame and the handler runs. -/
theorem complete_and_serve {q : Fifo} {x : Addr} {xs : List Addr} (h : r.ledger.Inv slab q)
    (hq : q.chain = x :: xs) (hx : q.done x = false) :
    ∃ r' q', Trace.run (step slab) r [.complete shortFrame, .macHandler] = some r' ∧
      r'.ledger.Inv slab q' ∧ q'.chain = q.chain ∧ q'.done = Function.update q.done x true ∧
      (r'.ledger.rx.mem x).len = 0 ∧ r'.pc = r.pc ∧ r'.irq = false ∧
      r'.signals = r.signals.put := by
  have hlen : q.chain.length ≤ slab.bufferCount := by have := h.length_le; omega
  have hfirst := h.refines.firstIncomplete_eq hq hx hlen
  have hrun : Trace.run (step slab) r [.complete shortFrame, .macHandler] =
      some
        { r with
          ledger := { r.ledger with rx := r.ledger.rx.hardware (shortFrame.change x r.ledger.rx) }
          ram := shortFrame.write slab.bufferSize (r.ledger.rx.mem x) r.ram
          irq := false
          signals := r.signals.put } := by
    simp only [Trace.run_cons, Trace.run_nil, step, Receiver.complete, hfirst, Option.bind_some,
      macHandler, if_true]
  refine ⟨_, _, hrun, h.hardware (shortFrame.change x r.ledger.rx), rfl, ?_, ?_, rfl, rfl, rfl⟩
  · show Function.update r.ledger.rx.mem.completed x true = _
    rw [h.refines.done]
  · show (Function.update (fun p => (r.ledger.rx.mem p).flags.length) x
      shortFrame.length x).toNat = 0
    rw [Function.update_self]
    rfl

theorem task_take {taken : Option Addr} {rx : RxState} (hpc : r.pc = .take)
    (htake : r.ledger.rx.takeFirst slab.bufferCount = some (taken, rx)) :
    r.step slab .task = some { r with
      ledger := r.ledger.noteTaken (taken, rx)
      pc := taken.elim .next .check } := by
  simp only [step, task, hpc, htake, Option.map_some]

theorem task_reject {d : Addr} (hpc : r.pc = .check d)
    (hvalid : isRxFrameValid r.ram (r.ledger.rx.mem d) = false) :
    r.step slab .task = some { r with pc := .recycle d, rejected := r.rejected ++ [d] } := by
  simp only [step, task, hpc, hvalid, Bool.false_eq_true, if_false]

theorem task_recycle {d : Addr} {ledger : Ledger} (hpc : r.pc = .recycle d)
    (hrecycle : r.ledger.step slab (.recycle d) = some ledger) :
    r.step slab .task = some { r with
      ledger := ledger
      pc := .take
      recycled := r.recycled ++ [d] } := by
  simp only [step, task, hpc, hrecycle, Option.map_some]

/-- The receiver takes a short frame, rejects it and recycles it, without a look
at the signals. -/
theorem reject_short {q : Fifo} {x : Addr} {xs : List Addr} (h : r.ledger.Inv slab q)
    (hq : q.chain = x :: xs) (hx : q.done x = true) (hlen : (r.ledger.rx.mem x).len = 0)
    (hpc : r.pc = .take) :
    ∃ r', Trace.run (step slab) r [.task, .task, .task] = some r' ∧
      r'.ledger.Inv slab (q.takeFirst.2.recycle x) ∧ r'.pc = .take ∧ r'.irq = r.irq ∧
      r'.signals = r.signals := by
  obtain ⟨rx, htake, hinv⟩ := h.takeFirst
  rw [(Fifo.takeFirst_head hq hx).1] at htake hinv
  have hinvalid : isRxFrameValid r.ram (rx.mem x) = false := by
    apply isRxFrameValid_of_len_lt
    rw [RxState.takeFirst_len htake, hlen]
    decide
  obtain ⟨rx', hrecycle, hinv'⟩ := hinv.recycle (d := x) List.mem_cons_self
  have hstep : (r.ledger.noteTaken (some x, rx)).step slab (.recycle x) =
      some
        { r.ledger.noteTaken (some x, rx) with
          rx := rx'
          borrowed := (x :: r.ledger.borrowed).erase x
          appended := r.ledger.appended ++ [x] } := by
    have hrecycle' : rx.recycle slab.bufferCount x = some rx' := hrecycle
    simp only [Ledger.step, Ledger.noteTaken, List.mem_cons_self, if_true, hrecycle',
      Option.map_some]
  have hrun : Trace.run (step slab) r [.task, .task, .task] =
      some
        { r with
          ledger :=
            { r.ledger.noteTaken (some x, rx) with
              rx := rx'
              borrowed := (x :: r.ledger.borrowed).erase x
              appended := r.ledger.appended ++ [x] }
          pc := .take
          rejected := r.rejected ++ [x]
          recycled := r.recycled ++ [x] } := by
    rw [Trace.run_cons, task_take hpc htake, Option.bind_some, Trace.run_cons,
      task_reject rfl hinvalid, Option.bind_some, Trace.run_cons, task_recycle rfl hstep]
    rfl
  exact ⟨_, hrun, hinv', rfl, rfl, rfl⟩

/-- A short frame is received, rejected and recycled, and its signal stays. -/
theorem Waiting.succ {n : Nat} (h : Waiting slab n r) :
    ∃ r', Trace.run (step slab) r
        ([.complete shortFrame, .macHandler] ++ [.task, .task, .task]) = some r' ∧
      Waiting slab (n + 1) r' := by
  obtain ⟨q, x, xs, hinv, hq, hdone⟩ := h.queue
  have hx : q.done x = false := hdone x (hq ▸ List.mem_cons_self)
  obtain ⟨r₁, q₁, hrun, hinv₁, hchain₁, hdone₁, hlen, hpc, hirq, hsignals⟩ :=
    complete_and_serve hinv hq hx
  have hq₁ : q₁.chain = x :: xs := hchain₁.trans hq
  have hx₁ : q₁.done x = true := by rw [hdone₁, Function.update_self]
  obtain ⟨r₂, hrun', hinv₂, hpc₂, hirq₂, hsignals₂⟩ :=
    reject_short hinv₁ hq₁ hx₁ hlen (hpc.trans h.pc)
  have hqueue : ∀ p ∈ xs ++ [x], (q₁.takeFirst.2.recycle x).done p = false := by
    intro p hp
    rw [Fifo.recycle_done, q₁.takeFirst_done, hdone₁, Function.update_idem]
    rcases eq_or_ne p x with rfl | hne
    · rw [Function.update_self]
    · rw [Function.update_of_ne hne]
      have hxs : p ∈ xs := (List.mem_append.mp hp).resolve_right fun he =>
        hne (List.mem_singleton.mp he)
      exact hdone p (hq ▸ List.mem_cons_of_mem x hxs)
  have hchain : (q₁.takeFirst.2.recycle x).chain = xs ++ [x] := by
    rw [Fifo.recycle_chain, (Fifo.takeFirst_head hq₁ hx₁).2]
  obtain ⟨y, ys, hys⟩ : ∃ y ys, xs ++ [x] = y :: ys :=
    List.exists_cons_of_ne_nil (List.append_ne_nil_of_right_ne_nil xs (List.cons_ne_nil x []))
  refine ⟨r₂, Trace.run_trans hrun hrun', ⟨_, y, ys, hinv₂, hchain.trans hys, ?_⟩, hpc₂,
    hirq₂.trans hirq, ?_⟩
  · rw [hchain]
    exact hqueue
  · rw [hsignals₂, hsignals, SignalQueue.put, h.signals]
    exact BitVec.ofNat_add_ofNat n 1

theorem waiting_start (slab : DmaBufferSlab) (mem : Mem) (ram : Ram) :
    ∃ r₀ r, start slab mem ram = some r₀ ∧
      Trace.run (step slab) r₀ [.receive, .poll] = some r ∧ Waiting slab 0 r := by
  obtain ⟨l, q, hstart, hinv, hchain, hdone⟩ := Ledger.start_spec slab mem
  obtain ⟨x, xs, hcons⟩ : ∃ x xs, slab.descriptors = x :: xs := by
    refine List.exists_cons_of_ne_nil (List.ne_nil_of_length_pos ?_)
    rw [DmaBufferSlab.descriptors, List.length_map, List.length_range]
    exact Nat.lt_of_lt_of_le Nat.two_pos slab.two_le_bufferCount
  refine ⟨_, _, by rw [start, hstart]; rfl, rfl, ⟨q, x, xs, hinv, hchain.trans hcons, ?_⟩,
    rfl, rfl, rfl⟩
  rw [hchain]
  exact hdone

/-- Any number of signals can be counted while the receiver finds a frame each
time it looks for one. -/
theorem waiting_of_run (slab : DmaBufferSlab) (mem : Mem) (ram : Ram) (n : Nat) :
    ∃ r₀ es r, start slab mem ram = some r₀ ∧ Trace.run (step slab) r₀ es = some r ∧
      Waiting slab n r := by
  induction n with
  | zero =>
      obtain ⟨r₀, r, hstart, hrun, hwait⟩ := waiting_start slab mem ram
      exact ⟨r₀, _, r, hstart, hrun, hwait⟩
  | succ n ih =>
      obtain ⟨r₀, es, r, hstart, hrun, hwait⟩ := ih
      obtain ⟨r', hrun', hwait'⟩ := hwait.succ
      exact ⟨r₀, _, r', hstart, Trace.run_trans hrun hrun', hwait'⟩

/-- With the counter at its maximum the signal of the next frame is lost. -/
theorem Waiting.strand (h : Waiting slab (2 ^ 32 - 1) r) :
    ∃ es r', Trace.run (step slab) r es = some r' ∧ r'.pc = .parked ∧
      r'.signals.waker.registered = true ∧ r'.ledger.rx.HeadCompleted ∧ r'.irq = false := by
  obtain ⟨q, x, xs, hinv, hq, hdone⟩ := h.queue
  have hx : q.done x = false := hdone x (hq ▸ List.mem_cons_self)
  -- the receiver finds nothing
  obtain ⟨rx, htake, hinv₁⟩ := hinv.takeFirst
  have hnone := Fifo.takeFirst_waiting hq hx
  rw [hnone] at htake hinv₁
  have hrun₁ : Trace.run (step slab) r [.task] =
      some { r with ledger := r.ledger.noteTaken (none, rx), pc := .next } := by
    rw [Trace.run_cons, task_take h.pc htake]
    rfl
  -- a frame arrives, and the counter wraps to zero
  obtain ⟨r₂, q₂, hrun₂, hinv₂, hchain₂, hdone₂, _, hpc₂, hirq₂, hsignals₂⟩ :=
    complete_and_serve (r := { r with ledger := r.ledger.noteTaken (none, rx), pc := .next })
      hinv₁ hq hx
  have hzero : r₂.signals.queuedSignals = 0 := by
    rw [hsignals₂, SignalQueue.put]
    show r.signals.queuedSignals + 1 = 0
    rw [h.signals]
    rfl
  -- so the receiver goes to sleep
  have hrun₃ : Trace.run (step slab) r₂ [.task] =
      some { r₂ with
        signals := { r₂.signals with waker := r₂.signals.waker.register }
        pc := .parked } := by
    simp only [Trace.run_cons, Trace.run_nil, step, task, hpc₂, SignalQueue.next, hzero, if_true,
      Option.bind_some]
  refine ⟨_, _, Trace.run_trans hrun₁ (Trace.run_trans hrun₂ hrun₃), rfl, rfl, ?_, hirq₂⟩
  refine hinv₂.refines.headCompleted_iff.mpr ⟨x, xs, hchain₂.trans hq, ?_⟩
  rw [hdone₂, Function.update_self]

/-- With two buffers: after `2 ^ 32 - 1` interrupts that found the receiver busy,
the next frame is left at the head of the queue while the receiver sleeps. -/
theorem overflow_strands_frame :
    ∃ r₀ es r, start .twoBuffers (fun _ => .empty) (fun _ => 0) = some r₀ ∧
      Trace.run (step .twoBuffers) r₀ es = some r ∧ r.pc = .parked ∧
      r.signals.waker.registered = true ∧ r.ledger.rx.HeadCompleted ∧ r.irq = false ∧
      ¬r.Sound := by
  obtain ⟨r₀, es, r, hstart, hrun, hwait⟩ :=
    waiting_of_run .twoBuffers (fun _ => .empty) (fun _ => 0) (2 ^ 32 - 1)
  obtain ⟨es', r', hrun', hpc, hwaker, hhead, hirq⟩ := hwait.strand
  refine ⟨r₀, _, r', hstart, Trace.run_trans hrun hrun', hpc, hwaker, hhead, hirq, fun hsound => ?_⟩
  rcases hsound.awake hpc hwaker with hnot | hpending
  · exact hnot hhead
  · rw [hirq] at hpending
    cases hpending

end Receiver

end EspWifiHal
