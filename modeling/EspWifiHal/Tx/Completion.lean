import EspWifiHal.Lib.Trace
import EspWifiHal.Sync
import Mathlib.Data.List.FinRange
import Mathlib.Logic.Function.Basic

/-!
# Completions of the transmit slots

The five hardware slots, the tasks that run `transmit_raw` on them and the MAC
interrupt handler.  A completion latches a status bit of its slot and the cause
of the interrupt.  The handler turns the bit into a signal for the task.

The bit and the signal do not name the attempt.  The model remembers which
attempts stand behind them, and `attribution_iff` says when an attempt can get
the result of another one: exactly when its slot is not quiet at the reset of
the signal before the start.
-/

namespace EspWifiHal

/-! ## The slots -/

inductive HardwareTxQueueStatus where
  | disabled
  | valid
  | ready
deriving DecidableEq, Repr

/-- Where the task of a slot is in `transmit_raw`. -/
inductive TxPc where
  | idle
  /-- The slot is set up.  Next is `hardware_tx_result_signal.reset()`. -/
  | reset (attempt : Nat)
  /-- Next is `start_tx_queue`. -/
  | start (attempt : Nat)
  /-- The future waits for the signal. -/
  | wait (attempt : Nat)
  /-- The parameters were not valid.  The first poll returns the error. -/
  | rejected
  /-- The drop guard runs.  Next is `tx_done`. -/
  | txDone
  /-- Next is the `reset` of the drop guard. -/
  | txReset
deriving DecidableEq, Repr

/-- The attempt that a task works on, until its result is known. -/
def TxPc.attempt? : TxPc → Option Nat
  | .reset attempt => some attempt
  | .start attempt => some attempt
  | .wait attempt => some attempt
  | _ => none

/-- A result that a future obtained, with the attempts that produced it. -/
structure Obtained where
  attempt : Nat
  result : SlotResult
  producers : List Nat

/-- The result was produced by a completion of the same attempt. -/
def Obtained.Own (o : Obtained) : Prop := o.producers ≠ [] ∧ ∀ p ∈ o.producers, p = o.attempt

/-- A hardware slot and its task.  The attempts are numbered in their order. -/
structure TxSlot where
  pc : TxPc
  queueStatus : HardwareTxQueueStatus
  /-- The element of `HARDWARE_TX_RESULT_SIGNALS`. -/
  signal : HardwareTxResultSignal
  /-- The attempts whose completion the signal stands for. -/
  producers : List Nat
  /-- The attempts whose completion a status bit stands for.  The bit is set
  when there are any. -/
  latched : SlotResult → List Nat
  /-- The attempts that the hardware may still complete. -/
  inFlight : List Nat
  nextAttempt : Nat
  /-- The results so far, latest first. -/
  obtained : List Obtained

/-- The steps of a slot apart from the interrupt handler. -/
inductive SlotEvent where
  /-- A call of `transmit_raw` with valid parameters or without. -/
  | call (valid : Bool)
  /-- The next statement of `transmit_raw` or of its drop guard. -/
  | task
  | poll
  /-- The future is dropped. -/
  | drop
  /-- The hardware completes an attempt. -/
  | complete (attempt : Nat) (result : SlotResult)
  /-- The hardware gives up an attempt without a completion. -/
  | abort (attempt : Nat)

namespace TxSlot

/-- The slot before its first use. -/
def init : TxSlot :=
  { pc := .idle
    queueStatus := .disabled
    signal := {}
    producers := []
    latched := fun _ => []
    inFlight := []
    nextAttempt := 0
    obtained := [] }

def call (valid : Bool) (s : TxSlot) : Option TxSlot :=
  match s.pc with
  | .idle =>
      some
        { s with
          pc := if valid then .reset s.nextAttempt else .rejected
          nextAttempt := s.nextAttempt + 1 }
  | _ => none

def task (s : TxSlot) : Option TxSlot :=
  match s.pc with
  | .reset attempt => some { s with signal := s.signal.reset, pc := .start attempt }
  | .start attempt =>
      some { s with queueStatus := .ready, inFlight := attempt :: s.inFlight, pc := .wait attempt }
  | .txDone => some { s with queueStatus := .disabled, pc := .txReset }
  | .txReset => some { s with signal := s.signal.reset, pc := .idle }
  | _ => none

/-- With a result or an error of the parameters the drop guard runs next. -/
def poll (s : TxSlot) : Option TxSlot :=
  match s.pc with
  | .wait attempt =>
      match s.signal.wait with
      | (some result, signal) =>
          some
            { s with
              signal := signal
              pc := .txDone
              obtained := ⟨attempt, result, s.producers⟩ :: s.obtained }
      | (none, signal) => some { s with signal := signal }
  | .rejected => some { s with pc := .txDone }
  | _ => none

def drop (s : TxSlot) : Option TxSlot :=
  match s.pc with
  | .wait _ => some { s with pc := .txDone }
  | .rejected => some { s with pc := .txDone }
  | _ => none

def complete (attempt : Nat) (result : SlotResult) (s : TxSlot) : Option TxSlot :=
  if attempt ∈ s.inFlight then
    some
      { s with
        inFlight := s.inFlight.erase attempt
        latched := Function.update s.latched result (attempt :: s.latched result) }
  else none

def abort (attempt : Nat) (s : TxSlot) : Option TxSlot :=
  if attempt ∈ s.inFlight then some { s with inFlight := s.inFlight.erase attempt } else none

def step (s : TxSlot) : SlotEvent → Option TxSlot
  | .call valid => s.call valid
  | .task => s.task
  | .poll => s.poll
  | .drop => s.drop
  | .complete attempt result => s.complete attempt result
  | .abort attempt => s.abort attempt

/-- What the interrupt handler does for a latched bit: signal the slot, disable
it after an error, and clear the bit. -/
def signalLatched (result : SlotResult) (s : TxSlot) : TxSlot :=
  { s with
    signal := s.signal.signal result
    producers := s.latched result
    queueStatus :=
      match result with
      | .ok _ => s.queueStatus
      | .error _ => .disabled
    latched := Function.update s.latched result [] }

end TxSlot

/-! ## The peripheral -/

structure Mac where
  slots : Fin 5 → TxSlot
  /-- The interrupt cause: success, timeout and collision. -/
  cause : SlotResult → Bool

inductive MacEvent where
  | slot (i : Fin 5) (e : SlotEvent)
  | macHandler

namespace Mac

def init : Mac := { slots := fun _ => .init, cause := fun _ => false }

def setSlot (m : Mac) (i : Fin 5) (s : TxSlot) : Mac :=
  { m with slots := Function.update m.slots i s }

/-- A bit of the status register.  The bits are numbered against the slots. -/
def rawTxStatus (m : Mac) (result : SlotResult) (bit : Fin 5) : Bool :=
  !((m.slots bit.rev).latched result).isEmpty

/-- `process_tx_status` with the closure of `mac_handler`. -/
def processTxStatus (result : SlotResult) (m : Mac) : Mac :=
  ((List.finRange 5).filter (m.rawTxStatus result)).foldl
    (fun m bit => m.setSlot bit.rev ((m.slots bit.rev).signalLatched result)) m

/-- The order in which `mac_handler` serves the causes. -/
def causes : List SlotResult := [.ok (), .error .timeout, .error .collision]

/-- `mac_handler`: the cause is read and cleared, then each cause is served. -/
def macHandler (m : Mac) : Mac :=
  causes.foldl (fun m' result => if m.cause result then m'.processTxStatus result else m')
    { m with cause := fun _ => false }

/-- A completion also raises the interrupt. -/
def step (m : Mac) : MacEvent → Option Mac
  | .slot i e =>
      ((m.slots i).step e).map fun s =>
        match e with
        | .complete _ result => { m.setSlot i s with cause := Function.update m.cause result true }
        | _ => m.setSlot i s
  | .macHandler => some m.macHandler

end Mac

/-! ## The handler, slot by slot -/

/-- The handler serves one cause of a slot. -/
def TxSlot.serve (s : TxSlot) (result : SlotResult) : TxSlot :=
  if (s.latched result).isEmpty then s else s.signalLatched result

/-- The handler serves the causes that were set. -/
def TxSlot.handle (cause : SlotResult → Bool) (s : TxSlot) : TxSlot :=
  Mac.causes.foldl (fun s result => if cause result then s.serve result else s) s

namespace Mac

theorem foldl_signalLatched_slots (result : SlotResult) {bits : List (Fin 5)} (m : Mac)
    (hbits : bits.Nodup) (i : Fin 5) :
    (bits.foldl (fun m bit => m.setSlot bit.rev ((m.slots bit.rev).signalLatched result)) m).slots i
      = if i.rev ∈ bits then (m.slots i).signalLatched result else m.slots i := by
  induction bits generalizing m with
  | nil => rfl
  | cons bit bits ih =>
      obtain ⟨hnotin, hnodup⟩ := List.nodup_cons.mp hbits
      rw [List.foldl_cons, ih _ hnodup]
      by_cases hi : i = bit.rev
      · subst hi
        rw [Fin.rev_rev, if_neg hnotin, if_pos List.mem_cons_self]
        exact Function.update_self ..
      · have hne : i.rev ≠ bit := fun he => hi (he ▸ (Fin.rev_rev i).symm)
        have hsame : (m.setSlot bit.rev ((m.slots bit.rev).signalLatched result)).slots i =
            m.slots i := Function.update_of_ne hi ..
        rw [hsame]
        simp only [List.mem_cons, hne, false_or]

theorem processTxStatus_slots (result : SlotResult) (m : Mac) (i : Fin 5) :
    (m.processTxStatus result).slots i = (m.slots i).serve result := by
  rw [processTxStatus, foldl_signalLatched_slots _ _ ((List.nodup_finRange 5).filter _),
    TxSlot.serve]
  simp only [List.mem_filter, List.mem_finRange, true_and, rawTxStatus, Fin.rev_rev]
  cases ((m.slots i).latched result).isEmpty <;> rfl

theorem macHandler_slots (m : Mac) (i : Fin 5) :
    m.macHandler.slots i = (m.slots i).handle m.cause := by
  have hfold : ∀ (results : List SlotResult) (m' : Mac),
      (results.foldl (fun m' result => if m.cause result then m'.processTxStatus result else m')
        m').slots i =
      results.foldl (fun s result => if m.cause result then s.serve result else s)
        (m'.slots i) := by
    intro results
    induction results with
    | nil => exact fun _ => rfl
    | cons result results ih =>
        intro m'
        rw [List.foldl_cons, List.foldl_cons, ih]
        cases m.cause result with
        | true => rw [if_pos rfl, if_pos rfl, processTxStatus_slots]
        | false => rfl
  exact hfold causes _

end Mac

/-! ## What a slot keeps -/

namespace TxSlot

/-- The transitions of a slot. -/
inductive Step (s : TxSlot) : TxSlot → Prop where
  | call (valid : Bool) (hpc : s.pc = .idle) :
      Step s { s with
        pc := if valid then .reset s.nextAttempt else .rejected
        nextAttempt := s.nextAttempt + 1 }
  | reset (a : Nat) (hpc : s.pc = .reset a) :
      Step s { s with signal := s.signal.reset, pc := .start a }
  | start (a : Nat) (hpc : s.pc = .start a) :
      Step s { s with queueStatus := .ready, inFlight := a :: s.inFlight, pc := .wait a }
  | txDone (hpc : s.pc = .txDone) : Step s { s with queueStatus := .disabled, pc := .txReset }
  | txReset (hpc : s.pc = .txReset) : Step s { s with signal := s.signal.reset, pc := .idle }
  | ready (a : Nat) (result : SlotResult) (signal : HardwareTxResultSignal)
      (hpc : s.pc = .wait a) (hwait : s.signal.wait = (some result, signal)) :
      Step s { s with
        signal := signal
        pc := .txDone
        obtained := ⟨a, result, s.producers⟩ :: s.obtained }
  | pending (a : Nat) (signal : HardwareTxResultSignal) (hpc : s.pc = .wait a)
      (hwait : s.signal.wait = (none, signal)) : Step s { s with signal := signal }
  | leave (hpc : s.pc = .rejected ∨ ∃ a, s.pc = .wait a) : Step s { s with pc := .txDone }
  | complete (a : Nat) (result : SlotResult) (ha : a ∈ s.inFlight) :
      Step s { s with
        inFlight := s.inFlight.erase a
        latched := Function.update s.latched result (a :: s.latched result) }
  | abort (a : Nat) (ha : a ∈ s.inFlight) : Step s { s with inFlight := s.inFlight.erase a }

variable {s s' : TxSlot}

theorem step_of_task (hs : s.task = some s') : Step s s' := by
  cases hpc : s.pc <;> simp only [task, hpc, Option.some.injEq, reduceCtorEq] at hs
  case reset a => exact hs ▸ .reset a hpc
  case start a => exact hs ▸ .start a hpc
  case txDone => exact hs ▸ .txDone hpc
  case txReset => exact hs ▸ .txReset hpc

theorem step_of_poll (hs : s.poll = some s') : Step s s' := by
  unfold poll at hs
  split at hs
  · rename_i a hpc
    split at hs
    · rename_i result signal hwait
      cases hs
      exact .ready a result signal hpc hwait
    · rename_i signal hwait
      cases hs
      exact .pending a signal hpc hwait
  · rename_i hpc
    cases hs
    exact .leave (Or.inl hpc)
  · cases hs

theorem step_of_drop (hs : s.drop = some s') : Step s s' := by
  cases hpc : s.pc <;> simp only [drop, hpc, Option.some.injEq, reduceCtorEq] at hs
  case wait a => exact hs ▸ .leave (Or.inr ⟨a, hpc⟩)
  case rejected => exact hs ▸ .leave (Or.inl hpc)

theorem step_of_eq {e : SlotEvent} (hs : s.step e = some s') : Step s s' := by
  cases e with
  | call valid =>
      cases hpc : s.pc <;>
        simp only [step, TxSlot.call, hpc, Option.some.injEq, reduceCtorEq] at hs
      case idle => exact hs ▸ .call valid hpc
  | task => exact step_of_task hs
  | poll => exact step_of_poll hs
  | drop => exact step_of_drop hs
  | complete a result =>
      by_cases ha : a ∈ s.inFlight
      · simp only [step, TxSlot.complete, ha, if_true, Option.some.injEq] at hs
        exact hs ▸ .complete a result ha
      · simp only [step, TxSlot.complete, ha, if_false, reduceCtorEq] at hs
  | abort a =>
      by_cases ha : a ∈ s.inFlight
      · simp only [step, TxSlot.abort, ha, if_true, Option.some.injEq] at hs
        exact hs ▸ .abort a ha
      · simp only [step, TxSlot.abort, ha, if_false, reduceCtorEq] at hs

/-- A completion of the attempt is latched, or may still come. -/
def Pending (s : TxSlot) (a : Nat) : Prop := a ∈ s.inFlight ∨ ∃ r, a ∈ s.latched r

/-- No completion is latched and none may still come. -/
def Quiet (s : TxSlot) : Prop := s.inFlight = [] ∧ ∀ r, s.latched r = []

theorem pending_of_complete {a p : Nat} {result : SlotResult} (ha : a ∈ s.inFlight)
    (hp : Pending { s with
      inFlight := s.inFlight.erase a
      latched := Function.update s.latched result (a :: s.latched result) } p) :
    s.Pending p := by
  rcases hp with hp | ⟨r, hp⟩
  · exact Or.inl (List.mem_of_mem_erase hp)
  · have hupdate : p ∈ Function.update s.latched result (a :: s.latched result) r := hp
    by_cases hr : r = result
    · subst hr
      rw [Function.update_self] at hupdate
      rcases List.mem_cons.mp hupdate with rfl | hp
      · exact Or.inl ha
      · exact Or.inr ⟨r, hp⟩
    · rw [Function.update_of_ne hr] at hupdate
      exact Or.inr ⟨r, hupdate⟩

theorem pending_of_signalLatched {result : SlotResult} {p : Nat}
    (hp : (s.signalLatched result).Pending p) : s.Pending p := by
  rcases hp with hp | ⟨r, hp⟩
  · exact Or.inl hp
  · have hupdate : p ∈ Function.update s.latched result [] r := hp
    by_cases hr : r = result
    · subst hr
      rw [Function.update_self] at hupdate
      exact absurd hupdate List.not_mem_nil
    · rw [Function.update_of_ne hr] at hupdate
      exact Or.inr ⟨r, hupdate⟩

/-- What holds in every reachable state of a slot. -/
structure Inv (s : TxSlot) : Prop where
  issued : ∀ a, s.pc.attempt? = some a → a < s.nextAttempt
  sent : ∀ a, s.Pending a → a < s.nextAttempt
  unstarted : ∀ a, s.pc = .reset a ∨ s.pc = .start a → ¬s.Pending a
  past : ∀ o ∈ s.obtained, o.attempt < s.nextAttempt ∧ s.pc.attempt? ≠ some o.attempt

theorem inv_init : init.Inv := by
  refine ⟨fun a ha => ?_, fun a ha => ?_, fun a ha => ?_, fun o ho => ?_⟩
  · cases ha
  · rcases ha with ha | ⟨r, ha⟩ <;> exact absurd ha List.not_mem_nil
  · rcases ha with ha | ha <;> cases ha
  · exact absurd ho List.not_mem_nil

theorem Inv.step (h : s.Inv) (hs : Step s s') : s'.Inv := by
  obtain ⟨issued, sent, unstarted, past⟩ := h
  cases hs with
  | call valid hpc =>
      refine ⟨fun a ha => ?_, fun a ha => Nat.lt_succ_of_lt (sent a ha), fun a ha => ?_,
        fun o ho => ⟨Nat.lt_succ_of_lt (past o ho).1, fun ha => ?_⟩⟩
      · cases valid <;> cases ha
        exact Nat.lt_succ_self _
      · have : a = s.nextAttempt := by
          cases valid <;> rcases ha with ha | ha <;> cases ha
          rfl
        exact fun hp => absurd (sent a hp) (this ▸ Nat.lt_irrefl _)
      · have hold := (past o ho).1
        cases valid with
        | true => exact Nat.lt_irrefl _ (Option.some.inj ha ▸ hold)
        | false => cases ha
  | reset a hpc =>
      rw [hpc] at issued unstarted past
      refine ⟨issued, sent, fun b hb => unstarted b ?_, past⟩
      rcases hb with hb | hb <;> cases hb
      exact Or.inl rfl
  | start a hpc =>
      rw [hpc] at issued past
      refine ⟨issued, fun b hb => ?_, fun b hb => ?_, past⟩
      · rcases hb with hb | hb
        · rcases List.mem_cons.mp hb with rfl | hb
          · exact issued b rfl
          · exact sent b (Or.inl hb)
        · exact sent b (Or.inr hb)
      · rcases hb with hb | hb <;> cases hb
  | txDone hpc =>
      refine ⟨nofun, sent, nofun, fun o ho => ⟨(past o ho).1, nofun⟩⟩
  | txReset hpc =>
      refine ⟨nofun, sent, nofun, fun o ho => ⟨(past o ho).1, nofun⟩⟩
  | ready a result signal hpc hwait =>
      refine ⟨nofun, sent, nofun, fun o ho => ⟨?_, nofun⟩⟩
      rcases List.mem_cons.mp ho with rfl | ho
      · exact issued a (by rw [hpc]; rfl)
      · exact (past o ho).1
  | pending a signal hpc hwait => exact ⟨issued, sent, unstarted, past⟩
  | leave hpc =>
      refine ⟨nofun, sent, nofun, fun o ho => ⟨(past o ho).1, nofun⟩⟩
  | complete a result ha =>
      exact ⟨issued, fun b hb => sent b (pending_of_complete ha hb),
        fun b hb hp => unstarted b hb (pending_of_complete ha hp), past⟩
  | abort a ha =>
      have hkeep : ∀ b, Pending { s with inFlight := s.inFlight.erase a } b → s.Pending b :=
        fun b hb => hb.imp_left List.mem_of_mem_erase
      exact ⟨issued, fun b hb => sent b (hkeep b hb),
        fun b hb hp => unstarted b hb (hkeep b hp), past⟩

theorem Inv.serve (h : s.Inv) (result : SlotResult) : (s.serve result).Inv := by
  rw [TxSlot.serve]
  split
  · exact h
  · exact ⟨h.issued, fun b hb => h.sent b (pending_of_signalLatched hb),
      fun b hb hp => h.unstarted b hb (pending_of_signalLatched hp), h.past⟩

/-- What holds after the reset of attempt `a` found the slot quiet: whatever is
pending while the attempt lasts comes from the attempt. -/
structure Attributed (a : Nat) (s : TxSlot) : Prop where
  own : ∀ o ∈ s.obtained, o.attempt = a → o.Own
  issued : a < s.nextAttempt
  only : s.pc.attempt? = some a → ∀ p, s.Pending p → p = a
  signal : s.pc = .start a ∨ s.pc = .wait a → s.signal.state ≠ none →
    s.producers ≠ [] ∧ ∀ p ∈ s.producers, p = a

variable {a : Nat}

theorem attributed_of_quiet (h : s.Inv) (hpc : s.pc = .reset a) (hq : s.Quiet) :
    Attributed a s := by
  have hattempt : s.pc.attempt? = some a := by rw [hpc]; rfl
  refine ⟨fun o ho he => ?_, h.issued a hattempt, fun _ p hp => ?_, fun hlater => ?_⟩
  · exact absurd (he ▸ hattempt) (h.past o ho).2
  · rcases hp with hp | ⟨r, hp⟩
    · exact absurd (hq.1 ▸ hp) List.not_mem_nil
    · exact absurd (hq.2 r ▸ hp) List.not_mem_nil
  · rw [hpc] at hlater
    rcases hlater with hlater | hlater <;> cases hlater

theorem Attributed.step (h : Attributed a s) (hs : Step s s') : Attributed a s' := by
  obtain ⟨own, issued, only, signal⟩ := h
  cases hs with
  | call valid hpc =>
      -- the new attempt has a new number
      have hnew : (if valid then TxPc.reset s.nextAttempt else .rejected).attempt? ≠ some a := by
        cases valid with
        | true => exact fun he => Nat.lt_irrefl _ (Option.some.inj he ▸ issued)
        | false => nofun
      refine ⟨own, Nat.lt_succ_of_lt issued, fun he => absurd he hnew, fun hlater => ?_⟩
      exact absurd (hlater.elim (congrArg TxPc.attempt?) (congrArg TxPc.attempt?)) hnew
  | reset b hpc =>
      rw [hpc] at only
      exact ⟨own, issued, only, fun _ hstate => absurd rfl hstate⟩
  | start b hpc =>
      rw [hpc] at only signal
      refine ⟨own, issued, fun he p hp => ?_, fun hlater => ?_⟩
      · have hba : b = a := Option.some.inj he
        rcases hp with hp | hp
        · rcases List.mem_cons.mp hp with rfl | hp
          · exact hba
          · exact only he p (Or.inl hp)
        · exact only he p (Or.inr hp)
      · refine signal (Or.inl ?_)
        rcases hlater with hlater | hlater <;> cases hlater
        rfl
  | txDone hpc => exact ⟨own, issued, nofun, nofun⟩
  | txReset hpc => exact ⟨own, issued, nofun, nofun⟩
  | ready b result sig hpc hwait =>
      rw [hpc] at signal
      refine ⟨fun o ho he => ?_, issued, nofun, nofun⟩
      rcases List.mem_cons.mp ho with rfl | ho
      · have hba : b = a := he
        subst hba
        refine signal (Or.inr rfl) ?_
        rw [HardwareTxResultSignal.wait_ready hwait]
        exact Option.some_ne_none result
      · exact own o ho he
  | pending b sig hpc hwait =>
      refine ⟨own, issued, only, fun _ hstate => ?_⟩
      exact absurd (HardwareTxResultSignal.wait_pending hwait) hstate
  | leave hpc => exact ⟨own, issued, nofun, nofun⟩
  | complete b result hb =>
      exact ⟨own, issued, fun he p hp => only he p (pending_of_complete hb hp), signal⟩
  | abort b hb =>
      exact ⟨own, issued, fun he p hp => only he p (hp.imp_left List.mem_of_mem_erase), signal⟩

theorem Attributed.serve (h : Attributed a s) (result : SlotResult) :
    Attributed a (s.serve result) := by
  rw [TxSlot.serve]
  split
  · exact h
  · rename_i hset
    refine ⟨h.own, h.issued, fun he p hp => h.only he p (pending_of_signalLatched hp),
      fun hlater _ => ⟨?_, fun p hp => ?_⟩⟩
    · exact fun hnil => hset (List.isEmpty_iff.mpr hnil)
    · have hattempt : s.pc.attempt? = some a :=
        hlater.elim (congrArg TxPc.attempt?) (congrArg TxPc.attempt?)
      exact h.only hattempt p (Or.inr ⟨result, hp⟩)

/-- What every service of a cause keeps, the handler keeps. -/
theorem handle_keeps {P : TxSlot → Prop} (hserve : ∀ s r, P s → P (s.serve r))
    (cause : SlotResult → Bool) (h : P s) : P (s.handle cause) := by
  have hfold : ∀ (rs : List SlotResult) (s : TxSlot), P s →
      P (rs.foldl (fun s r => if cause r then s.serve r else s) s) := by
    intro rs
    induction rs with
    | nil => exact fun _ h => h
    | cons r rs ih =>
        intro s h
        rw [List.foldl_cons]
        apply ih
        split
        · exact hserve s r h
        · exact h
  exact hfold Mac.causes s h

theorem serve_of_nil {r : SlotResult} (h : s.latched r = []) : s.serve r = s := by
  rw [TxSlot.serve, h, List.isEmpty_nil, if_pos rfl]

theorem serve_of_ne_nil {r : SlotResult} (h : s.latched r ≠ []) :
    s.serve r = s.signalLatched r := by
  rw [TxSlot.serve, if_neg (mt List.isEmpty_iff.mp h)]

theorem serve_latched (r : SlotResult) : (s.serve r).latched = Function.update s.latched r [] := by
  by_cases h : s.latched r = []
  · rw [serve_of_nil h, ← h, Function.update_eq_self]
  · rw [serve_of_ne_nil h]
    rfl

/-- Every latched bit has raised its cause. -/
def Raised (cause : SlotResult → Bool) (s : TxSlot) : Prop :=
  ∀ r, s.latched r ≠ [] → cause r = true

variable {cause : SlotResult → Bool}

theorem Raised.serve (h : s.Raised cause) (r : SlotResult) : (s.serve r).Raised cause := by
  intro r' hr'
  rw [serve_latched] at hr'
  by_cases he : r' = r
  · subst he
    rw [Function.update_self] at hr'
    exact absurd rfl hr'
  · rw [Function.update_of_ne he] at hr'
    exact h r' hr'

theorem latched_of_step {e : SlotEvent} (hs : s.step e = some s')
    (he : ∀ a r, e ≠ .complete a r) : s'.latched = s.latched := by
  cases e with
  | complete a r => exact absurd rfl (he a r)
  | call valid =>
      change s.call valid = some s' at hs
      unfold TxSlot.call at hs
      split at hs <;> cases hs
      rfl
  | task =>
      change s.task = some s' at hs
      unfold task at hs
      split at hs <;> cases hs <;> rfl
  | poll =>
      change s.poll = some s' at hs
      unfold poll at hs
      split at hs
      · split at hs <;> cases hs <;> rfl
      · cases hs
        rfl
      · cases hs
  | drop =>
      change s.drop = some s' at hs
      unfold drop at hs
      split at hs <;> cases hs <;> rfl
  | abort a =>
      change s.abort a = some s' at hs
      unfold abort at hs
      split at hs <;> cases hs
      rfl

theorem Raised.complete (h : s.Raised cause) {a : Nat} {r : SlotResult}
    (hs : s.complete a r = some s') : s'.Raised (Function.update cause r true) := by
  unfold TxSlot.complete at hs
  split at hs <;> cases hs
  intro r' hr'
  by_cases he : r' = r
  · rw [he, Function.update_self]
  · rw [Function.update_of_ne he]
    refine h r' fun hnil => hr' ?_
    show Function.update s.latched r _ r' = []
    rw [Function.update_of_ne he, hnil]

theorem Raised.update (h : s.Raised cause) (r : SlotResult) :
    s.Raised (Function.update cause r true) := by
  intro r' hr'
  by_cases he : r' = r
  · rw [he, Function.update_self]
  · rw [Function.update_of_ne he]
    exact h r' hr'

/-- A cause that is not raised has nothing to serve. -/
theorem Raised.if_serve (h : s.Raised cause) (r : SlotResult) :
    (if cause r then s.serve r else s) = s.serve r := by
  by_cases hr : s.latched r = []
  · rw [serve_of_nil hr, ite_self]
  · rw [h r hr, if_pos rfl]

theorem Raised.handle_eq (h : s.Raised cause) :
    s.handle cause = ((s.serve (.ok ())).serve (.error .timeout)).serve (.error .collision) := by
  simp only [TxSlot.handle, Mac.causes, List.foldl_cons, List.foldl_nil]
  rw [h.if_serve, (h.serve _).if_serve, ((h.serve _).serve _).if_serve]

theorem Raised.handle_latched (h : s.Raised cause) (r : SlotResult) :
    (s.handle cause).latched r = [] := by
  rw [h.handle_eq, serve_latched, serve_latched, serve_latched]
  rcases r with (_ | _) | _ <;> rfl

/-- The handler signals one of the latched results. -/
theorem Raised.handle_signal (h : s.Raised cause) (hset : ∃ r, s.latched r ≠ []) :
    ∃ r, s.latched r ≠ [] ∧ (s.handle cause).signal.state = some r ∧
      (s.handle cause).producers = s.latched r := by
  rw [h.handle_eq]
  have htimeout : (s.serve (.ok ())).latched (.error .timeout) = s.latched (.error .timeout) := by
    rw [serve_latched]
    rfl
  have hcollision : ((s.serve (.ok ())).serve (.error .timeout)).latched (.error .collision) =
      s.latched (.error .collision) := by
    rw [serve_latched, serve_latched]
    rfl
  -- the last cause that has a latched bit wins
  by_cases hc : s.latched (.error .collision) = []
  · rw [serve_of_nil (hcollision.trans hc)]
    by_cases ht : s.latched (.error .timeout) = []
    · rw [serve_of_nil (htimeout.trans ht)]
      have hok : s.latched (.ok ()) ≠ [] := by
        obtain ⟨r, hr⟩ := hset
        rcases r with (_ | _) | _
        · exact absurd ht hr
        · exact absurd hc hr
        · exact hr
      rw [serve_of_ne_nil hok]
      exact ⟨.ok (), hok, rfl, rfl⟩
    · rw [serve_of_ne_nil (htimeout ▸ ht)]
      exact ⟨_, ht, rfl, htimeout⟩
  · rw [serve_of_ne_nil (hcollision ▸ hc)]
    exact ⟨_, hc, rfl, hcollision⟩

end TxSlot

/-! ## Whose result an attempt gets -/

namespace Mac

open TxSlot

variable {m m' : Mac} {e : MacEvent} {i : Fin 5} {a : Nat}

/-- What the steps of a slot and the services keep, every step keeps. -/
theorem slot_keeps {P : TxSlot → Prop} (hstep : ∀ s s', P s → TxSlot.Step s s' → P s')
    (hserve : ∀ s r, P s → P (s.serve r)) (h : P (m.slots i)) (hs : m.step e = some m') :
    P (m'.slots i) := by
  cases e with
  | slot j e =>
      obtain ⟨s, hslot, heq⟩ := Option.map_eq_some_iff.mp hs
      have hslots : m'.slots = Function.update m.slots j s := by
        rw [← heq]
        cases e <;> rfl
      rw [hslots]
      by_cases hij : i = j
      · subst hij
        rw [Function.update_self]
        exact hstep _ _ h (step_of_eq hslot)
      · rw [Function.update_of_ne hij]
        exact h
  | macHandler =>
      cases hs
      rw [macHandler_slots]
      exact handle_keeps hserve m.cause h

/-- What holds in every reachable state. -/
structure Inv (m : Mac) : Prop where
  slots : ∀ i, (m.slots i).Inv
  raised : ∀ i, (m.slots i).Raised m.cause

theorem inv_init : init.Inv := ⟨fun _ => TxSlot.inv_init, fun _ _ h => absurd rfl h⟩

theorem raised_step {j : Fin 5} {e : SlotEvent} (h : ∀ i, (m.slots i).Raised m.cause)
    (hs : m.step (.slot j e) = some m') (i : Fin 5) : (m'.slots i).Raised m'.cause := by
  obtain ⟨s, hslot, rfl⟩ := Option.map_eq_some_iff.mp hs
  cases e with
  | complete a r =>
      show (Function.update m.slots j s i).Raised (Function.update m.cause r true)
      rcases eq_or_ne i j with rfl | hij
      · rw [Function.update_self]
        exact (h i).complete hslot
      · rw [Function.update_of_ne hij]
        exact (h i).update r
  | _ =>
      show (Function.update m.slots j s i).Raised m.cause
      rcases eq_or_ne i j with rfl | hij
      · rw [Function.update_self, Raised, latched_of_step hslot nofun]
        exact h i
      · rw [Function.update_of_ne hij]
        exact h i

theorem inv_step (h : m.Inv) (hs : m.step e = some m') : m'.Inv := by
  refine ⟨fun i => slot_keeps (fun s s' => Inv.step) (fun s r h => h.serve r) (h.slots i) hs, ?_⟩
  cases e with
  | slot j e => exact raised_step h.raised hs
  | macHandler =>
      cases hs
      intro i r hr
      rw [macHandler_slots, (h.raised i).handle_latched] at hr
      exact absurd rfl hr

/-- A bit that is latched by others while an attempt waits becomes its result. -/
theorem stale_of_latched (hinv : m.Inv) (hpc : (m.slots i).pc = .wait a)
    (hset : ∃ r, (m.slots i).latched r ≠ []) (hnot : ∀ r, a ∉ (m.slots i).latched r) :
    ∃ m' o, Trace.run step m [.macHandler, .slot i .poll] = some m' ∧
      o ∈ (m'.slots i).obtained ∧ o.attempt = a ∧ ¬o.Own := by
  obtain ⟨r, hr, hstate, hproducers⟩ := (hinv.raised i).handle_signal hset
  have hkept : ((m.slots i).handle m.cause).pc = .wait a := by
    refine handle_keeps (P := fun s => s.pc = .wait a) (fun s r h => ?_) m.cause hpc
    rw [TxSlot.serve]
    split
    · exact h
    · exact h
  have hwait : ((m.slots i).handle m.cause).signal.wait =
      (some r, ((m.slots i).handle m.cause).signal.reset) := by
    rw [HardwareTxResultSignal.wait, hstate]
  obtain ⟨m', hpoll, hmem⟩ : ∃ m', m.macHandler.step (.slot i .poll) = some m' ∧
      ⟨a, r, (m.slots i).latched r⟩ ∈ (m'.slots i).obtained := by
    simp only [step, macHandler_slots, TxSlot.step, TxSlot.poll, hkept, hwait, hproducers,
      Option.map_some]
    refine ⟨_, rfl, ?_⟩
    simp only [setSlot, Function.update_self, List.mem_cons_self]
  refine ⟨m', _, ?_, hmem, rfl, fun hown => ?_⟩
  · rw [Trace.run_cons, step, Option.bind_some, Trace.run_cons, hpoll, Option.bind_some,
      Trace.run_nil]
  · obtain ⟨p, hp⟩ := List.exists_mem_of_ne_nil _ hr
    have hpa : p = a := hown.2 p hp
    exact hnot r (hpa ▸ hp)

/-- An attempt that starts on a slot that is not quiet can get the result of
another attempt. -/
theorem stale_of_not_quiet (hinv : m.Inv) (hpc : (m.slots i).pc = .reset a)
    (hq : ¬(m.slots i).Quiet) :
    ∃ es m' o, Trace.run step m es = some m' ∧ o ∈ (m'.slots i).obtained ∧ o.attempt = a ∧
      ¬o.Own := by
  have hfresh : ¬(m.slots i).Pending a := (hinv.slots i).unstarted a (Or.inl hpc)
  -- the attempt resets the signal and starts
  obtain ⟨m₂, hrun, hm₂, hpc₂, hlatched, hflight⟩ : ∃ m₂,
      Trace.run step m [.slot i .task, .slot i .task] = some m₂ ∧ m₂.Inv ∧
        (m₂.slots i).pc = .wait a ∧ (m₂.slots i).latched = (m.slots i).latched ∧
        (m₂.slots i).inFlight = a :: (m.slots i).inFlight := by
    have hrun : ∃ m₂, Trace.run step m [.slot i .task, .slot i .task] = some m₂ ∧
        (m₂.slots i).pc = .wait a ∧ (m₂.slots i).latched = (m.slots i).latched ∧
        (m₂.slots i).inFlight = a :: (m.slots i).inFlight := by
      simp [step, TxSlot.step, TxSlot.task, setSlot, hpc]
    obtain ⟨m₂, hrun, hrest⟩ := hrun
    exact ⟨m₂, hrun, Trace.run_inv (fun _ _ _ => inv_step) hinv hrun, hrest⟩
  by_cases hset : ∃ r, (m.slots i).latched r ≠ []
  · have hnot : ∀ r, a ∉ (m₂.slots i).latched r := by
      intro r hr
      exact hfresh (Or.inr ⟨r, hlatched ▸ hr⟩)
    obtain ⟨m', o, hrun', ho⟩ := stale_of_latched hm₂ hpc₂ (hlatched ▸ hset) hnot
    exact ⟨_, m', o, Trace.run_trans hrun hrun', ho⟩
  · -- nothing is latched yet, so an earlier attempt is still in flight
    have hnil : ∀ r, (m.slots i).latched r = [] := by
      intro r
      by_contra hr
      exact hset ⟨r, hr⟩
    have hne : (m.slots i).inFlight ≠ [] := fun he => hq ⟨he, hnil⟩
    obtain ⟨p, hp⟩ := List.exists_mem_of_ne_nil _ hne
    have hpa : a ≠ p := fun he => hfresh (Or.inl (he ▸ hp))
    have hp₂ : p ∈ (m₂.slots i).inFlight := by
      rw [hflight]
      exact List.mem_cons_of_mem a hp
    obtain ⟨m₃, hstep, hpc₃, hlatched₃⟩ : ∃ m₃,
        m₂.step (.slot i (.complete p (.ok ()))) = some m₃ ∧ (m₃.slots i).pc = .wait a ∧
          (m₃.slots i).latched = Function.update (fun _ => []) (.ok ()) [p] := by
      simp only [step, TxSlot.step, TxSlot.complete, hp₂, if_true, Option.map_some]
      refine ⟨_, rfl, ?_, ?_⟩
      · simp only [setSlot, Function.update_self, hpc₂]
      · simp only [setSlot, Function.update_self, hlatched, hnil]
        rw [funext hnil]
    have hrun₃ : Trace.run step m₂ [.slot i (.complete p (.ok ()))] = some m₃ := by
      rw [Trace.run_cons, hstep, Option.bind_some, Trace.run_nil]
    obtain ⟨m', o, hrun', ho⟩ := stale_of_latched (inv_step hm₂ hstep) hpc₃
      ⟨.ok (), by rw [hlatched₃, Function.update_self]; exact List.cons_ne_nil p []⟩
      (by
        intro r hr
        rw [hlatched₃] at hr
        rcases eq_or_ne r (.ok ()) with rfl | hr'
        · rw [Function.update_self, List.mem_singleton] at hr
          exact hpa hr
        · rw [Function.update_of_ne hr'] at hr
          exact absurd hr List.not_mem_nil)
    exact ⟨_, m', o, Trace.run_trans hrun (Trace.run_trans hrun₃ hrun'), ho⟩

end Mac

/-- In every reachable state in which an attempt is about to reset its signal,
the attempt gets its own result in every continuation exactly when its slot is
quiet. -/
theorem attribution_iff (es : List MacEvent) {m : Mac} {i : Fin 5} {a : Nat}
    (hrun : Trace.run Mac.step Mac.init es = some m) (hpc : (m.slots i).pc = .reset a) :
    (∀ es' m', Trace.run Mac.step m es' = some m' →
        ∀ o ∈ (m'.slots i).obtained, o.attempt = a → o.Own) ↔
      (m.slots i).Quiet := by
  have hinv : m.Inv := Trace.run_inv (fun _ _ _ => Mac.inv_step) Mac.inv_init hrun
  constructor
  · intro hown
    by_contra hq
    obtain ⟨es', m', o, hrun', hmem, hattempt, hnot⟩ := Mac.stale_of_not_quiet hinv hpc hq
    exact hnot (hown es' m' hrun' o hmem hattempt)
  · intro hq es' m' hrun'
    have hstart : TxSlot.Attributed a (m.slots i) :=
      TxSlot.attributed_of_quiet (hinv.slots i) hpc hq
    have hend : TxSlot.Attributed a (m'.slots i) :=
      Trace.run_inv (I := fun m => TxSlot.Attributed a (m.slots i))
        (fun _ _ _ => Mac.slot_keeps (fun _ _ => TxSlot.Attributed.step) fun _ r h => h.serve r)
        hstart hrun'
    exact hend.own

/-- The first attempt completes, and its future is dropped before the interrupt
handler runs. -/
def cancelledAttempt : List MacEvent :=
  [.slot 4 (.call true), .slot 4 .task, .slot 4 .task, .slot 4 (.complete 0 (.ok ())),
    .slot 4 .drop, .slot 4 .task, .slot 4 .task, .slot 4 (.call true)]

theorem attribution_iff_cancelled :
    ∃ m, Trace.run Mac.step Mac.init cancelledAttempt = some m ∧
      ((∀ es' m', Trace.run Mac.step m es' = some m' →
          ∀ o ∈ (m'.slots 4).obtained, o.attempt = 1 → o.Own) ↔ (m.slots 4).Quiet) :=
  ⟨_, rfl, attribution_iff cancelledAttempt rfl rfl⟩

/-- The second attempt on the slot then reports the success of the first. -/
theorem cancelled_completion_reported :
    ∃ m, Trace.run Mac.step Mac.init
        (cancelledAttempt ++ [.slot 4 .task, .slot 4 .task, .macHandler, .slot 4 .poll]) =
          some m ∧
      (m.slots 4).obtained = [⟨1, .ok (), [0]⟩] ∧ ¬(Obtained.mk 1 (.ok ()) [0]).Own := by
  refine ⟨_, rfl, rfl, fun hown => ?_⟩
  have hzero : 0 = 1 := hown.2 0 List.mem_cons_self
  exact absurd hzero (by decide)

end EspWifiHal
