import EspWifiHal.Lib.Trace
import EspWifiHal.Tx.Oneshot

/-!
# Sequence numbers

The five endpoints share one counter.  An endpoint takes a number from it when it prepares
a frame; its attempts, between which the other endpoints run, do not touch the counter and
keep the number in the frame.  `run_transmit` says that an endpoint on its own does what
`transmit_with_retry` does.

`sequence_numbers` says that the frames are numbered in the order of their preparation,
modulo 4096.
-/

namespace EspWifiHal

variable {Rate : Type}

/-! ## The endpoints -/

/-- A call between its preparation and its end. -/
structure InFlight (Rate : Type) where
  /-- The index of its frame among those that were given a number. -/
  number : Option Nat
  dmaDescriptor : DmaDescriptor
  extracted : ExtractedParameters
  aifsn : Nat
  /-- The rest of the iterator. -/
  items : List (Rate × Nat)
  state : RetryState Rate

structure Endpoints (Rate : Type) where
  /-- `CURRENT_SEQUENCE_NUMBER`. -/
  currentSequenceNumber : BitVec 16 := 0
  /-- How many frames were given a number. -/
  numbered : Nat := 0
  inFlight : HardwareTxQueue → Option (InFlight Rate) := fun _ => none
  /-- The attempts of all endpoints in their order, with the index of their frame. -/
  sent : List (Option Nat × Attempt Rate) := []

inductive EndpointEvent (Rate : Type) where
  /-- `transmit` is polled for the first time. -/
  | transmit (keySlotEnabled : Nat → Bool) (req : TxRequest Rate)
  /-- `transmit_oneshot` is called. -/
  | oneshot (keySlotEnabled : Nat → Bool) (req : TxRequest Rate)
  /-- An attempt, with what the generator and the hardware return for it. -/
  | attempt (queue : HardwareTxQueue) (random : BitVec 32) (result : Except TxError Unit)
  /-- The call returns or its future is dropped. -/
  | leave (queue : HardwareTxQueue)

/-- What the hardware returns in one attempt. -/
def answer (random : BitVec 32) (result : Except TxError Unit) : TxEnv :=
  { keySlotEnabled := fun _ => false
    random := fun _ => random
    transmitRaw := fun _ => result }

/-- The one attempt of `transmit_oneshot`, which an empty contention window prevents. -/
def TxRequest.oneshotItems (req : TxRequest Rate) : Option (List (Rate × Nat)) :=
  match req.queue, req.queue.contentionState req.macParameters.edcaParameters with
  | .edcaf _, none => none
  | _, _ => some [(req.rate, 0)]

namespace Endpoints

/-- The call after its preparation `p`. -/
def inFlightOf (s : Endpoints Rate) (req : TxRequest Rate) (items : List (Rate × Nat))
    (p : Prepared) (extracted : ExtractedParameters) : InFlight Rate :=
  { number := if req.macParameters.overrideSeqNum then some s.numbered else none
    dmaDescriptor := prepareDmaDescriptorForTx req.mpduPtr p.mpduBuf req.dmaDescriptor
    extracted := extracted
    aifsn := req.aifsn
    items := items
    state :=
      { lastRes := .ok 0
        mpduBuf := p.mpduBuf
        edcaContentionState := req.queue.contentionState req.macParameters.edcaParameters
        events := [.prepare] } }

/-- The state after the preparation `p`. -/
def begun (s : Endpoints Rate) (req : TxRequest Rate) (p : Prepared)
    (call : Option (InFlight Rate)) : Endpoints Rate :=
  { s with
    currentSequenceNumber := p.currentSequenceNumber
    numbered := if req.macParameters.overrideSeqNum then s.numbered + 1 else s.numbered
    inFlight := Function.update s.inFlight req.queue call }

/-- A call up to its first attempt.  It borrows the endpoint. -/
def begin (s : Endpoints Rate) (keySlotEnabled : Nat → Bool) (req : TxRequest Rate)
    (items : Option (List (Rate × Nat))) : Option (Endpoints Rate) :=
  match s.inFlight req.queue with
  | some _ => none
  | none =>
      (prepareFrameForTx keySlotEnabled req.interface req.macParameters s.currentSequenceNumber
        req.mpduBuf).map fun p =>
          s.begun req p do
            let extracted ← p.result.toOption
            let items ← items
            return s.inFlightOf req items p extracted

def attempt (s : Endpoints Rate) (queue : HardwareTxQueue) (random : BitVec 32)
    (result : Except TxError Unit) : Option (Endpoints Rate) :=
  match s.inFlight queue with
  | none => none
  | some call =>
      match call.items with
      | [] => none
      | item :: items =>
          let env := answer random result
          let next := attemptTx env call.dmaDescriptor call.extracted call.aifsn call.state item
          some
            { s with
              inFlight := Function.update s.inFlight queue
                (if next.2 then none else some { call with items := items, state := next.1 })
              sent := s.sent ++ [(call.number,
                call.state.attempt env call.dmaDescriptor call.extracted call.aifsn item)] }

def leave (s : Endpoints Rate) (queue : HardwareTxQueue) : Endpoints Rate :=
  { s with inFlight := Function.update s.inFlight queue none }

def step (s : Endpoints Rate) : EndpointEvent Rate → Option (Endpoints Rate)
  | .transmit keySlotEnabled req =>
      s.begin keySlotEnabled req (some (req.errorBehaviour.txAttemptRateIter req.rate).zipIdx)
  | .oneshot keySlotEnabled req => s.begin keySlotEnabled req req.oneshotItems
  | .attempt queue random result => s.attempt queue random result
  | .leave queue => some (s.leave queue)

/-- A preparation succeeds. -/
def Prepares (s : Endpoints Rate) : EndpointEvent Rate → Prop
  | .transmit keySlotEnabled req | .oneshot keySlotEnabled req =>
      ∃ p extracted, prepareFrameForTx keySlotEnabled req.interface req.macParameters
        s.currentSequenceNumber req.mpduBuf = some p ∧ p.result = .ok extracted
  | _ => True

end Endpoints

/-! ## One endpoint -/

namespace Endpoints

variable {s : Endpoints Rate} {env : TxEnv} {req : TxRequest Rate}

/-- The event of an attempt that the environment answers. -/
def attemptEvent (env : TxEnv) (queue : HardwareTxQueue) (a : Attempt Rate) : EndpointEvent Rate :=
  .attempt queue (env.random a.index) (env.transmitRaw a.index)

/-- The attempts of a call, one event each, are those of the loop. -/
theorem run_loop (env : TxEnv) {queue : HardwareTxQueue} {call : InFlight Rate}
    {items : List (Rate × Nat)} (hcall : s.inFlight queue = some call)
    (hitems : call.items = items) :
    ∃ as : List (Attempt Rate),
      (Loop.forBreak (attemptTx env call.dmaDescriptor call.extracted call.aifsn) items
        call.state).events = call.state.events ++ as.map .attempt ∧
      Trace.run step s (as.map (attemptEvent env queue) ++ [.leave queue]) =
        some { s.leave queue with sent := s.sent ++ as.map (call.number, ·) } := by
  induction items generalizing s call with
  | nil =>
      refine ⟨[], (List.append_nil _).symm, ?_⟩
      rw [List.map_nil, List.map_nil, List.append_nil]
      rfl
  | cons item items ih =>
      let a := call.state.attempt env call.dmaDescriptor call.extracted call.aifsn item
      let next := attemptTx env call.dmaDescriptor call.extracted call.aifsn call.state item
      let s₁ : Endpoints Rate :=
        { s with
          inFlight := Function.update s.inFlight queue
            (if next.2 then none else some { call with items := items, state := next.1 })
          sent := s.sent ++ [(call.number, a)] }
      have hstep : s.step (attemptEvent env queue a) = some s₁ := by
        show s.attempt queue _ _ = some s₁
        rw [attempt, hcall]
        simp only [hitems]
        rfl
      have hleave : s₁.leave queue =
          { s.leave queue with sent := s.sent ++ [(call.number, a)] } := by
        simp only [leave, s₁, Function.update_idem]
      cases hdone : next.2 with
      | true =>
          refine ⟨[a], ?_, ?_⟩
          · rw [Loop.forBreak, if_pos hdone]
            rfl
          · rw [List.map_singleton, List.singleton_append, Trace.run_cons, hstep]
            exact congrArg some hleave
      | false =>
          have hnext : s₁.inFlight queue = some { call with items := items, state := next.1 } := by
            simp only [s₁, Function.update_self, hdone, if_false, Bool.false_eq_true]
          obtain ⟨as, hevents, hrun⟩ := ih hnext rfl
          refine ⟨a :: as, ?_, ?_⟩
          · rw [Loop.forBreak, if_neg (by rw [hdone]; decide), hevents]
            exact List.append_assoc ..
          · rw [List.map_cons, List.cons_append, Trace.run_cons, hstep, Option.bind_some, hrun,
              hleave, List.map_cons]
            simp only [s₁, List.append_assoc, List.singleton_append]

theorem leave_begun (s : Endpoints Rate) (req : TxRequest Rate) (p : Prepared)
    (call : Option (InFlight Rate)) :
    (s.begun req p call).leave req.queue = s.begun req p none := by
  simp only [leave, begun, Function.update_idem]

/-- An endpoint that is not disturbed makes the attempts of `transmit_with_retry`. -/
theorem run_transmit (hidle : s.inFlight req.queue = none) {run : TxRun Rate}
    (hrun : transmitWithRetry env s.currentSequenceNumber req = some run) :
    ∃ s' number, Trace.run step s (.transmit env.keySlotEnabled req ::
        (run.attempts.map (attemptEvent env req.queue) ++ [.leave req.queue])) = some s' ∧
      s'.currentSequenceNumber = run.currentSequenceNumber ∧ s'.inFlight = s.inFlight ∧
      s'.sent = s.sent ++ run.attempts.map (number, ·) := by
  have hsame : Function.update s.inFlight req.queue none = s.inFlight := by
    rw [← hidle, Function.update_eq_self]
  cases hp : prepareFrameForTx env.keySlotEnabled req.interface req.macParameters
      s.currentSequenceNumber req.mpduBuf with
  | none =>
      rw [transmitWithRetry, hp] at hrun
      cases hrun
  | some p =>
      cases hresult : p.result with
      | error e =>
          have hstep : s.step (.transmit env.keySlotEnabled req) = some (s.begun req p none) := by
            show s.begin _ _ _ = _
            rw [begin, hidle, hp, Option.map_some, hresult]
            rfl
          rw [transmitWithRetry, hp, Option.map_some, hresult] at hrun
          cases hrun
          refine ⟨s.begun req p none, none, ?_, rfl, hsame, (List.append_nil _).symm⟩
          rw [Trace.run_cons, hstep, Option.bind_some]
          exact congrArg some (s.leave_begun req p none)
      | ok extracted =>
          let call :=
            s.inFlightOf req (req.errorBehaviour.txAttemptRateIter req.rate).zipIdx p extracted
          have hstep : s.step (.transmit env.keySlotEnabled req) =
              some (s.begun req p (some call)) := by
            show s.begin _ _ _ = _
            rw [begin, hidle, hp, Option.map_some, hresult]
            rfl
          rw [transmitWithRetry, hp, Option.map_some, hresult] at hrun
          have hcall : (s.begun req p (some call)).inFlight req.queue = some call :=
            Function.update_self ..
          obtain ⟨as, hevents, hloop⟩ := run_loop env hcall rfl
          have hattempts : run.attempts = as := by
            rw [← Option.some.inj hrun]
            exact (congrArg (List.filterMap TxEvent.attempt?) hevents).trans (filterMap_attempt? as)
          have hsequence : run.currentSequenceNumber = p.currentSequenceNumber := by
            rw [← Option.some.inj hrun]
          refine ⟨{ s.begun req p none with sent := s.sent ++ as.map (call.number, ·) },
            call.number, ?_, hsequence.symm, hsame, by rw [hattempts]⟩
          rw [Trace.run_cons, hstep, Option.bind_some, hattempts, hloop, leave_begun]
          rfl

end Endpoints

/-! ## The number in a frame -/

/-- The sequence control of the frame is the little-endian encoding of `k mod 4096`, shifted
by the four bits of the fragment number 0. -/
def HasNumber (k : Nat) (frame : List Byte) : Prop :=
  frame[22]? = some (BitVec.ofNat 8 (k % 4096 * 16 % 256)) ∧
    frame[23]? = some (BitVec.ofNat 8 (k % 4096 * 16 / 256))

theorem hasNumber_numbered {mpduBuf : List Byte} (hlen : 24 ≤ mpduBuf.length) (k : Nat) :
    HasNumber k (numbered (BitVec.ofNat 16 k) mpduBuf) := by
  -- the shift drops the four bits that the field has not
  have hshift : (BitVec.ofNat 16 k <<< 4).toNat = k % 4096 * 16 := by
    rw [BitVec.toNat_shiftLeft, BitVec.toNat_ofNat, Nat.shiftLeft_eq]
    omega
  constructor
  · rw [numbered, List.getElem?_set_ne (by decide), List.getElem?_set_self (by omega)]
    refine congrArg some (BitVec.eq_of_toNat_eq ?_)
    rw [BitVec.extractLsb'_toNat, hshift, BitVec.toNat_ofNat]
    omega
  · rw [numbered, List.getElem?_set_self (by rw [List.length_set]; omega)]
    refine congrArg some (BitVec.eq_of_toNat_eq ?_)
    rw [BitVec.extractLsb'_toNat, hshift, BitVec.toNat_ofNat]
    omega

theorem HasNumber.markRetry {k : Nat} {frame : List Byte} (h : HasNumber k frame)
    (result : Except TxError Unit) : HasNumber k (markRetry result frame) := by
  unfold EspWifiHal.markRetry
  split
  · constructor
    · rw [setRetryFlag, List.getElem?_modify_ne _ _ (by decide)]
      exact h.1
    · rw [setRetryFlag, List.getElem?_modify_ne _ _ (by decide)]
      exact h.2
  · exact h

/-- Frames with the same sequence control have numbers that are congruent. -/
theorem HasNumber.mod_eq {j k : Nat} {frame frame' : List Byte} (h : HasNumber j frame)
    (h' : HasNumber k frame') (hlow : frame[22]? = frame'[22]?) (hhigh : frame[23]? = frame'[23]?) :
    j % 4096 = k % 4096 := by
  rw [h.1, h'.1, Option.some.injEq] at hlow
  rw [h.2, h'.2, Option.some.injEq] at hhigh
  have hlowNat := congrArg BitVec.toNat hlow
  have hhighNat := congrArg BitVec.toNat hhigh
  rw [BitVec.toNat_ofNat, BitVec.toNat_ofNat] at hlowNat hhighNat
  omega

/-! ## Runs -/

namespace Endpoints

variable {s s' : Endpoints Rate} {keySlotEnabled : Nat → Bool} {req : TxRequest Rate}
  {queue : HardwareTxQueue}

/-- The counter counts the frames, and every frame keeps its number. -/
structure Inv (s : Endpoints Rate) : Prop where
  counter : s.currentSequenceNumber = BitVec.ofNat 16 s.numbered
  inFlight : ∀ queue call k, s.inFlight queue = some call → call.number = some k →
    HasNumber k call.state.mpduBuf
  sent : ∀ k a, (some k, a) ∈ s.sent → HasNumber k a.frame

theorem Inv.init : ({} : Endpoints Rate).Inv where
  counter := rfl
  inFlight _ _ _ h := by cases h
  sent _ _ h := by cases h

/-- Replacing the call of one endpoint. -/
theorem Inv.update_inFlight (h : s.Inv) {call : Option (InFlight Rate)}
    (hcall : ∀ c k, call = some c → c.number = some k → HasNumber k c.state.mpduBuf)
    {queue' : HardwareTxQueue} {c : InFlight Rate} {k : Nat}
    (hc : Function.update s.inFlight queue call queue' = some c) (hk : c.number = some k) :
    HasNumber k c.state.mpduBuf := by
  by_cases hqueue : queue' = queue
  · subst hqueue
    rw [Function.update_self] at hc
    exact hcall c k hc hk
  · rw [Function.update_of_ne hqueue] at hc
    exact h.inFlight queue' c k hc hk

theorem Inv.begin (h : s.Inv) {items : Option (List (Rate × Nat))}
    (hprepares : ∃ p extracted, prepareFrameForTx keySlotEnabled req.interface req.macParameters
      s.currentSequenceNumber req.mpduBuf = some p ∧ p.result = .ok extracted)
    (hs : s.begin keySlotEnabled req items = some s') : s'.Inv := by
  obtain ⟨p, extracted, hp, hok⟩ := hprepares
  have hsequence := (prepareFrameForTx_ok hp hok).2.2.2
  rw [Endpoints.begin] at hs
  split at hs
  · cases hs
  rw [hp, Option.map_some, hok] at hs
  cases hs
  refine ⟨?_, fun queue' c k hc hk => h.update_inFlight ?_ hc hk, h.sent⟩
  · show p.currentSequenceNumber = BitVec.ofNat 16 (if _ then _ else _)
    rw [hsequence, h.counter]
    split
    · rw [BitVec.ofNat_add]
      rfl
    · rfl
  · intro c k hcall hnumber
    -- only a frame with a number is followed
    cases hitems : items with
    | none =>
        rw [hitems] at hcall
        cases hcall
    | some items =>
        rw [hitems] at hcall
        cases hcall
        have hcases := preparation keySlotEnabled req.interface req.macParameters
          s.currentSequenceNumber req.mpduBuf
        rw [hp] at hcases
        cases hcases with
        | noDuration => cases hok
        | noSequence => cases hok
        | numbered hlen hoverride =>
            rw [inFlightOf, if_pos hoverride] at hnumber
            cases hnumber
            rw [inFlightOf, h.counter]
            exact hasNumber_numbered hlen s.numbered
        | plain hlen hkeep =>
            rw [inFlightOf, hkeep] at hnumber
            cases hnumber

theorem Inv.attempt (h : s.Inv) {random : BitVec 32} {result : Except TxError Unit}
    (hs : s.attempt queue random result = some s') : s'.Inv := by
  rw [Endpoints.attempt] at hs
  split at hs
  · cases hs
  rename_i call hcall
  split at hs
  · cases hs
  rename_i item items hitems
  cases hs
  refine ⟨h.counter, fun queue' c k hc hk => h.update_inFlight ?_ hc hk, fun k a ha => ?_⟩
  · intro c k hnext hnumber
    split at hnext
    · cases hnext
    · cases hnext
      exact (h.inFlight queue call k hcall hnumber).markRetry result
  · rcases List.mem_append.mp ha with hbefore | hnew
    · exact h.sent k a hbefore
    · obtain ⟨hnumber, rfl⟩ := Prod.mk.inj (List.mem_singleton.mp hnew)
      exact h.inFlight queue call k hcall hnumber.symm

theorem Inv.leave (h : s.Inv) (queue : HardwareTxQueue) : (s.leave queue).Inv where
  counter := h.counter
  inFlight _ _ _ hc hk := h.update_inFlight (fun _ _ hnone => by cases hnone) hc hk
  sent := h.sent

theorem Inv.step (h : s.Inv) {e : EndpointEvent Rate} (he : s.Prepares e)
    (hs : s.step e = some s') : s'.Inv := by
  cases e with
  | transmit keySlotEnabled req => exact h.begin he hs
  | oneshot keySlotEnabled req => exact h.begin he hs
  | attempt queue random result => exact h.attempt hs
  | leave queue =>
      cases hs
      exact h.leave queue

end Endpoints

/-- In every run whose preparations succeed, all attempts with the frame `k` of those that
were given a number have the number `k` modulo 4096.  So the numbers of 4096 consecutive
frames differ. -/
theorem sequence_numbers (events : List (EndpointEvent Rate)) (s : Endpoints Rate)
    (hrun : Trace.run Endpoints.step {} events = some s)
    (hprepares : Trace.Meets Endpoints.step Endpoints.Prepares {} events) :
    (∀ k a, (some k, a) ∈ s.sent → HasNumber k a.frame) ∧
      ∀ j k a b, (some j, a) ∈ s.sent → (some k, b) ∈ s.sent → j < k → k < j + 4096 →
        ¬(a.frame[22]? = b.frame[22]? ∧ a.frame[23]? = b.frame[23]?) := by
  have hinv : s.Inv :=
    Trace.run_inv_of_meets (fun _ _ _ h he hs => h.step he hs) .init hprepares hrun
  refine ⟨hinv.sent, ?_⟩
  rintro j k a b ha hb hlt hnear ⟨hlow, hhigh⟩
  have hmod := (hinv.sent j a ha).mod_eq (hinv.sent k b hb) hlow hhigh
  omega

/-- Two endpoints, the first of which has to try again after the second one began. -/
def twoEndpoints : List (EndpointEvent Nat) :=
  [.transmit (fun _ => false) (dataRequest (.retryUntil 7)),
    .attempt (.edcaf .bestEffort) 0 (.error (.macProtocol .ackTimeout)),
    .oneshot (fun _ => false) { dataRequest .drop with queue := .beacon },
    .attempt .beacon 0 (.ok ()),
    .attempt (.edcaf .bestEffort) 0 (.ok ())]

theorem sequence_numbers_two_endpoints :
    ∃ s, Trace.run Endpoints.step {} twoEndpoints = some s ∧
      s.sent.map Prod.fst = [some 0, some 1, some 0] ∧
      ∀ k a, (some k, a) ∈ s.sent → HasNumber k a.frame := by
  refine ⟨_, rfl, rfl, (sequence_numbers twoEndpoints _ rfl ?_).1⟩
  exact ⟨⟨_, _, rfl, rfl⟩, fun _ h => by
    cases h
    exact ⟨trivial, fun _ h => by
      cases h
      exact ⟨⟨_, _, rfl, rfl⟩, fun _ h => by
        cases h
        exact ⟨trivial, fun _ h => by
          cases h
          exact ⟨trivial, fun _ _ => trivial⟩⟩⟩⟩⟩

end EspWifiHal
