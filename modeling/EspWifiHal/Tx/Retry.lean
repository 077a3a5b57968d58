import EspWifiHal.Lib.Loop
import EspWifiHal.Tx.Prepare
import Mathlib.Data.List.FinRange

/-!
# Retransmission

`transmit_with_retry` prepares a frame once and hands it to the hardware until
an attempt succeeds or the attempts are used up.  What the attempts return and
what the random generator returns is an argument of the model, so a theorem
about all of them is about every behaviour of the hardware.

`transmitWithRetry_trace` says which attempts are made and with which frames.
`result_sound_iff` says when the returned number is the number of retries.  The
result variable starts as `Ok(0)` and the index of an attempt is narrowed to a
byte, so an empty list of rates and a first success after 256 failures give a
wrong answer.
-/

namespace EspWifiHal

variable {Rate : Type}

inductive TxErrorBehaviour (Rate : Type) where
  | retryUntil (retries : Byte)
  | multiRateRetry (rates : List Rate)
  | drop
deriving DecidableEq, Repr

namespace TxErrorBehaviour

def txAttempts : TxErrorBehaviour Rate → Nat
  | .retryUntil retries => retries.toNat + 1
  | .multiRateRetry rates => rates.length
  | .drop => 1

/-- `tx_attempt_rate_iter`: the rates of the attempts. -/
def txAttemptRateIter (initialRate : Rate) : TxErrorBehaviour Rate → List Rate
  | .retryUntil retries => (List.range (retries.toNat + 1)).map fun _ => initialRate
  | .multiRateRetry rates => (List.finRange rates.length).map fun i =>
      if i.val = 0 then initialRate else rates.get i
  | .drop => (List.range 1).map fun _ => initialRate

/-- The rate that attempt `i` has to use. -/
def UsesRate (initialRate : Rate) (i : Nat) (rate : Rate) : TxErrorBehaviour Rate → Prop
  | .multiRateRetry rates => if i = 0 then rate = initialRate else rates[i]? = some rate
  | _ => rate = initialRate

theorem txAttemptRateIter_length (initialRate : Rate) (b : TxErrorBehaviour Rate) :
    (b.txAttemptRateIter initialRate).length = b.txAttempts := by
  cases b with
  | retryUntil retries => rw [txAttemptRateIter, List.length_map, List.length_range, txAttempts]
  | multiRateRetry rates =>
      rw [txAttemptRateIter, List.length_map, List.length_finRange, txAttempts]
  | drop => rw [txAttemptRateIter, List.length_map, List.length_range, txAttempts]

theorem usesRate_of_getElem? {initialRate rate : Rate} {i : Nat} {b : TxErrorBehaviour Rate}
    (h : (b.txAttemptRateIter initialRate)[i]? = some rate) : b.UsesRate initialRate i rate := by
  obtain ⟨hi, hrate⟩ := List.getElem?_eq_some_iff.mp h
  cases b with
  | retryUntil retries =>
      rw [← hrate]
      simp only [txAttemptRateIter, UsesRate, List.getElem_map]
  | multiRateRetry rates =>
      simp only [txAttemptRateIter, List.getElem_map, List.getElem_finRange] at hrate
      have hlt : i < rates.length := by
        rw [txAttemptRateIter_length] at hi
        exact hi
      rw [← hrate, UsesRate]
      by_cases hzero : i = 0
      · simp [hzero]
      · rw [if_neg hzero, List.getElem?_eq_getElem hlt]
        simp [hzero]
  | drop =>
      rw [← hrate]
      simp only [txAttemptRateIter, UsesRate, List.getElem_map]

end TxErrorBehaviour

/-! ## The Retry flag -/

/-- Bit 3 of byte 1. -/
def retryFlag (frame : List Byte) : Bool := (frame[1]?.map (·.getLsbD 3)).getD false

def setRetryFlag (frame : List Byte) : List Byte := frame.modify 1 (· ||| 8#8)

def clearRetryFlag (frame : List Byte) : List Byte := frame.modify 1 (· &&& ~~~8#8)

/-- Two frames that agree except for the Retry flag. -/
structure EqualButRetry (frame frame' : List Byte) : Prop where
  length : frame.length = frame'.length
  bytes : ∀ k, k ≠ 1 → frame[k]? = frame'[k]?
  bits : ∀ b b', frame[1]? = some b → frame'[1]? = some b' →
    ∀ j, j ≠ 3 → b.getLsbD j = b'.getLsbD j

theorem getLsbD_bit3 (j : Nat) : (8#8).getLsbD j = decide (3 = j) := by
  have h : 8#8 = BitVec.twoPow 8 3 := rfl
  rw [h, BitVec.getLsbD_twoPow]
  rfl

theorem EqualButRetry.refl (frame : List Byte) : EqualButRetry frame frame :=
  ⟨rfl, fun _ _ => rfl, fun _ _ h h' _ _ => by rw [Option.some.inj (h.symm.trans h')]⟩

/-- Changing the first byte at bit 3 only. -/
theorem EqualButRetry.modify {f : Byte → Byte} {frame frame' : List Byte}
    (h : EqualButRetry frame frame')
    (hf : ∀ b j, j ≠ 3 → (f b).getLsbD j = b.getLsbD j) :
    EqualButRetry (frame.modify 1 f) frame' := by
  refine ⟨by rw [List.length_modify, h.length], fun k hk => ?_, fun b b' hb hb' j hj => ?_⟩
  · rw [List.getElem?_modify_ne _ _ (Ne.symm hk)]
    exact h.bytes k hk
  · rw [List.getElem?_modify_eq] at hb
    obtain ⟨c, hc, rfl⟩ := Option.map_eq_some_iff.mp hb
    rw [hf c j hj]
    exact h.bits c b' hc hb' j hj

theorem EqualButRetry.set {frame frame' : List Byte} (h : EqualButRetry frame frame') :
    EqualButRetry (setRetryFlag frame) frame' := by
  refine h.modify fun b j hj => ?_
  rw [BitVec.getLsbD_or, getLsbD_bit3, decide_eq_false (Ne.symm hj), Bool.or_false]

theorem EqualButRetry.clear {frame frame' : List Byte} (h : EqualButRetry frame frame') :
    EqualButRetry (clearRetryFlag frame) frame' := by
  refine h.modify fun b j hj => ?_
  rw [BitVec.getLsbD_and, BitVec.getLsbD_not, getLsbD_bit3, decide_eq_false (Ne.symm hj)]
  by_cases hlt : j < 8
  · rw [decide_eq_true hlt, Bool.not_false, Bool.and_self, Bool.and_true]
  · rw [BitVec.getLsbD_of_ge b j (by omega), Bool.false_and]

theorem retryFlag_set {frame : List Byte} (h : 5 ≤ frame.length) :
    retryFlag (setRetryFlag frame) = true := by
  rw [retryFlag, setRetryFlag, List.getElem?_modify_eq,
    List.getElem?_eq_getElem (show 1 < frame.length by omega)]
  simp

theorem retryFlag_clear (frame : List Byte) : retryFlag (clearRetryFlag frame) = false := by
  rw [retryFlag, clearRetryFlag, List.getElem?_modify_eq]
  cases frame[1]? <;> simp

/-! ## The call -/

/-- The arguments of `transmit_with_retry`. -/
structure TxRequest (Rate : Type) where
  interface : Nat
  /-- The rate in `TxPlcpParameters`. -/
  rate : Rate
  macParameters : TxMacParameters
  errorBehaviour : TxErrorBehaviour Rate
  queue : HardwareTxQueue
  dmaDescriptor : DmaDescriptor
  /-- The address of the frame. -/
  mpduPtr : Addr
  mpduBuf : List Byte

/-- What the hardware answers during one call. -/
structure TxEnv where
  keySlotEnabled : Nat → Bool
  /-- The random number drawn before attempt `i`. -/
  random : Nat → BitVec 32
  /-- The result of `transmit_raw` in attempt `i`. -/
  transmitRaw : Nat → Except TxError Unit

/-- A call of `transmit_raw`, with the frame as the hardware finds it. -/
structure Attempt (Rate : Type) where
  index : Nat
  rate : Rate
  dmaDescriptor : DmaDescriptor
  extracted : ExtractedParameters
  edca : EdcaTxParameters
  frame : List Byte
  result : Except TxError Unit

inductive TxEvent (Rate : Type) where
  | prepare
  | attempt (a : Attempt Rate)

/-- The variables of `transmit_with_retry` that its loop changes. -/
structure RetryState (Rate : Type) where
  lastRes : Except TxError Byte
  mpduBuf : List Byte
  edcaContentionState : Option EdcaContentionState
  events : List (TxEvent Rate)

/-- What a call leaves behind. -/
structure TxRun (Rate : Type) where
  result : Except TxError Byte
  currentSequenceNumber : BitVec 16
  dmaDescriptor : DmaDescriptor
  mpduBuf : List Byte
  events : List (TxEvent Rate)

def TxEvent.attempt? : TxEvent Rate → Option (Attempt Rate)
  | .prepare => none
  | .attempt a => some a

/-- The attempts of a call in order. -/
def TxRun.attempts (run : TxRun Rate) : List (Attempt Rate) := run.events.filterMap TxEvent.attempt?

/-- After an error of the MAC protocol the peer may have the frame, so later
attempts are marked as retries.  An error of channel access changes nothing. -/
def markRetry (result : Except TxError Unit) (frame : List Byte) : List Byte :=
  match result with
  | .error (.macProtocol _) => setRetryFlag frame
  | _ => frame

/-- What the result of an attempt does to the contention window. -/
def contend (result : Except TxError Unit) (s : Option EdcaContentionState) :
    Option EdcaContentionState :=
  match result with
  | .error (.macProtocol .ackTimeout) => s.map (·.incrementLrc.resetSrc)
  | .error (.macProtocol _) => s.map (·.incrementSrc)
  | _ => s

/-- The call of `transmit_raw` for one item of the iterator. -/
def RetryState.attempt (env : TxEnv) (dmaDescriptor : DmaDescriptor)
    (extracted : ExtractedParameters) (aifsn : Nat) (s : RetryState Rate) (item : Rate × Nat) :
    Attempt Rate :=
  let (rate, i) := item
  let random := env.random i
  { index := i
    rate := rate
    dmaDescriptor := dmaDescriptor
    extracted := extracted
    edca :=
      { backoffSlots := (s.edcaContentionState.map (·.randomBackoffSlotCount random)).getD 1
        aifsn := aifsn }
    frame := s.mpduBuf
    result := env.transmitRaw i }

/-- The body of the loop.  The flag is the `break` after a success. -/
def attemptTx (env : TxEnv) (dmaDescriptor : DmaDescriptor) (extracted : ExtractedParameters)
    (aifsn : Nat) (s : RetryState Rate) (item : Rate × Nat) : RetryState Rate × Bool :=
  let attempt := s.attempt env dmaDescriptor extracted aifsn item
  ({ lastRes := attempt.result.map fun _ => BitVec.ofNat 8 attempt.index
     mpduBuf := markRetry attempt.result s.mpduBuf
     edcaContentionState := contend attempt.result s.edcaContentionState
     events := s.events ++ [.attempt attempt] },
   attempt.result.isOk)

/-- The AIFSN of the caller, or that of the queue. -/
def TxRequest.aifsn (req : TxRequest Rate) : Nat :=
  (req.macParameters.edcaParameters.aifsn.getD req.queue.defaultAifsn).toNat

/-- The loop of `transmit_with_retry`, from the variables it starts with. -/
def retryLoop (env : TxEnv) (req : TxRequest Rate) (mpduBuf : List Byte)
    (dmaDescriptor : DmaDescriptor) (extracted : ExtractedParameters) : RetryState Rate :=
  Loop.forBreak (attemptTx env dmaDescriptor extracted req.aifsn)
    (req.errorBehaviour.txAttemptRateIter req.rate).zipIdx
    { lastRes := .ok 0
      mpduBuf := mpduBuf
      edcaContentionState := req.queue.contentionState req.macParameters.edcaParameters
      events := [.prepare] }

/-- `transmit_with_retry`.  The value `none` is a panic of the preparation. -/
def transmitWithRetry (env : TxEnv) (seqNum : BitVec 16) (req : TxRequest Rate) :
    Option (TxRun Rate) :=
  (prepareFrameForTx env.keySlotEnabled req.interface req.macParameters seqNum req.mpduBuf).map
    fun prepared =>
      match prepared.result with
      | .error error =>
          { result := .error error
            currentSequenceNumber := prepared.currentSequenceNumber
            dmaDescriptor := req.dmaDescriptor
            mpduBuf := prepared.mpduBuf
            events := [.prepare] }
      | .ok extracted =>
          let dmaDescriptor :=
            prepareDmaDescriptorForTx req.mpduPtr prepared.mpduBuf req.dmaDescriptor
          let s := retryLoop env req prepared.mpduBuf dmaDescriptor extracted
          { result := s.lastRes
            currentSequenceNumber := prepared.currentSequenceNumber
            dmaDescriptor := dmaDescriptor
            mpduBuf := clearRetryFlag s.mpduBuf
            events := s.events }

/-! ## The frames of the attempts -/

/-- An attempt before `i` failed in the protocol of the MAC. -/
def MacFailedBefore (results : Nat → Except TxError Unit) (i : Nat) : Prop :=
  ∃ j < i, ∃ e, results j = .error (.macProtocol e)

/-- The frame that is presented at attempt `i`. -/
def FrameAt (results : Nat → Except TxError Unit) (prepared : List Byte) (i : Nat)
    (frame : List Byte) : Prop :=
  EqualButRetry frame prepared ∧
    (retryFlag frame = true ↔ retryFlag prepared = true ∨ MacFailedBefore results i)

variable {results : Nat → Except TxError Unit} {prepared frame : List Byte} {i : Nat}

theorem frameAt_zero : FrameAt results prepared 0 prepared := by
  refine ⟨.refl prepared, Or.inl, fun h => h.resolve_right ?_⟩
  rintro ⟨j, hj, _⟩
  exact Nat.not_lt_zero j hj

theorem MacFailedBefore.succ_iff : MacFailedBefore results (i + 1) ↔
    MacFailedBefore results i ∨ ∃ e, results i = .error (.macProtocol e) := by
  constructor
  · rintro ⟨j, hj, e, he⟩
    rcases Nat.lt_succ_iff_lt_or_eq.mp hj with hlt | rfl
    · exact Or.inl ⟨j, hlt, e, he⟩
    · exact Or.inr ⟨e, he⟩
  · rintro (⟨j, hj, he⟩ | he)
    · exact ⟨j, Nat.lt_succ_of_lt hj, he⟩
    · exact ⟨i, Nat.lt_succ_self i, he⟩

theorem FrameAt.succ (h : FrameAt results prepared i frame) (hlen : 5 ≤ prepared.length) :
    FrameAt results prepared (i + 1) (markRetry (results i) frame) := by
  obtain ⟨hequal, hflag⟩ := h
  -- only an error of the MAC protocol adds to the failures before `i + 1`
  by_cases hmac : ∃ e, results i = .error (.macProtocol e)
  · obtain ⟨e, he⟩ := hmac
    have hset : retryFlag (setRetryFlag frame) = true := retryFlag_set (hequal.length ▸ hlen)
    rw [he]
    exact ⟨hequal.set, fun _ => Or.inr (MacFailedBefore.succ_iff.mpr (Or.inr ⟨e, he⟩)),
      fun _ => hset⟩
  · have hsame : markRetry (results i) frame = frame := by
      unfold markRetry
      split
      · rename_i e he
        exact absurd ⟨e, he⟩ hmac
      · rfl
    rw [hsame]
    refine ⟨hequal, hflag.trans ?_⟩
    rw [MacFailedBefore.succ_iff, or_iff_left hmac]

/-! ## The attempts of a call -/

/-- What attempt `i` of a call has to be. -/
structure AttemptAt (env : TxEnv) (req : TxRequest Rate) (prepared : List Byte) (i : Nat)
    (a : Attempt Rate) : Prop where
  index : a.index = i
  result : a.result = env.transmitRaw i
  rate : req.errorBehaviour.UsesRate req.rate i a.rate
  frame : FrameAt env.transmitRaw prepared i a.frame

/-- The variable `last_res` after `n` attempts. -/
def lastResult (results : Nat → Except TxError Unit) : Nat → Except TxError Byte
  | 0 => .ok 0
  | i + 1 => (results i).map fun _ => BitVec.ofNat 8 i

/-- The state of the loop after `n` attempts. -/
structure Attempted (env : TxEnv) (req : TxRequest Rate) (prepared : List Byte) (n : Nat)
    (s : RetryState Rate) : Prop where
  events : ∃ as : List (Attempt Rate), s.events = .prepare :: as.map .attempt ∧ as.length = n ∧
    ∀ i a, as[i]? = some a → AttemptAt env req prepared i a
  frame : FrameAt env.transmitRaw prepared n s.mpduBuf
  lastRes : s.lastRes = lastResult env.transmitRaw n

theorem Attempted.attemptTx {env : TxEnv} {req : TxRequest Rate} {n : Nat} {s : RetryState Rate}
    {d : DmaDescriptor} {extracted : ExtractedParameters} {aifsn : Nat} {item : Rate × Nat}
    (h : Attempted env req prepared n s) (hlen : 5 ≤ prepared.length)
    (hitem : (req.errorBehaviour.txAttemptRateIter req.rate).zipIdx[n]? = some item) :
    Attempted env req prepared (n + 1) (attemptTx env d extracted aifsn s item).1 := by
  obtain ⟨as, hevents, hcount, hattempts⟩ := h.events
  rw [List.getElem?_zipIdx, Nat.zero_add] at hitem
  obtain ⟨rate, hrate, rfl⟩ := Option.map_eq_some_iff.mp hitem
  refine ⟨⟨as ++ [s.attempt env d extracted aifsn (rate, n)], ?_, ?_, ?_⟩,
    h.frame.succ hlen, rfl⟩
  · show s.events ++ [_] = _
    rw [hevents, List.map_append]
    rfl
  · rw [List.length_append, hcount, List.length_singleton]
  · intro i a ha
    rcases Nat.lt_or_ge i as.length with hi | hi
    · exact hattempts i a (by rwa [List.getElem?_append_left hi] at ha)
    · rw [List.getElem?_append_right hi] at ha
      obtain ⟨hlast, rfl⟩ := List.getElem?_eq_some_iff.mp ha
      rw [List.length_singleton] at hlast
      obtain rfl : i = n := by omega
      rw [List.getElem_singleton]
      exact ⟨rfl, rfl, TxErrorBehaviour.usesRate_of_getElem? hrate, h.frame⟩

/-- How many attempts the loop makes: all but the last one failed, and the last
one succeeded unless the attempts were used up. -/
structure AttemptCount (results : Nat → Except TxError Unit) (limit n : Nat) : Prop where
  le : n ≤ limit
  failed : ∀ i, i + 1 < n → ∃ e, results i = .error e
  ended : n < limit → ∃ i, n = i + 1 ∧ results i = .ok ()

theorem exists_error_of_not_isOk {r : Except TxError Unit} (h : r.isOk = false) :
    ∃ e, r = .error e := by
  cases r with
  | ok u => cases h
  | error e => exact ⟨e, rfl⟩

theorem eq_ok_of_isOk {r : Except TxError Unit} (h : r.isOk = true) : r = .ok () := by
  cases r with
  | ok u => rfl
  | error e => cases h

/-- The loop makes its attempts in order and stops after a success. -/
theorem attempted_retryLoop (env : TxEnv) (req : TxRequest Rate) (d : DmaDescriptor)
    (extracted : ExtractedParameters) (hlen : 5 ≤ prepared.length) :
    ∃ n, AttemptCount env.transmitRaw req.errorBehaviour.txAttempts n ∧
      Attempted env req prepared n (retryLoop env req prepared d extracted) := by
  have hcount : (req.errorBehaviour.txAttemptRateIter req.rate).zipIdx.length =
      req.errorBehaviour.txAttempts := by
    rw [List.length_zipIdx, TxErrorBehaviour.txAttemptRateIter_length]
  have hstart : Attempted env req prepared 0
      { lastRes := .ok 0
        mpduBuf := prepared
        edcaContentionState := req.queue.contentionState req.macParameters.edcaParameters
        events := [.prepare] } :=
    ⟨⟨[], rfl, rfl, fun i a ha => by simp at ha⟩, frameAt_zero, rfl⟩
  -- while the loop runs, every attempt so far has failed
  have hloop := Loop.forBreak_spec (attemptTx env d extracted req.aifsn)
    (fun k s => Attempted env req prepared k s ∧ ∀ i < k, ∃ e, env.transmitRaw i = .error e)
    (req.errorBehaviour.txAttemptRateIter req.rate).zipIdx
    ⟨hstart, fun i hi => absurd hi (Nat.not_lt_zero i)⟩ ?_
  · rcases hloop with ⟨hend, hall⟩ | ⟨k, item, t, hitem, ⟨ht, hall⟩, hbreak, heq⟩
    · rw [hcount] at hend hall
      refine ⟨_, ⟨Nat.le_refl _, fun i hi => hall i (by omega), fun hlt => ?_⟩, hend⟩
      exact absurd hlt (Nat.lt_irrefl _)
    · have hk : k < req.errorBehaviour.txAttempts :=
        hcount ▸ (List.getElem?_eq_some_iff.mp hitem).1
      have hnext := heq ▸ ht.attemptTx hlen hitem
      rw [List.getElem?_zipIdx, Nat.zero_add] at hitem
      obtain ⟨rate, _, rfl⟩ := Option.map_eq_some_iff.mp hitem
      exact ⟨k + 1, ⟨hk, fun i hi => hall i (by omega), fun _ => ⟨k, rfl, eq_ok_of_isOk hbreak⟩⟩,
        hnext⟩
  · rintro k item t hitem ⟨ht, hall⟩ hgoes
    refine ⟨ht.attemptTx hlen hitem, fun i hi => ?_⟩
    rcases Nat.lt_succ_iff_lt_or_eq.mp hi with hlt | rfl
    · exact hall i hlt
    · rw [List.getElem?_zipIdx, Nat.zero_add] at hitem
      obtain ⟨rate, _, rfl⟩ := Option.map_eq_some_iff.mp hitem
      exact exists_error_of_not_isOk hgoes

/-! ## The whole call -/

/-- What a call leaves behind when the preparation gave `p`. -/
structure RetryTrace (env : TxEnv) (seqNum : BitVec 16) (req : TxRequest Rate) (p : Prepared)
    (run : TxRun Rate) : Prop where
  count : AttemptCount env.transmitRaw req.errorBehaviour.txAttempts run.attempts.length
  attempts : ∀ i a, run.attempts[i]? = some a → AttemptAt env req p.mpduBuf i a
  /-- The flag of the prepared frame is that of the caller. -/
  callerFlag : retryFlag p.mpduBuf = retryFlag req.mpduBuf
  /-- The frame is prepared once, before the attempts. -/
  preparedOnce : run.events = .prepare :: run.attempts.map .attempt
  sequence : run.currentSequenceNumber =
    if req.macParameters.overrideSeqNum then seqNum + 1 else seqNum
  restored : EqualButRetry run.mpduBuf p.mpduBuf ∧ retryFlag run.mpduBuf = false

theorem filterMap_attempt? (as : List (Attempt Rate)) :
    (TxEvent.prepare :: as.map TxEvent.attempt).filterMap TxEvent.attempt? = as := by
  rw [List.filterMap_cons_none rfl, List.filterMap_map]
  exact List.filterMap_some

/-- A call that passes its preparation, with the state its loop ends in. -/
theorem transmitWithRetry_ok {env : TxEnv} {seqNum : BitVec 16} {req : TxRequest Rate}
    {p : Prepared} {extracted : ExtractedParameters}
    (h : prepareFrameForTx env.keySlotEnabled req.interface req.macParameters seqNum req.mpduBuf =
      some p) (hok : p.result = .ok extracted) :
    ∃ run, transmitWithRetry env seqNum req = some run ∧ RetryTrace env seqNum req p run ∧
      run.result = lastResult env.transmitRaw run.attempts.length := by
  obtain ⟨hlen, hsame, hbytes, hseq⟩ := prepareFrameForTx_ok h hok
  let d := prepareDmaDescriptorForTx req.mpduPtr p.mpduBuf req.dmaDescriptor
  obtain ⟨n, hcount, hend⟩ := attempted_retryLoop env req d extracted (hsame ▸ hlen)
  obtain ⟨as, hevents, rfl, hattempts⟩ := hend.events
  have hrun : transmitWithRetry env seqNum req =
      some
        { result := (retryLoop env req p.mpduBuf d extracted).lastRes
          currentSequenceNumber := p.currentSequenceNumber
          dmaDescriptor := d
          mpduBuf := clearRetryFlag (retryLoop env req p.mpduBuf d extracted).mpduBuf
          events := (retryLoop env req p.mpduBuf d extracted).events } := by
    rw [transmitWithRetry, h, Option.map_some, hok]
  refine ⟨_, hrun, ?_, ?_⟩
  · have hfilter := congrArg (List.filterMap TxEvent.attempt?) hevents
    rw [filterMap_attempt?] at hfilter
    constructor
    · rw [TxRun.attempts, hfilter]
      exact hcount
    · rw [TxRun.attempts, hfilter]
      exact hattempts
    · rw [retryFlag, hbytes 1 (by omega), retryFlag]
    · rw [TxRun.attempts, hfilter]
      exact hevents
    · exact hseq
    · exact ⟨hend.frame.1.clear, retryFlag_clear _⟩
  · rw [TxRun.attempts, hevents, filterMap_attempt?]
    exact hend.lastRes

/-- Every call that passes its preparation makes its attempts in order until the
first success or the limit, with the rates of its error behaviour and the Retry
flag on the frames after an error of the MAC protocol. -/
theorem transmitWithRetry_trace (env : TxEnv) (seqNum : BitVec 16) (req : TxRequest Rate)
    {p : Prepared} {extracted : ExtractedParameters}
    (h : prepareFrameForTx env.keySlotEnabled req.interface req.macParameters seqNum req.mpduBuf =
      some p) (hok : p.result = .ok extracted) :
    ∃ run, transmitWithRetry env seqNum req = some run ∧ RetryTrace env seqNum req p run := by
  obtain ⟨run, hrun, htrace, _⟩ := transmitWithRetry_ok h hok
  exact ⟨run, hrun, htrace⟩

/-- A data frame of 24 bytes on the queue for best effort. -/
def dataRequest (errorBehaviour : TxErrorBehaviour Nat) : TxRequest Nat :=
  { interface := 0
    rate := 6
    macParameters := { waitForAck := true, overrideSeqNum := true }
    errorBehaviour := errorBehaviour
    queue := .edcaf .bestEffort
    dmaDescriptor := .empty
    mpduPtr := 0x3fc90000
    mpduBuf := 0x08 :: List.replicate 23 0 }

/-- No ACK for the first `failures` attempts. -/
def lossyChannel (failures : Nat) : TxEnv :=
  { keySlotEnabled := fun _ => false
    random := fun _ => 0x5a5a5a5a
    transmitRaw := fun i => if i < failures then .error (.macProtocol .ackTimeout) else .ok () }

theorem transmitWithRetry_trace_data :
    ∃ p run, prepareFrameForTx (lossyChannel 2).keySlotEnabled 0
        (dataRequest (.retryUntil 7)).macParameters 41 (dataRequest (.retryUntil 7)).mpduBuf =
          some p ∧
      transmitWithRetry (lossyChannel 2) 41 (dataRequest (.retryUntil 7)) = some run ∧
      RetryTrace (lossyChannel 2) 41 (dataRequest (.retryUntil 7)) p run := by
  obtain ⟨run, hrun, htrace⟩ := transmitWithRetry_trace (lossyChannel 2) 41
    (dataRequest (.retryUntil 7)) rfl rfl
  exact ⟨_, run, rfl, hrun, htrace⟩

/-! ## The returned number of retries -/

/-- The last attempt succeeded after `n` attempts that failed. -/
def TxRun.SucceededAfter (run : TxRun Rate) (n : Nat) : Prop :=
  ∃ as a, run.attempts = as ++ [a] ∧ a.result = .ok () ∧ as.countP (!·.result.isOk) = n

/-- The result is the number of failures before a success, or else the error of
the last attempt. -/
def TxRun.ResultSound (run : TxRun Rate) : Prop :=
  (∀ n : Byte, run.result = .ok n ↔ run.SucceededAfter n.toNat) ∧
    ((¬∃ n, run.SucceededAfter n) →
      ∃ as a e, run.attempts = as ++ [a] ∧ a.result = .error e ∧ run.result = .error e)

/-- The first success within the limit, if there is one, has an index that fits
a byte. -/
def FirstSuccessFits (results : Nat → Except TxError Unit) (limit : Nat) : Prop :=
  ∀ i < limit, results i = .ok () → (∀ j < i, ∃ e, results j = .error e) → i < 256

namespace RetryTrace

variable {env : TxEnv} {seqNum : BitVec 16} {req : TxRequest Rate} {p : Prepared}
  {run : TxRun Rate}

/-- The last attempt of a call, and the failures before it. -/
theorem attempts_last (h : RetryTrace env seqNum req p run) (hn : run.attempts.length = i + 1) :
    ∃ as a, run.attempts = as ++ [a] ∧ a.result = env.transmitRaw i ∧
      as.countP (!·.result.isOk) = i := by
  obtain ⟨as, a, has⟩ := (List.eq_nil_or_concat' run.attempts).resolve_left
    (List.ne_nil_of_length_pos (hn ▸ Nat.succ_pos i))
  have hlen : as.length = i := by
    have := congrArg List.length has
    rw [hn, List.length_append, List.length_singleton] at this
    omega
  have hlast : run.attempts[i]? = some a := by
    rw [has, List.getElem?_append_right hlen.le, hlen, Nat.sub_self, List.getElem?_cons_zero]
  refine ⟨as, a, has, (h.attempts i a hlast).result, ?_⟩
  rw [← hlen, List.countP_eq_length]
  intro b hb
  obtain ⟨j, hj, rfl⟩ := List.mem_iff_getElem.mp hb
  have hget : run.attempts[j]? = some as[j] := by
    rw [has, List.getElem?_append_left hj, List.getElem?_eq_getElem hj]
  obtain ⟨e, he⟩ := h.count.failed j (by omega)
  rw [(h.attempts j _ hget).result, he]
  rfl

/-- Without an attempt there is no limit to use up, and the result is `Ok(0)`. -/
theorem limit_pos_of_sound (h : RetryTrace env seqNum req p run)
    (hres : run.result = lastResult env.transmitRaw run.attempts.length) (hs : run.ResultSound) :
    0 < req.errorBehaviour.txAttempts := by
  by_contra hzero
  have hnone : run.attempts.length = 0 := by
    have := h.count.le
    omega
  rw [hnone] at hres
  obtain ⟨as, a, has, _⟩ := (hs.1 0).mp hres
  rw [List.length_eq_zero_iff.mp hnone] at has
  exact List.append_ne_nil_of_right_ne_nil as (List.cons_ne_nil a []) has.symm

theorem fits_of_sound (h : RetryTrace env seqNum req p run)
    (hres : run.result = lastResult env.transmitRaw run.attempts.length) (hs : run.ResultSound) :
    FirstSuccessFits env.transmitRaw req.errorBehaviour.txAttempts := by
  intro i hi hok hfailed
  -- the attempts stop right after the first success
  have hn : run.attempts.length = i + 1 := by
    rcases Nat.lt_trichotomy run.attempts.length (i + 1) with hlt | heq | hgt
    · obtain ⟨j, hj, hjok⟩ := h.count.ended (by omega)
      obtain ⟨e, he⟩ := hfailed j (by omega)
      rw [hjok] at he
      cases he
    · exact heq
    · obtain ⟨e, he⟩ := h.count.failed i hgt
      rw [hok] at he
      cases he
  obtain ⟨as, a, has, _, hcount⟩ := h.attempts_last hn
  rw [hn, lastResult, hok] at hres
  obtain ⟨bs, b, hbs, _, hbcount⟩ := (hs.1 _).mp hres
  obtain ⟨rfl, _⟩ := List.append_inj' (hbs.symm.trans has) rfl
  rw [hcount, BitVec.toNat_ofNat] at hbcount
  omega

theorem sound_of_fits (h : RetryTrace env seqNum req p run)
    (hres : run.result = lastResult env.transmitRaw run.attempts.length)
    (hpos : 0 < req.errorBehaviour.txAttempts)
    (hfits : FirstSuccessFits env.transmitRaw req.errorBehaviour.txAttempts) :
    run.ResultSound := by
  obtain ⟨i, hn⟩ : ∃ i, run.attempts.length = i + 1 := by
    cases hlen : run.attempts.length with
    | zero =>
        obtain ⟨i, hi, _⟩ := h.count.ended (hlen ▸ hpos)
        exact ⟨i, hlen ▸ hi⟩
    | succ i => exact ⟨i, rfl⟩
  obtain ⟨as, a, has, ha, hcount⟩ := h.attempts_last hn
  rw [hn, lastResult] at hres
  have hunique : ∀ n, run.SucceededAfter n → env.transmitRaw i = .ok () ∧ n = i := by
    rintro n ⟨bs, b, hbs, hb, hbcount⟩
    obtain ⟨rfl, hab⟩ := List.append_inj' (hbs.symm.trans has) rfl
    cases hab
    exact ⟨ha ▸ hb, hbcount ▸ hcount⟩
  cases hi : env.transmitRaw i with
  | ok u =>
      have hlt : i < 256 := by
        refine hfits i (by have := h.count.le; omega) hi fun j hj => ?_
        exact h.count.failed j (by omega)
      have hafter : run.SucceededAfter i := ⟨as, a, has, ha.trans hi, hcount⟩
      rw [hi] at hres
      refine ⟨fun n => ⟨fun hn => ?_, fun hn => ?_⟩, fun hnot => absurd ⟨i, hafter⟩ hnot⟩
      · have hni : n = BitVec.ofNat 8 i := (Except.ok.inj (hres.symm.trans hn)).symm
        rw [hni, BitVec.toNat_ofNat, Nat.mod_eq_of_lt hlt]
        exact hafter
      · rw [hres, ← (hunique _ hn).2, BitVec.ofNat_toNat, BitVec.setWidth_eq]
        rfl
  | error e =>
      have hnot : ∀ n, ¬run.SucceededAfter n := by
        intro n hn
        have hok := (hunique n hn).1
        rw [hi] at hok
        cases hok
      rw [hi] at hres
      refine ⟨fun n => ⟨fun hn => ?_, fun hn => absurd hn (hnot _)⟩, fun _ => ?_⟩
      · rw [hres] at hn
        cases hn
      · exact ⟨as, a, e, has, ha.trans hi, hres⟩

end RetryTrace

/-- The result of a call is sound exactly when the call makes an attempt and the
first success, if there is one, has an index below 256. -/
theorem result_sound_iff (env : TxEnv) (seqNum : BitVec 16) (req : TxRequest Rate)
    {p : Prepared} {extracted : ExtractedParameters}
    (h : prepareFrameForTx env.keySlotEnabled req.interface req.macParameters seqNum req.mpduBuf =
      some p) (hok : p.result = .ok extracted) :
    ∃ run, transmitWithRetry env seqNum req = some run ∧
      (run.ResultSound ↔ 0 < req.errorBehaviour.txAttempts ∧
        FirstSuccessFits env.transmitRaw req.errorBehaviour.txAttempts) := by
  obtain ⟨run, hrun, htrace, hres⟩ := transmitWithRetry_ok h hok
  refine ⟨run, hrun, fun hs => ?_, fun ⟨hpos, hfits⟩ => htrace.sound_of_fits hres hpos hfits⟩
  exact ⟨htrace.limit_pos_of_sound hres hs, htrace.fits_of_sound hres hs⟩

theorem result_sound_iff_data :
    ∃ run, transmitWithRetry (lossyChannel 300) 0 (dataRequest (.retryUntil 255)) = some run ∧
      (run.ResultSound ↔ 0 < (dataRequest (.retryUntil 255)).errorBehaviour.txAttempts ∧
        FirstSuccessFits (lossyChannel 300).transmitRaw
          (dataRequest (.retryUntil 255)).errorBehaviour.txAttempts) :=
  result_sound_iff (lossyChannel 300) 0 (dataRequest (.retryUntil 255)) rfl rfl

/-- With an empty list of rates the call makes no attempt and reports a success
without retries. -/
theorem transmitWithRetry_no_rates :
    ∃ run, transmitWithRetry (lossyChannel 0) 0 (dataRequest (.multiRateRetry [])) = some run ∧
      run.result = .ok 0 ∧ run.attempts = [] ∧ ¬run.ResultSound := by
  refine ⟨_, rfl, rfl, rfl, fun hs => ?_⟩
  obtain ⟨as, a, has, _⟩ := (hs.1 0).mp rfl
  exact List.append_ne_nil_of_right_ne_nil as (List.cons_ne_nil a []) has.symm

end EspWifiHal
