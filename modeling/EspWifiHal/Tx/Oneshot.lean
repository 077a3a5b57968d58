import EspWifiHal.Tx.Retry
import EspWifiHal.Tx.Slot

/-!
# Transmission without retries

`transmit_oneshot` beside `transmit_with_retry`.  The first one collects the errors of
its checks and hands them to `transmit_raw`; an empty contention window is an error.  The
second one returns the errors of the preparation, but turns an empty contention window
into a backoff of one slot and transmits (`paths_agree_iff`).
-/

namespace EspWifiHal

variable {Rate : Type}

/-! ## The call -/

/-- What `transmit_oneshot` does with the slot. -/
inductive OneshotEvent (Rate : Type) where
  /-- `transmit_raw` was given an error and does not set up the slot. -/
  | reject (error : TxError)
  /-- The slot is set up and started. -/
  | start (a : Attempt Rate)
  /-- The drop guard. -/
  | txDone

structure OneshotRun (Rate : Type) where
  result : Except TxError Unit
  currentSequenceNumber : BitVec 16
  dmaDescriptor : DmaDescriptor
  mpduBuf : List Byte
  events : List (OneshotEvent Rate)

/-- The backoff of `transmit_oneshot`, which an empty contention window does not have. -/
def TxRequest.backoffSlots (env : TxEnv) (req : TxRequest Rate) : Option Nat :=
  match req.queue with
  | .edcaf _ =>
      (req.queue.contentionState req.macParameters.edcaParameters).map
        (·.randomBackoffSlotCount (env.random 0))
  | .beacon => some 1

/-- `transmit_oneshot`, with its future polled to the end.  The error behaviour of the
request is not used.  The value `none` is a panic of the preparation. -/
def transmitOneshot (env : TxEnv) (seqNum : BitVec 16) (req : TxRequest Rate) :
    Option (OneshotRun Rate) :=
  (prepareFrameForTx env.keySlotEnabled req.interface req.macParameters seqNum req.mpduBuf).map
    fun prepared =>
      let dmaDescriptor :=
        prepareDmaDescriptorForTx req.mpduPtr prepared.mpduBuf req.dmaDescriptor
      let fallibleParams : Except TxError (ExtractedParameters × EdcaTxParameters) := do
        let backoffSlots ←
          match req.backoffSlots env with
          | some backoffSlots => .ok backoffSlots
          | none => .error .invalidEdcaParameters
        let extracted ← prepared.result
        return (extracted, { backoffSlots := backoffSlots, aifsn := req.aifsn })
      match fallibleParams with
      | .error error =>
          { result := .error error
            currentSequenceNumber := prepared.currentSequenceNumber
            dmaDescriptor := dmaDescriptor
            mpduBuf := prepared.mpduBuf
            events := [.reject error, .txDone] }
      | .ok (extracted, edca) =>
          { result := env.transmitRaw 0
            currentSequenceNumber := prepared.currentSequenceNumber
            dmaDescriptor := dmaDescriptor
            mpduBuf := prepared.mpduBuf
            events :=
              [.start
                { index := 0
                  rate := req.rate
                  dmaDescriptor := dmaDescriptor
                  extracted := extracted
                  edca := edca
                  frame := prepared.mpduBuf
                  result := env.transmitRaw 0 },
                .txDone] }

def OneshotEvent.start? : OneshotEvent Rate → Option (Attempt Rate)
  | .start a => some a
  | _ => none

/-- The transmissions that were started. -/
def OneshotRun.attempts (run : OneshotRun Rate) : List (Attempt Rate) :=
  run.events.filterMap OneshotEvent.start?

/-- The error is decided before the slot is touched.  The drop guard runs later. -/
def OneshotRun.Rejects (run : OneshotRun Rate) (error : TxError) : Prop :=
  run.result = .error error ∧ run.events = [.reject error, .txDone]

/-- The error is returned without an attempt. -/
def TxRun.Rejects (run : TxRun Rate) (error : TxError) : Prop :=
  run.result = .error error ∧ run.attempts = []

/-- An EDCA queue with an empty contention window. -/
def TxRequest.EmptyRange (req : TxRequest Rate) : Prop :=
  ∃ category range, req.queue = .edcaf category ∧
    req.macParameters.edcaParameters.contentionWindowExponentRange = some range ∧
    range.isEmpty = true

/-! ## What the paths do -/

theorem contentionState_eq_none_iff (category : EdcaAccessCategory) (edca : EdcaParameters) :
    (HardwareTxQueue.edcaf category).contentionState edca = none ↔
      ∃ range, edca.contentionWindowExponentRange = some range ∧ range.isEmpty = true := by
  have hdefault : category.defaultCwExponentRange.isEmpty = false := by cases category <;> decide
  simp only [HardwareTxQueue.contentionState, EdcaContentionState.new]
  cases edca.contentionWindowExponentRange with
  | none => simp [hdefault]
  | some range => cases h : range.isEmpty <;> simp [h]

/-- Only an empty contention window has no backoff. -/
theorem TxRequest.backoffSlots_eq_none_iff (env : TxEnv) (req : TxRequest Rate) :
    req.backoffSlots env = none ↔ req.EmptyRange := by
  cases hqueue : req.queue with
  | beacon => simp [backoffSlots, EmptyRange, hqueue]
  | edcaf category =>
      simp only [backoffSlots, EmptyRange, hqueue, Option.map_eq_none_iff,
        contentionState_eq_none_iff, HardwareTxQueue.edcaf.injEq]
      constructor
      · rintro ⟨range, hrange⟩
        exact ⟨category, range, rfl, hrange⟩
      · rintro ⟨_, range, _, hrange⟩
        exact ⟨range, hrange⟩

section Paths

variable {env : TxEnv} {seqNum : BitVec 16} {req : TxRequest Rate} {p : Prepared}
  (hp : prepareFrameForTx env.keySlotEnabled req.interface req.macParameters seqNum req.mpduBuf =
    some p)

include hp

/-- An empty contention window comes before every other error. -/
theorem transmitOneshot_empty (hempty : req.EmptyRange) :
    ∃ run, transmitOneshot env seqNum req = some run ∧ run.Rejects .invalidEdcaParameters := by
  have hbackoff := (req.backoffSlots_eq_none_iff env).mpr hempty
  rw [transmitOneshot, hp, Option.map_some, hbackoff]
  exact ⟨_, rfl, rfl, rfl⟩

theorem transmitOneshot_error (hrange : ¬req.EmptyRange) {e : TxError} (he : p.result = .error e) :
    ∃ run, transmitOneshot env seqNum req = some run ∧ run.Rejects e := by
  obtain ⟨b, hb⟩ := Option.ne_none_iff_exists'.mp
    (mt (req.backoffSlots_eq_none_iff env).mp hrange)
  rw [transmitOneshot, hp, Option.map_some, hb, he]
  exact ⟨_, rfl, rfl, rfl⟩

theorem transmitOneshot_ok (hrange : ¬req.EmptyRange) {extracted : ExtractedParameters}
    (hok : p.result = .ok extracted) :
    ∃ run a, transmitOneshot env seqNum req = some run ∧ run.attempts = [a] ∧
      a.dmaDescriptor = prepareDmaDescriptorForTx req.mpduPtr p.mpduBuf req.dmaDescriptor ∧
      ∀ e, ¬run.Rejects e := by
  obtain ⟨b, hb⟩ := Option.ne_none_iff_exists'.mp
    (mt (req.backoffSlots_eq_none_iff env).mp hrange)
  rw [transmitOneshot, hp, Option.map_some, hb, hok]
  exact ⟨_, _, rfl, rfl, rfl, fun e h => nomatch h.2⟩

theorem transmitWithRetry_error {e : TxError} (he : p.result = .error e) :
    ∃ run, transmitWithRetry env seqNum req = some run ∧ run.Rejects e := by
  rw [transmitWithRetry, hp, Option.map_some, he]
  exact ⟨_, rfl, rfl, rfl⟩

end Paths

theorem TxRun.not_rejects_of_attempts {run : TxRun Rate} (h : run.attempts ≠ []) (e : TxError) :
    ¬run.Rejects e := fun hrejects => h hrejects.2

/-- A call that may make an attempt makes one. -/
theorem AttemptCount.pos {results : Nat → Except TxError Unit} {limit n : Nat}
    (h : AttemptCount results limit n) (hlimit : 0 < limit) : 0 < n := by
  rcases Nat.eq_zero_or_pos n with hzero | hpos
  · obtain ⟨i, hi, _⟩ := h.ended (hzero ▸ hlimit)
    omega
  · exact hpos

/-! ## Agreement of the checks -/

/-- Both paths reject with the same error, or both start one transmission.  With an empty
contention window they reject. -/
structure Agree (req : TxRequest Rate) (one : OneshotRun Rate) (retry : TxRun Rate) : Prop where
  same : (∃ e, one.Rejects e ∧ retry.Rejects e) ∨
    one.attempts.length = 1 ∧ retry.attempts.length = 1
  empty : req.EmptyRange →
    one.Rejects .invalidEdcaParameters ∧ retry.Rejects .invalidEdcaParameters

/-- `transmit_with_retry` never reports an empty contention window. -/
theorem transmitWithRetry_not_invalidEdca {env : TxEnv} {seqNum : BitVec 16}
    {req : TxRequest Rate} {run : TxRun Rate} (hlimit : 0 < req.errorBehaviour.txAttempts)
    (hrun : transmitWithRetry env seqNum req = some run) :
    ¬run.Rejects .invalidEdcaParameters := by
  cases hp : prepareFrameForTx env.keySlotEnabled req.interface req.macParameters seqNum
      req.mpduBuf with
  | none =>
      rw [transmitWithRetry, hp] at hrun
      cases hrun
  | some p =>
      cases hresult : p.result with
      | error e =>
          obtain ⟨run', hrun', hrejects⟩ := transmitWithRetry_error hp hresult
          obtain rfl : run = run' := Option.some.inj (hrun.symm.trans hrun')
          intro hinvalid
          obtain rfl : e = .invalidEdcaParameters :=
            Except.error.inj (hrejects.1.symm.trans hinvalid.1)
          rcases prepareFrameForTx_error hp hresult with he | he | he <;> cases he
      | ok extracted =>
          obtain ⟨run', hrun', htrace, _⟩ := transmitWithRetry_ok hp hresult
          obtain rfl : run = run' := Option.some.inj (hrun.symm.trans hrun')
          exact run.not_rejects_of_attempts
            (List.ne_nil_of_length_pos (htrace.count.pos hlimit)) _

/-- Without retries the two paths agree if and only if the frame does not have four bytes
and the contention window of an EDCA queue is not empty. -/
theorem paths_agree_iff (env : TxEnv) (seqNum : BitVec 16) (req : TxRequest Rate) :
    (∃ one retry, transmitOneshot env seqNum req = some one ∧
        transmitWithRetry env seqNum { req with errorBehaviour := .drop } = some retry ∧
        Agree req one retry) ↔
      req.mpduBuf.length ≠ 4 ∧ ¬req.EmptyRange := by
  rcases prepareFrameForTx_spec env.keySlotEnabled req.interface req.macParameters seqNum
    req.mpduBuf with ⟨hfour, hp⟩ | ⟨hlen, p, hp, _⟩
  · refine iff_of_false ?_ fun h => h.1 hfour
    rintro ⟨one, _, hone, _⟩
    rw [transmitOneshot, hp] at hone
    cases hone
  constructor
  · rintro ⟨one, retry, _, hretry, hagree⟩
    refine ⟨hlen, fun hempty => ?_⟩
    exact transmitWithRetry_not_invalidEdca (by exact Nat.one_pos) hretry (hagree.empty hempty).2
  · rintro ⟨_, hrange⟩
    let dropped : TxRequest Rate := { req with errorBehaviour := .drop }
    have hdropped : prepareFrameForTx env.keySlotEnabled dropped.interface dropped.macParameters
        seqNum dropped.mpduBuf = some p := hp
    cases hresult : p.result with
    | error e =>
        obtain ⟨one, hone, hrejects⟩ := transmitOneshot_error hp hrange hresult
        obtain ⟨retry, hretry, hrejects'⟩ := transmitWithRetry_error hdropped hresult
        exact ⟨one, retry, hone, hretry, .inl ⟨e, hrejects, hrejects'⟩,
          fun hempty => absurd hempty hrange⟩
    | ok extracted =>
        obtain ⟨one, a, hone, hattempts, _⟩ := transmitOneshot_ok hp hrange hresult
        obtain ⟨retry, hretry, htrace, _⟩ := transmitWithRetry_ok hdropped hresult
        have hone' : one.attempts.length = 1 := by rw [hattempts, List.length_singleton]
        have hle : retry.attempts.length ≤ 1 := htrace.count.le
        have hpos : 0 < retry.attempts.length := htrace.count.pos Nat.one_pos
        exact ⟨one, retry, hone, hretry, .inr ⟨hone', by omega⟩,
          fun hempty => absurd hempty hrange⟩

/-- A valid frame on an EDCA queue with the contention window `5..=4`. -/
def emptyRangeRequest : TxRequest Nat :=
  { dataRequest .drop with
    macParameters := { edcaParameters := { contentionWindowExponentRange := some ⟨5, 4, false⟩ } } }

/-- One path reports the empty contention window, the other one transmits. -/
theorem empty_range_transmitted :
    ∃ one retry, transmitOneshot (lossyChannel 0) 0 emptyRangeRequest = some one ∧
      transmitWithRetry (lossyChannel 0) 0 emptyRangeRequest = some retry ∧
      one.Rejects .invalidEdcaParameters ∧ retry.result = .ok 0 ∧ retry.attempts.length = 1 :=
  ⟨_, _, rfl, rfl, ⟨rfl, rfl⟩, rfl, rfl⟩

end EspWifiHal
