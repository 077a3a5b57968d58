import EspWifiHal.Tx.Oneshot

/-!
# Rejected transmissions

A request can be rejected for its frame, its key slot, its interface or its contention
window.  The sequence number is taken and written to the frame before the key slot and the
interface are checked, and before the length for it is.  So a rejected request that asks
for a sequence number uses one up and may find one in its frame
(`rejection_leaves_no_trace_iff`).
-/

namespace EspWifiHal

variable {Rate : Type}

/-- The errors of a request, as opposed to those of the hardware. -/
def TxError.OfRequest : TxError → Prop
  | .channelAccess _ => False
  | .macProtocol _ => False
  | .bufferTooShort => True
  | .disabledKeySlot => True
  | .outOfBounds => True
  | .invalidEdcaParameters => True

/-- What the hardware answers: `transmit_raw` adds no error of a request. -/
structure HardwareEnv extends TxEnv where
  ofHardware : ∀ i e, transmitRaw i = .error e → ¬e.OfRequest

/-! ## The preparation -/

section Preparation

variable {keySlotEnabled : Nat → Bool} {interface : Nat} {mac : TxMacParameters}
  {seqNum : BitVec 16} {mpduBuf : List Byte} {p : Prepared}

theorem succ_ne_self (seqNum : BitVec 16) : seqNum + 1 ≠ seqNum := by
  intro h
  rw [add_eq_left] at h
  cases h

/-- A preparation that goes as far as the sequence number leaves a trace. -/
theorem prepareFrameForTx_trace
    (h : prepareFrameForTx keySlotEnabled interface mac seqNum mpduBuf = some p) :
    (p.mpduBuf = mpduBuf ∧ p.currentSequenceNumber = seqNum) ↔
      ¬(mac.overrideSeqNum = true ∧ 5 ≤ mpduBuf.length) := by
  have hcases := preparation keySlotEnabled interface mac seqNum mpduBuf
  rw [h] at hcases
  cases hcases with
  | noDuration hlen => exact iff_of_true ⟨rfl, rfl⟩ fun hseq => by omega
  | noSequence hlen hoverride _ =>
      exact iff_of_false (fun hsame => succ_ne_self seqNum hsame.2) (not_not.mpr ⟨hoverride, hlen⟩)
  | numbered hlen hoverride =>
      refine iff_of_false (fun hsame => succ_ne_self seqNum hsame.2) (not_not.mpr ⟨hoverride, ?_⟩)
      omega
  | plain hlen hkeep =>
      refine iff_of_true ⟨rfl, rfl⟩ ?_
      rintro ⟨hoverride, _⟩
      rw [hkeep] at hoverride
      cases hoverride

/-- No preparation that fails, for a reason of its own or for another one, leaves a trace,
if and only if a request that asks for a sequence number and has a receiver cannot fail. -/
theorem forall_prepared_iff (keySlotEnabled : Nat → Bool) (interface : Nat) (mac : TxMacParameters)
    (seqNum : BitVec 16) (mpduBuf : List Byte) (other : Prop) :
    (∀ p, prepareFrameForTx keySlotEnabled interface mac seqNum mpduBuf = some p →
        ((∃ e, p.result = .error e) ∨ other) →
        p.mpduBuf = mpduBuf ∧ p.currentSequenceNumber = seqNum) ↔
      (mac.overrideSeqNum = true → 5 ≤ mpduBuf.length →
        (LongEnough mac mpduBuf ∧ Admissible keySlotEnabled interface mac) ∧ ¬other) := by
  rcases prepareFrameForTx_spec keySlotEnabled interface mac seqNum mpduBuf with
    ⟨hfour, hp⟩ | ⟨_, p, hp, _, haccept⟩
  · rw [hp]
    exact iff_of_true nofun fun _ hlen => by omega
  have hfails : (∃ e, p.result = .error e) ↔
      ¬(LongEnough mac mpduBuf ∧ Admissible keySlotEnabled interface mac) := by
    rw [← haccept]
    cases p.result <;> simp
  simp only [hp, Option.some.injEq, forall_eq', prepareFrameForTx_trace hp, hfails]
  tauto

end Preparation

/-! ## The two paths -/

section Paths

variable {env : HardwareEnv} {seqNum : BitVec 16} {req : TxRequest Rate}

theorem TxError.OfRequest.of_prepared {keySlotEnabled : Nat → Bool} {p : Prepared} {e : TxError}
    (h : prepareFrameForTx keySlotEnabled req.interface req.macParameters seqNum req.mpduBuf =
      some p) (he : p.result = .error e) : e.OfRequest := by
  rcases prepareFrameForTx_error h he with rfl | rfl | rfl <;> exact trivial

theorem lastResult_error {results : Nat → Except TxError Unit} {n : Nat} {e : TxError}
    (h : lastResult results n = .error e) : ∃ i, results i = .error e := by
  cases n with
  | zero => cases h
  | succ i =>
      refine ⟨i, ?_⟩
      rw [lastResult] at h
      cases hi : results i with
      | ok u =>
          rw [hi] at h
          cases h
      | error e' =>
          rw [hi] at h
          cases h
          rfl

/-- The errors of a request come from its preparation. -/
theorem transmitWithRetry_rejection_iff {Q : List Byte → BitVec 16 → Prop} :
    (∀ run e, transmitWithRetry env.toTxEnv seqNum req = some run → run.result = .error e →
        e.OfRequest → Q run.mpduBuf run.currentSequenceNumber) ↔
      ∀ p, prepareFrameForTx env.keySlotEnabled req.interface req.macParameters seqNum
          req.mpduBuf = some p → ((∃ e, p.result = .error e) ∨ False) →
        Q p.mpduBuf p.currentSequenceNumber := by
  constructor
  · rintro h p hp (⟨e, he⟩ | hfalse)
    · have hrun : transmitWithRetry env.toTxEnv seqNum req =
          some
            { result := .error e
              currentSequenceNumber := p.currentSequenceNumber
              dmaDescriptor := req.dmaDescriptor
              mpduBuf := p.mpduBuf
              events := [.prepare] } := by
        rw [transmitWithRetry, hp, Option.map_some, he]
      exact h _ e hrun rfl (.of_prepared hp he)
    · exact hfalse.elim
  · intro h run e hrun hresult hrequest
    cases hp : prepareFrameForTx env.keySlotEnabled req.interface req.macParameters seqNum
        req.mpduBuf with
    | none =>
        rw [transmitWithRetry, hp] at hrun
        cases hrun
    | some p =>
        cases he : p.result with
        | error e' =>
            rw [transmitWithRetry, hp, Option.map_some, he] at hrun
            cases hrun
            exact h p hp (.inl ⟨e', he⟩)
        | ok extracted =>
            -- the error would have to be one of the hardware
            obtain ⟨run', hrun', _, hlast⟩ := transmitWithRetry_ok hp he
            obtain rfl : run = run' := Option.some.inj (hrun.symm.trans hrun')
            obtain ⟨i, hi⟩ := lastResult_error (hlast.symm.trans hresult)
            exact absurd hrequest (env.ofHardware i e hi)

/-- The errors of a request come from its preparation or its contention window. -/
theorem transmitOneshot_rejection_iff {Q : List Byte → BitVec 16 → Prop} :
    (∀ run e, transmitOneshot env.toTxEnv seqNum req = some run → run.result = .error e →
        e.OfRequest → Q run.mpduBuf run.currentSequenceNumber) ↔
      ∀ p, prepareFrameForTx env.keySlotEnabled req.interface req.macParameters seqNum
          req.mpduBuf = some p → ((∃ e, p.result = .error e) ∨ req.EmptyRange) →
        Q p.mpduBuf p.currentSequenceNumber := by
  have hempty := req.backoffSlots_eq_none_iff env.toTxEnv
  constructor
  · intro h p hp hfails
    let rejection (e : TxError) : OneshotRun Rate :=
      { result := .error e
        currentSequenceNumber := p.currentSequenceNumber
        dmaDescriptor := prepareDmaDescriptorForTx req.mpduPtr p.mpduBuf req.dmaDescriptor
        mpduBuf := p.mpduBuf
        events := [.reject e, .txDone] }
    cases hbackoff : req.backoffSlots env.toTxEnv with
    | none =>
        refine h (rejection .invalidEdcaParameters) _ ?_ rfl trivial
        rw [transmitOneshot, hp, Option.map_some, hbackoff]
        rfl
    | some backoffSlots =>
        obtain ⟨e, he⟩ := hfails.resolve_right fun hrange => by
          rw [hempty.mpr hrange] at hbackoff
          cases hbackoff
        refine h (rejection e) e ?_ rfl (.of_prepared hp he)
        rw [transmitOneshot, hp, Option.map_some, hbackoff, he]
        rfl
  · intro h run e hrun hresult hrequest
    cases hp : prepareFrameForTx env.keySlotEnabled req.interface req.macParameters seqNum
        req.mpduBuf with
    | none =>
        rw [transmitOneshot, hp] at hrun
        cases hrun
    | some p =>
        cases hbackoff : req.backoffSlots env.toTxEnv with
        | none =>
            rw [transmitOneshot, hp, Option.map_some, hbackoff] at hrun
            cases hrun
            exact h p hp (.inr (hempty.mp hbackoff))
        | some backoffSlots =>
            cases he : p.result with
            | error e' =>
                rw [transmitOneshot, hp, Option.map_some, hbackoff, he] at hrun
                cases hrun
                exact h p hp (.inl ⟨e', he⟩)
            | ok extracted =>
                rw [transmitOneshot, hp, Option.map_some, hbackoff, he] at hrun
                cases hrun
                exact absurd hrequest (env.ofHardware 0 e hresult)

end Paths

/-- A path that fails with an error of the request leaves the frame and the counter as
they were, if and only if the request does not ask for a sequence number, or has no
receiver, or is accepted. -/
theorem rejection_leaves_no_trace_iff (env : HardwareEnv) (seqNum : BitVec 16)
    (req : TxRequest Rate) :
    ((∀ run e, transmitWithRetry env.toTxEnv seqNum req = some run → run.result = .error e →
        e.OfRequest → run.mpduBuf = req.mpduBuf ∧ run.currentSequenceNumber = seqNum) ↔
      (req.macParameters.overrideSeqNum = true → 5 ≤ req.mpduBuf.length →
        LongEnough req.macParameters req.mpduBuf ∧
          Admissible env.keySlotEnabled req.interface req.macParameters)) ∧
    ((∀ run e, transmitOneshot env.toTxEnv seqNum req = some run → run.result = .error e →
        e.OfRequest → run.mpduBuf = req.mpduBuf ∧ run.currentSequenceNumber = seqNum) ↔
      (req.macParameters.overrideSeqNum = true → 5 ≤ req.mpduBuf.length →
        (LongEnough req.macParameters req.mpduBuf ∧
          Admissible env.keySlotEnabled req.interface req.macParameters) ∧ ¬req.EmptyRange)) := by
  constructor
  · rw [transmitWithRetry_rejection_iff
      (Q := fun mpduBuf n => mpduBuf = req.mpduBuf ∧ n = seqNum), forall_prepared_iff]
    simp only [not_false_eq_true, and_true]
  · rw [transmitOneshot_rejection_iff
      (Q := fun mpduBuf n => mpduBuf = req.mpduBuf ∧ n = seqNum), forall_prepared_iff]

/-- A frame with a sequence number on an interface that does not exist. -/
def fifthInterface : TxRequest Nat :=
  { dataRequest .drop with interface := 4 }

/-- The counter goes on from 41 and the frame has the number 41. -/
theorem rejected_request_is_numbered :
    ∃ run, transmitWithRetry (lossyChannel 0) 41 fifthInterface = some run ∧
      run.result = .error .outOfBounds ∧ run.currentSequenceNumber = 42 ∧
      fifthInterface.mpduBuf[22]? = some 0 ∧ run.mpduBuf[22]? = some 0x90 :=
  ⟨_, rfl, rfl, rfl, rfl, rfl⟩

end EspWifiHal
