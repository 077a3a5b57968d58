import EspWifiHal.Tx.Retry

/-!
# Arithmetic of the retry loop

The operations of the contention window and of the retry loop as they are with overflow
checks: a shift by 32 or more, a sum or a difference that does not fit and an index out of
bounds are faults.  Without a fault they compute what the unchecked ones do.

The exponents come from the caller and are not checked, and the retry counters are bytes
that 256 attempts can exceed.  `retryLoop_checked_iff` says when a call has no fault.
-/

namespace EspWifiHal

variable {Rate : Type}

/-! ## Checked operations -/

inductive ArithFault where
  | shift
  | overflow
  | index
deriving DecidableEq, Repr

/-- `1 << n`. -/
def checkedBit (n : Nat) : Except ArithFault (BitVec 32) :=
  if n < 32 then .ok (bit n) else .error .shift

def checkedSucc {w : Nat} (b : BitVec w) : Except ArithFault (BitVec w) :=
  if b = BitVec.allOnes w then .error .overflow else .ok (b + 1)

def checkedPred {w : Nat} (b : BitVec w) : Except ArithFault (BitVec w) :=
  if b = 0 then .error .overflow else .ok (b - 1)

namespace EdcaContentionState

def newChecked (range : RangeInclusive) : Except ArithFault (Option EdcaContentionState) :=
  if range.isEmpty then .ok none
  else do
    let currentCw ← checkedPred (← checkedBit range.start.toNat)
    return some
      { contentionWindowExponentRange := range
        currentCw := currentCw
        shortRetryCount := 0
        longRetryCount := 0 }

def advanceContentionWindowChecked (s : EdcaContentionState) :
    Except ArithFault EdcaContentionState := do
  let cw ← checkedSucc (s.currentCw <<< 1)
  let limit ← checkedPred (← checkedBit s.contentionWindowExponentRange.stop.toNat)
  return { s with currentCw := if cw ≤ limit then cw else limit }

def incrementSrcChecked (s : EdcaContentionState) : Except ArithFault EdcaContentionState := do
  let shortRetryCount ← checkedSucc s.shortRetryCount
  { s with shortRetryCount := shortRetryCount }.advanceContentionWindowChecked

def incrementLrcChecked (s : EdcaContentionState) : Except ArithFault EdcaContentionState := do
  let longRetryCount ← checkedSucc s.longRetryCount
  { s with longRetryCount := longRetryCount }.advanceContentionWindowChecked

end EdcaContentionState

def HardwareTxQueue.contentionStateChecked (queue : HardwareTxQueue) (edca : EdcaParameters) :
    Except ArithFault (Option EdcaContentionState) :=
  match queue with
  | .edcaf category =>
      EdcaContentionState.newChecked
        (edca.contentionWindowExponentRange.getD category.defaultCwExponentRange)
  | .beacon => .ok none

def contendChecked (result : Except TxError Unit) (s : Option EdcaContentionState) :
    Except ArithFault (Option EdcaContentionState) :=
  match result, s with
  | .error (.macProtocol .ackTimeout), some s => do return some (← s.incrementLrcChecked).resetSrc
  | .error (.macProtocol _), some s => do return some (← s.incrementSrcChecked)
  | _, s => .ok s

/-- The rate of attempt `i`, with the bounds check of `rates[i]`. -/
def TxErrorBehaviour.rateChecked (initialRate : Rate) (i : Nat) :
    TxErrorBehaviour Rate → Except ArithFault Rate
  | .multiRateRetry rates =>
      if i = 0 then .ok initialRate
      else
        match rates[i]? with
        | some rate => .ok rate
        | none => .error .index
  | _ => .ok initialRate

/-- The body of the loop. -/
def attemptTxChecked (env : TxEnv) (dmaDescriptor : DmaDescriptor)
    (extracted : ExtractedParameters) (aifsn : Nat) (s : RetryState Rate)
    (item : Except ArithFault Rate × Nat) : Except ArithFault (RetryState Rate × Bool) := do
  let rate ← item.1
  let attempt := s.attempt env dmaDescriptor extracted aifsn (rate, item.2)
  let edcaContentionState ← contendChecked attempt.result s.edcaContentionState
  .ok
    ({ lastRes := attempt.result.map fun _ => BitVec.ofNat 8 attempt.index
       mpduBuf := markRetry attempt.result s.mpduBuf
       edcaContentionState := edcaContentionState
       events := s.events ++ [.attempt attempt] },
     attempt.result.isOk)

/-- The loop of `transmit_with_retry`. -/
def retryLoopChecked (env : TxEnv) (req : TxRequest Rate) (mpduBuf : List Byte)
    (dmaDescriptor : DmaDescriptor) (extracted : ExtractedParameters) :
    Except ArithFault (RetryState Rate) := do
  let edcaContentionState ← req.queue.contentionStateChecked req.macParameters.edcaParameters
  Loop.forBreakE (attemptTxChecked env dmaDescriptor extracted req.aifsn)
    ((List.range req.errorBehaviour.txAttempts).map fun i =>
      (req.errorBehaviour.rateChecked req.rate i, i))
    { lastRes := .ok 0
      mpduBuf := mpduBuf
      edcaContentionState := edcaContentionState
      events := [.prepare] }

/-! ## Operations without a fault -/

theorem checkedBit_ok_iff {n : Nat} {b : BitVec 32} :
    checkedBit n = .ok b ↔ n < 32 ∧ b = bit n := by
  rw [checkedBit]
  split
  case isTrue h => simp [h, eq_comm]
  case isFalse h => simp [h]

theorem checkedSucc_ok_iff {w : Nat} {b c : BitVec w} :
    checkedSucc b = .ok c ↔ b ≠ BitVec.allOnes w ∧ c = b + 1 := by
  rw [checkedSucc]
  split
  case isTrue h => simp [h]
  case isFalse h => simp [h, eq_comm]

/-- The difference `(1 << n) - 1` never is a fault. -/
theorem checkedPred_bit (n : Nat) : checkedPred (bit n) = .ok (bit n - 1) := by
  have hne : bit n ≠ 0 := by
    intro hzero
    have hbit := congrArg (BitVec.getLsbD · (n % 32)) hzero
    have hlt : n % 32 < 32 := Nat.mod_lt n (by decide)
    simp [bit, hlt] at hbit
  rw [checkedPred, if_neg hne]

/-- A shift to the left makes room for the lowest bit. -/
theorem checkedSucc_shiftLeft (b : BitVec 32) : checkedSucc (b <<< 1) = .ok ((b <<< 1) + 1) := by
  have hne : b <<< 1 ≠ BitVec.allOnes 32 := by
    intro hones
    have hbit := congrArg (BitVec.getLsbD · 0) hones
    simp at hbit
  rw [checkedSucc, if_neg hne]

theorem bind_ok_iff {ε α β : Type} {x : Except ε α} {f : α → Except ε β} {b : β} :
    (x >>= f) = .ok b ↔ ∃ a, x = .ok a ∧ f a = .ok b := by
  cases x with
  | error e => simp [bind, Except.bind]
  | ok a => simp [bind, Except.bind]

theorem pure_ok_iff {ε α : Type} {a b : α} : (pure a : Except ε α) = .ok b ↔ b = a := by
  rw [pure, Applicative.toPure]
  exact ⟨fun h => (Except.ok.inj h).symm, fun h => congrArg Except.ok h.symm⟩

namespace EdcaContentionState

variable {s t : EdcaContentionState}

theorem newChecked_ok_iff {range : RangeInclusive} {c : Option EdcaContentionState} :
    newChecked range = .ok c ↔
      (range.isEmpty = false → range.start.toNat < 32) ∧ c = new range := by
  rw [newChecked, new]
  cases range.isEmpty with
  | true => simp [eq_comm]
  | false =>
      simp only [Bool.false_eq_true, if_false, bind_ok_iff, checkedBit_ok_iff, and_assoc,
        exists_and_left, exists_eq_left, checkedPred_bit, Except.ok.injEq, exists_eq_left',
        pure_ok_iff, forall_const]

theorem advanceContentionWindowChecked_ok_iff :
    s.advanceContentionWindowChecked = .ok t ↔
      s.contentionWindowExponentRange.stop.toNat < 32 ∧ t = s.advanceContentionWindow := by
  rw [advanceContentionWindowChecked, checkedSucc_shiftLeft, advanceContentionWindow]
  simp only [bind_ok_iff, checkedBit_ok_iff, and_assoc, exists_and_left, exists_eq_left,
    checkedPred_bit, Except.ok.injEq, exists_eq_left', pure_ok_iff]

theorem incrementSrcChecked_ok_iff :
    s.incrementSrcChecked = .ok t ↔
      s.shortRetryCount ≠ BitVec.allOnes 8 ∧ s.contentionWindowExponentRange.stop.toNat < 32 ∧
        t = s.incrementSrc := by
  simp only [incrementSrcChecked, bind_ok_iff, checkedSucc_ok_iff, and_assoc, exists_and_left,
    exists_eq_left, advanceContentionWindowChecked_ok_iff, incrementSrc]

theorem incrementLrcChecked_ok_iff :
    s.incrementLrcChecked = .ok t ↔
      s.longRetryCount ≠ BitVec.allOnes 8 ∧ s.contentionWindowExponentRange.stop.toNat < 32 ∧
        t = s.incrementLrc := by
  simp only [incrementLrcChecked, bind_ok_iff, checkedSucc_ok_iff, and_assoc, exists_and_left,
    exists_eq_left, advanceContentionWindowChecked_ok_iff, incrementLrc]

end EdcaContentionState

/-- The result of an attempt meets a contention state that can take it. -/
def ContentionFits (result : Except TxError Unit) (s : Option EdcaContentionState) : Prop :=
  match result, s with
  | .error (.macProtocol .ackTimeout), some s =>
      s.longRetryCount ≠ BitVec.allOnes 8 ∧ s.contentionWindowExponentRange.stop.toNat < 32
  | .error (.macProtocol _), some s =>
      s.shortRetryCount ≠ BitVec.allOnes 8 ∧ s.contentionWindowExponentRange.stop.toNat < 32
  | _, _ => True

theorem contentionFits_none (result : Except TxError Unit) : ContentionFits result none := by
  simp [ContentionFits]

theorem contend_none (result : Except TxError Unit) : contend result none = none := by
  unfold contend
  split <;> rfl

theorem contendChecked_ok_iff {result : Except TxError Unit} {s c : Option EdcaContentionState} :
    contendChecked result s = .ok c ↔ ContentionFits result s ∧ c = contend result s := by
  cases s with
  | none =>
      have hchecked : contendChecked result none = .ok none := by simp [contendChecked]
      rw [contend_none, hchecked, and_iff_right (contentionFits_none result), Except.ok.injEq,
        eq_comm]
  | some s =>
      unfold contendChecked ContentionFits contend
      cases result with
      | ok u => simp [eq_comm]
      | error e =>
          cases e with
          | macProtocol e =>
              cases e with
              | ackTimeout =>
                  simp only [bind_ok_iff, EdcaContentionState.incrementLrcChecked_ok_iff,
                    and_assoc, exists_and_left, exists_eq_left, pure_ok_iff, Option.map_some]
              | _ =>
                  simp only [bind_ok_iff, EdcaContentionState.incrementSrcChecked_ok_iff,
                    and_assoc, exists_and_left, exists_eq_left, pure_ok_iff, Option.map_some]
          | _ => simp [eq_comm]

/-- The exponents that a call uses.  Only an EDCA queue has them. -/
def HardwareTxQueue.exponentRange (queue : HardwareTxQueue) (edca : EdcaParameters) :
    Option RangeInclusive :=
  match queue with
  | .edcaf category =>
      some (edca.contentionWindowExponentRange.getD category.defaultCwExponentRange)
  | .beacon => none

theorem contentionState_eq (queue : HardwareTxQueue) (edca : EdcaParameters) :
    queue.contentionState edca = (queue.exponentRange edca).bind EdcaContentionState.new := by
  cases queue with
  | edcaf category => rfl
  | beacon => rfl

theorem contentionStateChecked_ok_iff {queue : HardwareTxQueue} {edca : EdcaParameters}
    {c : Option EdcaContentionState} :
    queue.contentionStateChecked edca = .ok c ↔
      (∀ range, queue.exponentRange edca = some range → range.isEmpty = false →
        range.start.toNat < 32) ∧ c = queue.contentionState edca := by
  cases queue with
  | edcaf category =>
      simp only [HardwareTxQueue.contentionStateChecked, HardwareTxQueue.exponentRange,
        HardwareTxQueue.contentionState, EdcaContentionState.newChecked_ok_iff, Option.some.injEq,
        forall_eq']
  | beacon =>
      simp only [HardwareTxQueue.contentionStateChecked, HardwareTxQueue.exponentRange,
        HardwareTxQueue.contentionState, reduceCtorEq, false_implies, implies_true, true_and,
        Except.ok.injEq]
      exact eq_comm

/-! ## The items of the loop -/

theorem rateChecked_of_usesRate {initialRate rate : Rate} {i : Nat} {b : TxErrorBehaviour Rate}
    (h : b.UsesRate initialRate i rate) : b.rateChecked initialRate i = .ok rate := by
  cases b with
  | retryUntil retries => exact congrArg Except.ok h.symm
  | multiRateRetry rates =>
      rw [TxErrorBehaviour.UsesRate] at h
      rw [TxErrorBehaviour.rateChecked]
      split at h
      case isTrue hzero => rw [if_pos hzero, h]
      case isFalse hzero => rw [if_neg hzero, h]
  | drop => exact congrArg Except.ok h.symm

/-- The index of `rates[i]` is in bounds in every attempt. -/
theorem ratesChecked_eq (initialRate : Rate) (b : TxErrorBehaviour Rate) :
    ((List.range b.txAttempts).map fun i => (b.rateChecked initialRate i, i)) =
      (b.txAttemptRateIter initialRate).zipIdx.map fun item =>
        ((.ok item.1 : Except ArithFault Rate), item.2) := by
  refine List.ext_getElem ?_ fun i hi hi' => ?_
  · simp [TxErrorBehaviour.txAttemptRateIter_length]
  · have hlt : i < (b.txAttemptRateIter initialRate).length := by simpa using hi'
    have huses := TxErrorBehaviour.usesRate_of_getElem? (List.getElem?_eq_getElem hlt)
    simp [rateChecked_of_usesRate huses]

/-- The contention state before attempt `i`, if all attempts before it are made. -/
def contentionAt (results : Nat → Except TxError Unit) (s : Option EdcaContentionState) :
    Nat → Option EdcaContentionState
  | 0 => s
  | i + 1 => contend (results i) (contentionAt results s i)

/-- Attempt `i` is made: the ones before it failed. -/
def Made (results : Nat → Except TxError Unit) (txAttempts i : Nat) : Prop :=
  i < txAttempts ∧ ∀ j < i, ∃ e, results j = .error e

section Loop

variable {env : TxEnv} {dmaDescriptor : DmaDescriptor} {extracted : ExtractedParameters}
  {aifsn : Nat} {s : RetryState Rate} {item : Rate × Nat}

theorem attemptTxChecked_ok_iff {r : RetryState Rate × Bool} :
    attemptTxChecked env dmaDescriptor extracted aifsn s (.ok item.1, item.2) = .ok r ↔
      ContentionFits (env.transmitRaw item.2) s.edcaContentionState ∧
        r = attemptTx env dmaDescriptor extracted aifsn s item := by
  simp only [attemptTxChecked, bind_ok_iff, Except.ok.injEq, exists_eq_left',
    contendChecked_ok_iff, and_assoc, exists_and_left, exists_eq_left, attemptTx]
  exact and_congr_right fun _ => eq_comm

/-- The attempts from number `first` on, by induction on the items that are left. -/
theorem forBreakE_attemptTxChecked_iff (c : Option EdcaContentionState) (first : Nat)
    {items : List (Rate × Nat)} (hindex : ∀ k a, items[k]? = some a → a.2 = first + k)
    (hs : s.edcaContentionState = contentionAt env.transmitRaw c first) :
    Loop.forBreakE
        (fun s (item : Rate × Nat) =>
          attemptTxChecked env dmaDescriptor extracted aifsn s (.ok item.1, item.2)) items s =
        .ok (Loop.forBreak (attemptTx env dmaDescriptor extracted aifsn) items s) ↔
      ∀ k < items.length, (∀ j < k, ∃ e, env.transmitRaw (first + j) = .error e) →
        ContentionFits (env.transmitRaw (first + k))
          (contentionAt env.transmitRaw c (first + k)) := by
  induction items generalizing first s with
  | nil => simp [Loop.forBreakE, Loop.forBreak]
  | cons a items ih =>
      obtain hfirst : a.2 = first := hindex 0 a rfl
      have hrest : ∀ k b, items[k]? = some b → b.2 = first + 1 + k := by
        intro k b hb
        rw [hindex (k + 1) b hb]
        omega
      have hnext : (attemptTx env dmaDescriptor extracted aifsn s a).1.edcaContentionState =
          contentionAt env.transmitRaw c (first + 1) := by
        rw [contentionAt, ← hs, ← hfirst]
        rfl
      have hgoes : (attemptTx env dmaDescriptor extracted aifsn s a).2 = false ↔
          ∃ e, env.transmitRaw first = .error e := by
        rw [← hfirst]
        change (env.transmitRaw a.2).isOk = false ↔ _
        cases env.transmitRaw a.2 <;> simp [Except.isOk, Except.toBool]
      rw [Loop.forBreakE_cons_ok_iff (fun s a r h => (attemptTxChecked_ok_iff.mp h).2),
        attemptTxChecked_ok_iff, hgoes, ih (first + 1) hrest hnext, hs, hfirst, and_iff_left rfl]
      simp only [Nat.add_right_comm first 1]
      constructor
      · rintro ⟨hhead, htail⟩ k hk hfailed
        cases k with
        | zero => exact hhead
        | succ k =>
            exact htail (hfailed 0 k.succ_pos) k (Nat.lt_of_succ_lt_succ hk) fun j hj =>
              hfailed (j + 1) (Nat.succ_lt_succ hj)
      · intro h
        refine ⟨h 0 (Nat.succ_pos _) (by simp), fun hhead k hk hfailed => ?_⟩
        refine h (k + 1) (Nat.succ_lt_succ hk) fun j hj => ?_
        cases j with
        | zero => exact hhead
        | succ j => exact hfailed j (Nat.lt_of_succ_lt_succ hj)

/-- The loop has no fault if and only if its first shift and every attempt that is made fit. -/
theorem retryLoopChecked_ok_iff {req : TxRequest Rate} {mpduBuf : List Byte} :
    retryLoopChecked env req mpduBuf dmaDescriptor extracted =
        .ok (retryLoop env req mpduBuf dmaDescriptor extracted) ↔
      (∀ range, req.queue.exponentRange req.macParameters.edcaParameters = some range →
        range.isEmpty = false → range.start.toNat < 32) ∧
        ∀ i, Made env.transmitRaw req.errorBehaviour.txAttempts i →
          ContentionFits (env.transmitRaw i)
            (contentionAt env.transmitRaw
              (req.queue.contentionState req.macParameters.edcaParameters) i) := by
  simp only [retryLoopChecked, bind_ok_iff, ratesChecked_eq, Loop.forBreakE_map,
    contentionStateChecked_ok_iff, and_assoc, exists_and_left, exists_eq_left]
  have hindex : ∀ k a, (req.errorBehaviour.txAttemptRateIter req.rate).zipIdx[k]? = some a →
      a.2 = 0 + k := by
    intro k a ha
    rw [List.getElem?_zipIdx, Nat.zero_add] at ha
    obtain ⟨rate, -, rfl⟩ := Option.map_eq_some_iff.mp ha
    exact (Nat.zero_add k).symm
  refine and_congr_right fun _ => (forBreakE_attemptTxChecked_iff _ 0 hindex rfl).trans ?_
  simp only [Nat.zero_add, List.length_zipIdx, TxErrorBehaviour.txAttemptRateIter_length, Made,
    and_imp]

end Loop

/-! ## The retry counters -/

section Counters

variable {results : Nat → Except TxError Unit} {range : RangeInclusive} {i : Nat}
  {s : EdcaContentionState}

/-- The attempts before `i` without an ACK. -/
def ackTimeouts (results : Nat → Except TxError Unit) : Nat → Nat
  | 0 => 0
  | i + 1 =>
      match results i with
      | .error (.macProtocol .ackTimeout) => ackTimeouts results i + 1
      | _ => ackTimeouts results i

/-- The attempts before `i` with another error of the MAC protocol, after the last one
without an ACK. -/
def otherErrors (results : Nat → Except TxError Unit) : Nat → Nat
  | 0 => 0
  | i + 1 =>
      match results i with
      | .error (.macProtocol .ackTimeout) => 0
      | .error (.macProtocol _) => otherErrors results i + 1
      | _ => otherErrors results i

/-- What attempt `i` needs of the exponents and of the attempts before it. -/
def AttemptFits (results : Nat → Except TxError Unit) (range : RangeInclusive) (i : Nat) : Prop :=
  match results i with
  | .error (.macProtocol .ackTimeout) => ackTimeouts results i < 255 ∧ range.stop.toNat < 32
  | .error (.macProtocol _) => otherErrors results i < 255 ∧ range.stop.toNat < 32
  | _ => True

/-- The counters of the contention state before attempt `i`. -/
structure CountsAt (results : Nat → Except TxError Unit) (range : RangeInclusive) (i : Nat)
    (s : EdcaContentionState) : Prop where
  range_eq : s.contentionWindowExponentRange = range
  src_eq : s.shortRetryCount = BitVec.ofNat 8 (otherErrors results i)
  lrc_eq : s.longRetryCount = BitVec.ofNat 8 (ackTimeouts results i)

theorem CountsAt.succ (h : CountsAt results range i s) :
    ∃ t, contend (results i) (some s) = some t ∧ CountsAt results range (i + 1) t := by
  obtain ⟨hrange, hsrc, hlrc⟩ := h
  cases hres : results i with
  | ok u => exact ⟨s, rfl, hrange, by rw [otherErrors, hres, hsrc], by rw [ackTimeouts, hres, hlrc]⟩
  | error e =>
      cases e with
      | macProtocol e =>
          cases e with
          | ackTimeout =>
              refine ⟨_, rfl, hrange, by rw [otherErrors, hres]; rfl, ?_⟩
              rw [ackTimeouts, hres, BitVec.ofNat_add, ← hlrc]
              rfl
          | _ =>
              refine ⟨_, rfl, hrange, ?_, by rw [ackTimeouts, hres, ← hlrc]; rfl⟩
              rw [otherErrors, hres, BitVec.ofNat_add, ← hsrc]
              rfl
      | _ =>
          exact ⟨s, rfl, hrange, by rw [otherErrors, hres, hsrc], by rw [ackTimeouts, hres, hlrc]⟩

theorem contentionAt_counts (hnew : EdcaContentionState.new range = some s) (i : Nat) :
    ∃ t, contentionAt results (some s) i = some t ∧ CountsAt results range i t := by
  induction i with
  | zero =>
      rw [EdcaContentionState.new] at hnew
      split at hnew
      · cases hnew
      · cases hnew
        exact ⟨_, rfl, rfl, rfl, rfl⟩
  | succ i ih =>
      obtain ⟨t, ht, hcounts⟩ := ih
      rw [contentionAt, ht]
      exact hcounts.succ

theorem ofNat_ne_allOnes_iff {n : Nat} : BitVec.ofNat 8 n ≠ BitVec.allOnes 8 ↔ n % 256 ≠ 255 := by
  rw [Ne, ← BitVec.toNat_inj]
  simp

/-- As long as the counters did not wrap, they say which attempts fit. -/
theorem CountsAt.fits_iff (h : CountsAt results range i s) (hack : ackTimeouts results i ≤ 255)
    (hother : otherErrors results i ≤ 255) :
    ContentionFits (results i) (some s) ↔ AttemptFits results range i := by
  obtain ⟨rfl, hsrc, hlrc⟩ := h
  have hackFits : s.longRetryCount ≠ BitVec.allOnes 8 ↔ ackTimeouts results i < 255 := by
    rw [hlrc, ofNat_ne_allOnes_iff]
    omega
  have hotherFits : s.shortRetryCount ≠ BitVec.allOnes 8 ↔ otherErrors results i < 255 := by
    rw [hsrc, ofNat_ne_allOnes_iff]
    omega
  unfold ContentionFits AttemptFits
  cases results i with
  | ok u => exact Iff.rfl
  | error e =>
      cases e with
      | macProtocol e =>
          cases e with
          | ackTimeout => exact and_congr_left' hackFits
          | _ => exact and_congr_left' hotherFits
      | _ => exact Iff.rfl

theorem counts_le_succ (hack : ackTimeouts results i ≤ 255) (hother : otherErrors results i ≤ 255)
    (h : AttemptFits results range i) :
    ackTimeouts results (i + 1) ≤ 255 ∧ otherErrors results (i + 1) ≤ 255 := by
  unfold AttemptFits at h
  rw [ackTimeouts, otherErrors]
  cases hres : results i with
  | ok u => exact ⟨hack, hother⟩
  | error e =>
      rw [hres] at h
      cases e with
      | macProtocol e =>
          cases e with
          | ackTimeout => exact ⟨h.1, Nat.zero_le _⟩
          | _ => exact ⟨hack, h.1⟩
      | _ => exact ⟨hack, hother⟩

theorem Made.pred {n : Nat} (h : Made results n (i + 1)) : Made results n i :=
  ⟨Nat.lt_of_succ_lt h.1, fun j hj => h.2 j (Nat.lt_succ_of_lt hj)⟩

/-- The counters do not wrap in the attempts that are made, if those fit. -/
theorem Made.counts_le {n : Nat}
    (hfits : ∀ i, Made results n i → ackTimeouts results i ≤ 255 → otherErrors results i ≤ 255 →
      AttemptFits results range i)
    (h : Made results n i) : ackTimeouts results i ≤ 255 ∧ otherErrors results i ≤ 255 := by
  induction i with
  | zero => exact ⟨Nat.zero_le _, Nat.zero_le _⟩
  | succ i ih =>
      obtain ⟨hack, hother⟩ := ih h.pred
      exact counts_le_succ hack hother (hfits i h.pred hack hother)

theorem contentionAt_fits_iff (hnew : EdcaContentionState.new range = some s) (n : Nat) :
    (∀ i, Made results n i →
        ContentionFits (results i) (contentionAt results (some s) i)) ↔
      ∀ i, Made results n i → AttemptFits results range i := by
  have hiff (i : Nat) (hack : ackTimeouts results i ≤ 255) (hother : otherErrors results i ≤ 255) :
      ContentionFits (results i) (contentionAt results (some s) i) ↔
        AttemptFits results range i := by
    obtain ⟨t, ht, hcounts⟩ := contentionAt_counts hnew i
    rw [ht]
    exact hcounts.fits_iff hack hother
  constructor
  · intro h i hmade
    obtain ⟨hack, hother⟩ := hmade.counts_le fun j hj hack hother =>
      (hiff j hack hother).mp (h j hj)
    exact (hiff i hack hother).mp (h i hmade)
  · intro h i hmade
    obtain ⟨hack, hother⟩ := hmade.counts_le fun j hj _ _ => h j hj
    exact (hiff i hack hother).mpr (h i hmade)

theorem contentionAt_none (results : Nat → Except TxError Unit) (i : Nat) :
    contentionAt results none i = none := by
  induction i with
  | zero => rfl
  | succ i ih =>
      rw [contentionAt, ih, contend_none]

end Counters

/-- The retry loop has no arithmetic fault if and only if, on an EDCA queue with a range that
is not empty, the shifts by its ends are below 32 and the attempts keep the counters in a byte.
The end is used, and a counter is, only after an error of the MAC protocol. -/
theorem retryLoop_checked_iff (env : TxEnv) (req : TxRequest Rate) (mpduBuf : List Byte)
    (dmaDescriptor : DmaDescriptor) (extracted : ExtractedParameters) :
    retryLoopChecked env req mpduBuf dmaDescriptor extracted =
        .ok (retryLoop env req mpduBuf dmaDescriptor extracted) ↔
      ∀ range, req.queue.exponentRange req.macParameters.edcaParameters = some range →
        range.isEmpty = false →
          range.start.toNat < 32 ∧
            ∀ i, Made env.transmitRaw req.errorBehaviour.txAttempts i →
              AttemptFits env.transmitRaw range i := by
  rw [retryLoopChecked_ok_iff, contentionState_eq]
  cases req.queue.exponentRange req.macParameters.edcaParameters with
  | none =>
      simp only [Option.bind_none, contentionAt_none, contentionFits_none, reduceCtorEq,
        false_implies, implies_true, and_self]
  | some range =>
      simp only [Option.some.injEq, forall_eq', Option.bind_some]
      cases hempty : range.isEmpty with
      | true =>
          have hnew : EdcaContentionState.new range = none := by
            rw [EdcaContentionState.new, hempty, if_pos rfl]
          simp only [hnew, contentionAt_none, contentionFits_none, Bool.true_eq_false,
            false_implies, implies_true, and_self]
      | false =>
          obtain ⟨s, hnew⟩ : ∃ s, EdcaContentionState.new range = some s := by
            rw [EdcaContentionState.new, hempty, if_neg Bool.false_ne_true]
            exact ⟨_, rfl⟩
          rw [hnew, contentionAt_fits_iff hnew]
          simp only [forall_const]

/-- The 256 attempts of `RetryUntil(255)` without an ACK exceed the long retry count, and a
range that starts at 32 is not rejected before the shift. -/
theorem retry_until_255_overflows :
    let loop (req : TxRequest Nat) :=
      (retryLoopChecked (lossyChannel 256) req req.mpduBuf req.dmaDescriptor
        { duration := 0, isUnicast := true }).map fun _ => ()
    loop (dataRequest (.retryUntil 255)) = .error .overflow ∧
      loop { dataRequest (.retryUntil 0) with
        macParameters :=
          { edcaParameters := { contentionWindowExponentRange := some ⟨32, 40, false⟩ } } } =
        .error .shift := by
  decide +kernel

end EspWifiHal
