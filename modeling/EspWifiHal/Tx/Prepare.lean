import EspWifiHal.Tx.Params

/-!
# Preparing a frame

`prepare_frame_for_tx` reads the duration and the receiver of a frame, writes
the sequence number when asked to, and validates the key slot and the
interface.  It is called once for a transmission, before the first attempt.

`Preparation` lists what it can do.  The access to the receiver is not checked, so
a frame of four bytes is a panic (`prepareFrameForTx_total_iff`).
-/

namespace EspWifiHal

def interfaceCount : Nat := 4

def keySlotCount : Nat := 25

def validateInterface (interface : Nat) : Except TxError Unit :=
  if interface < interfaceCount then .ok () else .error .outOfBounds

/-- The checks of the key slot, which come before that of the interface. -/
def validateKeySlot (keySlotEnabled : Nat → Bool) : Option Byte → Except TxError Unit
  | none => .ok ()
  | some keySlotIndex =>
      if keySlotIndex.toNat < keySlotCount then
        if keySlotEnabled keySlotIndex.toNat then .ok () else .error .disabledKeySlot
      else .error .outOfBounds

/-- The checks that follow the sequence number. -/
def validate (keySlotEnabled : Nat → Bool) (interface : Nat) (mac : TxMacParameters)
    (extracted : ExtractedParameters) : Except TxError ExtractedParameters := do
  validateKeySlot keySlotEnabled mac.keySlotIndex
  validateInterface interface
  return extracted

/-- The bytes 22 and 23 receive `seq_num << 4` in little-endian order. -/
def numbered (seqNum : BitVec 16) (mpduBuf : List Byte) : List Byte :=
  (mpduBuf.set 22 ((seqNum <<< 4).extractLsb' 0 8)).set 23 ((seqNum <<< 4).extractLsb' 8 8)

def writeSeqNum (seqNum : BitVec 16) (mpduBuf : List Byte) : Option (List Byte) :=
  if 24 ≤ mpduBuf.length then some (numbered seqNum mpduBuf) else none

/-- What a preparation leaves behind. -/
structure Prepared where
  result : Except TxError ExtractedParameters
  /-- `CURRENT_SEQUENCE_NUMBER`. -/
  currentSequenceNumber : BitVec 16
  mpduBuf : List Byte

/-- `prepare_frame_for_tx`.  The value `none` is the panic of `mpdu_buf[4]`. -/
def prepareFrameForTx (keySlotEnabled : Nat → Bool) (interface : Nat) (mac : TxMacParameters)
    (seqNum : BitVec 16) (mpduBuf : List Byte) : Option Prepared :=
  match (mpduBuf[2]? : Option Byte), (mpduBuf[3]? : Option Byte) with
  | some low, some high =>
      match (mpduBuf[4]? : Option Byte) with
      | none => none
      | some receiver =>
          let extracted : ExtractedParameters :=
            { duration := high ++ low, isUnicast := receiver &&& 1 == 0 }
          let result := validate keySlotEnabled interface mac extracted
          if mac.overrideSeqNum then
            match writeSeqNum seqNum mpduBuf with
            | some mpduBuf => some ⟨result, seqNum + 1, mpduBuf⟩
            | none => some ⟨.error .bufferTooShort, seqNum + 1, mpduBuf⟩
          else some ⟨result, seqNum, mpduBuf⟩
  | _, _ => some ⟨.error .bufferTooShort, seqNum, mpduBuf⟩

/-- `prepare_dma_descriptor_for_tx`.  Four bytes are added for the FCS. -/
def prepareDmaDescriptorForTx (mpduPtr : Addr) (mpduBuf : List Byte) (d : DmaDescriptor) :
    DmaDescriptor :=
  let frameLength := mpduBuf.length + 4
  { (((d.setSize frameLength).setLength frameLength).setOwner .dma).setSucEof true with
    buffer := some mpduPtr }

/-! ## What a preparation does -/

section Preparation

variable (keySlotEnabled : Nat → Bool) (interface : Nat) (mac : TxMacParameters)
  (seqNum : BitVec 16) (mpduBuf : List Byte)

inductive Preparation : Option Prepared → Prop where
  /-- The duration is missing. -/
  | noDuration (hlen : mpduBuf.length < 4) :
      Preparation (some ⟨.error .bufferTooShort, seqNum, mpduBuf⟩)
  /-- The receiver is missing. -/
  | panic (hlen : mpduBuf.length = 4) : Preparation none
  /-- There is no room for the sequence number, which is used up. -/
  | noSequence (hlen : 5 ≤ mpduBuf.length) (hoverride : mac.overrideSeqNum = true)
      (hshort : mpduBuf.length < 24) :
      Preparation (some ⟨.error .bufferTooShort, seqNum + 1, mpduBuf⟩)
  | numbered (hlen : 24 ≤ mpduBuf.length) (hoverride : mac.overrideSeqNum = true)
      (extracted : ExtractedParameters) :
      Preparation (some ⟨validate keySlotEnabled interface mac extracted, seqNum + 1,
        numbered seqNum mpduBuf⟩)
  | plain (hlen : 5 ≤ mpduBuf.length) (hkeep : mac.overrideSeqNum = false)
      (extracted : ExtractedParameters) :
      Preparation (some ⟨validate keySlotEnabled interface mac extracted, seqNum, mpduBuf⟩)

theorem preparation : Preparation keySlotEnabled interface mac seqNum mpduBuf
    (prepareFrameForTx keySlotEnabled interface mac seqNum mpduBuf) := by
  have hsome : ∀ {k}, k < mpduBuf.length → ∃ b, mpduBuf[k]? = some b :=
    fun hk => ⟨_, List.getElem?_eq_getElem hk⟩
  rcases Nat.lt_or_ge mpduBuf.length 4 with hlt | hge
  · have hprepare : prepareFrameForTx keySlotEnabled interface mac seqNum mpduBuf =
        some ⟨.error .bufferTooShort, seqNum, mpduBuf⟩ := by
      simp [prepareFrameForTx, List.getElem?_eq_none (show mpduBuf.length ≤ 3 by omega)]
    rw [hprepare]
    exact .noDuration hlt
  obtain ⟨low, hlow⟩ := hsome (show 2 < mpduBuf.length by omega)
  obtain ⟨high, hhigh⟩ := hsome (show 3 < mpduBuf.length by omega)
  rcases Nat.eq_or_lt_of_le hge with hfour | hfive
  · have hpanic : prepareFrameForTx keySlotEnabled interface mac seqNum mpduBuf = none := by
      simp [prepareFrameForTx, hlow, hhigh,
        List.getElem?_eq_none (show mpduBuf.length ≤ 4 by omega)]
    rw [hpanic]
    exact .panic hfour.symm
  obtain ⟨receiver, hreceiver⟩ := hsome hfive
  cases hoverride : mac.overrideSeqNum with
  | false =>
      simp only [prepareFrameForTx, hlow, hhigh, hreceiver, hoverride]
      exact .plain hfive hoverride { duration := high ++ low, isUnicast := receiver &&& 1 == 0 }
  | true =>
      simp only [prepareFrameForTx, hlow, hhigh, hreceiver, hoverride, writeSeqNum]
      by_cases hlen : 24 ≤ mpduBuf.length
      · simp only [hlen, if_true]
        exact .numbered hlen hoverride
          { duration := high ++ low, isUnicast := receiver &&& 1 == 0 }
      · simp only [hlen, if_true, if_false]
        exact .noSequence hfive hoverride (Nat.lt_of_not_le hlen)

end Preparation

/-! ## The frame -/

section Frame

variable {seqNum : BitVec 16} {mpduBuf : List Byte}

theorem numbered_length : (numbered seqNum mpduBuf).length = mpduBuf.length := by
  rw [numbered, List.length_set, List.length_set]

theorem numbered_getElem? {k : Nat} (hk : k < 22) :
    (numbered seqNum mpduBuf)[k]? = mpduBuf[k]? := by
  rw [numbered, List.getElem?_set_ne (by omega), List.getElem?_set_ne (by omega)]

end Frame

section Result

variable {keySlotEnabled : Nat → Bool} {interface : Nat} {mac : TxMacParameters}
  {seqNum : BitVec 16} {mpduBuf : List Byte} {p : Prepared} {extracted : ExtractedParameters}

/-- A frame that passes has a receiver, its first bytes are not touched, and one
sequence number is used if the driver assigns them. -/
theorem prepareFrameForTx_ok
    (h : prepareFrameForTx keySlotEnabled interface mac seqNum mpduBuf = some p)
    (hok : p.result = .ok extracted) :
    5 ≤ mpduBuf.length ∧ p.mpduBuf.length = mpduBuf.length ∧
      (∀ k, k < 22 → p.mpduBuf[k]? = mpduBuf[k]?) ∧
      p.currentSequenceNumber = if mac.overrideSeqNum then seqNum + 1 else seqNum := by
  have hcases := preparation keySlotEnabled interface mac seqNum mpduBuf
  rw [h] at hcases
  cases hcases with
  | noDuration => cases hok
  | noSequence => cases hok
  | numbered hlen hoverride =>
      exact ⟨by omega, numbered_length, fun _ => numbered_getElem?, (if_pos hoverride).symm⟩
  | plain hlen hkeep =>
      refine ⟨hlen, rfl, fun _ _ => rfl, ?_⟩
      rw [hkeep]
      rfl

end Result

/-! ## What is accepted -/

/-- The interface exists, and so does the key slot, which is enabled. -/
def Admissible (keySlotEnabled : Nat → Bool) (interface : Nat) (mac : TxMacParameters) : Prop :=
  interface < interfaceCount ∧
    ∀ keySlotIndex, mac.keySlotIndex = some keySlotIndex →
      keySlotIndex.toNat < keySlotCount ∧ keySlotEnabled keySlotIndex.toNat = true

/-- The frame has a receiver, and a sequence number if one is to be written. -/
def LongEnough (mac : TxMacParameters) (mpduBuf : List Byte) : Prop :=
  5 ≤ mpduBuf.length ∧ (mac.overrideSeqNum = true → 24 ≤ mpduBuf.length)

theorem validateKeySlot_ok_iff {keySlotEnabled : Nat → Bool} {keySlotIndex : Option Byte} :
    validateKeySlot keySlotEnabled keySlotIndex = .ok () ↔
      ∀ k, keySlotIndex = some k → k.toNat < keySlotCount ∧ keySlotEnabled k.toNat = true := by
  cases keySlotIndex with
  | none => exact iff_of_true rfl nofun
  | some k =>
      simp only [validateKeySlot, Option.some.injEq, forall_eq']
      by_cases hlt : k.toNat < keySlotCount
      · cases henabled : keySlotEnabled k.toNat <;> simp [hlt]
      · simp [hlt]

theorem validateKeySlot_error {keySlotEnabled : Nat → Bool} {keySlotIndex : Option Byte}
    {e : TxError} (h : validateKeySlot keySlotEnabled keySlotIndex = .error e) :
    e = .outOfBounds ∨ e = .disabledKeySlot := by
  cases keySlotIndex with
  | none => cases h
  | some k =>
      rw [validateKeySlot] at h
      split at h
      · split at h
        · cases h
        · cases h
          exact .inr rfl
      · cases h
        exact .inl rfl

theorem validateInterface_ok_iff {interface : Nat} :
    validateInterface interface = .ok () ↔ interface < interfaceCount := by
  rw [validateInterface]
  split <;> simp_all

theorem validateInterface_error {interface : Nat} {e : TxError}
    (h : validateInterface interface = .error e) : e = .outOfBounds := by
  rw [validateInterface] at h
  split at h
  · cases h
  · cases h
    rfl

section Validate

variable {keySlotEnabled : Nat → Bool} {interface : Nat} {mac : TxMacParameters}
  {extracted : ExtractedParameters}

/-- The two checks in their order. -/
theorem validate_ok_iff :
    (∃ e, validate keySlotEnabled interface mac extracted = .ok e) ↔
      Admissible keySlotEnabled interface mac := by
  rw [Admissible, ← validateInterface_ok_iff, ← validateKeySlot_ok_iff, validate]
  cases validateKeySlot keySlotEnabled mac.keySlotIndex with
  | error e => simp [bind, Except.bind]
  | ok u =>
      cases validateInterface interface with
      | error e => simp [bind, Except.bind]
      | ok u => simp [bind, Except.bind, pure, Except.pure]

/-- The checks only have errors of their own. -/
theorem validate_error {e : TxError}
    (h : validate keySlotEnabled interface mac extracted = .error e) :
    e = .outOfBounds ∨ e = .disabledKeySlot := by
  rw [validate] at h
  cases hkey : validateKeySlot keySlotEnabled mac.keySlotIndex with
  | error e' =>
      rw [hkey] at h
      cases h
      exact validateKeySlot_error hkey
  | ok u =>
      cases hinterface : validateInterface interface with
      | error e' =>
          rw [hkey, hinterface] at h
          cases h
          exact .inl (validateInterface_error hinterface)
      | ok u =>
          rw [hkey, hinterface] at h
          cases h

end Validate

/-- The preparation panics for a frame of four bytes and for no other one.  It accepts
a frame that is long enough for the interface and the key slot of the request. -/
theorem prepareFrameForTx_spec (keySlotEnabled : Nat → Bool) (interface : Nat)
    (mac : TxMacParameters) (seqNum : BitVec 16) (mpduBuf : List Byte) :
    (mpduBuf.length = 4 ∧ prepareFrameForTx keySlotEnabled interface mac seqNum mpduBuf = none) ∨
      mpduBuf.length ≠ 4 ∧
        ∃ p, prepareFrameForTx keySlotEnabled interface mac seqNum mpduBuf = some p ∧
          p.mpduBuf.length = mpduBuf.length ∧
          ((∃ extracted, p.result = .ok extracted) ↔
            LongEnough mac mpduBuf ∧ Admissible keySlotEnabled interface mac) := by
  have hcases := preparation keySlotEnabled interface mac seqNum mpduBuf
  generalize prepareFrameForTx keySlotEnabled interface mac seqNum mpduBuf = prepared at hcases ⊢
  cases hcases with
  | noDuration hlen =>
      refine .inr ⟨by omega, _, rfl, rfl, iff_of_false nofun ?_⟩
      rintro ⟨⟨hlong, _⟩, _⟩
      omega
  | panic hlen => exact .inl ⟨hlen, rfl⟩
  | noSequence hlen hoverride hshort =>
      refine .inr ⟨by omega, _, rfl, rfl, iff_of_false nofun ?_⟩
      rintro ⟨⟨_, hlong⟩, _⟩
      exact absurd (hlong hoverride) (Nat.not_le.mpr hshort)
  | numbered hlen hoverride extracted =>
      refine .inr ⟨by omega, _, rfl, numbered_length, validate_ok_iff.trans ?_⟩
      exact (and_iff_right ⟨by omega, fun _ => hlen⟩).symm
  | plain hlen hkeep extracted =>
      refine .inr ⟨by omega, _, rfl, rfl, validate_ok_iff.trans ?_⟩
      exact (and_iff_right ⟨hlen, fun h => absurd (h.symm.trans hkeep) (by decide)⟩).symm

/-- The errors of a preparation are about the length, the interface or the key slot. -/
theorem prepareFrameForTx_error {keySlotEnabled : Nat → Bool} {interface : Nat}
    {mac : TxMacParameters} {seqNum : BitVec 16} {mpduBuf : List Byte} {p : Prepared} {e : TxError}
    (h : prepareFrameForTx keySlotEnabled interface mac seqNum mpduBuf = some p)
    (he : p.result = .error e) :
    e = .bufferTooShort ∨ e = .outOfBounds ∨ e = .disabledKeySlot := by
  have hcases := preparation keySlotEnabled interface mac seqNum mpduBuf
  rw [h] at hcases
  cases hcases with
  | noDuration =>
      cases he
      exact .inl rfl
  | noSequence =>
      cases he
      exact .inl rfl
  | numbered => exact .inr (validate_error he)
  | plain => exact .inr (validate_error he)

/-- The preparation ends, and reports a frame that cannot hold the fields it reads and
writes, if and only if the frame does not have four bytes. -/
theorem prepareFrameForTx_total_iff (keySlotEnabled : Nat → Bool) (interface : Nat)
    (mac : TxMacParameters) (seqNum : BitVec 16) (mpduBuf : List Byte) :
    (∃ p, prepareFrameForTx keySlotEnabled interface mac seqNum mpduBuf = some p ∧
        (p.result = .error .bufferTooShort ↔
          mpduBuf.length < 5 ∨ mac.overrideSeqNum = true ∧ mpduBuf.length < 24)) ↔
      mpduBuf.length ≠ 4 := by
  have hvalidate : ∀ extracted,
      validate keySlotEnabled interface mac extracted ≠ .error .bufferTooShort := by
    intro extracted h
    rcases validate_error h with he | he <;> cases he
  have hcases := preparation keySlotEnabled interface mac seqNum mpduBuf
  generalize prepareFrameForTx keySlotEnabled interface mac seqNum mpduBuf = prepared at hcases ⊢
  cases hcases with
  | noDuration hlen =>
      exact iff_of_true ⟨_, rfl, iff_of_true rfl (.inl (by omega))⟩ (by omega)
  | panic hlen =>
      refine iff_of_false ?_ (not_not.mpr hlen)
      rintro ⟨p, hp, _⟩
      cases hp
  | noSequence hlen hoverride hshort =>
      exact iff_of_true ⟨_, rfl, iff_of_true rfl (.inr ⟨hoverride, hshort⟩)⟩ (by omega)
  | numbered hlen hoverride extracted =>
      exact iff_of_true ⟨_, rfl, iff_of_false (hvalidate extracted) (by omega)⟩ (by omega)
  | plain hlen hkeep extracted =>
      refine iff_of_true ⟨_, rfl, iff_of_false (hvalidate extracted) ?_⟩ (by omega)
      rintro (hshort | ⟨hoverride, _⟩)
      · omega
      · rw [hkeep] at hoverride
        cases hoverride

/-- A frame with a duration and no receiver, such as the first four bytes of an ACK. -/
theorem four_bytes_panic : prepareFrameForTx (fun _ => false) 0 {} 0 [0xd4, 0, 0, 0] = none :=
  rfl

end EspWifiHal
