import EspWifiHal.Tx.Oneshot

/-!
# The length of a frame on its way to the hardware

The length with the FCS stands in the DMA descriptor, in PLCP1 and for HT rates in
HT-SIG.  The last two are taken from the descriptor, whose field has twelve bits, so the
three always agree.  They are the length of the frame if it fits the field; nothing
rejects a longer frame (`lengths_agree_iff`).
-/

namespace EspWifiHal

open Register

/-! ## The fields -/

/-- Bits 0 to 11 of PLCP1. -/
def plcp1Length (word : BitVec 32) : Nat := word.toNat % 2 ^ 12

/-- Bits 8 to 23 of HT-SIG. -/
def htSigLength (word : BitVec 32) : Nat := word.toNat / 2 ^ 8 % 2 ^ 16

theorem plcp1Length_plcp1 (rate : TxPhyRate) (frameLength : Nat) (keySlot : Option Byte) :
    plcp1Length (plcp1 rate frameLength keySlot) = frameLength % 2 ^ 12 := by
  rw [plcp1Length, toNat_plcp1]
  omega

theorem toNat_htSig (rate : HtRate) (length : Nat) :
    (htSig rate.mcsIndex rate.shortGi length).toNat =
      rate.mcsIndex.toNat + length % 2 ^ 16 * 2 ^ 8 + 7 * 2 ^ 24 + rate.shortGi.toNat * 2 ^ 31 := by
  have hle := rate.toNat_le
  have hmcs : (rate.mcsIndex.setWidth 32).toNat = rate.mcsIndex.toNat := by
    rw [BitVec.toNat_setWidth]
    omega
  have hlen : (BitVec.ofNat 32 length &&& 0xffff#32).toNat = length % 2 ^ 16 := by
    rw [toNat_and_mask 16 rfl, BitVec.toNat_ofNat]
    omega
  have hseven : (0x07000000#32 : BitVec 32) = 7#32 <<< 24 := rfl
  have hshort : (ofBool rate.shortGi : BitVec 32).toNat = rate.shortGi.toNat :=
    toNat_ofBool (by decide) _
  have hshortLe := rate.shortGi.toNat_le
  have htwo : (rate.mcsIndex.setWidth 32 ||| (BitVec.ofNat 32 length &&& 0xffff#32) <<< 8).toNat =
      rate.mcsIndex.toNat + length % 2 ^ 16 * 2 ^ 8 := by
    rw [toNat_or_shiftLeft (by omega) (by omega), hmcs, hlen]
  have hthree : (rate.mcsIndex.setWidth 32 ||| (BitVec.ofNat 32 length &&& 0xffff#32) <<< 8 |||
      0x07000000#32).toNat = rate.mcsIndex.toNat + length % 2 ^ 16 * 2 ^ 8 + 7 * 2 ^ 24 := by
    rw [hseven, toNat_or_shiftLeft (by omega) (by decide), htwo]
    rfl
  rw [htSig, toNat_or_shiftLeft (by omega) (by omega), hthree, hshort]

theorem htSigLength_htSig (rate : HtRate) (length : Nat) :
    htSigLength (htSig rate.mcsIndex rate.shortGi length) = length % 2 ^ 16 := by
  have hle := rate.toNat_le
  rw [htSigLength, toNat_htSig]
  omega

/-! ## The lengths of a call -/

/-- The descriptor, and the registers after `setup_tx` whatever they were before, have
the length `n`. -/
structure RawCall.LengthsAre (c : RawCall) (n : Nat) : Prop where
  descriptor : c.dmaDescriptor.len = n
  plcp1 : ∀ extracted edca r, c.fallibleParams = .ok (extracted, edca) →
    plcp1Length ((c.setupTx extracted).foldl TxSlotRegs.write r).plcp1 = n
  htSig : ∀ extracted edca r, c.fallibleParams = .ok (extracted, edca) → c.rate.isHt = true →
    htSigLength ((c.setupTx extracted).foldl TxSlotRegs.write r).htSig = n

/-- PLCP1 and HT-SIG have the length of the descriptor. -/
theorem RawCall.lengthsAre_iff {c : RawCall} {n : Nat} :
    c.LengthsAre n ↔ c.dmaDescriptor.len = n := by
  refine ⟨LengthsAre.descriptor, fun hlen => ?_⟩
  have hlt : c.dmaDescriptor.len < 2 ^ 12 := c.dmaDescriptor.flags.length.isLt
  refine ⟨hlen, fun extracted edca r _ => ?_, fun extracted edca r _ hht => ?_⟩
  · have hplcp1 : ((c.setupTx extracted).foldl TxSlotRegs.write r).plcp1 =
        EspWifiHal.plcp1 c.rate c.dmaDescriptor.len c.macParameters.keySlotIndex := by
      cases hrts : c.rtsEnabled extracted <;> cases hrate : c.rate <;>
        simp [setupTx, htParameters, TxSlotRegs.write, hrts, hrate]
    rw [hplcp1, plcp1Length_plcp1]
    omega
  · cases hrate : c.rate with
    | ht rate =>
        have hsig : ((c.setupTx extracted).foldl TxSlotRegs.write r).htSig =
            EspWifiHal.htSig rate.mcsIndex rate.shortGi c.dmaDescriptor.len := by
          cases hrts : c.rtsEnabled extracted <;>
            simp [setupTx, htParameters, TxSlotRegs.write, hrts, hrate]
        rw [hsig, htSigLength_htSig]
        omega
    | _ =>
        rw [hrate] at hht
        cases hht

/-- The call of `transmit_raw` that an attempt is. -/
def TxRequest.rawCall (req : TxRequest TxPhyRate) (dmaAddr : BitVec 32) (a : Attempt TxPhyRate) :
    RawCall :=
  { interface := req.interface
    rate := a.rate
    macParameters := req.macParameters
    dmaAddr
    dmaDescriptor := a.dmaDescriptor
    fallibleParams := .ok (a.extracted, a.edca) }

theorem prepareDmaDescriptorForTx_len (mpduPtr : Addr) (mpduBuf : List Byte) (d : DmaDescriptor) :
    (prepareDmaDescriptorForTx mpduPtr mpduBuf d).len = (mpduBuf.length + 4) % 2 ^ 12 := rfl

/-- All attempts of a call use the descriptor of its frame. -/
theorem transmitWithRetry_dmaDescriptor {Rate : Type} {env : TxEnv} {seqNum : BitVec 16}
    {req : TxRequest Rate} {p : Prepared} {extracted : ExtractedParameters} {run : TxRun Rate}
    (hp : prepareFrameForTx env.keySlotEnabled req.interface req.macParameters seqNum req.mpduBuf =
      some p) (hok : p.result = .ok extracted)
    (hrun : transmitWithRetry env seqNum req = some run) :
    ∀ a ∈ run.attempts,
      a.dmaDescriptor = prepareDmaDescriptorForTx req.mpduPtr p.mpduBuf req.dmaDescriptor := by
  rw [transmitWithRetry, hp, Option.map_some, hok] at hrun
  cases hrun
  intro a ha
  obtain ⟨event, hevent, hattempt⟩ := List.mem_filterMap.mp ha
  obtain rfl : event = .attempt a := by
    cases event with
    | prepare => cases hattempt
    | attempt b => rw [Option.some.inj hattempt]
  refine Loop.forBreak_inv _ (fun s : RetryState Rate => ∀ a, TxEvent.attempt a ∈ s.events →
    a.dmaDescriptor = prepareDmaDescriptorForTx req.mpduPtr p.mpduBuf req.dmaDescriptor)
    (fun item s hs a ha => ?_) _ (fun a ha => ?_) a hevent
  · rcases List.mem_append.mp ha with ha | ha
    · exact hs a ha
    · cases List.mem_singleton.mp ha
      rfl
  · cases List.mem_singleton.mp ha

/-! ## Both paths -/

/-- The lengths of a list of attempts, as the hardware gets them. -/
def TxRequest.LengthsAgree (req : TxRequest TxPhyRate) (dmaAddr : BitVec 32)
    (attempts : List (Attempt TxPhyRate)) : Prop :=
  ∀ a ∈ attempts, (req.rawCall dmaAddr a).LengthsAre (req.mpduBuf.length + 4)

/-- With one attempt or more the lengths agree if and only if the frame fits twelve
bits. -/
theorem TxRequest.lengthsAgree_iff {req : TxRequest TxPhyRate} (dmaAddr : BitVec 32)
    {mpduBuf : List Byte} {attempts : List (Attempt TxPhyRate)}
    (hsame : mpduBuf.length = req.mpduBuf.length) (hne : attempts ≠ [])
    (hdescriptor : ∀ a ∈ attempts,
      a.dmaDescriptor = prepareDmaDescriptorForTx req.mpduPtr mpduBuf req.dmaDescriptor) :
    req.LengthsAgree dmaAddr attempts ↔ req.mpduBuf.length + 4 < 4096 := by
  have hlen : ∀ a ∈ attempts, (req.rawCall dmaAddr a).dmaDescriptor.len =
      (req.mpduBuf.length + 4) % 4096 := by
    intro a ha
    have hprepared := prepareDmaDescriptorForTx_len req.mpduPtr mpduBuf req.dmaDescriptor
    rw [← hdescriptor a ha, hsame] at hprepared
    exact hprepared
  constructor
  · intro h
    obtain ⟨a, ha⟩ := List.exists_mem_of_ne_nil attempts hne
    have heq := (hlen a ha).symm.trans (h a ha).descriptor
    omega
  · intro h a ha
    refine RawCall.lengthsAre_iff.mpr ?_
    rw [hlen a ha]
    omega

theorem txAttempts_eq_zero_iff {Rate : Type} (b : TxErrorBehaviour Rate) :
    b.txAttempts = 0 ↔ b = .multiRateRetry [] := by
  cases b with
  | multiRateRetry rates => simp [TxErrorBehaviour.txAttempts]
  | _ => simp [TxErrorBehaviour.txAttempts]

/-- A long frame is only rejected for its interface or its key slot. -/
theorem fits_or_not_admissible {env : TxEnv} {req : TxRequest TxPhyRate} {p : Prepared}
    (haccept : (∃ extracted, p.result = .ok extracted) ↔ LongEnough req.macParameters req.mpduBuf ∧
      Admissible env.keySlotEnabled req.interface req.macParameters)
    {e : TxError} (he : p.result = .error e) :
    req.mpduBuf.length + 4 < 4096 ∨
      ¬Admissible env.keySlotEnabled req.interface req.macParameters := by
  by_contra hnot
  rw [not_or, not_not] at hnot
  obtain ⟨extracted, hok⟩ := haccept.mpr ⟨⟨by omega, fun _ => by omega⟩, hnot.2⟩
  rw [he] at hok
  cases hok

theorem transmitWithRetry_lengths_iff (env : TxEnv) (seqNum : BitVec 16) (dmaAddr : BitVec 32)
    (req : TxRequest TxPhyRate) :
    (∃ run, transmitWithRetry env seqNum req = some run ∧
        ((∃ e, run.Rejects e) ∨ req.LengthsAgree dmaAddr run.attempts)) ↔
      req.mpduBuf.length ≠ 4 ∧ (req.mpduBuf.length + 4 < 4096 ∨
        ¬Admissible env.keySlotEnabled req.interface req.macParameters ∨
        req.errorBehaviour = .multiRateRetry []) := by
  rcases prepareFrameForTx_spec env.keySlotEnabled req.interface req.macParameters seqNum
    req.mpduBuf with ⟨hfour, hp⟩ | ⟨hlen, p, hp, hsame, haccept⟩
  · refine iff_of_false ?_ fun h => h.1 hfour
    rintro ⟨run, hrun, _⟩
    rw [transmitWithRetry, hp] at hrun
    cases hrun
  cases hresult : p.result with
  | error e =>
      obtain ⟨run, hrun, hrejects⟩ := transmitWithRetry_error hp hresult
      have hfits := fits_or_not_admissible haccept hresult
      exact iff_of_true ⟨run, hrun, .inl ⟨e, hrejects⟩⟩ ⟨hlen, hfits.imp_right .inl⟩
  | ok extracted =>
      have hadmissible := (haccept.mp ⟨extracted, hresult⟩).2
      obtain ⟨run, hrun, htrace, _⟩ := transmitWithRetry_ok hp hresult
      have hdescriptor := transmitWithRetry_dmaDescriptor hp hresult hrun
      rcases Nat.eq_zero_or_pos req.errorBehaviour.txAttempts with hzero | hpos
      · -- nothing is transmitted without a rate
        have hnone : run.attempts = [] := List.length_eq_zero_iff.mp
          (Nat.le_zero.mp (hzero ▸ htrace.count.le))
        refine iff_of_true ⟨run, hrun, .inr ?_⟩
          ⟨hlen, .inr (.inr ((txAttempts_eq_zero_iff _).mp hzero))⟩
        rw [hnone]
        exact fun a ha => absurd ha List.not_mem_nil
      · have hne : run.attempts ≠ [] := List.ne_nil_of_length_pos (htrace.count.pos hpos)
        have hagree := TxRequest.lengthsAgree_iff dmaAddr hsame hne hdescriptor
        have hnone : ¬∃ e, run.Rejects e := not_exists.mpr (TxRun.not_rejects_of_attempts hne)
        simp only [hrun, Option.some.injEq, exists_eq_left', or_iff_right hnone, hagree]
        refine ⟨fun hfits => ⟨hlen, .inl hfits⟩, ?_⟩
        rintro ⟨_, hfits | hnot | hempty⟩
        · exact hfits
        · exact absurd hadmissible hnot
        · rw [(txAttempts_eq_zero_iff _).mpr hempty] at hpos
          exact absurd hpos (Nat.lt_irrefl 0)

theorem transmitOneshot_lengths_iff (env : TxEnv) (seqNum : BitVec 16) (dmaAddr : BitVec 32)
    (req : TxRequest TxPhyRate) :
    (∃ run, transmitOneshot env seqNum req = some run ∧
        ((∃ e, run.Rejects e) ∨ req.LengthsAgree dmaAddr run.attempts)) ↔
      req.mpduBuf.length ≠ 4 ∧ (req.mpduBuf.length + 4 < 4096 ∨
        ¬Admissible env.keySlotEnabled req.interface req.macParameters ∨ req.EmptyRange) := by
  rcases prepareFrameForTx_spec env.keySlotEnabled req.interface req.macParameters seqNum
    req.mpduBuf with ⟨hfour, hp⟩ | ⟨hlen, p, hp, hsame, haccept⟩
  · refine iff_of_false ?_ fun h => h.1 hfour
    rintro ⟨run, hrun, _⟩
    rw [transmitOneshot, hp] at hrun
    cases hrun
  by_cases hempty : req.EmptyRange
  · obtain ⟨run, hrun, hrejects⟩ := transmitOneshot_empty hp hempty
    exact iff_of_true ⟨run, hrun, .inl ⟨_, hrejects⟩⟩ ⟨hlen, .inr (.inr hempty)⟩
  cases hresult : p.result with
  | error e =>
      obtain ⟨run, hrun, hrejects⟩ := transmitOneshot_error hp hempty hresult
      have hfits := fits_or_not_admissible haccept hresult
      exact iff_of_true ⟨run, hrun, .inl ⟨e, hrejects⟩⟩ ⟨hlen, hfits.imp_right .inl⟩
  | ok extracted =>
      have hadmissible := (haccept.mp ⟨extracted, hresult⟩).2
      obtain ⟨run, a, hrun, hattempts, ha, hnot⟩ := transmitOneshot_ok hp hempty hresult
      have hdescriptor : ∀ b ∈ run.attempts, b.dmaDescriptor =
          prepareDmaDescriptorForTx req.mpduPtr p.mpduBuf req.dmaDescriptor := by
        intro b hb
        rw [hattempts] at hb
        rw [List.mem_singleton.mp hb, ha]
      have hne : run.attempts ≠ [] := by
        rw [hattempts]
        exact List.cons_ne_nil a []
      have hagree := TxRequest.lengthsAgree_iff dmaAddr hsame hne hdescriptor
      have hnone : ¬∃ e, run.Rejects e := not_exists.mpr hnot
      simp only [hrun, Option.some.injEq, exists_eq_left', or_iff_right hnone, hagree]
      refine ⟨fun hfits => ⟨hlen, .inl hfits⟩, ?_⟩
      rintro ⟨_, hfits | hinadmissible | hrange⟩
      · exact hfits
      · exact absurd hadmissible hinadmissible
      · exact absurd hrange hempty

/-- Each path rejects the request before a start or starts with lengths that agree, if
and only if the frame does not have four bytes and is short enough for the field, unless
the path starts nothing: the interface or the key slot is not admissible, there are no
rates for a retry, or the contention window is empty. -/
theorem lengths_agree_iff (env : TxEnv) (seqNum : BitVec 16) (dmaAddr : BitVec 32)
    (req : TxRequest TxPhyRate) :
    ((∃ run, transmitWithRetry env seqNum req = some run ∧
        ((∃ e, run.Rejects e) ∨ req.LengthsAgree dmaAddr run.attempts)) ↔
      req.mpduBuf.length ≠ 4 ∧ (req.mpduBuf.length + 4 < 4096 ∨
        ¬Admissible env.keySlotEnabled req.interface req.macParameters ∨
        req.errorBehaviour = .multiRateRetry [])) ∧
    ((∃ run, transmitOneshot env seqNum req = some run ∧
        ((∃ e, run.Rejects e) ∨ req.LengthsAgree dmaAddr run.attempts)) ↔
      req.mpduBuf.length ≠ 4 ∧ (req.mpduBuf.length + 4 < 4096 ∨
        ¬Admissible env.keySlotEnabled req.interface req.macParameters ∨ req.EmptyRange)) :=
  ⟨transmitWithRetry_lengths_iff env seqNum dmaAddr req,
    transmitOneshot_lengths_iff env seqNum dmaAddr req⟩

/-- A frame of 4092 bytes on the beacon queue. -/
def longRequest : TxRequest TxPhyRate :=
  { interface := 0
    rate := .ht ⟨7, false, false, HtRate.highest⟩
    macParameters := {}
    errorBehaviour := .drop
    queue := .beacon
    dmaDescriptor := .empty
    mpduPtr := 0x3fc90000
    mpduBuf := List.replicate 4092 0 }

/-- A frame of 4092 bytes is started with the length zero. -/
theorem long_frame_has_length_zero :
    longRequest.mpduBuf.length + 4 = 4096 ∧
      ∃ run a, transmitOneshot (lossyChannel 0) 0 longRequest = some run ∧ run.attempts = [a] ∧
        a.dmaDescriptor.len = 0 ∧ ∀ e, ¬run.Rejects e := by
  have hlen : longRequest.mpduBuf.length = 4092 := List.length_replicate
  refine ⟨by rw [hlen], ?_⟩
  rcases prepareFrameForTx_spec (lossyChannel 0).keySlotEnabled longRequest.interface
    longRequest.macParameters 0 longRequest.mpduBuf with ⟨hfour, _⟩ | ⟨_, p, hp, hsame, haccept⟩
  · rw [hlen] at hfour
    cases hfour
  obtain ⟨extracted, hok⟩ := haccept.mpr
    ⟨⟨by rw [hlen]; decide, nofun⟩, by decide, nofun⟩
  have hrange : ¬longRequest.EmptyRange := by
    rintro ⟨category, range, hqueue, _⟩
    cases hqueue
  obtain ⟨run, a, hrun, hattempts, ha, hnot⟩ := transmitOneshot_ok hp hrange hok
  refine ⟨run, a, hrun, hattempts, ?_, hnot⟩
  rw [ha, prepareDmaDescriptorForTx_len, hsame, hlen]
  rfl

end EspWifiHal
