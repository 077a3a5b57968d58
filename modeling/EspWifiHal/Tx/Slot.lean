import EspWifiHal.Tx.Completion
import EspWifiHal.Tx.Rates
import Mathlib.Tactic.IntervalCases

/-!
# The registers of a transmit slot

`transmit_raw` on the ESP32-S3 and the ESP32-C3 as a sequence of register writes.
The interrupt handler can come between any two of them.  PLCP0 and PLCP2 are changed
by read-modify-write and the RTS bit is only ever set.  The registers carry no history
all the same: the drop guard resets PLCP0 at every end of a call, and all writers of
PLCP2 agree on the bits outside its two fields (`slot_carries_no_history`).
-/

namespace EspWifiHal

open Register

/-! ## Registers -/

/-- The registers of one slot without that of the channel access, which `setup_tx` only writes.
PLCP0 is given by its fields, which the PAC keeps apart from the RTS bit `0x0800_0000`. -/
structure TxSlotRegs where
  dmaAddr : BitVec 32
  waitForAck : Bool
  rts : Bool
  slotValid : Bool
  slotEnabled : Bool
  /-- The other bits of PLCP0. -/
  plcp0Other : BitVec 32
  plcp1 : BitVec 32
  plcp2 : BitVec 32
  duration : BitVec 32
  htSig : BitVec 32
  htUnknown : BitVec 32
deriving DecidableEq

inductive SlotWrite where
  | plcp0 (dmaAddr : BitVec 32) (waitForAck : Bool)
  | rts
  | plcp1 (value : BitVec 32)
  /-- `tx_misc` in PLCP2. -/
  | misc (responseRate : Byte) (interface : Nat)
  | duration (duration : BitVec 16)
  | htSig (value : BitVec 32)
  | htUnknown (value : BitVec 32)
  /-- The bits of PLCP2 for HT frames. -/
  | htPlcp2
  | status (status : HardwareTxQueueStatus)
  | resetPlcp0

/-- The bits of PLCP2 outside the response rate and the interface. -/
def miscMask : BitVec 32 := ~~~((0xff#32 <<< 6) ||| (3#32 <<< 28))

/-- `ht20::tx_misc`. -/
def txMisc (current : BitVec 32) (responseRate : Byte) (interface : Nat) : BitVec 32 :=
  (current &&& miscMask) ||| (1#32 <<< 5) ||| (responseRate.setWidth 32 <<< 6) |||
    (BitVec.ofNat 32 interface <<< 28)

/-- `ht20::ht_sig`. -/
def htSig (mcs : Byte) (shortGi : Bool) (length : Nat) : BitVec 32 :=
  mcs.setWidth 32 ||| ((BitVec.ofNat 32 length &&& 0xffff#32) <<< 8) ||| 0x07000000#32 |||
    (ofBool shortGi <<< 31)

def TxSlotRegs.write (r : TxSlotRegs) : SlotWrite → TxSlotRegs
  | .plcp0 dmaAddr waitForAck => { r with dmaAddr := dmaAddr, waitForAck := waitForAck }
  | .rts => { r with rts := true }
  | .plcp1 value => { r with plcp1 := value }
  | .misc responseRate interface => { r with plcp2 := txMisc r.plcp2 responseRate interface }
  | .duration duration =>
      { r with duration := duration.setWidth 32 ||| (duration.setWidth 32 <<< 16) }
  | .htSig value => { r with htSig := value }
  | .htUnknown value => { r with htUnknown := value }
  | .htPlcp2 => { r with plcp2 := (r.plcp2 &&& 0xff3fffff#32) ||| 0x400000#32 }
  | .status status =>
      { r with
        slotValid := decide (status ≠ .disabled)
        slotEnabled := decide (status = .ready) }
  | .resetPlcp0 =>
      { r with
        dmaAddr := 0
        waitForAck := false
        rts := false
        slotValid := false
        slotEnabled := false
        plcp0Other := 0 }

/-! ## A call of `transmit_raw` -/

structure RawCall where
  interface : Nat
  rate : TxPhyRate
  macParameters : TxMacParameters
  /-- The address of the descriptor. -/
  dmaAddr : BitVec 32
  dmaDescriptor : DmaDescriptor
  fallibleParams : Except TxError (ExtractedParameters × EdcaTxParameters)

/-- The rate at which the hardware expects the response. -/
def TxPhyRate.responseRate : TxPhyRate → Byte
  | .hrDsss rate => (TxPhyRate.hrDsss rate).asHardwareRate
  | .ofdm _ => 0xb
  | .ht rate => if rate.mcsIndex.toNat % 8 ≤ 2 then 0xb else 0x9

namespace RawCall

def rtsEnabled (c : RawCall) (extracted : ExtractedParameters) : Bool :=
  match c.macParameters.rtsStrategy with
  | .forced rtsEnabled => rtsEnabled
  | .driverControlled => extracted.isUnicast

/-- `set_ht_parameters`, for HT rates only. -/
def htParameters (c : RawCall) : List SlotWrite :=
  match c.rate with
  | .ht rate =>
      [.htSig (EspWifiHal.htSig rate.mcsIndex rate.shortGi c.dmaDescriptor.len),
        .htUnknown
          ((BitVec.ofNat 32 c.dmaDescriptor.len &&& 0x7ffff#32) ||| 0x400000#32 |||
            ((rate.mcsIndex.setWidth 32 &&& 7#32) <<< 28)),
        .htPlcp2]
  | _ => []

/-- `setup_tx`, after the parameters of the channel access. -/
def setupTx (c : RawCall) (extracted : ExtractedParameters) : List SlotWrite :=
  List.flatten
    [[.plcp0 c.dmaAddr c.macParameters.waitForAck],
      if c.rtsEnabled extracted then [.rts] else [],
      [.plcp1 (EspWifiHal.plcp1 c.rate c.dmaDescriptor.len c.macParameters.keySlotIndex),
        .misc c.rate.responseRate c.interface],
      [.duration extracted.duration],
      c.htParameters]

end RawCall

/-! ## Runs on one queue -/

/-- Where the task of the queue is. -/
inductive RawPc where
  | idle
  /-- The writes of `setup_tx` that are left.  After them comes `start_tx_queue`. -/
  | setup (c : RawCall) (extracted : ExtractedParameters) (todo : List SlotWrite)
  | wait
  /-- The parameters were an error.  The first poll returns it. -/
  | rejected
  /-- The writes of the drop guard that are left. -/
  | guard (todo : List SlotWrite)

/-- A start of the queue: the call and the registers at that time. -/
structure Started where
  call : RawCall
  regs : TxSlotRegs

structure RawState where
  pc : RawPc
  regs : TxSlotRegs
  started : List Started

inductive RawEvent where
  | call (c : RawCall)
  /-- The next statement of the task. -/
  | task
  /-- A poll that finds the signal empty, or with a result. -/
  | poll (result : Option (Except ChannelAccessError Unit))
  | drop
  /-- The handler disables the slot after an error of channel access. -/
  | interrupt

namespace RawState

/-- `tx_done`. -/
def txDone : List SlotWrite := [.status .disabled, .resetPlcp0]

/-- The drop guard runs, whether it goes out of scope, is detonated or is dropped with
the future. -/
def finish (s : RawState) : RawState := { s with pc := .guard txDone }

/-- A call with an interface above 3 panics in `tx_misc` before the start, which ends
the run. -/
def call (s : RawState) (c : RawCall) : Option RawState :=
  match s.pc, c.fallibleParams with
  | .idle, .error _ => some { s with pc := .rejected }
  | .idle, .ok (extracted, _) =>
      if c.interface < 4 then
        some { s with pc := .setup c extracted (c.setupTx extracted) }
      else none
  | _, _ => none

def task (s : RawState) : Option RawState :=
  match s.pc with
  | .setup c extracted (w :: todo) =>
      some { s with pc := .setup c extracted todo, regs := s.regs.write w }
  | .setup c _ [] =>
      some
        { pc := .wait
          regs := s.regs.write (.status .ready)
          started := s.started ++ [⟨c, s.regs⟩] }
  | .guard (w :: todo) => some { s with pc := .guard todo, regs := s.regs.write w }
  | .guard [] => some { s with pc := .idle }
  | _ => none

def poll (s : RawState) (result : Option (Except ChannelAccessError Unit)) : Option RawState :=
  match s.pc, result with
  | .rejected, _ => some s.finish
  | .wait, none => some s
  -- the guard goes out of scope when the error is returned
  | .wait, some (.error _) => some s.finish
  -- the guard is detonated
  | .wait, some (.ok ()) => some s.finish
  | _, _ => none

def drop (s : RawState) : Option RawState :=
  match s.pc with
  | .rejected => some s.finish
  | .wait => some s.finish
  | _ => none

def step (s : RawState) : RawEvent → Option RawState
  | .call c => s.call c
  | .task => s.task
  | .poll result => s.poll result
  | .drop => s.drop
  | .interrupt => some { s with regs := s.regs.write (.status .disabled) }

end RawState

/-! ## What the hardware reads -/

/-- What a start reads: three fields of PLCP0, and the other registers.  HT-SIG counts
for HT rates. -/
structure SlotImage where
  dmaAddr : BitVec 32
  waitForAck : Bool
  rts : Bool
  plcp1 : BitVec 32
  plcp2 : BitVec 32
  duration : BitVec 32
  htSig : Option (BitVec 32)
deriving DecidableEq

def TxSlotRegs.image (rate : TxPhyRate) (r : TxSlotRegs) : SlotImage :=
  { dmaAddr := r.dmaAddr
    waitForAck := r.waitForAck
    rts := r.rts
    plcp1 := r.plcp1
    plcp2 := r.plcp2
    duration := r.duration
    htSig := if rate.isHt then some r.htSig else none }

/-- PLCP2 as the initialisation leaves it. -/
def initialMisc : BitVec 32 := 0x00400020#32

/-- PLCP2 for a response rate and an interface. -/
def miscWord (responseRate : Byte) (interface : Nat) : BitVec 32 :=
  initialMisc ||| (responseRate.setWidth 32 <<< 6) ||| (BitVec.ofNat 32 interface <<< 28)

/-- What the start of a call has to read, from the arguments of the call alone. -/
def RawCall.image (c : RawCall) : Option SlotImage :=
  match c.fallibleParams with
  | .ok (extracted, _) =>
      some
        { dmaAddr := c.dmaAddr
          waitForAck := c.macParameters.waitForAck
          rts := c.rtsEnabled extracted
          plcp1 := EspWifiHal.plcp1 c.rate c.dmaDescriptor.len c.macParameters.keySlotIndex
          plcp2 := miscWord c.rate.responseRate c.interface
          duration := extracted.duration.setWidth 32 ||| (extracted.duration.setWidth 32 <<< 16)
          htSig :=
            match c.rate with
            | .ht rate =>
                some (EspWifiHal.htSig rate.mcsIndex rate.shortGi c.dmaDescriptor.len)
            | _ => none }
  | .error _ => none

/-! ## PLCP2 -/

/-- An interface is a number of two bits. -/
theorem ofNat_interface {interface : Nat} (h : interface < 4) :
    BitVec.ofNat 32 interface = (BitVec.ofNat 2 interface).setWidth 32 :=
  BitVec.eq_of_toNat_eq (by simp only [BitVec.toNat_ofNat, BitVec.toNat_setWidth]; omega)

theorem miscWord_mask (responseRate : Byte) {interface : Nat} (h : interface < 4) :
    miscWord responseRate interface &&& miscMask = initialMisc := by
  rw [miscWord, ofNat_interface h]
  refine BitVec.eq_of_getLsbD_eq fun i hi => ?_
  interval_cases i <;> simp [initialMisc, miscMask]

/-- The bits that `set_ht_parameters` writes are those of the initialisation. -/
theorem miscWord_ht (responseRate : Byte) {interface : Nat} (h : interface < 4) :
    (miscWord responseRate interface &&& 0xff3fffff#32) ||| 0x400000#32 =
      miscWord responseRate interface := by
  rw [miscWord, ofNat_interface h]
  refine BitVec.eq_of_getLsbD_eq fun i hi => ?_
  interval_cases i <;> simp [initialMisc]

/-- `tx_misc` replaces the two fields and sets a bit that is set already. -/
theorem txMisc_eq {current : BitVec 32} (hcurrent : current &&& miscMask = initialMisc)
    (responseRate : Byte) (interface : Nat) :
    txMisc current responseRate interface = miscWord responseRate interface := by
  rw [txMisc, hcurrent]
  rfl

/-! ## One call -/

/-- The registers without the bits that the interrupt handler changes. -/
def TxSlotRegs.data (r : TxSlotRegs) : TxSlotRegs :=
  { r with slotValid := false, slotEnabled := false }

theorem TxSlotRegs.write_data (r : TxSlotRegs) (w : SlotWrite) :
    (r.write w).data = (r.data.write w).data := by
  cases w <;> rfl

theorem TxSlotRegs.status_data (r : TxSlotRegs) (status : HardwareTxQueueStatus) :
    (r.write (.status status)).data = r.data := rfl

/-- The writes of `setup_tx` over registers that a guard left behind. -/
theorem RawCall.image_setupTx {c : RawCall} {extracted : ExtractedParameters}
    {edca : EdcaTxParameters} (hparams : c.fallibleParams = .ok (extracted, edca))
    (hinterface : c.interface < 4) {r : TxSlotRegs} (hrts : r.rts = false)
    (hmisc : r.plcp2 &&& miscMask = initialMisc) :
    c.image = some (((c.setupTx extracted).foldl TxSlotRegs.write r).image c.rate) := by
  have hplcp2 : txMisc r.plcp2 c.rate.responseRate c.interface =
      miscWord c.rate.responseRate c.interface := txMisc_eq hmisc ..
  have hht := miscWord_ht c.rate.responseRate hinterface
  simp only [image, hparams, setupTx, List.flatten_cons, List.foldl_append]
  cases hrtsEnabled : c.rtsEnabled extracted <;> cases hrate : c.rate <;>
    simp [hrate] at hplcp2 hht <;>
    simp [htParameters, TxSlotRegs.write, TxSlotRegs.image, TxPhyRate.isHt, hrate, hrts, hplcp2,
      hht]

/-! ## Runs -/

/-- The start read what its call asks for, and PLCP2 has its initial bits outside the
two fields. -/
def Started.Own (e : Started) : Prop :=
  e.call.image = some (e.regs.image e.call.rate) ∧ e.regs.plcp2 &&& miscMask = initialMisc

namespace RawState

/-- What the registers of a slot are while its task is at a place. -/
def AtPc (r : TxSlotRegs) : RawPc → Prop
  | .idle => r.rts = false ∧ r.plcp2 &&& miscMask = initialMisc
  | .setup c extracted todo =>
      (∃ edca, c.fallibleParams = .ok (extracted, edca)) ∧ c.interface < 4 ∧
        ∃ done r₀, c.setupTx extracted = done ++ todo ∧ r₀.rts = false ∧
          r₀.plcp2 &&& miscMask = initialMisc ∧ r.data = (done.foldl TxSlotRegs.write r₀).data
  | .wait | .rejected => r.plcp2 &&& miscMask = initialMisc
  | .guard todo =>
      r.plcp2 &&& miscMask = initialMisc ∧
        (todo = txDone ∨ todo = [.resetPlcp0] ∨ todo = [] ∧ r.rts = false)

structure Inv (s : RawState) : Prop where
  regs : AtPc s.regs s.pc
  started : ∀ e ∈ s.started, e.Own

variable {s s' : RawState}

theorem Inv.finish (hs : s.Inv) (hmisc : s.regs.plcp2 &&& miscMask = initialMisc) :
    s.finish.Inv :=
  ⟨⟨hmisc, .inl rfl⟩, hs.started⟩

theorem Inv.call (hs : s.Inv) {c : RawCall} (h : s.call c = some s') : s'.Inv := by
  unfold RawState.call at h
  split at h
  · rename_i hpc _
    cases h
    have hregs := hs.regs
    rw [hpc] at hregs
    exact ⟨hregs.2, hs.started⟩
  · rename_i extracted edca hpc hparams
    split at h
    · rename_i hinterface
      cases h
      have hregs := hs.regs
      rw [hpc] at hregs
      exact ⟨⟨⟨edca, hparams⟩, hinterface, [], s.regs, rfl, hregs.1, hregs.2, rfl⟩, hs.started⟩
    · cases h
  · cases h

/-- All writes of `setup_tx` are done when the queue is started. -/
theorem own_of_setup {c : RawCall} {extracted : ExtractedParameters} {r : TxSlotRegs}
    (h : AtPc r (.setup c extracted [])) : Started.Own ⟨c, r⟩ := by
  obtain ⟨⟨edca, hparams⟩, hinterface, done, r₀, hdone, hrts, hmisc, hdata⟩ := h
  rw [List.append_nil] at hdone
  subst hdone
  have himage : c.image = some (r.image c.rate) := by
    rw [RawCall.image_setupTx hparams hinterface hrts hmisc]
    -- the status bits are not part of the image
    have hsame : (((c.setupTx extracted).foldl TxSlotRegs.write r₀).data.image c.rate) =
        r.data.image c.rate := congrArg (TxSlotRegs.image c.rate) hdata.symm
    exact congrArg some hsame
  refine ⟨himage, ?_⟩
  have hplcp2 : r.plcp2 = miscWord c.rate.responseRate c.interface := by
    simp only [RawCall.image, hparams, Option.some.injEq] at himage
    exact (congrArg SlotImage.plcp2 himage).symm
  show r.plcp2 &&& miscMask = initialMisc
  rw [hplcp2]
  exact miscWord_mask _ hinterface

theorem Inv.task (hs : s.Inv) (h : s.task = some s') : s'.Inv := by
  have hregs := hs.regs
  unfold RawState.task at h
  split at h
  · rename_i c extracted w todo hpc
    cases h
    rw [hpc] at hregs
    obtain ⟨hparams, hinterface, done, r₀, hdone, hrts, hmisc, hdata⟩ := hregs
    refine ⟨⟨hparams, hinterface, done ++ [w], r₀, ?_, hrts, hmisc, ?_⟩, hs.started⟩
    · rw [hdone, List.append_assoc]
      rfl
    · rw [List.foldl_append, List.foldl_cons, List.foldl_nil, TxSlotRegs.write_data, hdata,
        ← TxSlotRegs.write_data]
  · rename_i c extracted hpc
    cases h
    rw [hpc] at hregs
    have hown := own_of_setup hregs
    refine ⟨hown.2, fun e he => ?_⟩
    rcases List.mem_append.mp he with he | he
    · exact hs.started e he
    · obtain rfl := List.mem_singleton.mp he
      exact hown
  · rename_i w todo hpc
    cases h
    rw [hpc] at hregs
    obtain ⟨hmisc, htodo | htodo | ⟨htodo, _⟩⟩ := hregs
    · obtain ⟨rfl, rfl⟩ := List.cons.inj htodo
      exact ⟨⟨hmisc, .inr (.inl rfl)⟩, hs.started⟩
    · obtain ⟨rfl, rfl⟩ := List.cons.inj htodo
      exact ⟨⟨hmisc, .inr (.inr ⟨rfl, rfl⟩)⟩, hs.started⟩
    · cases htodo
  · rename_i hpc
    cases h
    rw [hpc] at hregs
    obtain ⟨hmisc, htodo | htodo | ⟨_, hrts⟩⟩ := hregs
    · cases htodo
    · cases htodo
    · exact ⟨⟨hrts, hmisc⟩, hs.started⟩
  · cases h

theorem Inv.poll (hs : s.Inv) {result : Option (Except ChannelAccessError Unit)}
    (h : s.poll result = some s') : s'.Inv := by
  have hregs := hs.regs
  unfold RawState.poll at h
  split at h <;> cases h <;> rename_i hpc <;> rw [hpc] at hregs
  · exact hs.finish hregs
  · exact hs
  · exact hs.finish hregs
  · exact hs.finish hregs

theorem Inv.drop (hs : s.Inv) (h : s.drop = some s') : s'.Inv := by
  have hregs := hs.regs
  unfold RawState.drop at h
  split at h <;> cases h <;> rename_i hpc <;> rw [hpc] at hregs
  · exact hs.finish hregs
  · exact hs.finish hregs

/-- The handler changes no bit that a start reads. -/
theorem AtPc.interrupt {r : TxSlotRegs} {pc : RawPc} (h : AtPc r pc) :
    AtPc (r.write (.status .disabled)) pc := by
  cases pc with
  | setup c extracted todo =>
      obtain ⟨hparams, hinterface, done, r₀, hdone, hrts, hmisc, hdata⟩ := h
      exact ⟨hparams, hinterface, done, r₀, hdone, hrts, hmisc,
        (r.status_data .disabled).trans hdata⟩
  | _ => exact h

theorem Inv.step (hs : s.Inv) {e : RawEvent} (h : s.step e = some s') : s'.Inv := by
  cases e with
  | call c => exact hs.call h
  | task => exact hs.task h
  | poll result => exact hs.poll h
  | drop => exact hs.drop h
  | interrupt =>
      cases h
      exact ⟨hs.regs.interrupt, hs.started⟩

/-- A slot before its first use: PLCP0 is zero and PLCP2 as the initialisation leaves
it, the other registers are arbitrary. -/
def init (r : TxSlotRegs) : RawState :=
  { pc := .idle, regs := { r with plcp2 := initialMisc }.write .resetPlcp0, started := [] }

theorem inv_init (r : TxSlotRegs) : (init r).Inv :=
  ⟨⟨rfl, show initialMisc &&& miscMask = initialMisc by decide⟩,
    fun _ he => absurd he List.not_mem_nil⟩

end RawState

/-- In every run of `transmit_raw` calls on a slot, whichever way each of them ends,
every start reads registers that depend on the arguments of its call alone, and PLCP2
keeps its initial bits outside the response rate and the interface. -/
theorem slot_carries_no_history (r : TxSlotRegs) (events : List RawEvent) (s : RawState)
    (hrun : Trace.run RawState.step (RawState.init r) events = some s) :
    ∀ e ∈ s.started, e.call.image = some (e.regs.image e.call.rate) ∧
      e.regs.plcp2 &&& miscMask = initialMisc :=
  (Trace.run_inv (fun _ _ _ hs h => hs.step h) (RawState.inv_init r) hrun).started

/-- A call for the slot, with or without RTS. -/
def rawCall (rate : TxPhyRate) (interface : Nat) (rts : Bool) : RawCall :=
  { interface
    rate
    macParameters := { waitForAck := rts, rtsStrategy := .forced rts }
    dmaAddr := 0x3fc91000
    dmaDescriptor := DmaDescriptor.empty.setLength 1504
    fallibleParams := .ok (⟨44, true⟩, ⟨7, 3⟩) }

/-- An HT frame with RTS that ends with a timeout, then an OFDM frame without RTS. -/
def rawCalls : List RawEvent :=
  List.flatten
    [[.call (rawCall (.ht ⟨7, true, false, HtRate.highest⟩) 1 true)], List.replicate 9 .task,
      [.interrupt, .poll (some (.error .timeout))], List.replicate 3 .task,
      [.call (rawCall (.ofdm .mbits6) 0 false)], List.replicate 5 .task]

theorem slot_carries_no_history_two_calls :
    ∃ s, Trace.run RawState.step
        (RawState.init ⟨0, false, true, false, false, 0, 0, 0, 0, 0, 0⟩) rawCalls =
          some s ∧
      s.started.length = 2 ∧
      ∀ e ∈ s.started, e.call.image = some (e.regs.image e.call.rate) ∧
        e.regs.plcp2 &&& miscMask = initialMisc := by
  have hlen : (Trace.run RawState.step
      (RawState.init ⟨0, false, true, false, false, 0, 0, 0, 0, 0, 0⟩) rawCalls).map
        (·.started.length) = some 2 := by decide +kernel
  obtain ⟨s, hrun, hcount⟩ := Option.map_eq_some_iff.mp hlen
  exact ⟨s, hrun, hcount, slot_carries_no_history _ rawCalls s hrun⟩

end EspWifiHal
