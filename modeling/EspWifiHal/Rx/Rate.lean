import EspWifiHal.Rx.Length
import EspWifiHal.Tx.OfdmBased
import EspWifiHal.Tx.Prepare

/-!
# What the header of a frame says

The hardware puts a header in front of every frame.  `phy_rate` reads the rate from it: the
signal mode tells the legacy PHYs, which share the codes of `as_hardware_rate`, from the HT PHY,
whose rates have fields of their own.

`phyRate_round_trip` says that the rate is read exactly from the headers that stand for it, so no
header reaches the `unreachable!`, and a legacy code is the one that a transmission at that rate
is given.  The interfaces that a frame is for are bits of another byte of the header.
-/

namespace EspWifiHal

/-! ## The functions -/

inductive RxPhyRate where
  | hrDsss (rate : HrDsssRate)
  | ofdm (rate : OfdmRate)
  | ht (rate : HtRateOf .rx)
deriving DecidableEq, Repr

/-- The fields of the header that the rate is in, as the accessors return them. -/
structure RateFields where
  sigMode : BitVec 32
  rate : BitVec 32
  mcs : BitVec 32
  sgi : BitVec 32
  cwb : BitVec 32
deriving DecidableEq, Repr

/-- The rate of an OFDM code, with `none` for a panic. -/
def ofdmRate (rate : Byte) : Option OfdmRate :=
  match rate.toNat with
  | 0x0b => some .mbits6
  | 0x0f => some .mbits9
  | 0x0a => some .mbits12
  | 0x0e => some .mbits18
  | 0x09 => some .mbits24
  | 0x0d => some .mbits36
  | 0x08 => some .mbits48
  | 0x0c => some .mbits54
  | _ => none

namespace RateFields

/-- The outer `none` is a panic. -/
def phyRate (h : RateFields) : Option (Option RxPhyRate) :=
  let cbw40 := h.cwb == 1
  let shortGi := h.sgi == 1
  let mcs := h.mcs.setWidth 8
  let rate : Byte := h.rate.setWidth 8
  if h.sigMode = 0 then
    if rate ≤ 7 then
      some ((HrDsssRate.new (rate % 4) (rate / 4 == 1)).map .hrDsss)
    else if rate ≤ 15 then (ofdmRate rate).map fun r => some (.ofdm r)
    else some none
  else if h.sigMode = 1 then some ((HtRateOf.new .rx mcs shortGi cbw40).map .ht)
  else some none

/-- The code of a legacy rate. -/
abbrev code (h : RateFields) : Byte := h.rate.setWidth 8

/-- The header stands for a rate. -/
def Encodes (h : RateFields) : RxPhyRate → Prop
  | .hrDsss rate => h.sigMode = 0 ∧ h.code = (TxPhyRate.hrDsss rate).asHardwareRate
  | .ofdm rate => h.sigMode = 0 ∧ h.code = (TxPhyRate.ofdm rate).asHardwareRate
  | .ht rate => h.sigMode = 1 ∧ h.mcs.setWidth 8 = rate.mcsIndex ∧
      (h.sgi = 1 ↔ rate.shortGi = true) ∧ (h.cwb = 1 ↔ rate.cbw40 = true)

end RateFields

/-! ## Codes -/

theorem ofdmRate_eq_some {code : Byte} {rate : OfdmRate} :
    ofdmRate code = some rate ↔ code = rate.toByte := by
  revert code
  cases rate <;> decide +kernel

theorem ofdmRate_isSome : ∀ {code : Byte}, ¬code ≤ 7 → code ≤ 15 → (ofdmRate code).isSome := by
  decide

theorem OfdmRate.toByte_range (rate : OfdmRate) : ¬rate.toByte ≤ 7 ∧ rate.toByte ≤ 15 := by
  cases rate <;> decide

theorem HrDsssRate.asHardwareRate_le (rate : HrDsssRate) :
    (TxPhyRate.hrDsss rate).asHardwareRate ≤ 7 := by
  have hall : ∀ (i : Byte) (short : Bool), i ≤ 3 → i + 4 * ofBool short ≤ 7 := by decide
  exact hall rate.rateIndex rate.shortPreamble rate.le

/-- The code of a rate of the HR/DSSS PHY is its index and the preamble. -/
theorem HrDsssRate.new_eq_some_iff {code : Byte} (hle : code ≤ 7) {rate : HrDsssRate} :
    HrDsssRate.new (code % 4) (code / 4 == 1) = some rate ↔
      code = (TxPhyRate.hrDsss rate).asHardwareRate := by
  have hsplit : ∀ (i : Byte) (short : Bool), i ≤ 3 →
      (i + 4 * ofBool short) % 4 = i ∧ ((i + 4 * ofBool short) / 4 == 1) = short := by decide
  constructor
  · intro hnew
    have hjoin : ∀ code : Byte, code ≤ 7 → code = code % 4 + 4 * ofBool (code / 4 == 1) := by
      decide
    rw [HrDsssRate.new] at hnew
    split at hnew
    · cases hnew
    · cases hnew
      exact hjoin code hle
  · rintro rfl
    obtain ⟨hindex, hshort⟩ := hsplit rate.rateIndex rate.shortPreamble rate.le
    simp only [TxPhyRate.asHardwareRate]
    rw [hindex, hshort, HrDsssRate.new, dif_neg (by
      rintro (hgt | hzero)
      · exact BitVec.not_lt.mpr rate.le hgt
      · exact rate.long hzero)]

theorem HtRateOf.new_eq_some_iff {mcs : Byte} {shortGi cbw40 : Bool} {d : RateDirection}
    {rate : HtRateOf d} :
    HtRateOf.new d mcs shortGi cbw40 = some rate ↔
      mcs = rate.mcsIndex ∧ shortGi = rate.shortGi ∧ cbw40 = rate.cbw40 := by
  constructor
  · intro hnew
    rw [HtRateOf.new] at hnew
    split at hnew
    · cases hnew
      exact ⟨rfl, rfl, rfl⟩
    · cases hnew
  · rintro ⟨rfl, rfl, rfl⟩
    exact dif_pos rate.le

/-! ## The rate of a header -/

namespace RateFields

variable {h : RateFields}

theorem phyRate_of_hrDsss (hmode : h.sigMode = 0) (hle : h.code ≤ 7) :
    h.phyRate = some ((HrDsssRate.new (h.code % 4) (h.code / 4 == 1)).map .hrDsss) := by
  rw [phyRate, if_pos hmode, if_pos hle]

theorem phyRate_of_ofdm (hmode : h.sigMode = 0) (hgt : ¬h.code ≤ 7) (hle : h.code ≤ 15) :
    h.phyRate = (ofdmRate h.code).map fun r => some (.ofdm r) := by
  rw [phyRate, if_pos hmode, if_neg hgt, if_pos hle]

theorem phyRate_of_reserved (hmode : h.sigMode = 0) (hgt : ¬h.code ≤ 15) :
    h.phyRate = some none := by
  have h7 : ¬h.code ≤ 7 := fun hle => hgt (BitVec.le_trans hle (by decide))
  rw [phyRate, if_pos hmode, if_neg h7, if_neg hgt]

theorem phyRate_of_ht (hmode : h.sigMode = 1) :
    h.phyRate = some ((HtRateOf.new .rx (h.mcs.setWidth 8) (h.sgi == 1) (h.cwb == 1)).map .ht) := by
  have hne : ¬h.sigMode = 0 := by
    rw [hmode]
    decide
  rw [phyRate, if_neg hne, if_pos hmode]

theorem phyRate_of_other (h0 : ¬h.sigMode = 0) (h1 : ¬h.sigMode = 1) : h.phyRate = some none := by
  rw [phyRate, if_neg h0, if_neg h1]

theorem phyRate_isSome (h : RateFields) : h.phyRate.isSome := by
  by_cases h0 : h.sigMode = 0
  · by_cases h7 : h.code ≤ 7
    · rw [phyRate_of_hrDsss h0 h7, Option.isSome_some]
    · by_cases h15 : h.code ≤ 15
      · rw [phyRate_of_ofdm h0 h7 h15, Option.isSome_map]
        exact ofdmRate_isSome h7 h15
      · rw [phyRate_of_reserved h0 h15, Option.isSome_some]
  · by_cases h1 : h.sigMode = 1
    · rw [phyRate_of_ht h1, Option.isSome_some]
    · rw [phyRate_of_other h0 h1, Option.isSome_some]

theorem encodes_of_phyRate {r : RxPhyRate} (hr : h.phyRate = some (some r)) : h.Encodes r := by
  by_cases h0 : h.sigMode = 0
  · by_cases h7 : h.code ≤ 7
    · rw [phyRate_of_hrDsss h0 h7, Option.some.injEq, Option.map_eq_some_iff] at hr
      obtain ⟨rate, hnew, rfl⟩ := hr
      exact ⟨h0, (HrDsssRate.new_eq_some_iff h7).mp hnew⟩
    · by_cases h15 : h.code ≤ 15
      · rw [phyRate_of_ofdm h0 h7 h15, Option.map_eq_some_iff] at hr
        obtain ⟨rate, hrate, heq⟩ := hr
        cases heq
        exact ⟨h0, ofdmRate_eq_some.mp hrate⟩
      · rw [phyRate_of_reserved h0 h15] at hr
        cases hr
  · by_cases h1 : h.sigMode = 1
    · rw [phyRate_of_ht h1, Option.some.injEq, Option.map_eq_some_iff] at hr
      obtain ⟨rate, hnew, rfl⟩ := hr
      obtain ⟨hmcs, hsgi, hcwb⟩ := HtRateOf.new_eq_some_iff.mp hnew
      exact ⟨h1, hmcs, by rw [← hsgi, beq_iff_eq], by rw [← hcwb, beq_iff_eq]⟩
    · rw [phyRate_of_other h0 h1] at hr
      cases hr

theorem phyRate_of_encodes {r : RxPhyRate} (hr : h.Encodes r) : h.phyRate = some (some r) := by
  cases r with
  | hrDsss rate =>
    obtain ⟨hmode, hcode⟩ := hr
    have hle : h.code ≤ 7 := hcode ▸ rate.asHardwareRate_le
    rw [phyRate_of_hrDsss hmode hle, (HrDsssRate.new_eq_some_iff hle).mpr hcode, Option.map_some]
  | ofdm rate =>
    have hcode : h.code = rate.toByte := hr.2
    obtain ⟨hgt, hle⟩ := rate.toByte_range
    rw [phyRate_of_ofdm hr.1 (fun h7 => hgt (hcode ▸ h7)) (hcode ▸ hle),
      ofdmRate_eq_some.mpr hcode, Option.map_some]
  | ht rate =>
    obtain ⟨hmode, hmcs, hsgi, hcwb⟩ := hr
    have hshort : (h.sgi == 1) = rate.shortGi := Bool.eq_iff_iff.mpr (beq_iff_eq.trans hsgi)
    have hwide : (h.cwb == 1) = rate.cbw40 := Bool.eq_iff_iff.mpr (beq_iff_eq.trans hcwb)
    rw [phyRate_of_ht hmode, HtRateOf.new_eq_some_iff.mpr ⟨hmcs, hshort, hwide⟩, Option.map_some]

/-- A header for every rate. -/
def ofRate : RxPhyRate → RateFields
  | .hrDsss rate =>
    { sigMode := 0, rate := (TxPhyRate.hrDsss rate).asHardwareRate.setWidth 32, mcs := 0,
      sgi := 0, cwb := 0 }
  | .ofdm rate =>
    { sigMode := 0, rate := (TxPhyRate.ofdm rate).asHardwareRate.setWidth 32, mcs := 0,
      sgi := 0, cwb := 0 }
  | .ht rate =>
    { sigMode := 1, rate := 0, mcs := rate.mcsIndex.setWidth 32, sgi := ofBool rate.shortGi,
      cwb := ofBool rate.cbw40 }

theorem setWidth_setWidth (x : Byte) : (x.setWidth 32).setWidth 8 = x := by
  rw [BitVec.setWidth_setWidth_of_le _ (by decide), BitVec.setWidth_eq]

theorem ofBool_eq_one (b : Bool) : (ofBool b : BitVec 32) = 1 ↔ b = true := by
  cases b <;> decide

theorem encodes_ofRate (r : RxPhyRate) : (ofRate r).Encodes r := by
  cases r with
  | hrDsss rate => exact ⟨rfl, setWidth_setWidth _⟩
  | ofdm rate => exact ⟨rfl, setWidth_setWidth _⟩
  | ht rate => exact ⟨rfl, setWidth_setWidth _, ofBool_eq_one _, ofBool_eq_one _⟩

/-- The rate is read exactly from the headers that stand for it, every rate has one, and no
header panics. -/
theorem phyRate_round_trip :
    (∀ h : RateFields, h.phyRate.isSome) ∧
      (∀ (h : RateFields) (r : RxPhyRate), h.phyRate = some (some r) ↔ h.Encodes r) ∧
      ∀ r : RxPhyRate, ∃ h : RateFields, h.Encodes r := by
  refine ⟨phyRate_isSome, fun h r => ?_, fun r => ⟨ofRate r, encodes_ofRate r⟩⟩
  exact ⟨encodes_of_phyRate, phyRate_of_encodes⟩

end RateFields

/-! ## Interfaces -/

namespace BorrowedBuffer

/-- `check_bit!` of an interface. -/
def forInterface (byte : Byte) (interface : Nat) : Bool := byte &&& (1 <<< (interface + 4)) != 0

/-- The byte of the header with the interfaces, with `none` for a panic. -/
def interfaceByte (b : BorrowedBuffer) : Option Byte := do
  let header ← b.headerBuffer
  header[3]?

def isFrameForInterface (b : BorrowedBuffer) (interface : Nat) : Option Bool :=
  if interface < interfaceCount then b.interfaceByte.map (forInterface · interface)
  else some false

def interfaceIterator (b : BorrowedBuffer) : Option (List Nat) :=
  b.interfaceByte.map fun byte => (List.range interfaceCount).filter (forInterface byte)

theorem interfaceByte_eq {b : BorrowedBuffer} (hheader : b.layout.headerLength ≤ b.len)
    (hlength : 3 < b.layout.headerLength) : b.interfaceByte = some (b.ram (b.buffer + 3)) := by
  have hbyte : b.paddedBuffer[3]? = some (b.ram (b.buffer + 3)) := by
    rw [paddedBuffer, fromRawParts, List.getElem?_map, List.getElem?_range (by omega),
      Option.map_some]
  rw [interfaceByte, headerBuffer, if_pos hheader, Option.bind_eq_bind, Option.bind_some,
    List.getElem?_take_of_lt hlength, hbyte]

/-- The iterator returns the interfaces that the check accepts. -/
theorem mem_interfaceIterator {b : BorrowedBuffer} (hheader : b.layout.headerLength ≤ b.len)
    (hlength : 3 < b.layout.headerLength) :
    ∃ interfaces, b.interfaceIterator = some interfaces ∧
      ∀ i, b.isFrameForInterface i = some (decide (i ∈ interfaces)) := by
  refine ⟨_, by rw [interfaceIterator, interfaceByte_eq hheader hlength, Option.map_some],
    fun i => ?_⟩
  rw [isFrameForInterface, interfaceByte_eq hheader hlength]
  split
  · next hi => simp [hi]
  · next hi => simp [hi]

end BorrowedBuffer

end EspWifiHal
