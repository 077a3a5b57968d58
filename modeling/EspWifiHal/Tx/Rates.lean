import EspWifiHal.Lib.Register
import EspWifiHal.Tx.Params

/-!
# Rates and their codes

The rates of the three PHYs, and the register PLCP1 that gives the hardware the
length, the rate and the key slot of a frame.  The ESP32-S3 and the ESP32-C3 number
the HT rates one after the other (`htRate`).  The other chips use
`as_hardware_rate`, which multiplies the MCS by two for the short guard interval, so
that MCS 1 with a short and MCS 2 with a long one have the same code
(`plcp1_determines_iff`).
-/

namespace EspWifiHal

open Register

/-! ## Rates -/

/-- A rate of the HR/DSSS PHY, as `HrDsssRate::new` makes them: 1 Mbit/s has no short
preamble. -/
structure HrDsssRate where
  rateIndex : Byte
  shortPreamble : Bool
  le : rateIndex ≤ 3
  long : ¬(rateIndex = 0 ∧ shortPreamble = true)
deriving DecidableEq, Repr

inductive OfdmRate where
  | mbits6
  | mbits9
  | mbits12
  | mbits18
  | mbits24
  | mbits36
  | mbits48
  | mbits54
deriving DecidableEq, Repr

def OfdmRate.toByte : OfdmRate → Byte
  | .mbits6 => 0x0b
  | .mbits9 => 0x0f
  | .mbits12 => 0x0a
  | .mbits18 => 0x0e
  | .mbits24 => 0x09
  | .mbits36 => 0x0d
  | .mbits48 => 0x08
  | .mbits54 => 0x0c

/-- A rate of the HT PHY for transmission. -/
structure HtRate where
  mcsIndex : Byte
  shortGi : Bool
  cbw40 : Bool
  le : mcsIndex ≤ 7
deriving DecidableEq, Repr

theorem HtRate.highest : (7 : Byte) ≤ 7 := by decide

inductive TxPhyRate where
  | hrDsss (rate : HrDsssRate)
  | ofdm (rate : OfdmRate)
  | ht (rate : HtRate)
deriving DecidableEq, Repr

/-- A `bool` as an integer. -/
def ofBool {w : Nat} (b : Bool) : BitVec w := if b then 1 else 0

namespace TxPhyRate

/-- `PhyRate::as_hardware_rate`. -/
def asHardwareRate : TxPhyRate → Byte
  | .hrDsss rate => rate.rateIndex + 4 * ofBool rate.shortPreamble
  | .ofdm rate => rate.toByte
  | .ht rate => 0x10 + rate.mcsIndex * (1 + ofBool rate.shortGi)

def isHt : TxPhyRate → Bool
  | .ht _ => true
  | _ => false

/-- The rates agree.  The channel width of an HT rate is not used for transmission. -/
def Same : TxPhyRate → TxPhyRate → Prop
  | .hrDsss rate, .hrDsss rate' => rate = rate'
  | .ofdm rate, .ofdm rate' => rate = rate'
  | .ht rate, .ht rate' => rate.mcsIndex = rate'.mcsIndex ∧ rate.shortGi = rate'.shortGi
  | _, _ => False

end TxPhyRate

/-- `ht20::ht_rate`. -/
def htRate (mcs : Byte) (shortGi : Bool) : Byte := 0x10 + mcs + 8 * ofBool shortGi

/-- The code of a rate on the ESP32-S3 and the ESP32-C3. -/
def TxPhyRate.hardwareRate : TxPhyRate → Byte
  | .ht rate => htRate rate.mcsIndex rate.shortGi
  | rate => rate.asHardwareRate

/-! ## PLCP1 -/

/-- The word that `set_plcp1` writes on the ESP32-S3 and the ESP32-C3. -/
def plcp1 (rate : TxPhyRate) (frameLength : Nat) (keySlot : Option Byte) : BitVec 32 :=
  (BitVec.ofNat 32 frameLength &&& 0xfff#32) |||
    ((rate.hardwareRate.setWidth 32 &&& 0x1f#32) <<< 12) |||
    ((keySlot.getD 0).setWidth 32 <<< 17) |||
    (ofBool rate.isHt <<< 25)

/-- The fields that `set_plcp1` writes on the ESP32 and the ESP32-S2. -/
structure Plcp1Fields where
  len : Nat
  rate : Byte
  is80211n : Bool
  interfaceId : Nat
  keySlotId : Byte
  bandwidth : Bool
deriving DecidableEq, Repr

def plcp1Fields (rate : TxPhyRate) (frameLength interface : Nat) (keySlot : Option Byte) :
    Plcp1Fields :=
  { len := frameLength
    rate := rate.asHardwareRate
    is80211n := rate.isHt
    interfaceId := interface
    keySlotId := keySlot.getD 0
    bandwidth := true }

/-! ## Codes -/

theorem toNat_ofBool {w : Nat} (hw : 0 < w) (b : Bool) : (ofBool b : BitVec w).toNat = b.toNat := by
  cases b with
  | false => exact BitVec.toNat_ofNat 0 w
  | true => exact Nat.mod_eq_of_lt (Nat.one_lt_two_pow (Nat.ne_of_gt hw))

theorem eq_of_toNat_eq {a b : Bool} (h : a.toNat = b.toNat) : a = b := by
  cases a <;> cases b <;> first | rfl | cases h

theorem HrDsssRate.toNat_le (rate : HrDsssRate) : rate.rateIndex.toNat ≤ 3 := rate.le

theorem HtRate.toNat_le (rate : HtRate) : rate.mcsIndex.toNat ≤ 7 := rate.le

theorem OfdmRate.toNat_range (rate : OfdmRate) :
    8 ≤ rate.toByte.toNat ∧ rate.toByte.toNat < 16 := by
  cases rate <;> decide

theorem OfdmRate.toByte_injective {rate rate' : OfdmRate} (h : rate.toByte = rate'.toByte) :
    rate = rate' := by
  cases rate <;> cases rate' <;> first | rfl | exact absurd h (by decide)

theorem HrDsssRate.toNat_code (rate : HrDsssRate) :
    (TxPhyRate.hrDsss rate).asHardwareRate.toNat =
      rate.rateIndex.toNat + 4 * rate.shortPreamble.toNat := by
  have hle := rate.toNat_le
  cases h : rate.shortPreamble <;> simp [TxPhyRate.asHardwareRate, ofBool, h]
  omega

theorem HtRate.toNat_htRate (rate : HtRate) :
    (htRate rate.mcsIndex rate.shortGi).toNat =
      16 + rate.mcsIndex.toNat + 8 * rate.shortGi.toNat := by
  have hle := rate.toNat_le
  cases h : rate.shortGi <;> simp [htRate, ofBool] <;> omega

theorem HtRate.toNat_code (rate : HtRate) :
    (TxPhyRate.ht rate).asHardwareRate.toNat =
      16 + rate.mcsIndex.toNat * (1 + rate.shortGi.toNat) := by
  have hle := rate.toNat_le
  cases h : rate.shortGi <;> simp [TxPhyRate.asHardwareRate, ofBool, h] <;> omega

/-- The codes of the three PHYs lie in different ranges. -/
theorem TxPhyRate.hardwareRate_lt (rate : TxPhyRate) : rate.hardwareRate.toNat < 32 := by
  cases rate with
  | hrDsss rate =>
      have hcode := rate.toNat_code
      have hle := rate.toNat_le
      have hshort := rate.shortPreamble.toNat_le
      simp only [hardwareRate]
      omega
  | ofdm rate =>
      have hrange := rate.toNat_range
      simp only [hardwareRate, asHardwareRate]
      omega
  | ht rate =>
      have hcode := rate.toNat_htRate
      have hle := rate.toNat_le
      have hshort := rate.shortGi.toNat_le
      simp only [hardwareRate]
      omega

theorem toNat_plcp1 (rate : TxPhyRate) (frameLength : Nat) (keySlot : Option Byte) :
    (plcp1 rate frameLength keySlot).toNat =
      frameLength % 2 ^ 12 + rate.hardwareRate.toNat * 2 ^ 12 + (keySlot.getD 0).toNat * 2 ^ 17 +
        rate.isHt.toNat * 2 ^ 25 := by
  have hlen : (BitVec.ofNat 32 frameLength &&& 0xfff#32).toNat = frameLength % 2 ^ 12 := by
    rw [toNat_and_mask 12 rfl, BitVec.toNat_ofNat]
    omega
  have hrateLt := rate.hardwareRate_lt
  have hrate : (rate.hardwareRate.setWidth 32 &&& 0x1f#32).toNat = rate.hardwareRate.toNat := by
    rw [toNat_and_mask 5 rfl, BitVec.toNat_setWidth]
    omega
  have hkeyLt := (keySlot.getD 0).isLt
  have hkey : ((keySlot.getD 0).setWidth 32).toNat = (keySlot.getD 0).toNat := by
    rw [BitVec.toNat_setWidth]
    omega
  have hht : (ofBool rate.isHt : BitVec 32).toNat = rate.isHt.toNat := toNat_ofBool (by decide) _
  have hhtLe := rate.isHt.toNat_le
  -- the four fields from the lowest to the highest
  have htwo : ((BitVec.ofNat 32 frameLength &&& 0xfff#32) |||
      (rate.hardwareRate.setWidth 32 &&& 0x1f#32) <<< 12).toNat =
        frameLength % 2 ^ 12 + rate.hardwareRate.toNat * 2 ^ 12 := by
    rw [toNat_or_shiftLeft (by omega) (by omega), hlen, hrate]
  have hthree : (((BitVec.ofNat 32 frameLength &&& 0xfff#32) |||
      (rate.hardwareRate.setWidth 32 &&& 0x1f#32) <<< 12) |||
        (keySlot.getD 0).setWidth 32 <<< 17).toNat =
        frameLength % 2 ^ 12 + rate.hardwareRate.toNat * 2 ^ 12 +
          (keySlot.getD 0).toNat * 2 ^ 17 := by
    rw [toNat_or_shiftLeft (by omega) (by omega), htwo, hkey]
  rw [plcp1, toNat_or_shiftLeft (by omega) (by omega), hthree, hht]

theorem HrDsssRate.eq_of_toNat_code {hr hr' : HrDsssRate}
    (h : hr.rateIndex.toNat + 4 * hr.shortPreamble.toNat =
      hr'.rateIndex.toNat + 4 * hr'.shortPreamble.toNat) : hr = hr' := by
  have hle := hr.toNat_le
  have hle' := hr'.toNat_le
  have hindex : hr.rateIndex = hr'.rateIndex := BitVec.eq_of_toNat_eq (by omega)
  have hpreamble : hr.shortPreamble = hr'.shortPreamble := eq_of_toNat_eq (by omega)
  cases hr
  cases hr'
  cases hindex
  cases hpreamble
  rfl

/-- The numbers that the codes of a PHY have. -/
def TxPhyRate.InRange (n : Nat) : TxPhyRate → Prop
  | .hrDsss _ => n < 8
  | .ofdm _ => 8 ≤ n ∧ n < 16
  | .ht _ => 16 ≤ n

theorem TxPhyRate.inRange_code (code : TxPhyRate → Byte)
    (hcode : ∀ rate, rate.isHt = false → code rate = rate.asHardwareRate)
    (hht : ∀ rate, 16 ≤ (code (.ht rate)).toNat) (rate : TxPhyRate) :
    rate.InRange (code rate).toNat := by
  cases rate with
  | hrDsss hr =>
      have hle := hr.toNat_le
      have hshort := hr.shortPreamble.toNat_le
      rw [hcode _ rfl, InRange, hr.toNat_code]
      omega
  | ofdm ofdm =>
      rw [hcode _ rfl]
      exact ofdm.toNat_range
  | ht ht => exact hht ht

/-- A code for the rates that gives the HT rates numbers from 16 on.  Only two HT
rates can share one. -/
theorem TxPhyRate.same_or_ht (code : TxPhyRate → Byte)
    (hcode : ∀ rate, rate.isHt = false → code rate = rate.asHardwareRate)
    (hht : ∀ rate, 16 ≤ (code (.ht rate)).toNat) {rate rate' : TxPhyRate}
    (h : code rate = code rate') :
    rate.Same rate' ∨ ∃ ht ht', rate = .ht ht ∧ rate' = .ht ht' := by
  have hrange := inRange_code code hcode hht rate
  have hrange' := inRange_code code hcode hht rate'
  rw [h] at hrange
  -- two PHYs have no number in common
  cases rate with
  | hrDsss hr =>
      cases rate' with
      | hrDsss hr' =>
          have hnat := congrArg BitVec.toNat h
          rw [hcode _ rfl, hcode _ rfl, hr.toNat_code, hr'.toNat_code] at hnat
          exact .inl (HrDsssRate.eq_of_toNat_code hnat)
      | ofdm ofdm' => exact absurd hrange (Nat.not_lt.mpr hrange'.1)
      | ht ht' => exact absurd (Nat.lt_of_lt_of_le hrange (by decide)) (Nat.not_lt.mpr hrange')
  | ofdm ofdm =>
      cases rate' with
      | hrDsss hr' => exact absurd hrange' (Nat.not_lt.mpr hrange.1)
      | ofdm ofdm' =>
          rw [hcode _ rfl, hcode _ rfl] at h
          exact .inl (OfdmRate.toByte_injective h)
      | ht ht' => exact absurd hrange.2 (Nat.not_lt.mpr hrange')
  | ht ht =>
      cases rate' with
      | hrDsss hr' => exact absurd (Nat.lt_of_lt_of_le hrange' (by decide)) (Nat.not_lt.mpr hrange)
      | ofdm ofdm' => exact absurd hrange'.2 (Nat.not_lt.mpr hrange)
      | ht ht' => exact .inr ⟨ht, ht', rfl, rfl⟩

/-- On the ESP32-S3 and the ESP32-C3 the code determines the rate. -/
theorem TxPhyRate.same_of_hardwareRate {rate rate' : TxPhyRate}
    (h : rate.hardwareRate = rate'.hardwareRate) : rate.Same rate' := by
  have hcode : ∀ rate : TxPhyRate, rate.isHt = false → rate.hardwareRate = rate.asHardwareRate := by
    intro rate hrate
    cases rate with
    | ht => cases hrate
    | _ => rfl
  have hht : ∀ ht, 16 ≤ (TxPhyRate.ht ht).hardwareRate.toNat := by
    intro ht
    simp only [hardwareRate, HtRate.toNat_htRate]
    omega
  rcases same_or_ht hardwareRate hcode hht h with hsame | ⟨ht, ht', rfl, rfl⟩
  · exact hsame
  · have hnat := congrArg BitVec.toNat h
    simp only [hardwareRate, HtRate.toNat_htRate] at hnat
    have hle := ht.toNat_le
    have hle' := ht'.toNat_le
    have hshort := ht.shortGi.toNat_le
    have hshort' := ht'.shortGi.toNat_le
    exact ⟨BitVec.eq_of_toNat_eq (by omega), eq_of_toNat_eq (by omega)⟩

/-! ## What the word determines -/

/-- A request within the limits of the fields. -/
structure Plcp1Request where
  frameLength : Fin 4096
  rate : TxPhyRate
  keySlot : Fin 25
  interface : Fin 4

namespace Plcp1Request

/-- The word on the ESP32-S3 and the ESP32-C3. -/
def word (r : Plcp1Request) : BitVec 32 :=
  plcp1 r.rate r.frameLength (some (BitVec.ofNat 8 r.keySlot))

/-- The fields on the ESP32 and the ESP32-S2. -/
def fields (r : Plcp1Request) : Plcp1Fields :=
  plcp1Fields r.rate r.frameLength r.interface (some (BitVec.ofNat 8 r.keySlot))

/-- The requests ask for the same transmission. -/
structure Same (r r' : Plcp1Request) : Prop where
  frameLength : r.frameLength = r'.frameLength
  rate : r.rate.Same r'.rate
  keySlot : r.keySlot = r'.keySlot

end Plcp1Request

/-- An HT rate with a short guard interval, and one with a long guard interval and
twice its MCS. -/
def TxPhyRate.Doubles : TxPhyRate → TxPhyRate → Prop
  | .ht rate, .ht rate' => rate.shortGi = true ∧ rate'.shortGi = false ∧
      rate'.mcsIndex = 2 * rate.mcsIndex
  | _, _ => False

theorem HtRate.toNat_twice (rate : HtRate) :
    (2 * rate.mcsIndex).toNat = 2 * rate.mcsIndex.toNat := by
  have hle := rate.toNat_le
  rw [BitVec.toNat_mul, show (2 : Byte).toNat = 2 from rfl]
  omega

theorem TxPhyRate.Doubles.asHardwareRate {rate rate' : TxPhyRate} (h : rate.Doubles rate') :
    rate.asHardwareRate = rate'.asHardwareRate := by
  cases rate <;> cases rate' <;> try exact h.elim
  obtain ⟨hshort, hshort', hmcs⟩ := h
  refine BitVec.eq_of_toNat_eq ?_
  rw [HtRate.toNat_code, HtRate.toNat_code, hshort, hshort', hmcs, HtRate.toNat_twice]
  simp only [Bool.toNat_false, Bool.toNat_true]
  omega

/-- On the ESP32 and the ESP32-S2 two rates share a code if and only if they agree or
one has the short guard interval and half the MCS of the other. -/
theorem TxPhyRate.asHardwareRate_eq_iff {rate rate' : TxPhyRate} :
    rate.asHardwareRate = rate'.asHardwareRate ↔
      rate.Same rate' ∨ rate.Doubles rate' ∨ rate'.Doubles rate := by
  have hht : ∀ ht, 16 ≤ (TxPhyRate.ht ht).asHardwareRate.toNat := by
    intro ht
    rw [ht.toNat_code]
    omega
  constructor
  · intro h
    rcases same_or_ht asHardwareRate (fun _ _ => rfl) hht h with hsame | ⟨ht, ht', rfl, rfl⟩
    · exact .inl hsame
    · have hnat := congrArg BitVec.toNat h
      rw [HtRate.toNat_code, HtRate.toNat_code] at hnat
      cases hshort : ht.shortGi <;> cases hshort' : ht'.shortGi <;>
        simp only [hshort, hshort', Bool.toNat_false, Bool.toNat_true] at hnat
      · exact .inl ⟨BitVec.eq_of_toNat_eq (by omega), hshort.trans hshort'.symm⟩
      · refine .inr (.inr ⟨hshort', hshort, BitVec.eq_of_toNat_eq ?_⟩)
        rw [HtRate.toNat_twice]
        omega
      · refine .inr (.inl ⟨hshort, hshort', BitVec.eq_of_toNat_eq ?_⟩)
        rw [HtRate.toNat_twice]
        omega
      · exact .inl ⟨BitVec.eq_of_toNat_eq (by omega), hshort.trans hshort'.symm⟩
  · rintro (h | h | h)
    · cases rate <;> cases rate' <;> try exact h.elim
      · exact congrArg (TxPhyRate.asHardwareRate ∘ .hrDsss) h
      · exact congrArg OfdmRate.toByte h
      · simp only [asHardwareRate, h.1, h.2]
    · exact h.asHardwareRate
    · exact h.asHardwareRate.symm

theorem TxPhyRate.Doubles.isHt {rate rate' : TxPhyRate} (h : rate.Doubles rate') :
    rate.isHt = rate'.isHt := by
  cases rate <;> cases rate' <;> first | rfl | exact h.elim

theorem TxPhyRate.Doubles.not_same {rate rate' : TxPhyRate} (h : rate.Doubles rate') :
    ¬rate.Same rate' := by
  intro hsame
  cases rate <;> cases rate' <;> try exact h.elim
  have hshort := h.1.symm.trans (hsame.2.trans h.2.1)
  cases hshort

theorem TxPhyRate.Same.symm {rate rate' : TxPhyRate} (h : rate.Same rate') : rate'.Same rate := by
  cases rate <;> cases rate' <;> try exact h.elim
  · exact Eq.symm h
  · exact Eq.symm h
  · exact ⟨h.1.symm, h.2.symm⟩

namespace Plcp1Request

theorem toNat_keySlot (keySlot : Fin 25) : (BitVec.ofNat 8 keySlot.val).toNat = keySlot.val := by
  rw [BitVec.toNat_ofNat]
  omega

/-- On the ESP32-S3 and the ESP32-C3 the word determines the transmission. -/
theorem same_of_word {r r' : Plcp1Request} (h : r.word = r'.word) : r.Same r' := by
  have hnat := congrArg BitVec.toNat h
  simp only [word, toNat_plcp1, Option.getD_some, toNat_keySlot] at hnat
  have hrate := r.rate.hardwareRate_lt
  have hrate' := r'.rate.hardwareRate_lt
  have hcode : r.rate.hardwareRate = r'.rate.hardwareRate := BitVec.eq_of_toNat_eq (by omega)
  exact ⟨Fin.ext (by omega), TxPhyRate.same_of_hardwareRate hcode, Fin.ext (by omega)⟩

/-- The two chip families tell two requests apart in every case but one: the requests
differ only in their HT rates, of which one has the short guard interval and half the
MCS of the other. -/
theorem plcp1_determines_iff (r r' : Plcp1Request) :
    ((r.word = r'.word → r.Same r') ∧ (r.fields = r'.fields → r.Same r')) ↔
      ¬(r.frameLength = r'.frameLength ∧ r.keySlot = r'.keySlot ∧ r.interface = r'.interface ∧
        (r.rate.Doubles r'.rate ∨ r'.rate.Doubles r.rate)) := by
  constructor
  · rintro ⟨-, hfields⟩ ⟨hlen, hkey, hinterface, hdoubles⟩
    have hcode : r.rate.asHardwareRate = r'.rate.asHardwareRate :=
      TxPhyRate.asHardwareRate_eq_iff.mpr (.inr hdoubles)
    have hht : r.rate.isHt = r'.rate.isHt :=
      hdoubles.elim TxPhyRate.Doubles.isHt fun h => h.isHt.symm
    have hsame : r.Same r' := by
      refine hfields ?_
      simp only [fields, plcp1Fields, hlen, hkey, hinterface, hcode, hht]
    exact hdoubles.elim (fun h => h.not_same hsame.rate) fun h => h.not_same hsame.rate.symm
  · intro hcollide
    refine ⟨same_of_word, fun h => ?_⟩
    have hlen : r.frameLength = r'.frameLength := Fin.ext (congrArg Plcp1Fields.len h)
    have hinterface : r.interface = r'.interface := Fin.ext (congrArg Plcp1Fields.interfaceId h)
    have hkey : r.keySlot = r'.keySlot := by
      have hnat := congrArg BitVec.toNat (congrArg Plcp1Fields.keySlotId h)
      simp only [fields, plcp1Fields, Option.getD_some, toNat_keySlot] at hnat
      exact Fin.ext hnat
    rcases TxPhyRate.asHardwareRate_eq_iff.mp (congrArg Plcp1Fields.rate h) with hsame | hdoubles
    · exact ⟨hlen, hsame, hkey⟩
    · exact absurd ⟨hlen, hkey, hinterface, hdoubles⟩ hcollide

/-- MCS 1 with the short and MCS 2 with the long guard interval. -/
theorem esp32_mixes_guard_intervals :
    let short : Plcp1Request := ⟨1500, .ht ⟨1, true, false, by decide⟩, 3, 0⟩
    let long : Plcp1Request := ⟨1500, .ht ⟨2, false, false, by decide⟩, 3, 0⟩
    short.fields = long.fields ∧ ¬short.Same long := by
  refine ⟨by decide, fun h => ?_⟩
  exact absurd h.rate.2 (by decide)

end Plcp1Request

end EspWifiHal
