import EspWifiHal.Tx.HrDsss

/-!
# Rates of the OFDM and HT PHYs

The trait `OfdmBasedRate` derives the symbol interval, the bits of a symbol and the data rate
from what a PHY says about its subcarriers.  A PPDU is a preamble and a number of symbols.

`airtime_of_rate` says that the number is the least one that holds the bits, and that the
calculation does not overflow for any frame.  The bits of a symbol are never rounded.  The symbol
rate is, where the interval does not divide a second, before it is multiplied by them: such a
data rate is too small by at most the bits of a symbol.
-/

namespace EspWifiHal

/-! ## The trait -/

inductive Constellation where
  | bpsk
  | qpsk
  | qam16
  | qam64
deriving DecidableEq, Repr

/-- Coded bits for each symbol and subcarrier. -/
def Constellation.bits : Constellation → Nat
  | .bpsk => 1
  | .qpsk => 2
  | .qam16 => 4
  | .qam64 => 6

def giga : Nat := 1000000000

/-- What a PHY says about its rates. -/
class OfdmBasedRate (R : Type) where
  constellation : R → Constellation
  /-- In Hz. -/
  bandwidth : R → Nat
  dataSubcarriers : R → Nat
  totalSubcarriers : R → Nat
  /-- Numerator and denominator. -/
  codingRate : R → Nat × Nat
  spatialStreams : R → Nat
  /-- In ns. -/
  guardIntervalDuration : R → Nat

namespace OfdmBasedRate

open HrDsssRate (kilo mega usizeOf)

variable {R : Type} [OfdmBasedRate R] (r : R)

/-- In ns. -/
def dftPeriod : Nat := totalSubcarriers r * kilo / (bandwidth r / mega)

/-- In ns. -/
def symbolInterval : Nat := dftPeriod r + guardIntervalDuration r

def symbolRate : Nat := giga / symbolInterval r

def codedBitsPerOfdmSymbol : Nat :=
  (constellation r).bits * dataSubcarriers r * spatialStreams r

def dataBitsPerOfdmSymbol : Nat :=
  codedBitsPerOfdmSymbol r * (codingRate r).1 / (codingRate r).2

/-- Bits per second. -/
def dataRate : Nat := symbolRate r * dataBitsPerOfdmSymbol r

/-- The service field, the PPDU and the tail. -/
def dataBits (max ppduLength : Nat) : Option Nat := do
  let bits ← usizeOf max (ppduLength * 8)
  usizeOf max (16 + bits + 6)

/-- `usize::div_ceil`. -/
def divCeil (n d : Nat) : Nat := if n % d > 0 then n / d + 1 else n / d

end OfdmBasedRate

/-! ## The PHYs -/

open OfdmBasedRate in
instance : OfdmBasedRate OfdmRate where
  constellation r :=
    match 3 - ((r.toByte.toNat - 8) &&& 3) with
    | 0 => .bpsk
    | 1 => .qpsk
    | 2 => .qam16
    | _ => .qam64
  bandwidth _ := 20 * HrDsssRate.mega
  dataSubcarriers _ := 48
  totalSubcarriers _ := 64
  codingRate r :=
    if r = .mbits48 then (2, 3)
    else if (r.toByte.toNat - 8) &&& 4 ≠ 0 then (3, 4)
    else (1, 2)
  spatialStreams _ := 1
  guardIntervalDuration _ := 800

inductive RateDirection where
  | tx
  | rx
deriving DecidableEq, Repr

def RateDirection.maxHtRate : RateDirection → Byte
  | .tx => 7
  | .rx => 32

/-- A rate of the HT PHY, as `new` makes them. -/
structure HtRateOf (d : RateDirection) where
  mcsIndex : Byte
  shortGi : Bool
  cbw40 : Bool
  le : mcsIndex ≤ d.maxHtRate
deriving DecidableEq, Repr

namespace HtRateOf

variable {d : RateDirection}

def new (d : RateDirection) (mcsIndex : Byte) (shortGi cbw40 : Bool) : Option (HtRateOf d) :=
  if h : mcsIndex ≤ d.maxHtRate then some ⟨mcsIndex, shortGi, cbw40, h⟩ else none

theorem toNat_le (r : HtRateOf d) : r.mcsIndex.toNat ≤ 32 := by
  have hle : r.mcsIndex.toNat ≤ d.maxHtRate.toNat := r.le
  have hmax : d.maxHtRate.toNat ≤ 32 := by cases d <;> decide
  omega

/-- The streams of an MCS, with `none` for a panic. -/
def streams (mcsIndex : Nat) : Option Nat :=
  if mcsIndex < 32 then some (mcsIndex / 8 + 1)
  else if mcsIndex = 32 then some 1
  else if mcsIndex ≤ 38 then some 2
  else if mcsIndex ≤ 52 then some 3
  else if mcsIndex ≤ 76 then some 4
  else none

theorem streams_isSome (r : HtRateOf d) : (streams r.mcsIndex.toNat).isSome := by
  have hle := r.toNat_le
  rw [streams]
  split_ifs <;> first | rfl | omega

end HtRateOf

instance {d : RateDirection} : OfdmBasedRate (HtRateOf d) where
  constellation r :=
    if r.mcsIndex = 32 then .bpsk
    else
      match r.mcsIndex.toNat % 8 with
      | 0 => .bpsk
      | 1 | 2 => .qpsk
      | 3 | 4 => .qam16
      | _ => .qam64
  bandwidth r := (if r.cbw40 then 40 else 20) * HrDsssRate.mega
  dataSubcarriers r := if r.cbw40 then 108 else if r.mcsIndex = 32 then 48 else 52
  totalSubcarriers r := if r.cbw40 ∧ r.mcsIndex ≠ 32 then 128 else 64
  codingRate r :=
    if r.mcsIndex = 32 then (1, 2)
    else
      match r.mcsIndex.toNat % 8 with
      | 0 | 1 | 3 => (1, 2)
      | 5 => (2, 3)
      | 2 | 4 | 6 => (3, 4)
      | _ => (5, 6)
  spatialStreams r := (HtRateOf.streams r.mcsIndex.toNat).get r.streams_isSome
  guardIntervalDuration r := if r.shortGi then 400 else 800

section Airtime

open OfdmBasedRate
open HrDsssRate (kilo usizeOf)

/-- In ns, with `none` for a panic. -/
def OfdmRate.airtime (max : Nat) (r : OfdmRate) (ppduLength : Nat) : Option Nat := do
  let preambleDuration := 10 * (dftPeriod r / 4) + 2 * dftPeriod r + dftPeriod r / 2
  if preambleDuration ≠ 16 * kilo then none
  else
    let bits ← dataBits max ppduLength
    let dataSymbols := divCeil bits (dataBitsPerOfdmSymbol r)
    let dataDuration ← usizeOf max ((dataSymbols + 1) * symbolInterval r)
    usizeOf max (preambleDuration + dataDuration)

/-- In ns, with `none` for a panic. -/
def HtRateOf.airtime {d : RateDirection} (max : Nat) (r : HtRateOf d) (ppduLength : Nat) :
    Option Nat := do
  let preambleSymbols := 2 * 2 + 1 + 2 + 1 * (1 + spatialStreams r)
  let bits ← dataBits max ppduLength
  let dataSymbols := divCeil bits (dataBitsPerOfdmSymbol r)
  let dataDuration ← usizeOf max (dataSymbols * symbolInterval r)
  usizeOf max (preambleSymbols * (4 * kilo) + dataDuration)

end Airtime

/-! ## Symbols -/

namespace OfdmBasedRate

open HrDsssRate (kilo mega usizeOf)

theorem le_divCeil_mul (n : Nat) {d : Nat} (hd : 0 < d) : n ≤ divCeil n d * d := by
  have hdivision := Nat.div_add_mod n d
  have hlt := Nat.mod_lt n hd
  rw [divCeil]
  split
  · rw [Nat.add_mul, Nat.mul_comm (n / d)]
    omega
  · rw [Nat.mul_comm]
    omega

theorem divCeil_mul_lt (n : Nat) {d : Nat} (hd : 0 < d) : divCeil n d * d < n + d := by
  have hdivision := Nat.div_add_mod n d
  rw [divCeil]
  split
  · rw [Nat.add_mul, Nat.mul_comm (n / d)]
    omega
  · rw [Nat.mul_comm]
    omega

theorem divCeil_le (n : Nat) {d : Nat} (hd : 0 < d) : divCeil n d ≤ n := by
  by_contra hgt
  have hlt := divCeil_mul_lt n hd
  have hle : (n + 1) * d ≤ divCeil n d * d := Nat.mul_le_mul_right d (Nat.lt_of_not_le hgt)
  have hself : n ≤ n * d := Nat.le_mul_of_pos_right n hd
  rw [Nat.add_mul] at hle
  omega

theorem usizeOf_of_le {max value : Nat} (h : value ≤ max) : usizeOf max value = some value :=
  if_pos h

theorem dataBits_eq {max n : Nat} (hmax : 2 ^ 32 - 1 ≤ max) (hn : n ≤ 4095) :
    dataBits max n = some (8 * n + 22) := by
  rw [dataBits, usizeOf_of_le (by omega), Option.bind_eq_bind, Option.bind_some,
    usizeOf_of_le (by omega)]
  congr 1
  omega

variable {R : Type} [OfdmBasedRate R]

/-- A preamble and the least number of symbols that hold the bits of a PPDU. -/
def FillsSymbols (r : R) (preamble ppduLength t : Nat) : Prop :=
  ∃ k, t = preamble + k * symbolInterval r ∧
    8 * ppduLength + 22 ≤ k * dataBitsPerOfdmSymbol r ∧
    k * dataBitsPerOfdmSymbol r < 8 * ppduLength + 22 + dataBitsPerOfdmSymbol r

/-- The coding rate leaves a whole number of data bits in a symbol. -/
def WholeBits (r : R) : Prop :=
  dataBitsPerOfdmSymbol r * (codingRate r).2 = codedBitsPerOfdmSymbol r * (codingRate r).1

instance (r : R) : Decidable (WholeBits r) :=
  inferInstanceAs (Decidable (_ = _))

/-- What keeps an airtime in range. -/
def Bounded (r : R) : Prop :=
  WholeBits r ∧ 0 < dataBitsPerOfdmSymbol r ∧ 0 < symbolInterval r ∧ symbolInterval r ≤ 4000 ∧
    spatialStreams r ≤ 4

instance (r : R) : Decidable (Bounded r) :=
  inferInstanceAs (Decidable (_ ∧ _))

/-- The data rate is the one of the symbols, up to the bits of a symbol. -/
theorem dataRate_bounds (r : R) (hpos : 0 < symbolInterval r) :
    symbolInterval r * dataRate r ≤ giga * dataBitsPerOfdmSymbol r ∧
      giga * dataBitsPerOfdmSymbol r ≤
        symbolInterval r * (dataRate r + dataBitsPerOfdmSymbol r) := by
  have hdivision := Nat.div_mul_le_self giga (symbolInterval r)
  have hnext : giga ≤ symbolInterval r * (symbolRate r + 1) :=
    Nat.le_of_lt (Nat.lt_mul_div_succ giga hpos)
  rw [dataRate, ← Nat.succ_mul, ← Nat.mul_assoc, ← Nat.mul_assoc]
  refine ⟨Nat.mul_le_mul_right _ ?_, Nat.mul_le_mul_right _ hnext⟩
  rw [Nat.mul_comm]
  exact hdivision

end OfdmBasedRate

/-! ## Airtime -/

section

open OfdmBasedRate
open HrDsssRate (kilo mega usizeOf)

namespace OfdmRate

theorem dftPeriod_eq (r : OfdmRate) : dftPeriod r = 3200 := by cases r <;> decide

theorem symbolInterval_eq (r : OfdmRate) : symbolInterval r = 4000 := by cases r <;> decide

theorem dataBitsPerOfdmSymbol_pos (r : OfdmRate) : 0 < dataBitsPerOfdmSymbol r := by
  cases r <;> decide

theorem wholeBits (r : OfdmRate) : WholeBits r := by cases r <;> decide

theorem airtime_eq {max n : Nat} (hmax : 2 ^ 32 - 1 ≤ max) (hn : n ≤ 4095) (r : OfdmRate) :
    ∃ t, r.airtime max n = some t ∧ FillsSymbols r 20000 n t := by
  have hpos := r.dataBitsPerOfdmSymbol_pos
  have hle := divCeil_le (8 * n + 22) hpos
  refine ⟨_, ?_, divCeil (8 * n + 22) (dataBitsPerOfdmSymbol r), rfl, le_divCeil_mul _ hpos,
    divCeil_mul_lt _ hpos⟩
  have hpreamble : ¬(10 * (3200 / 4) + 2 * 3200 + 3200 / 2 ≠ 16 * kilo) := by decide
  rw [airtime, dftPeriod_eq, symbolInterval_eq, dataBits_eq hmax hn]
  dsimp only
  rw [if_neg hpreamble, Option.bind_eq_bind, Option.bind_some]
  generalize divCeil (8 * n + 22) (dataBitsPerOfdmSymbol r) = k at hle ⊢
  rw [usizeOf_of_le (by omega), Option.bind_some, usizeOf_of_le (by omega)]
  congr 1
  omega

end OfdmRate

namespace HtRateOf

theorem bounded {d : RateDirection} (r : HtRateOf d) : Bounded r := by
  have hall : ∀ (mcsIndex : Byte) (shortGi cbw40 : Bool),
      ∀ r ∈ new d mcsIndex shortGi cbw40, Bounded r := by
    cases d <;> decide +kernel
  exact hall r.mcsIndex r.shortGi r.cbw40 r (dif_pos r.le)

theorem airtime_eq {d : RateDirection} {max n : Nat} (hmax : 2 ^ 32 - 1 ≤ max) (hn : n ≤ 4095)
    (r : HtRateOf d) :
    ∃ t, r.airtime max n = some t ∧ FillsSymbols r (4000 * (8 + spatialStreams r)) n t := by
  obtain ⟨-, hpos, -, hinterval, hstreams⟩ := r.bounded
  have hle := divCeil_le (8 * n + 22) hpos
  refine ⟨_, ?_, divCeil (8 * n + 22) (dataBitsPerOfdmSymbol r), rfl, le_divCeil_mul _ hpos,
    divCeil_mul_lt _ hpos⟩
  rw [airtime, dataBits_eq hmax hn]
  dsimp only
  rw [Option.bind_eq_bind, Option.bind_some]
  generalize divCeil (8 * n + 22) (dataBitsPerOfdmSymbol r) = k at hle ⊢
  have hduration : k * symbolInterval r ≤ (8 * n + 22) * 4000 := Nat.mul_le_mul hle hinterval
  have hkilo : kilo = 1000 := rfl
  rw [hkilo, usizeOf_of_le (by omega), Option.bind_some, usizeOf_of_le (by omega)]
  congr 1
  omega

end HtRateOf

/-- The airtime of every frame of up to 4095 bytes at every rate of the OFDM PHY and of the HT
PHY is a preamble and the least number of symbols that hold the bits, without an overflow.  The
data rate of the OFDM PHY is the exact one, and that of the HT PHY is rounded down. -/
theorem airtime_of_rate (max n : Nat) (hmax : 2 ^ 32 - 1 ≤ max) (hn : n ≤ 4095) :
    (∀ r : OfdmRate, WholeBits r ∧
      (∃ t, r.airtime max n = some t ∧ FillsSymbols r 20000 n t) ∧
      symbolInterval r * dataRate r = giga * dataBitsPerOfdmSymbol r) ∧
    ∀ (d : RateDirection) (r : HtRateOf d), WholeBits r ∧
      (∃ t, r.airtime max n = some t ∧
        FillsSymbols r (4000 * (8 + spatialStreams r)) n t) ∧
      symbolInterval r * dataRate r ≤ giga * dataBitsPerOfdmSymbol r ∧
      giga * dataBitsPerOfdmSymbol r ≤
        symbolInterval r * (dataRate r + dataBitsPerOfdmSymbol r) := by
  refine ⟨fun r => ⟨r.wholeBits, r.airtime_eq hmax hn, ?_⟩,
    fun d r => ⟨r.bounded.1, r.airtime_eq hmax hn, ?_⟩⟩
  · cases r <;> decide
  · exact dataRate_bounds r r.bounded.2.2.1

theorem airtime_of_rate_longest :
    ∃ t, OfdmRate.mbits54.airtime (2 ^ 32 - 1) 4095 = some t ∧
      FillsSymbols OfdmRate.mbits54 20000 4095 t :=
  ((airtime_of_rate (2 ^ 32 - 1) 4095 (by decide) (by decide)).1 .mbits54).2.1

end

end EspWifiHal
