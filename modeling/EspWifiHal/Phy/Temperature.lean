import EspWifiHal.Phy.RfPll
import EspWifiHal.Phy.Register
import EspWifiHal.Lib.Register
import EspWifiHal.Lib.Trace
import Mathlib.Algebra.Order.Group.Int
import Mathlib.Algebra.Order.Group.Abs

/-!
# The temperature sensor

A measurement reads the code of the sensor and converts it.  The sensor has five ranges, each
with a DAC setting, a correction of the conversion and the temperatures that it covers.  When
a measurement is outside of the range in use, another one is set for the next measurement.

The setting that is read back is looked up in the table of the ranges, and an unknown one is
a failed assertion.  `measures_of_run` says that it does not happen, and when the range
changes.
-/

namespace EspWifiHal

namespace Tracking

open Memory Register Trace

/-! ## State -/

/-- What the tracking does outside of the parameters. -/
inductive Action where
  /-- The code of the sensor is read, while its power register has this value. -/
  | readCode (sensor : BitVec 32)
  | writeDac (dac : BitVec 32)
  /-- A temperature is stored. -/
  | temperature (value : BitVec 16)
  | enter
  | exit (token : BitVec 32)
  | phyDisHwSetFreq
  | phyEnHwSetFreq
  | waitFreqSetBusy
  | rfpllCapCorrect (code : BitVec 8)
  | writeUlp (value : BitVec 8)
  | enableUlp
  | phyBbpllCal (value : BitVec 32)
  | wifiSetTxGain (channel : BitVec 8)
  | btSetTxGain
  | disableWifiAgc
  | enableWifiAgc
  | txdcCalInit
  | closeRf
  | wakeup
deriving DecidableEq, Repr

/-- The parameters and the registers that the tracking uses. -/
structure Tracker where
  /-- `phy_param`, by offset. -/
  params : ByteMem
  /-- The power register of the sensor. -/
  sensor : BitVec 32
  /-- The analog register with the DAC setting. -/
  dac : BitVec 8
  /-- The analog register of the ULP regulator. -/
  ulp : BitVec 8
  actions : List Action

namespace Tracker

def act (s : Tracker) (a : Action) : Tracker := { s with actions := s.actions ++ [a] }

def write8 (s : Tracker) (offset : Nat) (value : BitVec 8) : Tracker :=
  { s with params := write s.params offset 1 (value.setWidth 32) }

def write16 (s : Tracker) (offset : Nat) (value : BitVec 16) : Tracker :=
  { s with params := write s.params offset 2 (value.setWidth 32) }

def read8 (s : Tracker) (offset : Nat) : BitVec 8 := (read s.params offset 1).setWidth 8

def read16 (s : Tracker) (offset : Nat) : BitVec 16 := (read s.params offset 2).setWidth 16

end Tracker

/-! ## The functions -/

/-- `ATTRIBUTE_BYTES`: a row has the correction, the DAC setting and the limits of a range. -/
def attributeBytes : List (BitVec 8) :=
  [254, 5, 50, 0, 125, 0, 255, 7, 20, 0, 100, 0, 0, 15, 246, 255, 80, 0, 1, 11, 226, 255, 50, 0,
    2, 10, 216, 255, 20, 0]

def attribute8 (offset : Nat) : BitVec 8 := attributeBytes.getD offset 0

def attribute16 (offset : Nat) : BitVec 16 := attribute8 (offset + 1) ++ attribute8 offset

def decode (chip : PhyChip) (value : BitVec 32) : BitVec 32 :=
  let value := chip.byte value
  if value = 5 then 0
  else if value = 7 then 1
  else if value = 15 then 2
  else if value = 11 then 3
  else if value = 10 then 4
  else 5

/-- The start of a row.  There is no sixth one. -/
def attributeRow (index : BitVec 32) : Option Nat :=
  if index.toNat < 5 then some (index.toNat * 6) else none

/-- The setting for a temperature outside of the range in use. -/
def rangeDac (temperature : Int) : BitVec 32 :=
  if temperature > 99 then 5
  else if temperature > 79 then 7
  else if temperature ≥ -9 then 15
  else if temperature ≥ -29 then 11
  else 10

/-- The masked write of the bits 3 to 0. -/
def Tracker.writeDac (s : Tracker) (dac : BitVec 32) : Tracker :=
  { s with dac := (s.dac &&& ~~~0x0f) ||| (dac.setWidth 8 &&& 0x0f) }.act (.writeDac dac)

def range (chip : PhyChip) (temperature index : BitVec 32) (s : Tracker) :
    Option (BitVec 32 × Tracker) :=
  let temperature := (chip.offset temperature).toInt
  (attributeRow (chip.byte index)).map fun row =>
    if (attribute16 (row + 2)).toInt ≤ temperature ∧
        temperature ≤ (attribute16 (row + 4)).toInt then
      ((attribute8 (row + 1)).setWidth 32, s)
    else (rangeDac temperature, s.writeDac (rangeDac temperature))

/-- What a measurement gets from the hardware: the value in the code register, and the conversion
of the ROM from a code and a correction. -/
structure Reading where
  code : BitVec 32
  convert : BitVec 32 → BitVec 32 → BitVec 32

/-- `code` of S3, which latches the code by a pulse on bit 24, or the ROM function of C3. -/
def Tracker.readCode (chip : PhyChip) (hw : BitVec 32) (s : Tracker) : BitVec 32 × Tracker :=
  let s := s.act (.readCode s.sensor)
  match chip with
  | .esp32s3 =>
      let s := { s with sensor := s.sensor ||| 0x01000000 }
      let s := { s with sensor := s.sensor &&& ~~~0x01000000 }
      (hw &&& 255, s)
  | .esp32c3 => (hw, s)

def inner (chip : PhyChip) (reading : Reading) (s : Tracker) : Option (BitVec 32 × Tracker) := do
  let index := decode chip (s.dac.setWidth 32 &&& 15)
  let s := s.write8 0xaa (index.setWidth 8)
  let (code, s) := s.readCode chip reading.code
  let row ← attributeRow ((s.read8 0xaa).setWidth 32)
  let temperature := reading.convert code ((attribute8 row).signExtend 32)
  let s ← (range chip temperature ((s.read8 0xaa).setWidth 32) s).map Prod.snd
  return (temperature, s)

def outer (chip : PhyChip) (reading : Reading) (s : Tracker) : Option (BitVec 32 × Tracker) := do
  let (value, s) ← inner chip reading s
  return (value, (s.write16 0x92 (value.setWidth 16)).act (.temperature (value.setWidth 16)))

/-! ## Ranges -/

/-- A range of the sensor, which is a row of the table. -/
abbrev Row := Fin 5

namespace Row

def correction (r : Row) : BitVec 32 := (attribute8 (r.val * 6)).signExtend 32

def dac (r : Row) : BitVec 8 := attribute8 (r.val * 6 + 1)

def lower (r : Row) : Int := (attribute16 (r.val * 6 + 2)).toInt

def upper (r : Row) : Int := (attribute16 (r.val * 6 + 4)).toInt

/-- The temperature is in the range. -/
def Covers (r : Row) (t : Int) : Prop := r.lower ≤ t ∧ t ≤ r.upper

instance (r : Row) (t : Int) : Decidable (r.Covers t) := inferInstanceAs (Decidable (_ ∧ _))

/-- The range for a temperature that the one in use does not cover. -/
def choose (t : Int) : Row :=
  if t > 99 then ⟨0, by decide⟩
  else if t > 79 then ⟨1, by decide⟩
  else if t ≥ -9 then ⟨2, by decide⟩
  else if t ≥ -29 then ⟨3, by decide⟩
  else ⟨4, by decide⟩

/-- The range after a measurement. -/
def next (r : Row) (t : Int) : Row := if r.Covers t then r else choose t

theorem next_of_covers {r : Row} {t : Int} (h : r.Covers t) : r.next t = r := if_pos h

theorem limits (r : Row) :
    (r = 0 ∧ r.lower = 50 ∧ r.upper = 125) ∨ (r = 1 ∧ r.lower = 20 ∧ r.upper = 100) ∨
      (r = 2 ∧ r.lower = -10 ∧ r.upper = 80) ∨ (r = 3 ∧ r.lower = -30 ∧ r.upper = 50) ∨
      (r = 4 ∧ r.lower = -40 ∧ r.upper = 20) := by
  revert r
  decide

theorem rangeDac_eq (t : Int) : rangeDac t = (choose t).dac.setWidth 32 := by
  unfold rangeDac choose
  repeat' split
  all_goals rfl

/-- The temperatures for which each range is chosen. -/
theorem chosen (t : Int) :
    (choose t = 0 ∧ 100 ≤ t) ∨ (choose t = 1 ∧ 80 ≤ t ∧ t ≤ 99) ∨
      (choose t = 2 ∧ -9 ≤ t ∧ t ≤ 79) ∨ (choose t = 3 ∧ -29 ≤ t ∧ t ≤ -10) ∨
      (choose t = 4 ∧ t ≤ -30) := by
  unfold choose
  grind

/-- The ranges together cover the temperatures from -40 to 125 degrees. -/
theorem covers_next {r : Row} {t : Int} (h : -40 ≤ t ∧ t ≤ 125) : (r.next t).Covers t := by
  rw [next]
  split
  case isTrue hr => exact hr
  case isFalse =>
      have hlimits := limits (choose t)
      have hchosen := chosen t
      rw [Covers]
      grind

theorem next_eq_of_ne {r q : Row} {t : Int} (hrq : r ≠ q) (h : r.next t = q) :
    ¬r.Covers t ∧ choose t = q := by
  rw [next] at h
  split at h
  case isTrue => exact absurd h hrq
  case isFalse hr => exact ⟨hr, h⟩

/-- Going back to a range needs a change of more than 50 degrees. -/
theorem lt_abs_of_back {r q : Row} {t u : Int} (hrq : r ≠ q) (hleave : r.next t = q)
    (hback : q.next u = r) : 50 < |t - u| := by
  obtain ⟨hr, ht⟩ := next_eq_of_ne hrq hleave
  obtain ⟨hq, hu⟩ := next_eq_of_ne hrq.symm hback
  have ht' := chosen t
  have hu' := chosen u
  rw [ht] at ht'
  rw [hu] at hu'
  rw [Covers] at hr hq
  have hdistance : 50 < t - u ∨ 50 < u - t := by
    rcases limits r with h | h | h | h | h <;> rcases limits q with h' | h' | h' | h' | h' <;>
      obtain ⟨rfl, hlow, hhigh⟩ := h <;> obtain ⟨rfl, hlow', hhigh'⟩ := h' <;>
      simp at ht' hu' hrq <;> omega
  rcases hdistance with h | h
  · exact lt_of_lt_of_le h (le_abs_self _)
  · rw [abs_sub_comm]
    exact lt_of_lt_of_le h (le_abs_self _)

end Row

/-! ## Measurements -/

namespace Tracker

@[simp] theorem read8_write8 (s : Tracker) (offset : Nat) (value : BitVec 8) :
    (s.write8 offset value).read8 offset = value := by
  rw [read8, write8, read_write_of_le _ _ _ (by decide)]
  simp

@[simp] theorem read16_write16 (s : Tracker) (offset : Nat) (value : BitVec 16) :
    (s.write16 offset value).read16 offset = value := by
  rw [read16, write16, read_write_of_le _ _ _ (by decide)]
  simp

/-- The range that is set. -/
def HasRow (s : Tracker) (r : Row) : Prop := s.dac &&& 15 = r.dac

theorem hasRow_writeDac (s : Tracker) (r : Row) : (s.writeDac (r.dac.setWidth 32)).HasRow r := by
  have hdac : ∀ r : Row, r.dac &&& 15 = r.dac := by decide
  rw [HasRow, writeDac, act, setWidth_byte]
  exact (masked_and_mask s.dac r.dac 15).trans (hdac r)

/-- What a measurement of the temperature `t` leaves behind.  Only the range, the latch of the
sensor and three parameters change. -/
structure Measured (s s' : Tracker) (row : Row) (t : BitVec 16) : Prop where
  row : s'.HasRow row
  stored : s'.read16 0x92 = t
  params : ∀ i, i ≠ 0x92 → i ≠ 0x93 → i ≠ 0xaa → s'.params i = s.params i
  sensor : s'.sensor ||| 0x01000000 = s.sensor ||| 0x01000000
  ulp : s'.ulp = s.ulp
  actions : ∃ as, (∀ a ∈ as, ∃ dac, a = .writeDac dac) ∧
    s'.actions = s.actions ++ .readCode s.sensor :: as ++ [.temperature t]

end Tracker

/-- The temperature that a reading gives in a range. -/
def Reading.temperature (reading : Reading) (chip : PhyChip) (r : Row) : BitVec 32 :=
  reading.convert
    (match chip with
    | .esp32s3 => reading.code &&& 255
    | .esp32c3 => reading.code)
    r.correction

/-- The same as the choice of the range sees it. -/
def Reading.degrees (reading : Reading) (chip : PhyChip) (r : Row) : Int :=
  (chip.offset (reading.temperature chip r)).toInt

theorem decode_dac (chip : PhyChip) (r : Row) :
    decode chip (r.dac.setWidth 32) = BitVec.ofNat 32 r := by
  revert r
  cases chip <;> decide

theorem attributeRow_eq (chip : PhyChip) (r : Row) :
    attributeRow (((BitVec.ofNat 32 r).setWidth 8).setWidth 32) = some (r.val * 6) ∧
      attributeRow (chip.byte (((BitVec.ofNat 32 r).setWidth 8).setWidth 32)) =
        some (r.val * 6) := by
  revert r
  cases chip <;> decide

/-- The state after the choice of a range. -/
def Tracker.ranged (s : Tracker) (r : Row) (t : Int) : Tracker :=
  if r.Covers t then s else s.writeDac (rangeDac t)

theorem range_eq (chip : PhyChip) (t : BitVec 32) (r : Row) (s : Tracker) :
    (range chip t (((BitVec.ofNat 32 r).setWidth 8).setWidth 32) s).map Prod.snd =
      some (s.ranged r (chip.offset t).toInt) := by
  rw [range, (attributeRow_eq chip r).2, Tracker.ranged]
  exact congrArg some (apply_ite Prod.snd ..)

theorem ranged_spec {s : Tracker} {r : Row} (h : s.HasRow r) (t : Int) :
    (s.ranged r t).HasRow (r.next t) ∧ (s.ranged r t).params = s.params ∧
      (s.ranged r t).sensor = s.sensor ∧ (s.ranged r t).ulp = s.ulp ∧
      ∃ as, (∀ a ∈ as, ∃ dac, a = .writeDac dac) ∧ (s.ranged r t).actions = s.actions ++ as := by
  rw [Tracker.ranged, Row.next]
  split
  case isTrue => exact ⟨h, rfl, rfl, rfl, [], nofun, (List.append_nil _).symm⟩
  case isFalse =>
      refine ⟨?_, rfl, rfl, rfl, [.writeDac (rangeDac t)], ?_, rfl⟩
      · rw [Row.rangeDac_eq]
        exact s.hasRow_writeDac _
      · intro a ha
        exact ⟨_, List.mem_singleton.mp ha⟩

/-- The code that is read, and the pulse of S3. -/
theorem readCode_spec (chip : PhyChip) (hw : BitVec 32) (s : Tracker) :
    ∃ sensor, s.readCode chip hw =
        (match chip with
          | .esp32s3 => hw &&& 255
          | .esp32c3 => hw,
        { s with sensor := sensor, actions := s.actions ++ [.readCode s.sensor] }) ∧
      sensor ||| 0x01000000 = s.sensor ||| 0x01000000 := by
  cases chip with
  | esp32s3 =>
      exact ⟨_, rfl, pulse_or_mask s.sensor 0x01000000⟩
  | esp32c3 => exact ⟨_, rfl, rfl⟩

theorem inner_eq (chip : PhyChip) {s : Tracker} {r : Row} (h : s.HasRow r) (reading : Reading) :
    ∃ s', inner chip reading s = some (reading.temperature chip r, s') ∧
      s'.HasRow (r.next (reading.degrees chip r)) ∧
      s'.params = (s.write8 0xaa ((BitVec.ofNat 32 r).setWidth 8)).params ∧
      s'.sensor ||| 0x01000000 = s.sensor ||| 0x01000000 ∧ s'.ulp = s.ulp ∧
      ∃ as, (∀ a ∈ as, ∃ dac, a = .writeDac dac) ∧
        s'.actions = s.actions ++ .readCode s.sensor :: as := by
  have hdac : s.dac.setWidth 32 &&& 15 = r.dac.setWidth 32 := by
    rw [← h, BitVec.setWidth_and]
    rfl
  -- the index is stored, and read again before each use
  obtain ⟨sensor, hcode, hsensor⟩ :=
    readCode_spec chip reading.code (s.write8 0xaa ((BitVec.ofNat 32 r).setWidth 8))
  have hindex : ∀ (sensor : BitVec 32) (as : List Action),
      ({ s.write8 0xaa ((BitVec.ofNat 32 r).setWidth 8) with
        sensor := sensor, actions := as } : Tracker).read8 0xaa =
      (BitVec.ofNat 32 r).setWidth 8 := fun _ _ =>
    Tracker.read8_write8 s 0xaa ((BitVec.ofNat 32 r).setWidth 8)
  obtain ⟨hrow, hparams, hranged, hulp, as, has, hactions⟩ :=
    ranged_spec (s := { s.write8 0xaa ((BitVec.ofNat 32 r).setWidth 8) with
      sensor := sensor, actions := s.actions ++ [.readCode s.sensor] }) h
      (reading.degrees chip r)
  refine ⟨_, ?_, hrow, hparams, ?_, hulp, as, has, ?_⟩
  · rw [inner, hdac, decode_dac]
    simp only [hcode, hindex, (attributeRow_eq chip r).1, range_eq, Option.bind_eq_bind,
      Option.bind_some]
    rfl
  · rw [hranged]
    exact hsensor
  · rw [hactions, List.append_assoc]
    rfl

theorem outer_spec (chip : PhyChip) {s : Tracker} {r : Row} (h : s.HasRow r) (reading : Reading) :
    ∃ s', outer chip reading s = some (reading.temperature chip r, s') ∧
      s.Measured s' (r.next (reading.degrees chip r))
        ((reading.temperature chip r).setWidth 16) := by
  obtain ⟨t, ht, hrow, hparams, hsensor, hulp, as, has, hactions⟩ :=
    inner_eq chip h reading
  rw [outer, ht]
  refine ⟨_, rfl, hrow, t.read16_write16 0x92 _, ?_, hsensor, hulp, as, has, ?_⟩
  · intro i h92 h93 haa
    have hstored : ∀ v, write t.params 0x92 2 v i = t.params i := fun v =>
      fill_of_not_mem (by omega)
    have hindex : ∀ v, write s.params 0xaa 1 v i = s.params i := fun v =>
      fill_of_not_mem (by omega)
    exact (hstored _).trans ((congrFun hparams i).trans (hindex _))
  · simp only [Tracker.act, Tracker.write16, hactions, List.append_assoc]

/-! ## Runs -/

/-- A measurement as a step of a run. -/
def measure (chip : PhyChip) (s : Tracker) (reading : Reading) : Option Tracker :=
  (outer chip reading s).map Prod.snd

/-- The range after a run. -/
def rowAfter (chip : PhyChip) (r : Row) (readings : List Reading) : Row :=
  readings.foldl (fun r reading => r.next (reading.degrees chip r)) r

theorem rowAfter_concat (chip : PhyChip) (r : Row) (readings : List Reading) (last : Reading) :
    rowAfter chip r (readings ++ [last]) =
      (rowAfter chip r readings).next (last.degrees chip (rowAfter chip r readings)) := by
  rw [rowAfter, List.foldl_append, List.foldl_cons, List.foldl_nil, ← rowAfter]

theorem run_measure (chip : PhyChip) {s : Tracker} {r : Row} (h : s.HasRow r)
    (readings : List Reading) :
    ∃ s', run (measure chip) s readings = some s' ∧ s'.HasRow (rowAfter chip r readings) := by
  induction readings generalizing s r with
  | nil => exact ⟨s, rfl, h⟩
  | cons reading readings ih =>
      obtain ⟨t, ht, hmeasured⟩ := outer_spec chip h reading
      obtain ⟨s', hs', hrow⟩ := ih hmeasured.row
      refine ⟨s', ?_, hrow⟩
      rw [run_cons, measure, ht]
      exact hs'

/-- From a setting in the table every run of measurements succeeds, whatever the sensor reads, and
leaves a setting in the table.  The last temperature is stored.  The range for the next
measurement is the old one if that covers the temperature, and otherwise one that does, for
the temperatures of the sensor. -/
theorem measures_of_run (chip : PhyChip) {s : Tracker} {r : Row} (h : s.HasRow r)
    (readings : List Reading) (last : Reading) :
    ∃ s', run (measure chip) s (readings ++ [last]) = some s' ∧
      s'.HasRow (rowAfter chip r (readings ++ [last])) ∧
      s'.read16 0x92 = (last.temperature chip (rowAfter chip r readings)).setWidth 16 ∧
      ((rowAfter chip r readings).Covers (last.degrees chip (rowAfter chip r readings)) →
        rowAfter chip r (readings ++ [last]) = rowAfter chip r readings) ∧
      (-40 ≤ last.degrees chip (rowAfter chip r readings) ∧
          last.degrees chip (rowAfter chip r readings) ≤ 125 →
        (rowAfter chip r (readings ++ [last])).Covers
          (last.degrees chip (rowAfter chip r readings))) := by
  obtain ⟨t, ht, hrow⟩ := run_measure chip h readings
  obtain ⟨s', hs', hmeasured⟩ := outer_spec chip hrow last
  have hlast : run (measure chip) t [last] = some s' := by
    rw [run_cons, measure, hs']
    rfl
  rw [rowAfter_concat]
  exact ⟨s', run_trans ht hlast, hmeasured.row, hmeasured.stored, Row.next_of_covers,
    Row.covers_next⟩

/-- A sensor in its middle range, and readings of a given temperature. -/
def idleTracker : Tracker := ⟨fun _ => 0, 0, 15, 0, []⟩

def readingOf (t : BitVec 32) : Reading := ⟨0, fun _ _ => t⟩

theorem measures_of_run_warm :
    ∃ s', run (measure .esp32s3) idleTracker ([readingOf 40] ++ [readingOf 90]) = some s' ∧
      s'.HasRow 1 ∧ s'.read16 0x92 = 90 := by
  obtain ⟨s', hrun, hrow, hstored, -⟩ :=
    measures_of_run .esp32s3 (show idleTracker.HasRow 2 from rfl) [readingOf 40] (readingOf 90)
  exact ⟨s', hrun, hrow, hstored⟩

/-- When a run leaves a range and comes back to it from the next one, the two temperatures are
more than 50 degrees apart. -/
theorem range_hysteresis (chip : PhyChip) (r : Row) (before between : List Reading)
    (leave back : Reading)
    (hleave : rowAfter chip r (before ++ [leave]) ≠ rowAfter chip r before)
    (hstay : rowAfter chip r (before ++ [leave] ++ between) =
      rowAfter chip r (before ++ [leave]))
    (hback : rowAfter chip r (before ++ [leave] ++ between ++ [back]) = rowAfter chip r before) :
    50 < |leave.degrees chip (rowAfter chip r before) -
      back.degrees chip (rowAfter chip r (before ++ [leave]))| := by
  rw [rowAfter_concat chip r (before ++ [leave] ++ between), hstay] at hback
  exact Row.lt_abs_of_back hleave.symm (rowAfter_concat chip r before leave).symm hback

theorem range_hysteresis_warm :
    50 < |(readingOf 90).degrees .esp32c3 2 - (readingOf 10).degrees .esp32c3 1| :=
  range_hysteresis .esp32c3 2 [readingOf 40] [readingOf 60] (readingOf 90) (readingOf 10)
    (by decide) (by decide) (by decide)

end Tracking

end EspWifiHal
