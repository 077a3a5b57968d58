import EspWifiHal.Phy.CapSearch
import EspWifiHal.Phy.Attenuation
import EspWifiHal.Lib.Trace

/-!
# Tuning

There are two ways to a new frequency.  Until the channel memory is programmed, the software
divides and writes the three digits of the divider to the PLL.  Afterwards it only selects an
entry of the memory and the hardware copies the digits from there.  The offset of the crystal
is part of the division in the first case.  In the second it is added to the entries, as a
number of units of the divider that is an approximation of the exact one.

`setChannel_spec` compares both with the divider of the frequency and the offset that were asked
for.  The runs are in the next module.

The hardware is taken to do what its I2C table says: with a strobe that it follows, the
registers 3, 4 and 5 of block 99 get the bytes of the second word of the entry, and the status
register shows the number of the entry.  The block 98 of the PLL, whose lock and capacitor do
not enter the divider, the delays and the loops that wait for the hardware are left out.
-/

namespace EspWifiHal

namespace Tuning

open Memory

/-! ## The functions -/

/-- What is called around a tuning, and the tuning itself. -/
inductive Call where
  | enterCritical
  | exitCritical (token : BitVec 32)
  | disableAgc
  | enableAgc
  | forceTxRxOff (enabled : BitVec 32)
  | tune (frequency : BitVec 32)
  /-- The table slots `0x6c` and `0x78`. -/
  | bandwidth (mode : BitVec 32)
  /-- The table slot `0x60` of C3. -/
  | txGain (arguments : List (BitVec 32))
  | misc (channel : BitVec 32)
  | getTxcapData
  | chan14MicCfg (enabled : BitVec 32)
  | phy11pSet (enabled value : BitVec 32)
  | phyFreqCorrect (mode offset : BitVec 32)
  /-- The bit `0x1000` of the register `0x6001c130`. -/
  | channelChanged
deriving DecidableEq, Repr

structure Tuner where
  /-- The channel memory, the parameters and the local buffer. -/
  freq : FreqState
  /-- `0x6000e150`, with the number of the entry from bit 20 on. -/
  select : BitVec 32
  /-- The number that `0x6000e170` shows from bit 17 on. -/
  shown : BitVec 7
  /-- The registers of block 99. -/
  pll : Nat → BitVec 8
  calls : List Call

/-- What a tuning gets from the hardware. -/
structure Answers where
  token : BitVec 32
  /-- Whether the hardware follows the strobe `k`. -/
  takes : Nat → Bool
  cap : CapReading

def signedByte (value : BitVec 32) : BitVec 32 := (value.setWidth 8).signExtend 32

/-- A signed argument, of which S3 takes the lowest byte. -/
def charArgument (chip : PhyChip) (value : BitVec 32) : BitVec 32 :=
  match chip with
  | .esp32s3 => signedByte value
  | .esp32c3 => value

namespace Tuner

def call (t : Tuner) (c : Call) : Tuner := { t with calls := t.calls ++ [c] }

def updateControl (t : Tuner) (mask value : BitVec 32) : Tuner :=
  { t with freq := t.freq.updateControl mask value }

def writePll (t : Tuner) (register : Nat) (value : BitVec 32) : Tuner :=
  { t with pll := Function.update t.pll register (value.setWidth 8) }

/-- The 24 bits by which the PLL divides. -/
def divider (t : Tuner) : Nat :=
  65536 * (t.pll 3).toNat + 256 * (t.pll 4).toNat + (t.pll 5).toNat

section

variable (chip : PhyChip) (base : FreqBuffer → Nat)

def param (t : Tuner) (offset width : Nat) : BitVec 32 :=
  read t.freq.ram (base .param + offset) width

def setParam (t : Tuner) (offset width : Nat) (value : BitVec 32) : Tuner :=
  { t with freq := { t.freq with ram := write t.freq.ram (base .param + offset) width value } }

def sdm (buffer : Nat) (t : Tuner) : Tuner :=
  let t := t.writePll 0 7
  let t := (List.range 3).foldl (fun t i => t.writePll (3 + i) (read t.freq.ram (buffer + i) 1)) t
  t.writePll 0 23

def set (selector f offset : BitVec 32) (buffer : Nat) (t : Tuner) : Tuner :=
  let ram := frequency chip (chip.half f) (chip.byte selector) (chip.offset offset) buffer
    t.freq.ram
  { t with freq := { t.freq with ram := ram } }.sdm buffer

def setOffset (selector f offset : BitVec 32) (t : Tuner) : Tuner :=
  t.set chip (chip.byte selector) (chip.half f) (chip.offset offset) (base .buffer)

/-- The hardware copies the digits of the entry. -/
def hardwareSwitch (t : Tuner) : Tuner :=
  let entry : BitVec 8 := (t.select >>> 20).setWidth 8
  let word := t.freq.words (slot entry.toNat 1)
  let t := ((t.writePll 3 (word >>> 16)).writePll 4 (word >>> 8)).writePll 5 word
  { t with shown := entry.setWidth 7 }

def strobe (takes : Bool) (t : Tuner) : Tuner :=
  let t := t.updateControl 0 256
  let t := if takes then t.hardwareSwitch else t
  t.updateControl 256 0

/-- Three strobes, until the hardware shows the entry. -/
def strobes (takes : Nat → Bool) (channel : BitVec 32) (t : Tuner) : Tuner :=
  Loop.forBreak
    (fun t k =>
      let t := t.strobe (takes k)
      (t, t.shown.setWidth 32 == channel))
    (List.range 3) t

/-- The offset goes to the entries and the entry is selected. -/
def prepareSwitch (channel offset mode : BitVec 32) (t : Tuner) : Tuner :=
  let t := t.updateControl 256 0
  let t :=
    { t with freq := correctOffset chip offset mode (base .param + 0xe2) t.freq }
  let t := { t with select := (t.select &&& ~~~0x0ff00000#32) ||| channel <<< 20 }
  t.updateControl 255 ((channel <<< 1) &&& 255)

def softwareStart (channel offset mode : BitVec 32) (a : Answers) (t : Tuner) : Tuner :=
  let channel := chip.byte channel
  let t := t.prepareSwitch chip base channel (chip.offset offset) (chip.byte mode)
  let t := t.strobes a.takes channel
  t.setParam base chip.savedCap 2 (readCap a.cap)

/-- `toFrequency` is the callback in the table slots `0x1d4` and `0x1f8`. -/
def setChannel (toFrequency : BitVec 32 → BitVec 32) (channel selector offset : BitVec 32)
    (a : Answers) (t : Tuner) : Tuner :=
  let channel := charArgument chip channel
  let selector := chip.byte selector
  let offset := chip.offset offset
  let f := toFrequency channel
  let t := t.call (.tune f)
  if t.param base 0x120 4 &&& 32 = 0 then t.setOffset chip base selector f offset
  else t.softwareStart chip base (((f - 2400).setWidth 8).setWidth 32) offset selector a

/-- What `channel` stores before it tunes. -/
def storeChannel (channel mode : BitVec 32) (t : Tuner) : Tuner :=
  let flag := if mode ≠ 0 then 1 else 0
  match chip with
  | .esp32s3 =>
      let t := if signedByte (t.param base 0x1f2 1) ≠ channel then t.call .channelChanged else t
      let t := (t.setParam base 0x1f4 1 mode).setParam base 0x1f2 1 channel
      (t.setParam base 0x1f3 1 flag).setParam base chip.special 1 1
  | .esp32c3 =>
      let t := (t.setParam base 0x1f3 1 flag).setParam base chip.special 1 1
      (t.setParam base 0x1f2 1 channel).setParam base 0x1f4 1 mode

/-- What `channel` calls after it has tuned. -/
def finishChannel (channel mode : BitVec 32) (t : Tuner) : Tuner :=
  let t := t.call (.bandwidth mode)
  let t :=
    match chip with
    | .esp32s3 => t
    | .esp32c3 =>
        t.call (.txGain [channel, mode, 0, t.param base 0xf3 1, t.param base 0x11c 2,
          t.param base 0x118 2, t.param base 0x11a 1])
  let t := t.call (.misc channel)
  let t :=
    match chip with
    | .esp32s3 => t
    | .esp32c3 => t.call .getTxcapData
  let t :=
    if t.param base 0xe6 1 ≠ 0 then t.call (.chan14MicCfg (if channel = 14 then 1 else 0)) else t
  let enabled := t.param base 0xef 1
  if enabled ≠ 0 then t.call (.phy11pSet enabled (t.param base 0xf0 1)) else t

def channel (toFrequency : BitVec 32 → BitVec 32) (channel mode : BitVec 32) (a : Answers)
    (t : Tuner) : Tuner :=
  let channel := charArgument chip channel
  let mode := charArgument chip mode
  let t := (t.call .enterCritical).storeChannel chip base channel mode
  let offset := short (t.param base 0xe0 2)
  let t := (t.call .disableAgc).call (.forceTxRxOff 1)
  let t := t.setChannel chip base toFrequency channel (t.param base 0xf3 1) offset a
  let t := (t.finishChannel chip base channel mode).call (.forceTxRxOff 0)
  (t.call .enableAgc).call (.exitCritical a.token)

/-- The offset that `channelOffset` stores: a multiple of four, and the correction of the
parameters if it is on. -/
def storeOffset (offset : BitVec 32) (t : Tuner) : Tuner :=
  let rounded := short ((offset + 2) &&& ~~~3#32)
  let t := t.setParam base 0xe0 2 rounded
  if t.param base 0x11e 1 ≠ 0 then
    t.setParam base 0xe0 2 (rounded + signedByte (t.param base 0x11f 1) * 8)
  else t

def channelOffset (toFrequency : BitVec 32 → BitVec 32) (offset : BitVec 32) (a : Answers)
    (t : Tuner) : Tuner :=
  let t := (t.call .enterCritical).storeOffset base (chip.offset offset)
  let t := (t.call (.phyFreqCorrect 1 (short (t.param base 0xe0 2)))).call .disableAgc
  let channel := signedByte (t.param base 0x1f2 1)
  let t := t.setChannel chip base toFrequency channel (t.param base 0xf3 1)
    (short (t.param base 0xe0 2)) a
  (t.call .enableAgc).call (.exitCritical a.token)

def channelAnalog (toFrequency : BitVec 32 → BitVec 32) (channel : BitVec 32) (a : Answers)
    (t : Tuner) : Tuner :=
  let channel := charArgument chip channel
  let t := t.setChannel chip base toFrequency channel (t.param base 0xf3 1) 0 a
  t.setParam base 0x1f2 1 channel

/-- `initialize` of the channel memory, which leaves the PLL at 2464 MHz. -/
def initializeFrequencies (readings : PllReadings) (t : Tuner) : Tuner :=
  if t.param base 0x120 4 &&& 32 ≠ 0 then t
  else
    let set (f : BitVec 32) (t : Tuner) : Tuner :=
      t.set chip (t.param base 0xf3 1) f 0 (base .buffer)
    { t with
      freq := initializeMemory chip clampCallback base readings t.freq
      pll := (set 2464 (set 2400 (set 2437 t))).pll }

end

end Tuner

/-! ## The registers of the PLL -/

section Registers

variable {chip : PhyChip} {t : Tuner}

theorem sdm_divider (buffer : Nat) (t : Tuner) :
    (t.sdm buffer).divider =
      65536 * (t.freq.ram buffer).toNat + 256 * (t.freq.ram (buffer + 1)).toNat +
        (t.freq.ram (buffer + 2)).toNat := by
  simp [Tuner.sdm, Tuner.divider, Tuner.writePll, List.range_succ, Function.update, read_one]

/-- The software writes the digits that it has computed. -/
theorem set_divider (selector f offset : BitVec 32) (buffer : Nat) (t : Tuner) :
    (t.set chip selector f offset buffer).divider =
      frequencyWord chip (chip.half f) (chip.byte selector) (chip.offset offset) := by
  rw [Tuner.set, sdm_divider, frequencyWord_eq]
  simp only [frequency_eq]
  rw [fill_range (by decide : 1 < 3), fill_range (by decide : 2 < 3)]
  exact congrArg (fun b : BitVec 8 => 65536 * b.toNat + _ + _) (fill_range (by decide : 0 < 3))

theorem hardwareSwitch_divider {i : Nat} (hi : i < 85)
    (hselect : (t.select >>> 20).setWidth 8 = BitVec.ofNat 8 i)
    (hword : (t.freq.words (slot i 1)).toNat < 2 ^ 24) :
    t.hardwareSwitch.divider = (t.freq.words (slot i 1)).toNat := by
  have hentry : (BitVec.ofNat 8 i).toNat = i := by
    rw [BitVec.toNat_ofNat]
    omega
  have hdivider : t.hardwareSwitch.divider =
      65536 * (byteOf (t.freq.words (slot i 1)) 2).toNat +
        256 * (byteOf (t.freq.words (slot i 1)) 1).toNat +
        (byteOf (t.freq.words (slot i 1)) 0).toNat := by
    rw [Tuner.hardwareSwitch]
    simp only [hselect, hentry]
    rfl
  rw [hdivider, toNat_byteOf, toNat_byteOf, toNat_byteOf]
  omega

end Registers

/-! ## The divider that is asked for -/

/-- The divider for `2400 + i` MHz and an offset in kHz, rounded down. -/
def idealDivider (chip : PhyChip) (selector : BitVec 32) (i : Nat) (offset : Int) : Int :=
  let d : Int := pllDenominator chip selector
  65536 * (4 * (1000 * (2400 + i) + offset) - 32 * d) / d

section Ideal

variable {chip : PhyChip} {selector value : BitVec 32} {i : Nat}

theorem frequencyWord_div {f : BitVec 32} (hlow : 0 ≤ pllNumerator chip f selector value)
    (hhigh : pllNumerator chip f selector value < 256 * pllDenominator chip selector) :
    (frequencyWord chip f selector value : Int) =
      65536 * pllNumerator chip f selector value / pllDenominator chip selector := by
  have hpos : 0 < pllDenominator chip selector := by omega
  have hdigit := pllDigit_toNat hlow hhigh
  obtain ⟨n, hn⟩ := Int.eq_ofNat_of_zero_le hlow
  rw [hn, Int.toNat_natCast] at hdigit
  have hdivision : frequencyWord chip f selector value =
      65536 * n / pllDenominator chip selector :=
    calc
      _ = 256 * (256 * (pllDigit chip f selector value 0).toNat +
            (pllDigit chip f selector value 1).toNat) +
          (pllDigit chip f selector value 2).toNat := by
        rw [frequencyWord_eq]
        omega
      _ = 256 * (256 * n) / pllDenominator chip selector := by
        rw [hdigit, hdigit, hdigit, three_digits 256 n hpos]
      _ = 65536 * n / pllDenominator chip selector := by rw [← Nat.mul_assoc]
  rw [hn, hdivision]
  norm_cast

theorem offset_toInt (hvalue : value.toInt.natAbs ≤ 32767) :
    (chip.offset value).toInt = value.toInt := by
  cases chip with
  | esp32s3 => exact short_toInt (by omega) (by omega)
  | esp32c3 => rfl

/-- The denominators of the clocks of 40 and of 26 MHz. -/
theorem pllDenominator_cases (chip : PhyChip) (hselector : selector = 0 ∨ selector = 1) :
    selector = 0 ∧ pllDenominator chip selector = 120000 ∨
      selector = 1 ∧ pllDenominator chip selector = 78000 := by
  rcases hselector with rfl | rfl
  · exact .inl ⟨rfl, by cases chip <;> decide⟩
  · exact .inr ⟨rfl, by cases chip <;> decide⟩

theorem entry_toNat (hi : i < 85) : (2400 + BitVec.ofNat 32 i).toNat = 2400 + i := by
  rw [BitVec.toNat_add, BitVec.toNat_ofNat]
  show (2400 + i % 2 ^ 32) % 2 ^ 32 = _
  omega

theorem frequencyWord_ideal (hselector : selector = 0 ∨ selector = 1) (hi : i < 85)
    (hvalue : value.toInt.natAbs ≤ 10000) :
    (frequencyWord chip (2400 + BitVec.ofNat 32 i) selector value : Int) =
      idealDivider chip selector i value.toInt := by
  have hnumerator : pllNumerator chip (2400 + BitVec.ofNat 32 i) selector value =
      4 * (1000 * (2400 + i) + value.toInt) - 32 * pllDenominator chip selector := by
    rw [pllNumerator, entry_toNat hi, offset_toInt (by omega)]
    rfl
  rw [frequencyWord_div, hnumerator]
  · rfl
  all_goals
    rw [hnumerator]
    rcases pllDenominator_cases chip hselector with ⟨_, hd⟩ | ⟨_, hd⟩ <;>
    · rw [hd]
      omega

/-- An offset in units of the divider, as it is added to the entries. -/
def scaledInt (selector : BitVec 32) (offset : Int) : Int :=
  if selector = 0 then 9 * offset / 4 else 27 * offset / 8

@[simp] theorem scaledInt_zero (offset : Int) : scaledInt 0 offset = 9 * offset / 4 := rfl

@[simp] theorem scaledInt_one (offset : Int) : scaledInt 1 offset = 27 * offset / 8 := rfl

theorem setWidth_sshiftRight_toInt {x : BitVec 32} (n : Nat)
    (hx : (x.toInt / 2 ^ n).natAbs ≤ 32767) :
    ((x.sshiftRight n).setWidth 16).toInt = x.toInt / 2 ^ n := by
  have hshift : (x.sshiftRight n).toInt = x.toInt / 2 ^ n := by
    rw [BitVec.toInt_sshiftRight, Int.shiftRight_eq_div_pow]
    norm_cast
  have hshort : (short (x.sshiftRight n)).toInt = ((x.sshiftRight n).setWidth 16).toInt :=
    BitVec.toInt_signExtend_of_le (by decide)
  rw [← hshort, short_toInt (by omega) (by omega), hshift]

theorem scaledOffset_toInt (chip : PhyChip) (hselector : selector = 0 ∨ selector = 1)
    (hvalue : value.toInt.natAbs ≤ 9200) :
    (scaledOffset chip value selector).toInt = scaledInt selector value.toInt := by
  have hoffset : (chip.offset value).toInt = value.toInt := offset_toInt (by omega)
  have hnine : (chip.offset value * 9).toInt = 9 * value.toInt := by
    rw [BitVec.toInt_mul, hoffset, Int.mul_comm]
    exact Int.bmod_eq_of_le (by show -_ ≤ 9 * _; omega) (by show 9 * _ < _; omega)
  have htwentySeven : (chip.offset value * 27).toInt = 27 * value.toInt := by
    rw [BitVec.toInt_mul, hoffset, Int.mul_comm]
    exact Int.bmod_eq_of_le (by show -_ ≤ 27 * _; omega) (by show 27 * _ < _; omega)
  rw [scaledOffset]
  rcases hselector with rfl | rfl
  · have hmode : chip.byte 0 = 0 := by cases chip <;> rfl
    simp only [hmode, if_true, scaledInt_zero]
    rw [setWidth_sshiftRight_toInt] <;> rw [hnine] <;> omega
  · have hmode : chip.byte 1 ≠ 0 := by cases chip <;> decide
    simp only [hmode, if_false, scaledInt_one]
    rw [setWidth_sshiftRight_toInt] <;> rw [htwentySeven] <;> omega

/-- The software divides by the offset that is stored. -/
theorem idealDivider_near (hselector : selector = 0 ∨ selector = 1) {stored asked : Int}
    (hstored : (stored - asked).natAbs ≤ 2) :
    (idealDivider chip selector i stored - idealDivider chip selector i asked).natAbs ≤
      asked.natAbs / 15 + 10 := by
  rw [idealDivider, idealDivider]
  rcases pllDenominator_cases chip hselector with ⟨_, hd⟩ | ⟨_, hd⟩ <;>
  · simp only [hd]
    omega

/-- The entries have the scaled offset.  The factors 9 / 4 and 27 / 8 are off by less than a
fifteenth. -/
theorem scaledInt_near (hselector : selector = 0 ∨ selector = 1) {stored asked : Int}
    (hstored : (stored - asked).natAbs ≤ 2) :
    (idealDivider chip selector i 0 + scaledInt selector stored -
      idealDivider chip selector i asked).natAbs ≤ asked.natAbs / 15 + 10 := by
  rw [idealDivider, idealDivider]
  rcases pllDenominator_cases chip hselector with ⟨rfl, hd⟩ | ⟨rfl, hd⟩
  · simp only [hd, scaledInt_zero]
    omega
  · simp only [hd, scaledInt_one]
    omega

end Ideal

/-! ## The entries -/

/-- The entries are those of their frequencies plus the stored offset. -/
structure Loaded (chip : PhyChip) (selector : BitVec 32) (stored : Nat) (s : FreqState) : Prop where
  idle : s.Idle
  word : ∀ i < 85, ((s.words (slot i 1)).toNat : Int) =
    idealDivider chip selector i 0 + (storedOffset stored s).toInt
  range : (storedOffset stored s).toInt.natAbs ≤ 31100

section Entries

variable {chip : PhyChip} {selector value : BitVec 32} {stored : Nat} {s s' : FreqState}

theorem idealDivider_range (chip : PhyChip) (hselector : selector = 0 ∨ selector = 1) {i : Nat}
    (hi : i < 85) :
    40000 ≤ idealDivider chip selector i 0 ∧ idealDivider chip selector i 0 < 2 ^ 24 - 40000 := by
  rw [idealDivider]
  rcases pllDenominator_cases chip hselector with ⟨_, hd⟩ | ⟨_, hd⟩ <;>
  · simp only [hd]
    omega

theorem scaledInt_range (hselector : selector = 0 ∨ selector = 1) {offset : Int}
    (hoffset : offset.natAbs ≤ 9200) : (scaledInt selector offset).natAbs ≤ 31100 := by
  rcases hselector with rfl | rfl
  · rw [scaledInt_zero]
    omega
  · rw [scaledInt_one]
    omega

namespace Loaded

theorem congr (h : Loaded chip selector stored s) (hidle : s'.Idle) (hwords : s'.words = s.words)
    (hstored : storedOffset stored s' = storedOffset stored s) :
    Loaded chip selector stored s' := by
  refine ⟨hidle, fun i hi => ?_, ?_⟩
  · rw [hwords, hstored]
    exact h.word i hi
  · rw [hstored]
    exact h.range

theorem word_lt (h : Loaded chip selector stored s) (hselector : selector = 0 ∨ selector = 1)
    {i : Nat} (hi : i < 85) : (s.words (slot i 1)).toNat < 2 ^ 24 := by
  have hrange := h.range
  have hword := h.word i hi
  have hideal := idealDivider_range chip hselector hi
  omega

/-- The capacitor codes are in other words. -/
theorem capMemory (h : Loaded chip selector stored s) (delta : BitVec 32) :
    Loaded chip selector stored (s.capMemory delta) := by
  obtain ⟨⟨hidle, hram⟩, -, hrest⟩ := FreqState.capMemory_spec h.idle delta
  have hstored : storedOffset stored (s.capMemory delta) = storedOffset stored s := by
    rw [storedOffset, hram, storedOffset]
  refine ⟨hidle, fun i hi => ?_, ?_⟩
  · rw [hrest i hi 1 (by decide) (by decide), hstored]
    exact h.word i hi
  · rw [hstored]
    exact h.range

theorem correctOffset (h : Loaded chip selector stored s)
    (hselector : selector = 0 ∨ selector = 1) (hvalue : value.toInt.natAbs ≤ 9200) :
    let s' := EspWifiHal.correctOffset chip value selector stored s
    Loaded chip selector stored s' ∧
      (storedOffset stored s').toInt = scaledInt selector value.toInt := by
  intro s'
  have hscaled := scaledOffset_toInt chip hselector hvalue
  by_cases hsame : storedOffset stored s = scaledOffset chip value selector
  · have hs' : s' = s := correctOffset_same hsame
    rw [hs', ← hscaled, hsame]
    exact ⟨h, rfl⟩
  · obtain ⟨⟨hidle, hstored⟩, hdone, -⟩ := correctOffset_spec h.idle hsame
    have hdelta := toInt_signExtend_sub (scaledOffset chip value selector) (storedOffset stored s)
    have hscaledRange := scaledInt_range hselector hvalue
    have hrange := h.range
    refine ⟨⟨hidle, fun i hi => ?_, ?_⟩, ?_⟩
    · have hword := h.word i hi
      have hideal := idealDivider_range chip hselector hi
      rw [hstored, hdone i hi, addOffset_toNat] <;> omega
    · rw [hstored, hscaled]
      exact hscaledRange
    · rw [hstored, hscaled]

end Loaded

theorem updateControl_keeps (hs : s.Idle) (mask : BitVec 32) (hvalue : value.getLsbD 9 = false) :
    (s.updateControl mask value).Idle ∧ (s.updateControl mask value).words = s.words ∧
      (s.updateControl mask value).ram = s.ram := by
  have hoff : ((s.control &&& ~~~mask) ||| value).getLsbD 9 = false := by
    have hcontrol : s.control.getLsbD 9 = false := hs
    rw [BitVec.getLsbD_or, BitVec.getLsbD_and, hvalue, hcontrol, Bool.false_and, Bool.or_false]
  rw [FreqState.updateControl, FreqState.writeControl_off hoff]
  exact ⟨hoff, rfl, rfl⟩

theorem foldl_ram {body : FreqState → Nat → FreqState} (hbody : ∀ s i, (body s i).ram = s.ram)
    (s : FreqState) (xs : List Nat) : (xs.foldl body s).ram = s.ram := by
  induction xs generalizing s with
  | nil => rfl
  | cons x xs ih => rw [List.foldl_cons, ih, hbody]

/-- A correction stores the new offset and writes nothing else to the parameters. -/
theorem correctOffset_changes (a size : Nat) (mode : BitVec 32) (s : FreqState) :
    ChangesOnly a size [(0xe2, 2)] s.ram (correctOffset chip value mode (a + 0xe2) s).ram := by
  rw [correctOffset]
  split
  · exact .refl _ _ _ _
  · refine ChangesOnly.write _ ?_ (by simp)
    rw [foldl_ram]
    · exact .refl _ _ _ _
    · exact fun _ _ => rfl

end Entries

/-! ## The switch by the hardware -/

/-- The entries, the parameters and the selected entry stay. -/
structure Steady (t t' : Tuner) : Prop where
  idle : t'.freq.Idle
  words : t'.freq.words = t.freq.words
  ram : t'.freq.ram = t.freq.ram
  select : t'.select = t.select

namespace Steady

variable {t t' t'' : Tuner}

theorem refl (h : t.freq.Idle) : Steady t t := ⟨h, rfl, rfl, rfl⟩

theorem trans (h : Steady t t') (h' : Steady t' t'') : Steady t t'' :=
  ⟨h'.idle, h'.words.trans h.words, h'.ram.trans h.ram, h'.select.trans h.select⟩

theorem updateControl (h : t.freq.Idle) (mask : BitVec 32) {value : BitVec 32}
    (hvalue : value.getLsbD 9 = false) : Steady t (t.updateControl mask value) := by
  obtain ⟨hidle, hwords, hram⟩ := updateControl_keeps h mask hvalue
  exact ⟨hidle, hwords, hram, rfl⟩

theorem hardwareSwitch (h : t.freq.Idle) : Steady t t.hardwareSwitch := ⟨h, rfl, rfl, rfl⟩

theorem strobe (h : t.freq.Idle) (takes : Bool) : Steady t (t.strobe takes) := by
  have hon : Steady t (t.updateControl 0 256) := .updateControl h 0 (by decide)
  rw [Tuner.strobe]
  cases takes with
  | false => exact hon.trans (.updateControl hon.idle 256 (by decide))
  | true =>
      have hswitch := hon.trans (.hardwareSwitch hon.idle)
      exact hswitch.trans (.updateControl hswitch.idle 256 (by decide))

theorem loaded {chip : PhyChip} {selector : BitVec 32} {stored : Nat} (h : Steady t t')
    (hloaded : Loaded chip selector stored t.freq) : Loaded chip selector stored t'.freq :=
  hloaded.congr h.idle h.words (by rw [storedOffset, h.ram, storedOffset])

end Steady

section Switch

variable {t : Tuner} {i : Nat}

/-- The PLL has the digits of the entry `i` of `t`. -/
structure Switched (t : Tuner) (i : Nat) (t' : Tuner) : Prop where
  divider : t'.divider = (t.freq.words (slot i 1)).toNat
  shown : t'.shown = BitVec.ofNat 7 i

theorem strobe_ignored (t : Tuner) :
    (t.strobe false).pll = t.pll ∧ (t.strobe false).shown = t.shown :=
  ⟨rfl, rfl⟩

theorem strobe_followed (hidle : t.freq.Idle) (hi : i < 85)
    (hselect : (t.select >>> 20).setWidth 8 = BitVec.ofNat 8 i)
    (hword : (t.freq.words (slot i 1)).toNat < 2 ^ 24) : Switched t i (t.strobe true) := by
  have hon : Steady t (t.updateControl 0 256) := .updateControl hidle 0 (by decide)
  refine ⟨?_, ?_⟩
  · have hdivider := hardwareSwitch_divider (t := t.updateControl 0 256) hi hselect
      (by rw [hon.words]; exact hword)
    rw [hon.words] at hdivider
    exact hdivider
  · show ((t.select >>> 20).setWidth 8 : BitVec 8).setWidth 7 = _
    rw [hselect]
    exact BitVec.setWidth_ofNat_of_le (by decide) i

theorem strobes_steady (takes : Nat → Bool) (channel : BitVec 32) (hidle : t.freq.Idle) :
    Steady t (t.strobes takes channel) :=
  Loop.forBreak_inv _ (Steady t) (fun k _ h => h.trans (.strobe h.idle (takes k))) _
    (.refl hidle)

/-- The hardware follows one of the strobes.  If it shows the entry before, this has to be
the first one, as the software does not make another. -/
def Followed (takes : Nat → Bool) (i : Nat) (t : Tuner) : Prop :=
  takes 0 = true ∨ t.shown ≠ BitVec.ofNat 7 i ∧ ∃ k < 3, takes k = true

theorem strobes_switched {takes : Nat → Bool} (hidle : t.freq.Idle) (hi : i < 85)
    (hselect : (t.select >>> 20).setWidth 8 = BitVec.ofNat 8 i)
    (hword : (t.freq.words (slot i 1)).toNat < 2 ^ 24) (hfollowed : Followed takes i t) :
    Switched t i (t.strobes takes (BitVec.ofNat 32 i)) := by
  -- either the PLL has the digits, or no strobe so far was followed
  let I (k : Nat) (u : Tuner) : Prop :=
    Steady t u ∧ (Switched t i u ∨ u.shown = t.shown ∧ ∀ j < k, takes j = false)
  have hstep : ∀ k u, I k u → I (k + 1) (u.strobe (takes k)) := by
    rintro k u ⟨hsteady, hu⟩
    refine ⟨hsteady.trans (.strobe hsteady.idle _), ?_⟩
    cases htakes : takes k with
    | true =>
        have hnew : Switched u i (u.strobe true) :=
          strobe_followed hsteady.idle hi (by rw [hsteady.select]; exact hselect)
            (by rw [hsteady.words]; exact hword)
        exact .inl ⟨by rw [hnew.divider, hsteady.words], hnew.shown⟩
    | false =>
        obtain ⟨hpll, hshown⟩ := strobe_ignored u
        rcases hu with hu | ⟨hu, hnone⟩
        · refine .inl ⟨?_, hshown.trans hu.shown⟩
          rw [Tuner.divider, hpll]
          exact hu.divider
        · refine .inr ⟨hshown.trans hu, fun j hj => ?_⟩
          rcases Nat.lt_succ_iff_lt_or_eq.mp hj with hlt | rfl
          · exact hnone j hlt
          · exact htakes
  have hstart : I 0 t := ⟨.refl hidle, .inr ⟨rfl, fun j hj => absurd hj (Nat.not_lt_zero j)⟩⟩
  have hloop := Loop.forBreak_range
    (fun u k => (u.strobe (takes k), (u.strobe (takes k)).shown.setWidth 32 == BitVec.ofNat 32 i))
    I 3 hstart fun k _ u hu _ => hstep k u hu
  rcases hloop with ⟨-, hswitched | ⟨-, hnone⟩⟩ | ⟨k, -, u, hu, hstop, heq⟩
  · exact hswitched
  · rcases hfollowed with hfirst | ⟨-, j, hj, htakes⟩
    · rw [hnone 0 (by decide)] at hfirst
      cases hfirst
    · rw [hnone j hj] at htakes
      cases htakes
  · rw [Tuner.strobes, heq]
    rcases (hstep k u hu).2 with hswitched | ⟨hshown, hnone⟩
    · exact hswitched
    · -- the loop ended with the entry that was shown before
      have hentry : (u.strobe (takes k)).shown = BitVec.ofNat 7 i := by
        have hvalue := congrArg BitVec.toNat (eq_of_beq hstop)
        apply BitVec.eq_of_toNat_eq
        rw [BitVec.toNat_setWidth, BitVec.toNat_ofNat] at hvalue
        rw [BitVec.toNat_ofNat]
        omega
      rcases hfollowed with hfirst | ⟨hother, -⟩
      · rw [hnone 0 (Nat.succ_pos k)] at hfirst
        cases hfirst
      · exact absurd (hshown.symm.trans hentry) hother

end Switch

/-! ## One tuning -/

section Tune

variable {chip : PhyChip} (B : FreqBuffers chip) {selector offset : BitVec 32} {t : Tuner}

/-- The parameters at the ranges are all that changes. -/
abbrev ParamsChange (ranges : List (Nat × Nat)) (t t' : Tuner) : Prop :=
  ChangesOnly (B.base .param) chip.paramSize ranges t.freq.ram t'.freq.ram

/-- The entries and where their offset is stored. -/
abbrev Entries (selector : BitVec 32) (t : Tuner) : Prop :=
  Loaded chip selector (B.base .param + 0xe2) t.freq

variable {B}

theorem Entries.setParam {k width : Nat} {value : BitVec 32} (h : Entries B selector t)
    (hk : k + width ≤ 0xe2 ∨ 0xe4 ≤ k) : Entries B selector (t.setParam B.base k width value) := by
  refine h.congr h.idle rfl ?_
  refine congrArg (BitVec.setWidth 16) (read_congr fun i hi => ?_)
  exact fill_of_not_mem (by omega)

theorem byte_selector (chip : PhyChip) (hselector : selector = 0 ∨ selector = 1) :
    chip.byte selector = selector := by
  rcases hselector with rfl | rfl <;> cases chip <;> rfl

theorem byte_entry (chip : PhyChip) {i : Nat} (hi : i < 85) :
    chip.byte (BitVec.ofNat 32 i) = BitVec.ofNat 32 i := by
  cases chip with
  | esp32s3 =>
      apply BitVec.eq_of_toNat_eq
      simp only [PhyChip.byte, BitVec.toNat_setWidth, BitVec.toNat_ofNat]
      omega
  | esp32c3 => rfl

theorem select_byte (old channel : BitVec 32) :
    (((old &&& ~~~0x0ff00000#32) ||| channel <<< 20) >>> 20).setWidth 8 =
      channel.setWidth 8 := by
  apply BitVec.eq_of_getLsbD_eq
  intro j hj
  interval_cases j <;> simp

theorem select_entry (old : BitVec 32) (i : Nat) :
    (((old &&& ~~~0x0ff00000#32) ||| BitVec.ofNat 32 i <<< 20) >>> 20).setWidth 8 =
      BitVec.ofNat 8 i :=
  (select_byte old _).trans (BitVec.setWidth_ofNat_of_le (by decide) i)

theorem prepareSwitch_spec (hentries : Entries B selector t)
    (hselector : selector = 0 ∨ selector = 1) (hoffset : offset.toInt.natAbs ≤ 9200)
    (channel : BitVec 32) :
    let t' := t.prepareSwitch chip B.base channel offset selector
    (Entries B selector t' ∧
      (storedOffset (B.base .param + 0xe2) t'.freq).toInt = scaledInt selector offset.toInt) ∧
      ParamsChange B [(0xe2, 2)] t t' := by
  intro t'
  let t₁ := t.updateControl 256 0
  let t₂ : Tuner :=
    { t₁ with
      freq := correctOffset chip offset selector (B.base .param + 0xe2) t₁.freq
      select := (t₁.select &&& ~~~0x0ff00000#32) ||| channel <<< 20 }
  have h₁ : Steady t t₁ := .updateControl hentries.idle 256 (by decide)
  obtain ⟨hentries₂, hstored⟩ : Entries B selector t₂ ∧
      (storedOffset (B.base .param + 0xe2) t₂.freq).toInt = scaledInt selector offset.toInt :=
    (h₁.loaded hentries).correctOffset hselector hoffset
  have hchange : ParamsChange B [(0xe2, 2)] t₁ t₂ := correctOffset_changes _ _ selector t₁.freq
  have h₂ : Steady t₂ t' := .updateControl hentries₂.idle 255 (by simp)
  refine ⟨⟨h₂.loaded hentries₂, ?_⟩, ?_⟩
  · rw [storedOffset, h₂.ram]
    exact hstored
  · rw [ParamsChange, h₂.ram, ← h₁.ram]
    exact hchange

theorem softwareStart_spec (hentries : Entries B selector t)
    (hselector : selector = 0 ∨ selector = 1) (hoffset : offset.toInt.natAbs ≤ 9200)
    (channel : BitVec 32) (a : Answers) :
    let t' := t.softwareStart chip B.base channel offset selector a
    (Entries B selector t' ∧ ParamsChange B [(0xe2, 2), (chip.savedCap, 2)] t t') ∧
      ∀ i < 85, channel = BitVec.ofNat 32 i → Followed a.takes i t →
        (t'.divider : Int) = idealDivider chip selector i 0 + scaledInt selector offset.toInt := by
  intro t'
  have hoffsetInt : (chip.offset offset).toInt = offset.toInt := offset_toInt (by omega)
  have hprepare := prepareSwitch_spec hentries hselector (hoffsetInt ▸ hoffset) (chip.byte channel)
  rw [hoffsetInt] at hprepare
  obtain ⟨⟨hentries₁, hstored⟩, hchange⟩ := hprepare
  have ht' : t' = ((t.prepareSwitch chip B.base (chip.byte channel) (chip.offset offset)
      selector).strobes a.takes (chip.byte channel)).setParam B.base chip.savedCap 2
        (readCap a.cap) := by
    show t.softwareStart chip B.base channel offset selector a = _
    rw [Tuner.softwareStart, byte_selector chip hselector]
  have hsaved : 0xe4 ≤ chip.savedCap := by cases chip <;> decide
  have hsteady := strobes_steady a.takes (chip.byte channel) hentries₁.idle
  rw [ht']
  refine ⟨⟨Entries.setParam (hsteady.loaded hentries₁) (.inr hsaved), ?_⟩, ?_⟩
  · refine ChangesOnly.write _ ?_ (by simp)
    rw [hsteady.ram]
    exact hchange.mono (by simp)
  · rintro i hi rfl hfollowed
    rw [byte_entry chip hi] at hentries₁ hstored ⊢
    have hswitched := strobes_switched hentries₁.idle hi (select_entry _ i)
      (hentries₁.word_lt hselector hi) hfollowed
    rw [← hstored, ← hentries₁.word i hi]
    exact congrArg Nat.cast hswitched.divider

theorem frequency_params (f selector offset : BitVec 32) (t : Tuner) :
    ChangesOnly (B.base .param) chip.paramSize [] t.freq.ram
      (frequency chip f selector offset (B.base .buffer) t.freq.ram) := by
  intro x hx _
  rw [frequency_eq]
  exact B.fill_other (r := .buffer) (s := .param) (k := 0) (by decide)
    (by show 0 + 3 ≤ 80; decide) hx

theorem entry_index {i : Nat} (hi : i < 85) :
    ((2400 + BitVec.ofNat 32 i - 2400).setWidth 8).setWidth 32 = BitVec.ofNat 32 i := by
  apply BitVec.eq_of_toNat_eq
  rw [BitVec.add_comm, BitVec.add_sub_cancel, BitVec.toNat_setWidth, BitVec.toNat_setWidth,
    BitVec.toNat_ofNat]
  omega

theorem half_entry (chip : PhyChip) {i : Nat} (hi : i < 85) :
    chip.half (2400 + BitVec.ofNat 32 i) = 2400 + BitVec.ofNat 32 i := by
  cases chip with
  | esp32s3 =>
      apply BitVec.eq_of_toNat_eq
      rw [PhyChip.half, BitVec.toNat_setWidth, BitVec.toNat_setWidth, entry_toNat hi]
      omega
  | esp32c3 => rfl

/-- The software is exact. -/
theorem setOffset_divider (hselector : selector = 0 ∨ selector = 1)
    (hoffset : offset.toInt.natAbs ≤ 9200) {i : Nat} (hi : i < 85) (t : Tuner) :
    ((t.setOffset chip B.base selector (2400 + BitVec.ofNat 32 i) offset).divider : Int) =
      idealDivider chip selector i offset.toInt := by
  have hnarrow : ∀ value : BitVec 32, value.toInt = offset.toInt →
      (chip.offset value).toInt = offset.toInt :=
    fun value hvalue => (offset_toInt (by omega)).trans hvalue
  have hvalue := hnarrow _ (hnarrow _ rfl)
  rw [Tuner.setOffset, set_divider, half_entry chip hi, half_entry chip hi,
    byte_selector chip hselector, byte_selector chip hselector,
    frequencyWord_ideal hselector hi (by omega), hvalue]

/-- The channel memory is programmed. -/
def Tuner.programmed (base : FreqBuffer → Nat) (t : Tuner) : Prop :=
  t.param base 0x120 4 &&& 32 ≠ 0

theorem setChannel_spec (hentries : t.programmed B.base → Entries B selector t)
    (hselector : selector = 0 ∨ selector = 1) (hoffset : offset.toInt.natAbs ≤ 9200)
    (toFrequency : BitVec 32 → BitVec 32) (channel : BitVec 32) (a : Answers) :
    let t' := t.setChannel chip B.base toFrequency channel selector offset a
    ((t'.programmed B.base → Entries B selector t') ∧
      ParamsChange B [(0xe2, 2), (chip.savedCap, 2)] t t') ∧
      ∀ i < 85, toFrequency (charArgument chip channel) = 2400 + BitVec.ofNat 32 i →
        (t.programmed B.base → Followed a.takes i t) →
        ∀ asked : Int, (offset.toInt - asked).natAbs ≤ 2 →
          (t'.divider - idealDivider chip selector i asked).natAbs ≤ asked.natAbs / 15 + 10 := by
  intro t'
  have hoffsetInt : (chip.offset offset).toInt = offset.toInt := offset_toInt (by omega)
  have hbyte := byte_selector chip hselector
  by_cases hprogrammed : t.programmed B.base
  · let f := toFrequency (charArgument chip channel)
    have ht' : t' = (t.call (.tune f)).softwareStart chip B.base
        (((f - 2400).setWidth 8).setWidth 32) (chip.offset offset) selector a := by
      show t.setChannel chip B.base toFrequency channel selector offset a = _
      rw [Tuner.setChannel, hbyte]
      exact if_neg hprogrammed
    have hcall : Entries B selector (t.call (.tune f)) := hentries hprogrammed
    obtain ⟨⟨hloaded, hchange⟩, hdivider⟩ := softwareStart_spec hcall hselector
      (hoffsetInt ▸ hoffset) (((f - 2400).setWidth 8).setWidth 32) a
    rw [ht']
    refine ⟨⟨fun _ => hloaded, hchange⟩, fun i hi hf hfollowed asked hasked => ?_⟩
    have hindex : ((f - 2400).setWidth 8).setWidth 32 = BitVec.ofNat 32 i := by
      rw [show f = 2400 + BitVec.ofNat 32 i from hf]
      exact entry_index hi
    rw [hdivider i hi hindex (hfollowed hprogrammed), hoffsetInt]
    exact scaledInt_near hselector hasked
  · let f := toFrequency (charArgument chip channel)
    have ht' : t' = (t.call (.tune f)).setOffset chip B.base selector f (chip.offset offset) := by
      show t.setChannel chip B.base toFrequency channel selector offset a = _
      rw [Tuner.setChannel, hbyte]
      exact if_pos (not_not.mp hprogrammed)
    have hchange : ParamsChange B [] t t' := by
      rw [ht']
      exact frequency_params _ _ _ t
    have hflag : t'.param B.base 0x120 4 = t.param B.base 0x120 4 :=
      hchange.read_eq (by have := chip.le_paramSize; omega) (by simp)
    refine ⟨⟨fun h => absurd ?_ hprogrammed, hchange.mono (by simp)⟩, ?_⟩
    · rw [Tuner.programmed, hflag] at h
      exact h
    · intro i hi hf _ asked hasked
      rw [ht', show f = 2400 + BitVec.ofNat 32 i from hf,
        setOffset_divider hselector (by omega) hi, hoffsetInt]
      exact idealDivider_near hselector hasked

end Tune

end Tuning

end EspWifiHal
