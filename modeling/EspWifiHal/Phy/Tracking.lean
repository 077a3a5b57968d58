import EspWifiHal.Phy.Temperature

/-!
# Tracking of the temperature

The driver calls `tx_pwctrl_background` from time to time.  While the RF is open and the sensor
is on, the dispatcher measures the temperature, adapts the transmit power to it, and corrects
the PLL when the temperature has moved by ten degrees since the last correction.

`close`, `xpd` and `wakeup` switch the RF and the sensor.  They come from the reference counts
of the PHY in any order with the calls of the driver.

The callbacks of the ROM in the slots `ABS` and `0x28` are a parameter, and what they compute is a
hypothesis where it matters.  The output for debugging is left out.
-/

namespace EspWifiHal

namespace Tracking

open Memory Register Trace

/-! ## The functions -/

/-- The callbacks of the ROM with a result. -/
structure Callbacks where
  /-- The slot `ABS`. -/
  absolute : BitVec 32 → BitVec 32
  /-- The slot `0x28`, of a value, an upper and a lower limit. -/
  limit : BitVec 32 → BitVec 32 → BitVec 32 → BitVec 32

/-- The callback is the absolute value of a word, except of the least one. -/
def IsAbsolute (f : BitVec 32 → BitVec 32) : Prop :=
  ∀ x, x.toInt ≠ -2 ^ 31 → (f x).toInt = |x.toInt|

/-- `BUSY`. -/
def busy (chip : PhyChip) : Nat := chip.slot 0x2a4 0x321

/-- `OFF_FLAG`: the sensor is off. -/
def offFlag (chip : PhyChip) : Nat := chip.slot 0x2a2 0x31f

/-- The flag that `close` sets. -/
def closedFlag (chip : PhyChip) : Nat := chip.slot 0x2a3 0x320

def tempToPower (chip : PhyChip) (current reference mode : BitVec 32) : BitVec 32 :=
  let delta := ((current - reference).setWidth 16).toInt
  match chip with
  | .esp32c3 =>
      let quotient :=
        if mode ≠ 0 then if delta > 0 then delta.tdiv 4 else delta.tdiv 5
        else if delta > 0 then delta.tdiv 6 else delta.tdiv 4
      (BitVec.ofInt 8 quotient).signExtend 32
  | .esp32s3 =>
      let quotient := if delta > 0 then delta.tdiv 5 else delta.tdiv 4
      -- the comparison is on the byte, not on the quotient
      let quotient :=
        if delta ≤ 0 ∧ (BitVec.ofInt 8 quotient).toInt < -12 then quotient - 1 else quotient
      (BitVec.ofInt 8 quotient).setWidth 32

namespace Tracker

variable (chip : PhyChip) (cb : Callbacks)

def signed16 (s : Tracker) (offset : Nat) : BitVec 32 := (s.read16 offset).signExtend 32

/-- The write of the analog register, by value. -/
def writeUlp (s : Tracker) (value : BitVec 8) : Tracker :=
  { s with ulp := value }.act (.writeUlp value)

/-- `raw` is what the analog register 4 reads. -/
def ulpSet (enabled value raw : BitVec 32) (s : Tracker) : Tracker :=
  if chip.byte enabled = 0 then s.writeUlp ((chip.byte value).setWidth 8)
  else
    let s := s.write8 0x9f (raw.setWidth 8)
    let s := s.write8 0xa0 (raw.setWidth 8)
    (s.writeUlp (raw.setWidth 8)).act .enableUlp

/-- The setting of the regulator for a change of the temperature since the reference. -/
def ulpValue (s : Tracker) : BitVec 16 :=
  let delta := (s.read16 0x94 - s.read16 (chip.slot 0x2c6 0x212)).toInt
  let adjustment := if delta < 0 then delta.tdiv 6 else delta >>> (3 : Nat)
  let raw := cb.limit (BitVec.ofInt 32 adjustment) 15 (-15)
  (raw + (s.read8 0x9f).setWidth 32).setWidth 16

def ulpTrack (s : Tracker) : Tracker :=
  let value := s.ulpValue chip cb
  if value ≠ (s.read8 0xa0).setWidth 16 then
    ulpSet chip 0 ((value.setWidth 8).setWidth 32) 0 (s.write8 0xa0 (value.setWidth 8))
  else s

/-- The hardware is taken from setting frequencies. -/
def pllBegin (s : Tracker) : Tracker :=
  let s := s.write8 (busy chip) 1
  let s := s.write8 (busy chip + 4) 0
  (s.act .phyDisHwSetFreq).act .waitFreqSetBusy

/-- The regulator follows, and the hardware sets frequencies again. -/
def pllEnd (s : Tracker) : Tracker :=
  let s := if s.read8 0x9f ≠ 0 then s.ulpTrack chip cb else s
  (s.act .phyEnHwSetFreq).write8 (busy chip) 0

/-- A correction, for the last temperature. -/
def pllCorrect (s : Tracker) : Tracker :=
  let s := s.pllBegin chip
  let s := s.act (.rfpllCapCorrect (s.read8 0x9b))
  (s.write16 0x94 (s.read16 0x92)).pllEnd chip cb

def pllTrack (s : Tracker) : Tracker :=
  let distance := cb.absolute (s.signed16 0x92 - s.signed16 0x94)
  if distance.toInt ≤ 9 ∨ s.read8 (busy chip) ≠ 0 then s else s.pllCorrect chip cb

/-- The reference temperature, by radio and mode. -/
def baseline (radio : BitVec 32) (s : Tracker) : BitVec 32 :=
  s.signed16
    (if radio = 0 ∧ s.read8 0x204 = 1 then chip.slot 0x206 0x20c
    else if radio = 1 ∧ s.read8 0x204 = 16 then chip.slot 0x208 0x20e
    else chip.slot 0x2c4 0x210)

/-- The temperature within the limits of the radio. -/
def converted (radio : BitVec 32) (s : Tracker) : BitVec 32 :=
  short (cb.limit (s.signed16 0x92) (s.signed16 (if radio = 0 then 0xb0 else 0xb4))
    (s.signed16 (if radio = 0 then 0xae else 0xb2)))

/-- The correction of the power: a new one after a change of the temperature, else the last. -/
def powerCode (radio : BitVec 32) (s : Tracker) : BitVec 32 :=
  let threshold :=
    if (cb.absolute (s.signed16 0x92 - s.baseline chip radio)).toInt > 7 then 4 else 2
  if (cb.absolute (s.converted cb radio - s.signed16 0x96)).toInt ≥ threshold then
    match chip with
    | .esp32c3 => tempToPower chip (s.converted cb radio) (s.baseline chip radio) radio
    | .esp32s3 =>
        let raw := tempToPower chip (s.converted cb radio) (s.baseline chip radio) 0
        (raw.setWidth 8).setWidth 32
  else
    match chip with
    | .esp32c3 => (s.read8 0x1fa).signExtend 32
    | .esp32s3 => (s.read8 0x1fa).setWidth 32

/-- The parameter with the correction that is in use. -/
def powerOffset (radio : BitVec 32) : Nat := if radio = 0 then 0x1fb else 0x1fc

/-- The correction is in use already.  C3 compares words. -/
def hasCode (radio code : BitVec 32) (s : Tracker) : Bool :=
  (s.read8 (powerOffset radio)).toInt =
    match chip with
    | .esp32c3 => code.toInt
    | .esp32s3 => (code.setWidth 8).toInt

def applyCode (radio : BitVec 32) (code : BitVec 8) (s : Tracker) : Tracker :=
  let s := s.act (.phyBbpllCal 1)
  let s := (s.write8 0x1fa code).write16 0x96 (s.read16 0x92)
  let s := s.write8 (powerOffset radio) code
  let s := s.act (if radio ≠ 0 then .btSetTxGain else .wifiSetTxGain (s.read8 0x1f2))
  s.act (.phyBbpllCal 0)

def powerTrack (radio apply : BitVec 32) (s : Tracker) : Tracker :=
  let radio := chip.byte radio
  let code := s.powerCode chip cb radio
  if chip.byte apply = 0 then s
  else if s.hasCode chip radio code then s
  else s.applyCode radio (code.setWidth 8)

/-- `rfcal` of C3. -/
def rfcal (threshold : BitVec 32) (s : Tracker) : Tracker :=
  if (cb.absolute (s.signed16 0x92 - s.signed16 0x214)).toInt < threshold.toInt then s
  else
    let s := (s.act .disableWifiAgc).act .txdcCalInit
    let s := s.act (.wifiSetTxGain (s.read8 0x1f2))
    (s.write16 0x214 (s.read16 0x92)).act .enableWifiAgc

/-- The arguments of a call of the power tracking. -/
structure PowerCall where
  radio : BitVec 32
  apply : BitVec 32

/-- On S3 the installed callback tracks the power of Wi-Fi.  On C3 a function of the ROM decides
about the calls. -/
def power (enabled : BitVec 8) (rom : List PowerCall) (s : Tracker) : Tracker :=
  match chip with
  | .esp32s3 => s.powerTrack chip cb 0 (enabled.setWidth 32)
  | .esp32c3 => rom.foldl (fun s call => s.powerTrack chip cb call.radio call.apply) s

/-- The RF is open and the sensor is on. -/
def isOpen (s : Tracker) : Bool :=
  match chip with
  | .esp32s3 => read s.params 0x2a0 4 &&& 0xffff0000 = 0
  | .esp32c3 => s.read8 0x320 ||| s.read8 0x31f = 0

/-- Only C3 tracks the calibration of the RF. -/
def rfcalTrack (s : Tracker) : Tracker :=
  match chip with
  | .esp32s3 => s
  | .esp32c3 => if s.read8 0x216 ≠ 0 then s.rfcal cb 20 else s

/-- The flag `0x9c` switches the tracking of the PLL. -/
def pllGate (s : Tracker) : Tracker := if s.read8 0x9c ≠ 0 then s.pllTrack chip cb else s

/-- What the dispatcher does while it is open. -/
def trackAll (enabled : BitVec 8) (reading : Reading) (rom : List PowerCall) (s : Tracker) :
    Option Tracker :=
  (measure chip s reading).map fun s =>
    ((s.power chip cb enabled rom).pllGate chip cb).rfcalTrack chip cb

def dispatch (enabled : BitVec 8) (reading : Reading) (rom : List PowerCall) (token : BitVec 32)
    (s : Tracker) : Option Tracker :=
  let s := s.act .enter
  let s := if s.isOpen chip then s.trackAll chip cb enabled reading rom else some s
  s.map (·.act (.exit token))

/-- `power` of the sensor. -/
def sensorPower (enabled : BitVec 32) (s : Tracker) : Tracker :=
  match chip with
  | .esp32c3 =>
      { s with
        sensor := (s.sensor &&& ~~~(1#32 <<< 22)) ||| ((enabled &&& 1) <<< 22) }
  | .esp32s3 =>
      { s with
        sensor :=
          (s.sensor &&& ~~~(3#32 <<< 22)) ||| if enabled &&& 255 ≠ 0 then 3#32 <<< 22 else 0 }

def xpd (s : Tracker) : Tracker :=
  let s := if s.read8 (offFlag chip) = 0 then s.sensorPower chip 0 else s
  s.write8 (offFlag chip) 1

/-- `close`.  A last measurement is made while the sensor is on. -/
def close (reading : Reading) (s : Tracker) : Option Tracker :=
  (if s.read8 (offFlag chip) = 0 then measure chip s reading else some s).map fun s =>
    (s.act .closeRf).write8 (closedFlag chip) 1

/-- `wakeup`. -/
def wakeup (token : BitVec 32) (s : Tracker) : Tracker :=
  let s := (s.act .enter).sensorPower chip 1
  let s := s.act .wakeup
  let s := (s.write8 (closedFlag chip) 0).write8 (offFlag chip) 0
  s.act (.exit token)

end Tracker

/-! ## What the functions leave alone -/

namespace Tracker

/-- Only the parameters of the list can change. -/
def Only (touched : List Nat) (s s' : Tracker) : Prop :=
  ∀ i, i ∉ touched → s'.params i = s.params i

namespace Only

variable {touched more : List Nat} {s t u : Tracker}

theorem refl (touched : List Nat) (s : Tracker) : Only touched s s := fun _ _ => rfl

theorem trans (h : Only touched s t) (h' : Only touched t u) : Only touched s u :=
  fun i hi => (h' i hi).trans (h i hi)

theorem mono (h : Only touched s t) (hsub : touched ⊆ more) : Only more s t :=
  fun i hi => h i fun hmem => hi (hsub hmem)

theorem write8 (s : Tracker) {offset : Nat} (value : BitVec 8) (h : offset ∈ touched) :
    Only touched s (s.write8 offset value) := by
  intro i hi
  have hne : i ≠ offset := fun heq => hi (heq ▸ h)
  exact fill_of_not_mem (by omega)

theorem write16 (s : Tracker) {offset : Nat} (value : BitVec 16) (h : offset ∈ touched)
    (h' : offset + 1 ∈ touched) : Only touched s (s.write16 offset value) := by
  intro i hi
  have hne : i ≠ offset := fun heq => hi (heq ▸ h)
  have hne' : i ≠ offset + 1 := fun heq => hi (heq ▸ h')
  exact fill_of_not_mem (by omega)

theorem read8 (h : Only touched s t) {offset : Nat} (ho : offset ∉ touched) :
    t.read8 offset = s.read8 offset := by
  rw [Tracker.read8, Tracker.read8, read_one, read_one, h offset ho]

theorem read16 (h : Only touched s t) {o : Nat} (ho : o ∉ touched) (ho' : o + 1 ∉ touched) :
    t.read16 o = s.read16 o := by
  have hread : read t.params o 2 = read s.params o 2 := by
    refine read_congr fun i hi => ?_
    obtain rfl | rfl : i = 0 ∨ i = 1 := by omega
    · exact h o ho
    · exact h (o + 1) ho'
  rw [Tracker.read16, Tracker.read16, hread]

end Only

end Tracker

/-- Actions that neither use the sensor nor correct the PLL. -/
def Action.Quiet : Action → Prop
  | .readCode _ | .temperature _ | .rfpllCapCorrect _ => False
  | _ => True

namespace Tracker

/-- A part of the tracking that does not use the sensor or correct the PLL. -/
structure Calm (touched : List Nat) (s s' : Tracker) : Prop where
  only : Only touched s s'
  sensor : s'.sensor = s.sensor
  dac : s'.dac = s.dac
  actions : ∃ as, (∀ a ∈ as, Action.Quiet a) ∧ s'.actions = s.actions ++ as

namespace Calm

variable {touched more : List Nat} {s t u : Tracker}

theorem refl (touched : List Nat) (s : Tracker) : Calm touched s s :=
  ⟨.refl _ _, rfl, rfl, [], nofun, (List.append_nil _).symm⟩

theorem trans (h : Calm touched s t) (h' : Calm touched t u) : Calm touched s u := by
  obtain ⟨as, has, heq⟩ := h.actions
  obtain ⟨bs, hbs, heq'⟩ := h'.actions
  refine ⟨h.only.trans h'.only, h'.sensor.trans h.sensor, h'.dac.trans h.dac, as ++ bs, ?_, ?_⟩
  · intro a ha
    exact (List.mem_append.mp ha).elim (has a) (hbs a)
  · rw [heq', heq, List.append_assoc]

theorem mono (h : Calm touched s t) (hsub : touched ⊆ more) : Calm more s t :=
  ⟨h.only.mono hsub, h.sensor, h.dac, h.actions⟩

theorem act (s : Tracker) (a : Action) (h : a.Quiet) : Calm touched s (s.act a) :=
  ⟨.refl _ _, rfl, rfl, [a], fun _ hb => List.mem_singleton.mp hb ▸ h, rfl⟩

theorem write8 (s : Tracker) {offset : Nat} (value : BitVec 8) (h : offset ∈ touched) :
    Calm touched s (s.write8 offset value) :=
  ⟨.write8 s value h, rfl, rfl, [], nofun, (List.append_nil _).symm⟩

theorem write16 (s : Tracker) {offset : Nat} (value : BitVec 16) (h : offset ∈ touched)
    (h' : offset + 1 ∈ touched) : Calm touched s (s.write16 offset value) :=
  ⟨.write16 s value h h', rfl, rfl, [], nofun, (List.append_nil _).symm⟩

theorem writeUlp (s : Tracker) (value : BitVec 8) : Calm touched s (s.writeUlp value) :=
  ⟨.refl _ _, rfl, rfl, [.writeUlp value], fun _ hb => List.mem_singleton.mp hb ▸ trivial, rfl⟩

end Calm

variable (chip : PhyChip) (cb : Callbacks)

theorem ulpTrack_calm (s : Tracker) : Calm [0xa0] s (s.ulpTrack chip cb) := by
  unfold ulpTrack
  dsimp only
  split
  · have hwrite : Calm [0xa0] s (s.write8 0xa0 ((s.ulpValue chip cb).setWidth 8)) :=
      .write8 s _ (by decide)
    refine hwrite.trans ?_
    rw [ulpSet, if_pos (by cases chip <;> rfl)]
    exact .writeUlp _ _
  · exact .refl _ _

theorem applyCode_calm (radio : BitVec 32) (code : BitVec 8) (s : Tracker) :
    Calm [0x96, 0x97, 0x1fa, 0x1fb, 0x1fc] s (s.applyCode radio code) := by
  have hoffset : powerOffset radio ∈ [0x96, 0x97, 0x1fa, 0x1fb, 0x1fc] := by
    unfold powerOffset
    split <;> decide
  have hquiet : ∀ channel,
      Action.Quiet (if radio ≠ 0 then .btSetTxGain else .wifiSetTxGain channel) := by
    intro channel
    split <;> trivial
  unfold applyCode
  refine .trans ?_ (.act _ (.phyBbpllCal 0) trivial)
  refine .trans ?_ (.act _ _ (hquiet _))
  refine .trans ?_ (.write8 _ _ hoffset)
  refine .trans ?_ (.write16 _ _ (by decide) (by decide))
  exact (Calm.act s (.phyBbpllCal 1) trivial).trans (.write8 _ _ (by decide))

theorem powerTrack_calm (radio apply : BitVec 32) (s : Tracker) :
    Calm [0x96, 0x97, 0x1fa, 0x1fb, 0x1fc] s (s.powerTrack chip cb radio apply) := by
  unfold powerTrack
  dsimp only
  split
  · exact .refl _ _
  · split
    · exact .refl _ _
    · exact applyCode_calm _ _ _

theorem power_calm (enabled : BitVec 8) (rom : List PowerCall) (s : Tracker) :
    Calm [0x96, 0x97, 0x1fa, 0x1fb, 0x1fc] s (s.power chip cb enabled rom) := by
  cases chip with
  | esp32s3 => exact powerTrack_calm _ _ _ _ _
  | esp32c3 =>
      rw [power]
      induction rom generalizing s with
      | nil => exact .refl _ _
      | cons call rom ih => exact (powerTrack_calm _ _ _ _ _).trans (ih _)

theorem rfcal_calm (threshold : BitVec 32) (s : Tracker) :
    Calm [0x214, 0x215] s (s.rfcal cb threshold) := by
  unfold rfcal
  split
  · exact .refl _ _
  · refine .trans ?_ (.act _ .enableWifiAgc trivial)
    refine .trans ?_ (.write16 _ _ (by decide) (by decide))
    exact ((Calm.act s .disableWifiAgc trivial).trans (.act _ .txdcCalInit trivial)).trans
      (.act _ (.wifiSetTxGain _) trivial)

theorem rfcalTrack_calm (s : Tracker) : Calm [0x214, 0x215] s (s.rfcalTrack chip cb) := by
  cases chip with
  | esp32s3 => exact .refl _ _
  | esp32c3 =>
      rw [rfcalTrack]
      split
      · exact rfcal_calm _ _ _
      · exact .refl _ _

/-! ## The PLL -/

/-- The last temperature, and the one of the last correction of the PLL. -/
def temp (s : Tracker) : Int := (s.read16 0x92).toInt

def tracked (s : Tracker) : Int := (s.read16 0x94).toInt

/-- A difference of halfwords fits into a word. -/
theorem toInt_signExtend_sub (a b : BitVec 16) :
    (a.signExtend 32 - b.signExtend 32).toInt = a.toInt - b.toInt := by
  have ha := a.toInt_lt
  have ha' := a.le_toInt
  have hb := b.toInt_lt
  have hb' := b.le_toInt
  rw [BitVec.toInt_sub, BitVec.toInt_signExtend_of_le (by decide),
    BitVec.toInt_signExtend_of_le (by decide)]
  exact Int.bmod_eq_of_le (by omega) (by omega)

/-- The distance of two halfwords. -/
theorem absolute_sub {f : BitVec 32 → BitVec 32} (hf : IsAbsolute f) (a b : BitVec 16) :
    (f (a.signExtend 32 - b.signExtend 32)).toInt = |a.toInt - b.toInt| := by
  have ha := a.toInt_lt
  have ha' := a.le_toInt
  have hb := b.toInt_lt
  have hb' := b.le_toInt
  rw [hf _ (by rw [toInt_signExtend_sub]; omega), toInt_signExtend_sub]

/-- The parameters that a correction changes. -/
def pllParams : List Nat := [0x94, 0x95, 0xa0, busy chip, busy chip + 4]

/-- A correction of the PLL. -/
structure Corrected (s s' : Tracker) : Prop where
  only : Only (pllParams chip) s s'
  sensor : s'.sensor = s.sensor
  dac : s'.dac = s.dac
  tracked : s'.tracked = s.temp
  idle : s'.read8 (busy chip) = 0
  actions : ∃ as code bs, (∀ a ∈ as ++ bs, Action.Quiet a) ∧
    s'.actions = s.actions ++ (as ++ .rfpllCapCorrect code :: bs)

theorem pllBegin_calm (s : Tracker) : Calm (pllParams chip) s (s.pllBegin chip) := by
  have hbusy : busy chip ∈ pllParams chip ∧ busy chip + 4 ∈ pllParams chip := by
    simp [pllParams]
  refine .trans ?_ (.act _ .waitFreqSetBusy trivial)
  refine .trans ?_ (.act _ .phyDisHwSetFreq trivial)
  exact (Calm.write8 s 1 hbusy.1).trans (.write8 _ 0 hbusy.2)

theorem pllEnd_calm (s : Tracker) : Calm [0xa0, busy chip] s (s.pllEnd chip cb) := by
  refine .trans ?_ (.write8 _ 0 (by simp))
  refine .trans ?_ (.act _ .phyEnHwSetFreq trivial)
  split
  · exact (ulpTrack_calm chip cb s).mono (by simp)
  · exact .refl _ _

theorem pllCorrect_spec (s : Tracker) : Corrected chip s (s.pllCorrect chip cb) := by
  have hbegin := pllBegin_calm chip s
  obtain ⟨as, has, hfirst⟩ := hbegin.actions
  have htemp : (s.pllBegin chip).read16 0x92 = s.read16 0x92 :=
    hbegin.only.read16 (by cases chip <;> decide) (by cases chip <;> decide)
  let t := ((s.pllBegin chip).act (.rfpllCapCorrect ((s.pllBegin chip).read8 0x9b))).write16 0x94
    ((s.pllBegin chip).read16 0x92)
  have hend := pllEnd_calm chip cb t
  obtain ⟨bs, hbs, hlast⟩ := hend.actions
  have hstore : Only (pllParams chip) (s.pllBegin chip) t :=
    .write16 _ _ (by simp [pllParams]) (by simp [pllParams])
  have htracked : (t.pllEnd chip cb).read16 0x94 = t.read16 0x94 :=
    hend.only.read16 (by cases chip <;> decide) (by cases chip <;> decide)
  refine ⟨?_, hend.sensor.trans hbegin.sensor, hend.dac.trans hbegin.dac, ?_, ?_, as,
    (s.pllBegin chip).read8 0x9b, bs, ?_, ?_⟩
  · exact (hbegin.only.trans hstore).trans (hend.only.mono (by simp [pllParams]))
  · have ht : t.read16 0x94 = s.read16 0x92 := (read16_write16 _ _ _).trans htemp
    exact congrArg BitVec.toInt (htracked.trans ht)
  · exact read8_write8 _ _ _
  · intro a ha
    exact (List.mem_append.mp ha).elim (has a) (hbs a)
  · refine hlast.trans ?_
    simp only [t, act, write16, hfirst, List.append_assoc, List.singleton_append]

theorem pllTrack_cases {s : Tracker} (hidle : s.read8 (busy chip) = 0) :
    (s.pllTrack chip cb = s ∧ (IsAbsolute cb.absolute → |s.temp - s.tracked| ≤ 9)) ∨
      (Corrected chip s (s.pllTrack chip cb) ∧
        (IsAbsolute cb.absolute → 9 < |s.temp - s.tracked|)) := by
  have hdistance : IsAbsolute cb.absolute →
      (cb.absolute (s.signed16 0x92 - s.signed16 0x94)).toInt = |s.temp - s.tracked| :=
    fun hcb => absolute_sub hcb _ _
  rw [pllTrack]
  by_cases hnear : (cb.absolute (s.signed16 0x92 - s.signed16 0x94)).toInt ≤ 9
  · exact Or.inl ⟨if_pos (Or.inl hnear), fun hcb => hdistance hcb ▸ hnear⟩
  · refine Or.inr ⟨?_, fun hcb => hdistance hcb ▸ not_le.mp hnear⟩
    rw [if_neg (not_or.mpr ⟨hnear, not_not.mpr hidle⟩)]
    exact pllCorrect_spec chip cb s

end Tracker

/-! ## The flags and the power of the sensor -/

/-- The bits of the power register that switch the sensor. -/
def sensorMask (chip : PhyChip) : BitVec 32 :=
  match chip with
  | .esp32s3 => 3#32 <<< 22
  | .esp32c3 => 1#32 <<< 22

def Powered (chip : PhyChip) (reg : BitVec 32) : Prop := reg &&& sensorMask chip = sensorMask chip

def Unpowered (chip : PhyChip) (reg : BitVec 32) : Prop := reg &&& sensorMask chip = 0

/-- The upper half of a word is its upper bytes. -/
theorem and_upper_eq_zero (v : BitVec 32) :
    v &&& 0xffff0000#32 = 0#32 ↔ byteOf v 2 = 0#8 ∧ byteOf v 3 = 0#8 := by
  have hmask : ∀ i < 32, (0xffff0000#32).getLsbD i = decide (16 ≤ i) := by decide
  have hbyte : ∀ k j, j < 8 → (byteOf v k).getLsbD j = v.getLsbD (8 * k + j) := by
    intro k j hj
    simp [byteOf, hj]
  constructor
  · intro h
    have hbits : ∀ i < 32, 16 ≤ i → v.getLsbD i = false := by
      intro i hi hupper
      have hbit := congrArg (BitVec.getLsbD · i) h
      simpa [hmask i hi, hupper] using hbit
    constructor
    · apply BitVec.eq_of_getLsbD_eq
      intro j hj
      rw [hbyte 2 j hj, hbits _ (by omega) (by omega), BitVec.getLsbD_zero]
    · apply BitVec.eq_of_getLsbD_eq
      intro j hj
      rw [hbyte 3 j hj, hbits _ (by omega) (by omega), BitVec.getLsbD_zero]
  · rintro ⟨h2, h3⟩
    apply BitVec.eq_of_getLsbD_eq
    intro i hi
    rw [BitVec.getLsbD_and, hmask i hi, BitVec.getLsbD_zero]
    by_cases hlow : 16 ≤ i
    · have hi' : v.getLsbD i = false := by
        by_cases hi2 : i < 24
        · have hbit := hbyte 2 (i - 16) (by omega)
          rw [h2, BitVec.getLsbD_zero] at hbit
          rw [show i = 8 * 2 + (i - 16) by omega, ← hbit]
        · have hbit := hbyte 3 (i - 24) (by omega)
          rw [h3, BitVec.getLsbD_zero] at hbit
          rw [show i = 8 * 3 + (i - 24) by omega, ← hbit]
      rw [hi', Bool.false_and]
    · rw [decide_eq_false hlow, Bool.and_false]

namespace Tracker

variable {chip : PhyChip}

theorem read8_eq (s : Tracker) (offset : Nat) : s.read8 offset = s.params offset := by
  rw [read8, read_one]
  exact setWidth_byte _

/-- The dispatcher works while neither flag is set. -/
theorem isOpen_iff (s : Tracker) :
    s.isOpen chip = true ↔ s.read8 (offFlag chip) = 0 ∧ s.read8 (closedFlag chip) = 0 := by
  cases chip with
  | esp32s3 =>
      rw [isOpen, decide_eq_true_eq, read8_eq, read8_eq]
      have hword := and_upper_eq_zero (read s.params 0x2a0 4)
      rwa [byteOf_read (by decide) (by decide), byteOf_read (by decide) (by decide)] at hword
  | esp32c3 =>
      rw [isOpen, decide_eq_true_eq]
      exact BitVec.or_eq_zero_iff.trans And.comm

theorem sensorPower_on (s : Tracker) : Powered chip (s.sensorPower chip 1).sensor := by
  cases chip with
  | esp32s3 => exact or_and_mask _ _
  | esp32c3 => exact or_and_mask _ _

theorem sensorPower_off (s : Tracker) : Unpowered chip (s.sensorPower chip 0).sensor := by
  have hoff : (s.sensorPower chip 0).sensor = s.sensor &&& ~~~sensorMask chip := by
    cases chip <;> exact BitVec.or_zero
  rw [Unpowered, hoff]
  exact and_not_and_mask _ _

theorem sensorPower_eq (chip : PhyChip) (s : Tracker) (enabled : BitVec 32) :
    s.sensorPower chip enabled =
      { s with sensor := (s.sensorPower chip enabled).sensor } := by
  cases chip <;> rfl

/-- The latch of the sensor is not a bit of its power. -/
theorem power_of_latch {r r' : BitVec 32} (h : r' ||| 0x01000000 = r ||| 0x01000000) :
    r' &&& sensorMask chip = r &&& sensorMask chip := by
  have hlatch : ∀ x : BitVec 32,
      (x ||| 0x01000000) &&& sensorMask chip = x &&& sensorMask chip := fun x =>
    or_and_of_disjoint x _ (by cases chip <;> decide)
  rw [← hlatch r', h, hlatch]

end Tracker

/-! ## Runs -/

/-- The steps of a run: the background call of the driver, the calls of the reference counts, and
stores of other code to parameters that are not of the tracking. -/
inductive Event where
  | background (enabled : BitVec 8) (reading : Reading) (rom : List Tracker.PowerCall)
      (token : BitVec 32)
  | close (reading : Reading)
  | xpd
  | wakeup (token : BitVec 32)
  | param (offset : Nat) (value : BitVec 8)

/-- The parameters with the temperatures and the state of the sensor. -/
def ownParams (chip : PhyChip) : List Nat := [0x92, 0x93, 0x94, 0x95, busy chip, offFlag chip]

def Event.Allowed (chip : PhyChip) : Event → Prop
  | .param offset _ => offset ∉ closedFlag chip :: ownParams chip
  | _ => True

def Tracker.step (chip : PhyChip) (cb : Callbacks) (s : Tracker) : Event → Option Tracker
  | .background enabled reading rom token => s.dispatch chip cb enabled reading rom token
  | .close reading => s.close chip reading
  | .xpd => some (s.xpd chip)
  | .wakeup token => some (s.wakeup chip token)
  | .param offset value => some (s.write8 offset value)

/-- The last temperature and the sum of its changes. -/
def travelStep (p : Int × Int) : Action → Int × Int
  | .temperature value => (value.toInt, p.2 + |value.toInt - p.1|)
  | _ => p

/-- How far the temperature has gone from `t`, up and down. -/
def travel (t : Int) (as : List Action) : Int × Int := as.foldl travelStep (t, 0)

def Action.isCorrection : Action → Bool
  | .rfpllCapCorrect _ => true
  | _ => false

/-- The number of corrections of the PLL. -/
def corrections (as : List Action) : Nat := as.countP Action.isCorrection

theorem foldl_travelStep_quiet {as : List Action} (h : ∀ a ∈ as, Action.Quiet a) (p : Int × Int) :
    as.foldl travelStep p = p := by
  induction as with
  | nil => rfl
  | cons a as ih =>
      obtain ⟨ha, has⟩ := List.forall_mem_cons.mp h
      rw [List.foldl_cons, show travelStep p a = p by cases a <;> first | rfl | exact ha.elim]
      exact ih has

theorem corrections_quiet {as : List Action} (h : ∀ a ∈ as, Action.Quiet a) :
    corrections as = 0 := by
  rw [corrections, List.countP_eq_zero]
  intro a ha
  have hquiet := h a ha
  cases a <;> simp_all [Action.Quiet, Action.isCorrection]

theorem travel_append (t : Int) (as bs : List Action) :
    travel t (as ++ bs) = bs.foldl travelStep (travel t as) := List.foldl_append

theorem corrections_append (as bs : List Action) :
    corrections (as ++ bs) = corrections as + corrections bs := List.countP_append

namespace Tracker

variable {chip : PhyChip} {cb : Callbacks}

/-- What holds between two steps, for a run that starts at the temperature `t`, with the PLL
corrected `d` degrees from it. -/
structure Sound (chip : PhyChip) (cb : Callbacks) (t d : Int) (s : Tracker) : Prop where
  row : ∃ r, s.HasRow r
  powered : s.read8 (offFlag chip) = 0 → Powered chip s.sensor
  unpowered : s.read8 (offFlag chip) ≠ 0 → Unpowered chip s.sensor
  reads : ∀ reg, .readCode reg ∈ s.actions → Powered chip reg
  idle : s.read8 (busy chip) = 0
  last : (travel t s.actions).1 = s.temp
  drift : IsAbsolute cb.absolute →
    10 * (corrections s.actions : Int) + |s.temp - s.tracked| ≤ (travel t s.actions).2 + d

variable {t d : Int} {s s' : Tracker}

theorem not_mem_of_own {touched : List Nat} (h : ∀ i ∈ ownParams chip, i ∉ touched) :
    0x92 ∉ touched ∧ 0x93 ∉ touched ∧ 0x94 ∉ touched ∧ 0x95 ∉ touched ∧
      busy chip ∉ touched ∧ offFlag chip ∉ touched := by
  simpa [ownParams] using h

/-- A part that neither uses the sensor nor touches the temperatures and the flags. -/
theorem Sound.calm (hs : s.Sound chip cb t d) {touched : List Nat} (h : Calm touched s s')
    (hown : ∀ i ∈ ownParams chip, i ∉ touched) : s'.Sound chip cb t d := by
  obtain ⟨h92, h93, h94, h95, hbusy, hoff⟩ := not_mem_of_own hown
  obtain ⟨as, has, hactions⟩ := h.actions
  have htemp : s'.temp = s.temp := congrArg BitVec.toInt (h.only.read16 h92 h93)
  have htracked : s'.tracked = s.tracked := congrArg BitVec.toInt (h.only.read16 h94 h95)
  have htravel : travel t s'.actions = travel t s.actions := by
    rw [hactions, travel_append, foldl_travelStep_quiet has]
  have hcorrections : corrections s'.actions = corrections s.actions := by
    rw [hactions, corrections_append, corrections_quiet has, Nat.add_zero]
  obtain ⟨r, hr⟩ := hs.row
  exact {
    row := ⟨r, by rw [HasRow, h.dac]; exact hr⟩
    powered := by
      rw [h.only.read8 hoff, h.sensor]
      exact hs.powered
    unpowered := by
      rw [h.only.read8 hoff, h.sensor]
      exact hs.unpowered
    reads := by
      intro reg hreg
      rw [hactions, List.mem_append] at hreg
      rcases hreg with hreg | hreg
      · exact hs.reads reg hreg
      · exact (has _ hreg).elim
    idle := by rw [h.only.read8 hbusy, hs.idle]
    last := by rw [htravel, htemp, hs.last]
    drift := by
      rw [htravel, hcorrections, htemp, htracked]
      exact hs.drift }

theorem quiet_of_writeDac {as : List Action} (h : ∀ a ∈ as, ∃ dac, a = .writeDac dac) :
    ∀ a ∈ as, Action.Quiet a := by
  intro a ha
  obtain ⟨dac, rfl⟩ := h a ha
  exact trivial

section Measured

variable {row : Row} {value : BitVec 16} (h : s.Measured s' row value)

include h

theorem Measured.only : Only [0x92, 0x93, 0xaa] s s' := by
  intro i hi
  simp only [List.mem_cons, List.not_mem_nil, or_false, not_or] at hi
  exact h.params i hi.1 hi.2.1 hi.2.2

theorem Measured.temp_eq : s'.temp = value.toInt := congrArg BitVec.toInt h.stored

/-- The temperature goes on from the last one to the new one. -/
theorem Measured.travel_eq (hlast : (travel t s.actions).1 = s.temp) :
    travel t s'.actions = (s'.temp, (travel t s.actions).2 + |s'.temp - s.temp|) := by
  obtain ⟨as, has, hactions⟩ := h.actions
  have hfirst : travelStep (travel t s.actions) (.readCode s.sensor) = travel t s.actions := rfl
  rw [hactions, travel_append, travel_append, List.foldl_cons (l := as), hfirst,
    foldl_travelStep_quiet (quiet_of_writeDac has), h.temp_eq, ← hlast]
  rfl

theorem Measured.corrections_eq : corrections s'.actions = corrections s.actions := by
  obtain ⟨as, has, hactions⟩ := h.actions
  have hnone : corrections as = 0 := corrections_quiet (quiet_of_writeDac has)
  rw [hactions, corrections_append, corrections_append]
  simp only [corrections, List.countP_cons, Action.isCorrection]
  exact congrArg (_ + ·) hnone

/-- The sensor is read once, with the power that it had. -/
theorem Measured.reads {reg : BitVec 32} (hreg : .readCode reg ∈ s'.actions) :
    .readCode reg ∈ s.actions ∨ reg = s.sensor := by
  obtain ⟨as, has, hactions⟩ := h.actions
  rw [hactions] at hreg
  simp only [List.mem_append, List.mem_cons, List.not_mem_nil, or_false, reduceCtorEq,
    Action.readCode.injEq] at hreg
  rcases hreg with hreg | hreg | hreg
  · exact Or.inl hreg
  · exact Or.inr hreg
  · obtain ⟨dac, hdac⟩ := has _ hreg
    cases hdac

end Measured

/-- A measurement while the sensor is on. -/
theorem Sound.measure (hs : s.Sound chip cb t d) (hon : s.read8 (offFlag chip) = 0)
    (reading : Reading) : ∃ s', Tracking.measure chip s reading = some s' ∧ s'.Sound chip cb t d ∧
      Only [0x92, 0x93, 0xaa] s s' := by
  obtain ⟨r, hr⟩ := hs.row
  obtain ⟨u, hu, h⟩ := outer_spec chip hr reading
  have hoff : u.read8 (offFlag chip) = s.read8 (offFlag chip) :=
    h.only.read8 (by cases chip <;> decide)
  have hsensor : u.sensor &&& sensorMask chip = s.sensor &&& sensorMask chip :=
    power_of_latch h.sensor
  have htracked : u.tracked = s.tracked :=
    congrArg BitVec.toInt (h.only.read16 (by decide) (by decide))
  have htravel := h.travel_eq hs.last
  refine ⟨u, by rw [Tracking.measure, hu]; rfl, ?_, h.only⟩
  exact {
    row := ⟨_, h.row⟩
    powered := fun _ => hsensor.trans (hs.powered hon)
    unpowered := fun hne => absurd (hoff.trans hon) hne
    reads := by
      intro reg hreg
      rcases h.reads hreg with hreg | rfl
      · exact hs.reads reg hreg
      · exact hs.powered hon
    idle := by rw [h.only.read8 (by cases chip <;> decide), hs.idle]
    last := by rw [htravel]
    drift := by
      intro hcb
      have hdrift := hs.drift hcb
      have htriangle := abs_sub_le u.temp s.temp s.tracked
      rw [htravel, h.corrections_eq, htracked]
      omega }

section Corrected

variable (h : Corrected chip s s')

include h

theorem Corrected.temp_eq : s'.temp = s.temp :=
  congrArg BitVec.toInt (h.only.read16 (by cases chip <;> decide) (by cases chip <;> decide))

theorem Corrected.travel_eq : travel t s'.actions = travel t s.actions := by
  obtain ⟨as, code, bs, hquiet, hactions⟩ := h.actions
  obtain ⟨has, hbs⟩ := List.forall_mem_append.mp hquiet
  rw [hactions, travel_append, List.foldl_append, foldl_travelStep_quiet has, List.foldl_cons,
    foldl_travelStep_quiet hbs]
  rfl

theorem Corrected.corrections_eq : corrections s'.actions = corrections s.actions + 1 := by
  obtain ⟨as, code, bs, hquiet, hactions⟩ := h.actions
  obtain ⟨has, hbs⟩ := List.forall_mem_append.mp hquiet
  have hrest := corrections_quiet hbs
  rw [hactions, corrections_append, corrections_append, corrections_quiet has]
  simp only [corrections, List.countP_cons, Action.isCorrection] at hrest ⊢
  rw [hrest]
  rfl

theorem Corrected.reads {reg : BitVec 32} (hreg : .readCode reg ∈ s'.actions) :
    .readCode reg ∈ s.actions := by
  obtain ⟨as, code, bs, hquiet, hactions⟩ := h.actions
  rw [hactions] at hreg
  simp only [List.mem_append, List.mem_cons, reduceCtorEq, false_or] at hreg
  rcases hreg with hreg | hreg
  · exact hreg
  · exact (hquiet _ (List.mem_append.mpr hreg)).elim

end Corrected

/-- The PLL is corrected when it is ten degrees behind. -/
theorem Sound.pllTrack (hs : s.Sound chip cb t d) :
    (s.pllTrack chip cb).Sound chip cb t d ∧ (IsAbsolute cb.absolute →
      |(s.pllTrack chip cb).temp - (s.pllTrack chip cb).tracked| ≤ 9) := by
  rcases pllTrack_cases chip cb hs.idle with ⟨heq, hnear⟩ | ⟨h, hfar⟩
  · rw [heq]
    exact ⟨hs, hnear⟩
  · have hoff : (s.pllTrack chip cb).read8 (offFlag chip) = s.read8 (offFlag chip) :=
      h.only.read8 (by cases chip <;> decide)
    have hzero : |(s.pllTrack chip cb).temp - (s.pllTrack chip cb).tracked| = 0 := by
      rw [h.tracked, h.temp_eq, sub_self, abs_zero]
    obtain ⟨r, hr⟩ := hs.row
    refine ⟨?_, fun _ => by rw [hzero]; decide⟩
    exact {
      row := ⟨r, by rw [HasRow, h.dac]; exact hr⟩
      powered := by
        rw [hoff, h.sensor]
        exact hs.powered
      unpowered := by
        rw [hoff, h.sensor]
        exact hs.unpowered
      reads := fun reg hreg => hs.reads reg (h.reads hreg)
      idle := h.idle
      last := by rw [h.travel_eq, h.temp_eq, hs.last]
      drift := by
        intro hcb
        have hdrift := hs.drift hcb
        have hten := hfar hcb
        rw [h.travel_eq, h.corrections_eq, hzero]
        push_cast
        omega }

theorem own_power : ∀ i ∈ ownParams chip, i ∉ [0x96, 0x97, 0x1fa, 0x1fb, 0x1fc] := by
  cases chip <;> decide

theorem own_rfcal : ∀ i ∈ ownParams chip, i ∉ [0x214, 0x215] := by
  cases chip <;> decide

/-- The background call while it is open. -/
theorem Sound.trackAll (hs : s.Sound chip cb t d) (hon : s.read8 (offFlag chip) = 0)
    (enabled : BitVec 8) (reading : Reading) (rom : List PowerCall) :
    ∃ s', s.trackAll chip cb enabled reading rom = some s' ∧ s'.Sound chip cb t d ∧
      (IsAbsolute cb.absolute → s.read8 0x9c ≠ 0 → |s'.temp - s'.tracked| ≤ 9) := by
  obtain ⟨u, hu, hmeasured, honly⟩ := hs.measure hon reading
  have hcalm := power_calm chip cb enabled rom u
  have hpower := hmeasured.calm hcalm own_power
  have hflag : (u.power chip cb enabled rom).read8 0x9c = s.read8 0x9c :=
    (hcalm.only.read8 (by decide)).trans (honly.read8 (by decide))
  obtain ⟨hpll, hband⟩ := hpower.pllTrack
  have hgate : ((u.power chip cb enabled rom).pllGate chip cb).Sound chip cb t d ∧
      (IsAbsolute cb.absolute → s.read8 0x9c ≠ 0 →
        |((u.power chip cb enabled rom).pllGate chip cb).temp -
          ((u.power chip cb enabled rom).pllGate chip cb).tracked| ≤ 9) := by
    rw [pllGate, hflag]
    split
    case isTrue => exact ⟨hpll, fun hcb _ => hband hcb⟩
    case isFalse hoff => exact ⟨hpower, fun _ hne => absurd hne hoff⟩
  have hrfcal := rfcalTrack_calm chip cb ((u.power chip cb enabled rom).pllGate chip cb)
  have htemp := congrArg BitVec.toInt (hrfcal.only.read16 (o := 0x92) (by decide) (by decide))
  have htracked := congrArg BitVec.toInt (hrfcal.only.read16 (o := 0x94) (by decide) (by decide))
  rw [Tracker.trackAll, hu]
  refine ⟨_, rfl, hgate.1.calm hrfcal own_rfcal, ?_⟩
  rw [temp, tracked, htemp, htracked]
  exact hgate.2

theorem Sound.act (hs : s.Sound chip cb t d) {a : Action} (h : a.Quiet) :
    (s.act a).Sound chip cb t d :=
  hs.calm (.act s a h : Calm [] _ _) nofun

theorem Sound.dispatch (hs : s.Sound chip cb t d) (enabled : BitVec 8) (reading : Reading)
    (rom : List PowerCall) (token : BitVec 32) :
    ∃ s', s.dispatch chip cb enabled reading rom token = some s' ∧ s'.Sound chip cb t d ∧
      (IsAbsolute cb.absolute → s.isOpen chip = true → s.read8 0x9c ≠ 0 →
        |s'.temp - s'.tracked| ≤ 9) := by
  have henter : (s.act .enter).Sound chip cb t d := hs.act trivial
  have hexit : ∀ u : Tracker, u.Sound chip cb t d → (u.act (.exit token)).Sound chip cb t d :=
    fun u hu => hu.act trivial
  have hopen : (s.act .enter).isOpen chip = s.isOpen chip := by cases chip <;> rfl
  rw [Tracker.dispatch, hopen]
  cases hgate : s.isOpen chip with
  | false => exact ⟨_, rfl, hexit _ henter, fun _ h => absurd h Bool.false_ne_true⟩
  | true =>
      obtain ⟨u, hu, hsound, hband⟩ :=
        henter.trackAll ((isOpen_iff s).mp hgate).1 enabled reading rom
      refine ⟨u.act (.exit token), ?_, hexit _ hsound, fun hcb _ => hband hcb⟩
      rw [if_pos rfl, hu]
      rfl

theorem own_closed : ∀ i ∈ ownParams chip, i ∉ [closedFlag chip] := by
  cases chip <;> decide

theorem Sound.close (hs : s.Sound chip cb t d) (reading : Reading) :
    ∃ s', s.close chip reading = some s' ∧ s'.Sound chip cb t d := by
  have hend : ∀ u : Tracker, u.Sound chip cb t d →
      ((u.act .closeRf).write8 (closedFlag chip) 1).Sound chip cb t d := by
    intro u hu
    have hclose : (u.act .closeRf).Sound chip cb t d := hu.act trivial
    exact hclose.calm (.write8 _ 1 (List.mem_singleton.mpr rfl)) own_closed
  rw [Tracker.close]
  by_cases hon : s.read8 (offFlag chip) = 0
  · obtain ⟨u, hu, hsound, -⟩ := hs.measure hon reading
    rw [if_pos hon, hu]
    exact ⟨_, rfl, hend _ hsound⟩
  · rw [if_neg hon]
    exact ⟨_, rfl, hend _ hs⟩

/-- A change of the power of the sensor together with the flag. -/
theorem Sound.switch (hs : s.Sound chip cb t d) {reg : BitVec 32} {flag : BitVec 8}
    (hon : flag = 0 → Powered chip reg) (hoff : flag ≠ 0 → Unpowered chip reg) :
    (({ s with sensor := reg } : Tracker).write8 (offFlag chip) flag).Sound chip cb t d := by
  have honly : Only [offFlag chip] s
      (({ s with sensor := reg } : Tracker).write8 (offFlag chip) flag) :=
    .write8 { s with sensor := reg } flag (List.mem_singleton.mpr rfl)
  have htemp := honly.read16 (o := 0x92) (by cases chip <;> decide) (by cases chip <;> decide)
  have htracked := honly.read16 (o := 0x94) (by cases chip <;> decide) (by cases chip <;> decide)
  exact {
    row := hs.row
    powered := by
      rw [read8_write8]
      exact hon
    unpowered := by
      rw [read8_write8]
      exact hoff
    reads := hs.reads
    idle := by rw [honly.read8 (by cases chip <;> decide), hs.idle]
    last := by
      rw [temp, htemp]
      exact hs.last
    drift := by
      rw [temp, tracked, htemp, htracked]
      exact hs.drift }

theorem Sound.xpd (hs : s.Sound chip cb t d) : (s.xpd chip).Sound chip cb t d := by
  rw [Tracker.xpd]
  split
  case isTrue =>
      rw [sensorPower_eq]
      exact hs.switch (fun h => absurd h (by decide)) fun _ => sensorPower_off s
  case isFalse hne => exact hs.switch (fun h => absurd h (by decide)) fun _ => hs.unpowered hne

theorem Sound.wakeup (hs : s.Sound chip cb t d) (token : BitVec 32) :
    (s.wakeup chip token).Sound chip cb t d := by
  have henter : (s.act .enter).Sound chip cb t d := hs.act trivial
  have hwake : ((s.act .enter).act .wakeup).Sound chip cb t d := henter.act trivial
  have hclosed : (((s.act .enter).act .wakeup).write8 (closedFlag chip) 0).Sound chip cb t d :=
    hwake.calm (.write8 _ 0 (List.mem_singleton.mpr rfl)) own_closed
  have hon : Powered chip ((s.act .enter).sensorPower chip 1).sensor := sensorPower_on _
  rw [Tracker.wakeup, sensorPower_eq]
  exact (hclosed.switch (fun _ => hon) fun h => absurd rfl h).act trivial

theorem Sound.step (hs : s.Sound chip cb t d) {e : Event} (he : e.Allowed chip) :
    ∃ s', s.step chip cb e = some s' ∧ s'.Sound chip cb t d := by
  cases e with
  | background enabled reading rom token =>
      obtain ⟨s', hs', hsound, -⟩ := hs.dispatch enabled reading rom token
      exact ⟨s', hs', hsound⟩
  | close reading => exact hs.close reading
  | xpd => exact ⟨_, rfl, hs.xpd⟩
  | wakeup token => exact ⟨_, rfl, hs.wakeup token⟩
  | param offset value =>
      refine ⟨_, rfl, hs.calm (.write8 s value (List.mem_singleton.mpr rfl)) ?_⟩
      intro i hi hmem
      obtain rfl := List.mem_singleton.mp hmem
      exact he (List.mem_cons_of_mem _ hi)

/-- The tracking after the calibration: the sensor in one of its ranges, its power as the flag
says and no correction in progress. -/
structure Ready (chip : PhyChip) (s : Tracker) : Prop where
  row : ∃ r, s.HasRow r
  powered : s.read8 (offFlag chip) = 0 → Powered chip s.sensor
  unpowered : s.read8 (offFlag chip) ≠ 0 → Unpowered chip s.sensor
  idle : s.read8 (busy chip) = 0
  fresh : s.actions = []

theorem Ready.sound (cb : Callbacks) (h : s.Ready chip) :
    s.Sound chip cb s.temp |s.temp - s.tracked| where
  row := h.row
  powered := h.powered
  unpowered := h.unpowered
  reads := by
    rw [h.fresh]
    exact nofun
  idle := h.idle
  last := by
    rw [h.fresh]
    rfl
  drift := by
    rw [h.fresh]
    simp [corrections, travel]

theorem Ready.run (h : s.Ready chip) {es : List Event} (hes : ∀ e ∈ es, e.Allowed chip) :
    ∃ s', Trace.run (step chip cb) s es = some s' ∧
      s'.Sound chip cb s.temp |s.temp - s.tracked| :=
  run_total (fun _ _ hs he => hs.step he) hes (h.sound cb)

end Tracker

open Tracker

/-- Whatever the order of background calls, closing, switching off and waking up, and whatever
the sensor reads, no measurement fails, the code of the sensor is read only while the sensor
is powered, and it is powered exactly while its flag is clear.  While the RF is closed or the
sensor is off, a background call does nothing. -/
theorem sensor_of_run (chip : PhyChip) (cb : Callbacks) {s : Tracker} (h : s.Ready chip)
    {es : List Event} (hes : ∀ e ∈ es, e.Allowed chip) :
    ∃ s', run (step chip cb) s es = some s' ∧
      (∀ reg, .readCode reg ∈ s'.actions → Powered chip reg) ∧
      (s'.read8 (offFlag chip) = 0 → Powered chip s'.sensor) ∧
      (s'.read8 (offFlag chip) ≠ 0 → Unpowered chip s'.sensor) ∧
      ∀ enabled reading rom token,
        s'.read8 (offFlag chip) ≠ 0 ∨ s'.read8 (closedFlag chip) ≠ 0 →
        s'.dispatch chip cb enabled reading rom token =
          some ((s'.act .enter).act (.exit token)) := by
  obtain ⟨s', hrun, hsound⟩ := h.run hes
  refine ⟨s', hrun, hsound.reads, hsound.powered, hsound.unpowered, ?_⟩
  intro enabled reading rom token hclosed
  have hgate : (s'.act .enter).isOpen chip ≠ true := by
    rw [Ne, isOpen_iff, not_and_or]
    exact hclosed
  rw [dispatch, if_neg hgate]
  rfl

/-- The tracking of S3 after the calibration at 20 degrees, and a life of it. -/
def readyTracker : Tracker :=
  { params := fun i => if i = 0x92 ∨ i = 0x94 then 20 else if i = 0x9c then 1 else 0
    sensor := 0x00c00000
    dac := 15
    ulp := 0
    actions := [] }

theorem readyTracker_ready : readyTracker.Ready .esp32s3 where
  row := ⟨2, rfl⟩
  powered := fun _ => rfl
  unpowered := fun h => absurd rfl h
  idle := rfl
  fresh := rfl

def reopenEvents : List Event :=
  [.background 1 (readingOf 31) [] 7, .close (readingOf 25), .xpd, .background 1 (readingOf 0) [] 7,
    .wakeup 7, .background 1 (readingOf 20) [] 7]

theorem reopenEvents_allowed : ∀ e ∈ reopenEvents, e.Allowed .esp32s3 := by
  simp [reopenEvents, Event.Allowed]

/-- Callbacks that compute the absolute value and the limit. -/
def exactCallbacks : Callbacks where
  absolute := BitVec.abs
  limit := fun value high low =>
    if high.slt value then high else if value.slt low then low else value

theorem exactCallbacks_absolute : IsAbsolute exactCallbacks.absolute := by
  intro x hx
  have hne : x ≠ BitVec.intMin 32 := fun h => hx (h ▸ rfl)
  exact (BitVec.toInt_abs_eq_natAbs_of_ne_intMin hne).trans (Int.natCast_natAbs _)

theorem sensor_of_run_reopen :
    ∃ s, run (step .esp32s3 exactCallbacks) readyTracker reopenEvents = some s ∧
      (∀ reg, .readCode reg ∈ s.actions → Powered .esp32s3 reg) := by
  obtain ⟨s, hrun, hreads, -⟩ :=
    sensor_of_run .esp32s3 exactCallbacks readyTracker_ready reopenEvents_allowed
  exact ⟨s, hrun, hreads⟩

/-- In every run the PLL is corrected at most once for ten degrees that the temperature moves, up
or down, where the distance from the last correction at the start counts as moved.  Between two
steps no correction is in progress, and after a background call with the RF open, the sensor on
and the tracking of the PLL on, the temperature is at most nine degrees from that of the last
correction. -/
theorem pll_of_run (chip : PhyChip) {cb : Callbacks} (hcb : IsAbsolute cb.absolute) {s : Tracker}
    (h : s.Ready chip) {es : List Event} (hes : ∀ e ∈ es, e.Allowed chip) :
    ∃ s', run (step chip cb) s es = some s' ∧ s'.read8 (busy chip) = 0 ∧
      10 * (corrections s'.actions : Int) ≤
        (travel s.temp s'.actions).2 + |s.temp - s.tracked| ∧
      ∀ enabled reading rom token, s'.isOpen chip = true → s'.read8 0x9c ≠ 0 →
        ∃ t, s'.dispatch chip cb enabled reading rom token = some t ∧
          |t.temp - t.tracked| ≤ 9 := by
  obtain ⟨s', hrun, hsound⟩ := h.run hes
  refine ⟨s', hrun, hsound.idle, ?_, ?_⟩
  · have hdrift := hsound.drift hcb
    have hnonneg := abs_nonneg (s'.temp - s'.tracked)
    omega
  · intro enabled reading rom token hopen htrack
    obtain ⟨t, ht, -, hband⟩ := hsound.dispatch enabled reading rom token
    exact ⟨t, ht, hband hcb hopen htrack⟩

theorem pll_of_run_reopen :
    ∃ s, run (step .esp32s3 exactCallbacks) readyTracker reopenEvents = some s ∧
      10 * (corrections s.actions : Int) ≤ (travel 20 s.actions).2 ∧ s.isOpen .esp32s3 = true ∧
      ∀ reading, ∃ t, s.dispatch .esp32s3 exactCallbacks 1 reading [] 7 = some t ∧
        |t.temp - t.tracked| ≤ 9 := by
  obtain ⟨s, hrun, -, hcorrections, hband⟩ :=
    pll_of_run .esp32s3 exactCallbacks_absolute readyTracker_ready reopenEvents_allowed
  have htemp : readyTracker.temp = 20 := by decide
  have htracked : readyTracker.tracked = 20 := by decide
  rw [htemp, htracked, sub_self, abs_zero, add_zero] at hcorrections
  have hflags : (run (step .esp32s3 exactCallbacks) readyTracker reopenEvents).map
      (fun s => (s.isOpen .esp32s3, s.read8 0x9c)) = some (true, 1) := by decide +kernel
  rw [hrun, Option.map_some, Option.some.injEq, Prod.mk.injEq] at hflags
  have htrack : s.read8 0x9c ≠ 0 := hflags.2 ▸ by decide
  exact ⟨s, hrun, hcorrections, hflags.1, fun reading => hband 1 reading [] 7 hflags.1 htrack⟩

end Tracking

end EspWifiHal
