import EspWifiHal.Phy.Tuning

/-!
# Runs of tunings

The driver changes the channel, the calibration changes the offset of the crystal, and the
tracking of the temperature corrects the capacitor codes, in any order.  At some point the
channel memory is programmed, and from then on the hardware switches.

The offset is rounded to a multiple of four, and there may be a correction in the parameters.
The entries of the channel memory are corrected from one offset to the next.  `divider_of_run`
says that what the PLL gets stays close to what was asked for last.
-/

namespace EspWifiHal

namespace Tuning

open Memory

/-! ## Initialization -/

section Initialization

variable {chip : PhyChip} {B : FreqBuffers chip} {s : FreqState}

theorem initializeMemory_changes (readings : PllReadings)
    (hfirst : read s.ram (B.base .param + 0x120) 4 &&& 32 = 0) :
    ChangesOnly (B.base .param) chip.paramSize [(0xe2, 2), (0x120, 4)] s.ram
      (initializeMemory chip clampCallback B.base readings s).ram := by
  let ram := setRfpllFreq chip B.base 2464
    (setRfpllFreq chip B.base 2400 (setRfpllFreq chip B.base 2437 s.ram))
  have hset : ∀ (f : BitVec 32) (m : ByteMem), ∀ x < chip.paramSize,
      setRfpllFreq chip B.base f m (B.base .param + x) = m (B.base .param + x) :=
    fun f m x hx => param_of_frequency B hx
  have hparam : ∀ x < chip.paramSize,
      ({ s with ram := ram } : FreqState).ram (B.base .param + x) = s.ram (B.base .param + x) :=
    fun x hx => (hset _ _ x hx).trans ((hset _ _ x hx).trans (hset _ _ x hx))
  have hfilled : Filled B readings s.ram 85 _ := Filled.foldl hparam (Nat.le_refl 85)
  rw [initializeMemory, if_neg (not_not.mpr hfirst)]
  have hloop : ChangesOnly (B.base .param) chip.paramSize [(0xe2, 2), (0x120, 4)] s.ram _ :=
    fun x hx _ => hfilled.param x hx
  show ChangesOnly _ _ _ _ (initializeFlags chip _ _)
  rw [initializeFlags.eq_def]
  cases chip with
  | esp32s3 => exact (hloop.write _ (by simp)).write _ (by simp)
  | esp32c3 => exact (hloop.write _ (by simp)).write _ (by simp)

theorem initializeMemory_loaded (readings : PllReadings)
    (hfirst : read s.ram (B.base .param + 0x120) 4 &&& 32 = 0)
    (hselector : read s.ram (B.base .param + 0xf3) 1 = 0 ∨
      read s.ram (B.base .param + 0xf3) 1 = 1) :
    Loaded chip (read s.ram (B.base .param + 0xf3) 1) (B.base .param + 0xe2)
      (initializeMemory chip clampCallback B.base readings s) := by
  have hprogrammed : Programmed (B.base .param + 0xe2) readings.saved (capCode readings)
      (fun i => frequencyWord chip (2400 + BitVec.ofNat 32 i)
        (read s.ram (B.base .param + 0xf3) 1) 0) 0
      (initializeMemory chip clampCallback B.base readings s) :=
    initializeMemory_programmed hfirst
  refine ⟨hprogrammed.idle, fun i hi => ?_, ?_⟩
  · rw [hprogrammed.word i hi, hprogrammed.stored]
    exact congrArg (· + 0) (frequencyWord_ideal hselector hi (by decide))
  · rw [hprogrammed.stored]
    decide

end Initialization

/-! ## Runs -/

/-- The calls that tune, and the others that change the channel memory. -/
inductive Event where
  | channel (channel mode : BitVec 32) (a : Answers)
  | channelOffset (offset : BitVec 32) (a : Answers)
  | channelAnalog (channel : BitVec 32) (a : Answers)
  | hwInit (readings : PllReadings)
  | capMemory (delta : BitVec 32)

/-- What was asked for: the offset, and the one that applies to the last tuning. -/
structure Request where
  offset : Int
  applied : Int

section Run

variable (chip : PhyChip) (base : FreqBuffer → Nat) (toFrequency : BitVec 32 → BitVec 32)

def step (t : Tuner) : Event → Tuner
  | .channel channel mode a => t.channel chip base toFrequency channel mode a
  | .channelOffset offset a => t.channelOffset chip base toFrequency offset a
  | .channelAnalog channel a => t.channelAnalog chip base toFrequency channel a
  | .hwInit readings => t.initializeFrequencies chip base readings
  | .capMemory delta => { t with freq := t.freq.capMemory delta }

/-- The correction of the offset by the parameters. -/
def adjustment (m : ByteMem) : Int :=
  if read m (base .param + 0x11e) 1 ≠ 0 then
    8 * (signedByte (read m (base .param + 0x11f) 1)).toInt
  else 0

def Request.next (m : ByteMem) (r : Request) : Event → Request
  | .channel .. => { r with applied := r.offset }
  | .channelOffset offset _ =>
      { offset := offset.toInt + adjustment base m, applied := offset.toInt + adjustment base m }
  | .channelAnalog .. => { r with applied := 0 }
  | .hwInit _ | .capMemory _ => r

/-- The tuning that an event makes: the channel, and what the hardware does. -/
def Event.tuning (t : Tuner) : Event → Option (BitVec 32 × Answers)
  | .channel number _ a | .channelAnalog number a => some (charArgument chip number, a)
  | .channelOffset _ a => some (signedByte (t.param base 0x1f2 1), a)
  | .hwInit _ | .capMemory _ => none

/-- Offsets of up to 8 MHz. -/
def Event.InRange : Event → Prop
  | .channelOffset offset _ => offset.toInt.natAbs ≤ 8000
  | .channel .. | .channelAnalog .. | .hwInit _ | .capMemory _ => True

instance : DecidablePred Event.InRange := fun e => by
  cases e <;> unfold Event.InRange <;> infer_instance

end Run

/-- All parameters that are written. -/
def written (chip : PhyChip) : List (Nat × Nat) :=
  [(0xe0, 2), (0xe2, 2), (0x120, 4), (0x1f2, 1), (0x1f3, 1), (0x1f4, 1), (chip.special, 1),
    (chip.savedCap, 2)]

section Params

variable {base : FreqBuffer → Nat}

theorem param_setParam (t : Tuner) {k width x w : Nat} {value : BitVec 32}
    (hk : x + w ≤ k ∨ k + width ≤ x) :
    (t.setParam base k width value).param base x w = t.param base x w :=
  read_congr fun i hi => fill_of_not_mem (by omega)

theorem short_param_setParam (t : Tuner) (k : Nat) (value : BitVec 32) :
    short ((t.setParam base k 2 value).param base k 2) = short value :=
  congrArg (BitVec.signExtend 32) (read_write_setWidth _ _ _ (by decide : 2 ≤ 4))

theorem storeOffset_keeps (base : FreqBuffer → Nat) (offset : BitVec 32) (t : Tuner) :
    (∀ x w, 0xe2 ≤ x → (t.storeOffset base offset).param base x w = t.param base x w) ∧
      (t.storeOffset base offset).shown = t.shown := by
  rw [Tuner.storeOffset]
  split
  · refine ⟨fun x w hx => ?_, rfl⟩
    rw [param_setParam _ (.inr hx), param_setParam _ (.inr hx)]
  · exact ⟨fun x w hx => param_setParam _ (.inr hx), rfl⟩

theorem signedByte_toInt (x : BitVec 32) :
    -128 ≤ (signedByte x).toInt ∧ (signedByte x).toInt ≤ 127 := by
  have hlow := (x.setWidth 8).le_toInt
  have hhigh := (x.setWidth 8).toInt_lt
  rw [signedByte, BitVec.toInt_signExtend_of_le (by decide)]
  omega

theorem signedByte_idem (x : BitVec 32) : signedByte (signedByte x) = signedByte x := by
  have hbyte : (signedByte x).setWidth 8 = x.setWidth 8 := by
    apply BitVec.eq_of_getLsbD_eq
    intro i hi
    rw [signedByte, BitVec.getLsbD_setWidth, BitVec.getLsbD_signExtend]
    simp only [hi, decide_true, Bool.true_and, if_true, Bool.and_eq_right_iff_imp,
      decide_eq_true_eq]
    omega
  rw [signedByte, hbyte, signedByte]

theorem charArgument_idem (chip : PhyChip) (x : BitVec 32) :
    charArgument chip (charArgument chip x) = charArgument chip x := by
  cases chip with
  | esp32s3 => exact signedByte_idem x
  | esp32c3 => rfl

theorem and_not_three_toInt (x : BitVec 32) : (x &&& ~~~3#32).toInt = 4 * (x.toInt / 4) := by
  have hlt := x.isLt
  have hmask : x &&& ~~~3#32 = (x >>> 2) <<< 2 := by
    apply BitVec.eq_of_getLsbD_eq
    intro i hi
    interval_cases i <;> simp
  have hnat : (x &&& ~~~3#32).toNat = 4 * (x.toNat / 4) := by
    rw [hmask, BitVec.toNat_shiftLeft, BitVec.toNat_ushiftRight, Nat.shiftLeft_eq,
      Nat.shiftRight_eq_div_pow]
    omega
  rw [BitVec.toInt_eq_toNat_cond, BitVec.toInt_eq_toNat_cond, hnat]
  split_ifs <;> omega

/-- The multiple of four next to an offset. -/
theorem round_toInt {x : BitVec 32} (hx : x.toInt.natAbs ≤ 8000) :
    (short ((x + 2) &&& ~~~3#32)).toInt = 4 * ((x.toInt + 2) / 4) := by
  have hadd : (x + 2).toInt = x.toInt + 2 := by
    rw [BitVec.toInt_add]
    exact Int.bmod_eq_of_le (by show -_ ≤ _ + 2; omega) (by show _ + 2 < _; omega)
  rw [short_toInt] <;> rw [and_not_three_toInt, hadd] <;> omega

end Params

section Invariant

variable {chip : PhyChip} (B : FreqBuffers chip)

/-- What the calls keep.  `m` are the parameters at the start. -/
structure Ready (m : ByteMem) (asked : Int) (t : Tuner) : Prop where
  entries : t.programmed B.base → Entries B (read m (B.base .param + 0xf3) 1) t
  params : ChangesOnly (B.base .param) chip.paramSize (written chip) m t.freq.ram
  offset : ((short (t.param B.base 0xe0 2)).toInt - asked).natAbs ≤ 2
  range : asked.natAbs ≤ 9100

namespace Ready

variable {B} {m : ByteMem} {asked : Int} {t t' : Tuner}

theorem selector (h : Ready B m asked t) :
    t.param B.base 0xf3 1 = read m (B.base .param + 0xf3) 1 := by
  have hsize := chip.le_paramSize
  refine h.params.read_eq (by omega) ?_
  cases chip <;> decide

theorem of_freq (h : Ready B m asked t) (hfreq : t'.freq = t.freq) : Ready B m asked t' := by
  have hparam : ∀ k width, t'.param B.base k width = t.param B.base k width := by
    intro k width
    rw [Tuner.param, hfreq, Tuner.param]
  refine ⟨fun hprogrammed => ?_, ?_, ?_, h.range⟩
  · rw [Tuner.programmed, hparam] at hprogrammed
    rw [Entries, hfreq]
    exact h.entries hprogrammed
  · rw [hfreq]
    exact h.params
  · rw [hparam]
    exact h.offset

/-- A parameter other than the offsets and the flags. -/
theorem setParam {k width : Nat} (h : Ready B m asked t) (hk : (k, width) ∈ written chip)
    (hlow : 0x124 ≤ k) (value : BitVec 32) : Ready B m asked (t.setParam B.base k width value) := by
  have hsize := chip.le_paramSize
  have hchange : ParamsChange B [(k, width)] t (t.setParam B.base k width value) :=
    ChangesOnly.write value (.refl _ _ _ _) (by simp)
  have hread : ∀ x w, x + w ≤ 0x124 →
      (t.setParam B.base k width value).param B.base x w = t.param B.base x w := by
    intro x w hx
    refine hchange.read_eq (by omega) ?_
    simp only [List.mem_singleton, forall_eq]
    omega
  refine ⟨fun hprogrammed => ?_, h.params.write value hk, ?_, h.range⟩
  · rw [Tuner.programmed, hread _ _ (by decide)] at hprogrammed
    exact (h.entries hprogrammed).setParam (.inr (by omega))
  · rw [hread _ _ (by decide)]
    exact h.offset

/-- A tuning with the offset `offset`. -/
theorem setChannel (h : Ready B m asked t) {selector offset : BitVec 32}
    (hparam : selector = read m (B.base .param + 0xf3) 1)
    (hselector : selector = 0 ∨ selector = 1) (hoffset : offset.toInt.natAbs ≤ 9200)
    (toFrequency : BitVec 32 → BitVec 32) (channel : BitVec 32) (a : Answers) :
    Ready B m asked (t.setChannel chip B.base toFrequency channel selector offset a) := by
  have hsize := chip.le_paramSize
  have hsaved : chip.savedCap + 2 ≤ chip.paramSize ∧ 0x124 ≤ chip.savedCap := by
    cases chip <;> decide
  obtain ⟨⟨hentries, hchange⟩, -⟩ := setChannel_spec (hparam ▸ h.entries) hselector hoffset
    toFrequency channel a
  refine ⟨hparam ▸ hentries, h.params.trans (hchange.mono (by simp [written])), ?_, h.range⟩
  have hread :
      (t.setChannel chip B.base toFrequency channel selector offset a).param B.base 0xe0 2 =
        t.param B.base 0xe0 2 := by
    refine hchange.read_eq (by omega) ?_
    simp only [List.mem_cons, List.not_mem_nil, or_false, forall_eq_or_imp, forall_eq]
    omega
  rw [hread]
  exact h.offset

theorem capMemory (h : Ready B m asked t) (delta : BitVec 32) :
    Ready B m asked { t with freq := t.freq.capMemory delta } := by
  have hram : (t.freq.capMemory delta).ram = t.freq.ram := by
    rw [FreqState.capMemory, foldl_ram]
    exact fun _ _ => rfl
  have hparam : ∀ k width, Tuner.param B.base { t with freq := t.freq.capMemory delta } k width =
      t.param B.base k width := by
    intro k width
    rw [Tuner.param, hram, Tuner.param]
  refine ⟨fun hprogrammed => ?_, ?_, ?_, h.range⟩
  · rw [Tuner.programmed, hparam] at hprogrammed
    exact (h.entries hprogrammed).capMemory delta
  · rw [hram]
    exact h.params
  · rw [hparam]
    exact h.offset

theorem initializeFrequencies (h : Ready B m asked t) (readings : PllReadings)
    (hselector : read m (B.base .param + 0xf3) 1 = 0 ∨ read m (B.base .param + 0xf3) 1 = 1) :
    Ready B m asked (t.initializeFrequencies chip B.base readings) := by
  rw [Tuner.initializeFrequencies]
  split
  next => exact h
  next hfirst =>
    have hfirst' : t.param B.base 0x120 4 &&& 32 = 0 := not_not.mp hfirst
    have hsize := chip.le_paramSize
    have hchange := initializeMemory_changes readings hfirst'
    refine ⟨fun _ => ?_, h.params.trans (hchange.mono (by simp [written])), ?_, h.range⟩
    · rw [← h.selector] at hselector ⊢
      exact initializeMemory_loaded readings hfirst' hselector
    · have hread : read (initializeMemory chip clampCallback B.base readings t.freq).ram
          (B.base .param + 0xe0) 2 = t.param B.base 0xe0 2 :=
        hchange.read_eq (by omega) (by decide)
      rw [Tuner.param, hread]
      exact h.offset

/-- The offset is replaced. -/
theorem setOffset (h : Ready B m asked t) {value : BitVec 32} {new : Int}
    (hvalue : ((short value).toInt - new).natAbs ≤ 2) (hnew : new.natAbs ≤ 9100) :
    Ready B m new (t.setParam B.base 0xe0 2 value) := by
  refine ⟨fun hprogrammed => ?_, h.params.write value (by simp [written]), ?_, hnew⟩
  · rw [Tuner.programmed, param_setParam t (.inr (by decide))] at hprogrammed
    exact (h.entries hprogrammed).setParam (.inl (by decide))
  · rw [short_param_setParam]
    exact hvalue

theorem storeOffset (h : Ready B m asked t) {offset : BitVec 32}
    (hoffset : offset.toInt.natAbs ≤ 8000) :
    Ready B m (offset.toInt + adjustment B.base m) (t.storeOffset B.base offset) := by
  have hsize := chip.le_paramSize
  let rounded := short ((offset + 2) &&& ~~~3#32)
  have hround : rounded.toInt = 4 * ((offset.toInt + 2) / 4) := round_toInt hoffset
  have hrounded : Ready B m offset.toInt (t.setParam B.base 0xe0 2 rounded) := by
    refine h.setOffset ?_ (by omega)
    rw [short_toInt] <;> omega
  have hparam : ∀ x, x = 0x11e ∨ x = 0x11f →
      (t.setParam B.base 0xe0 2 rounded).param B.base x 1 = read m (B.base .param + x) 1 := by
    rintro x (rfl | rfl)
    · exact hrounded.params.read_eq (by omega) (by cases chip <;> decide)
    · exact hrounded.params.read_eq (by omega) (by cases chip <;> decide)
  have hstore : t.storeOffset B.base offset =
      if (t.setParam B.base 0xe0 2 rounded).param B.base 0x11e 1 ≠ 0 then
        (t.setParam B.base 0xe0 2 rounded).setParam B.base 0xe0 2
          (rounded + signedByte ((t.setParam B.base 0xe0 2 rounded).param B.base 0x11f 1) * 8)
      else t.setParam B.base 0xe0 2 rounded := rfl
  rw [hstore, hparam 0x11e (.inl rfl), hparam 0x11f (.inr rfl), adjustment]
  split
  next =>
    have hbyte := signedByte_toInt (read m (B.base .param + 0x11f) 1)
    refine hrounded.setOffset ?_ (by omega)
    have hsum : (rounded + signedByte (read m (B.base .param + 0x11f) 1) * 8).toInt =
        rounded.toInt + 8 * (signedByte (read m (B.base .param + 0x11f) 1)).toInt := by
      have hproduct : (signedByte (read m (B.base .param + 0x11f) 1) * 8).toInt =
          8 * (signedByte (read m (B.base .param + 0x11f) 1)).toInt := by
        rw [BitVec.toInt_mul, Int.mul_comm]
        exact Int.bmod_eq_of_le (by show -_ ≤ 8 * _; omega) (by show 8 * _ < _; omega)
      rw [BitVec.toInt_add, hproduct]
      exact Int.bmod_eq_of_le (by omega) (by omega)
    rw [short_toInt] <;> omega
  next =>
    rw [Int.add_zero]
    exact hrounded

end Ready

/-- The divider after a tuning is close to the one that was asked for, if the hardware follows.
The software needs no hardware. -/
def Tunes (selector : BitVec 32) (toFrequency : BitVec 32 → BitVec 32) (t t' : Tuner)
    (channel : BitVec 32) (a : Answers) (asked : Int) : Prop :=
  ∀ i < 85, toFrequency channel = 2400 + BitVec.ofNat 32 i →
    (t.programmed B.base → Followed a.takes i t) →
      (t'.divider - idealDivider chip selector i asked).natAbs ≤ asked.natAbs / 15 + 10

section Steps

variable {B} {m : ByteMem} {asked : Int} {t : Tuner}
  (hselector : read m (B.base .param + 0xf3) 1 = 0 ∨ read m (B.base .param + 0xf3) 1 = 1)
  (toFrequency : BitVec 32 → BitVec 32) (a : Answers)

include hselector

/-- A tuning by `setChannel`, from the state `u` that the caller has prepared. -/
theorem setChannel_tunes {u : Tuner} (hu : Ready B m asked u)
    (hprogrammed : u.programmed B.base → t.programmed B.base) (hshown : u.shown = t.shown)
    {channel offset : BitVec 32} (hchannel : charArgument chip channel = channel) {applied : Int}
    (hoffset : (offset.toInt - applied).natAbs ≤ 2) (happlied : applied.natAbs ≤ 9100) :
    Ready B m asked
        (u.setChannel chip B.base toFrequency channel (u.param B.base 0xf3 1) offset a) ∧
      Tunes B (read m (B.base .param + 0xf3) 1) toFrequency t
        (u.setChannel chip B.base toFrequency channel (u.param B.base 0xf3 1) offset a) channel a
        applied := by
  rw [hu.selector]
  refine ⟨hu.setChannel rfl hselector (by omega) toFrequency channel a, ?_⟩
  intro i hi hf hfollowed
  obtain ⟨-, hdivider⟩ := setChannel_spec hu.entries hselector (by omega : offset.toInt.natAbs ≤ _)
    toFrequency channel a
  refine hdivider i hi (by rw [hchannel]; exact hf) (fun h => ?_) applied hoffset
  have hswitch := hfollowed (hprogrammed h)
  rw [Followed, hshown]
  exact hswitch

omit hselector in
theorem storeChannel_ready (h : Ready B m asked t) (channel mode : BitVec 32) :
    let u := t.storeChannel chip B.base channel mode
    Ready B m asked u ∧ (u.programmed B.base → t.programmed B.base) ∧ u.shown = t.shown := by
  have hspecial : 0x124 ≤ chip.special := by cases chip <;> decide
  -- four parameters above the flags are written, in an order that depends on the chip
  have hset : ∀ {u : Tuner}, Ready B m asked u ∧ (u.programmed B.base → t.programmed B.base) ∧
      u.shown = t.shown → ∀ {k value}, (k, 1) ∈ written chip → 0x124 ≤ k →
      Ready B m asked (u.setParam B.base k 1 value) ∧
        ((u.setParam B.base k 1 value).programmed B.base → t.programmed B.base) ∧
        (u.setParam B.base k 1 value).shown = t.shown := by
    rintro u ⟨hu, hprogrammed, hshown⟩ k value hk hlow
    refine ⟨hu.setParam hk hlow value, fun h => hprogrammed ?_, hshown⟩
    rw [Tuner.programmed, param_setParam u (.inl (by omega))] at h
    exact h
  cases chip with
  | esp32s3 =>
      have hchanged : ∀ u : Tuner, u = t ∨ u = t.call .channelChanged → Ready B m asked u ∧
          (u.programmed B.base → t.programmed B.base) ∧ u.shown = t.shown := by
        rintro u (rfl | rfl)
        · exact ⟨h, id, rfl⟩
        · exact ⟨h.of_freq rfl, id, rfl⟩
      refine hset (hset (hset (hset (hchanged _ ?_) ?_ ?_) ?_ ?_) ?_ ?_) ?_ hspecial
      · split
        · exact .inr rfl
        · exact .inl rfl
      all_goals simp [written]
  | esp32c3 =>
      refine hset (hset (hset (hset ⟨h, id, rfl⟩ ?_ ?_) ?_ hspecial) ?_ ?_) ?_ ?_ <;>
        simp [written]

omit hselector in
theorem finishChannel_eq (channel mode : BitVec 32) (t : Tuner) :
    (t.finishChannel chip B.base channel mode).freq = t.freq ∧
      (t.finishChannel chip B.base channel mode).pll = t.pll := by
  cases chip with
  | esp32s3 =>
      simp only [Tuner.finishChannel]
      split_ifs <;> exact ⟨rfl, rfl⟩
  | esp32c3 =>
      simp only [Tuner.finishChannel]
      split_ifs <;> exact ⟨rfl, rfl⟩

theorem channel_tunes (h : Ready B m asked t) (channel mode : BitVec 32) :
    Ready B m asked (t.channel chip B.base toFrequency channel mode a) ∧
      Tunes B (read m (B.base .param + 0xf3) 1) toFrequency t
        (t.channel chip B.base toFrequency channel mode a) (charArgument chip channel) a asked := by
  let c := charArgument chip channel
  let u := (((t.call .enterCritical).storeChannel chip B.base c (charArgument chip mode)).call
    .disableAgc).call (.forceTxRxOff 1)
  obtain ⟨hu, hprogrammed, hshown⟩ :=
    storeChannel_ready (h.of_freq (rfl : (t.call .enterCritical).freq = t.freq)) c
      (charArgument chip mode)
  have hu' : Ready B m asked u := hu.of_freq rfl
  obtain ⟨hready, htunes⟩ := setChannel_tunes hselector toFrequency a hu' hprogrammed hshown
    (charArgument_idem chip channel) hu'.offset h.range
  obtain ⟨hfreq, hpll⟩ := finishChannel_eq (B := B) c (charArgument chip mode)
    (u.setChannel chip B.base toFrequency c (u.param B.base 0xf3 1)
      (short (u.param B.base 0xe0 2)) a)
  refine ⟨hready.of_freq hfreq, fun i hi hf hfollowed => ?_⟩
  have hdivider := htunes i hi hf hfollowed
  rw [Tuner.divider, ← hpll] at hdivider
  exact hdivider

theorem channelOffset_tunes (h : Ready B m asked t) {offset : BitVec 32}
    (hoffset : offset.toInt.natAbs ≤ 8000) :
    Ready B m (offset.toInt + adjustment B.base m)
        (t.channelOffset chip B.base toFrequency offset a) ∧
      Tunes B (read m (B.base .param + 0xf3) 1) toFrequency t
        (t.channelOffset chip B.base toFrequency offset a)
        (signedByte (t.param B.base 0x1f2 1)) a (offset.toInt + adjustment B.base m) := by
  have hoffsetInt : (chip.offset offset).toInt = offset.toInt := offset_toInt (by omega)
  have hcall : Ready B m asked (t.call .enterCritical) := h.of_freq rfl
  have hstored := hcall.storeOffset (hoffsetInt ▸ hoffset)
  rw [hoffsetInt] at hstored
  obtain ⟨hparam, hshown⟩ :=
    storeOffset_keeps B.base (chip.offset offset) (t.call .enterCritical)
  let v := (t.call .enterCritical).storeOffset B.base (chip.offset offset)
  let u := (v.call (.phyFreqCorrect 1 (short (v.param B.base 0xe0 2)))).call .disableAgc
  have hu : Ready B m (offset.toInt + adjustment B.base m) u := hstored.of_freq rfl
  have hchannel : charArgument chip (signedByte (u.param B.base 0x1f2 1)) =
      signedByte (u.param B.base 0x1f2 1) := by
    cases chip with
    | esp32s3 => exact signedByte_idem _
    | esp32c3 => rfl
  have hprogrammed : u.programmed B.base → t.programmed B.base := fun hflag => by
    have hread : u.param B.base 0x120 4 = t.param B.base 0x120 4 := hparam 0x120 4 (by decide)
    rw [Tuner.programmed, hread] at hflag
    exact hflag
  obtain ⟨hready, htunes⟩ := setChannel_tunes hselector toFrequency a hu hprogrammed hshown
    hchannel hu.offset hu.range
  have hnumber : u.param B.base 0x1f2 1 = t.param B.base 0x1f2 1 := hparam 0x1f2 1 (by decide)
  rw [← hnumber]
  exact ⟨hready.of_freq rfl, htunes⟩

theorem channelAnalog_tunes (h : Ready B m asked t) (channel : BitVec 32) :
    Ready B m asked (t.channelAnalog chip B.base toFrequency channel a) ∧
      Tunes B (read m (B.base .param + 0xf3) 1) toFrequency t
        (t.channelAnalog chip B.base toFrequency channel a) (charArgument chip channel) a 0 := by
  have hzero : ((0 : BitVec 32).toInt - 0).natAbs ≤ 2 := by decide
  obtain ⟨hready, htunes⟩ := setChannel_tunes hselector toFrequency a h id rfl
    (charArgument_idem chip channel) hzero (by decide)
  exact ⟨hready.setParam (by simp [written]) (by decide) _, htunes⟩

theorem step_tunes {r : Request} (h : Ready B m r.offset t) {e : Event} (he : e.InRange) :
    Ready B m (r.next B.base m e).offset (step chip B.base toFrequency t e) ∧
      ∀ channel a, e.tuning chip B.base t = some (channel, a) →
        Tunes B (read m (B.base .param + 0xf3) 1) toFrequency t (step chip B.base toFrequency t e)
          channel a (r.next B.base m e).applied := by
  cases e with
  | channel number mode a =>
      obtain ⟨hready, htunes⟩ := channel_tunes hselector toFrequency a h number mode
      refine ⟨hready, ?_⟩
      rintro _ _ ⟨⟩
      exact htunes
  | channelOffset offset a =>
      obtain ⟨hready, htunes⟩ := channelOffset_tunes hselector toFrequency a h he
      refine ⟨hready, ?_⟩
      rintro _ _ ⟨⟩
      exact htunes
  | channelAnalog number a =>
      obtain ⟨hready, htunes⟩ := channelAnalog_tunes hselector toFrequency a h number
      refine ⟨hready, ?_⟩
      rintro _ _ ⟨⟩
      exact htunes
  | hwInit readings =>
      refine ⟨h.initializeFrequencies readings hselector, ?_⟩
      rintro _ _ ⟨⟩
  | capMemory delta =>
      refine ⟨h.capMemory delta, ?_⟩
      rintro _ _ ⟨⟩

theorem ready_of_run {events : List Event} {r : Request} (hevents : ∀ e ∈ events, e.InRange)
    (h : Ready B m r.offset t) :
    Ready B m (events.foldl (Request.next B.base m) r).offset
      (events.foldl (step chip B.base toFrequency) t) := by
  induction events generalizing r t with
  | nil => exact h
  | cons e events ih =>
      have he : e.InRange := hevents e List.mem_cons_self
      exact ih (fun e' he' => hevents e' (List.mem_cons_of_mem e he'))
        (step_tunes hselector toFrequency h he).1

end Steps

end Invariant

/-- After any run of channel changes, changes of the offset, programming of the channel memory
and corrections of the capacitor codes, a call that tunes to one of the frequencies of the memory
leaves the PLL with the divider that was asked for, up to a fifteenth of a unit for each kHz of
offset and ten units.  This does not depend on whether the software or the hardware writes the
digits, and corrections do not add up. -/
theorem divider_of_run (chip : PhyChip) (B : FreqBuffers chip)
    (toFrequency : BitVec 32 → BitVec 32) (t : Tuner) (events : List Event) (e : Event)
    (channel : BitVec 32) (a : Answers) (i : Nat)
    (hfresh : ¬t.programmed B.base)
    (hselector : t.param B.base 0xf3 1 = 0 ∨ t.param B.base 0xf3 1 = 1)
    (hoffset : (short (t.param B.base 0xe0 2)).toInt.natAbs ≤ 8000)
    (hevents : ∀ e' ∈ events ++ [e], e'.InRange) :
    let r := (events ++ [e]).foldl (Request.next B.base t.freq.ram)
      ⟨(short (t.param B.base 0xe0 2)).toInt, 0⟩
    let u := events.foldl (step chip B.base toFrequency) t
    e.tuning chip B.base u = some (channel, a) → i < 85 →
    toFrequency channel = 2400 + BitVec.ofNat 32 i →
    (u.programmed B.base → Followed a.takes i u) →
    ((step chip B.base toFrequency u e).divider -
        idealDivider chip (t.param B.base 0xf3 1) i r.applied).natAbs ≤
      r.applied.natAbs / 15 + 10 := by
  intro r u htuning hi hf hfollowed
  have hstart : Ready B t.freq.ram (short (t.param B.base 0xe0 2)).toInt t :=
    ⟨fun h => absurd h hfresh, .refl _ _ _ _, by rw [Int.sub_self]; decide, by omega⟩
  have hready := ready_of_run hselector toFrequency
    (fun e' he' => hevents e' (List.mem_append_left [e] he')) (r := ⟨_, 0⟩) hstart
  obtain ⟨-, htunes⟩ := step_tunes hselector toFrequency hready (hevents e (by simp))
  have hr : r = Request.next B.base t.freq.ram (events.foldl (Request.next B.base t.freq.ram)
      ⟨(short (t.param B.base 0xe0 2)).toInt, 0⟩) e := by
    show (events ++ [e]).foldl _ _ = _
    rw [List.foldl_append]
    rfl
  rw [hr]
  exact htunes channel a htuning i hi hf hfollowed

/-- The channels of the 2.4 GHz band. -/
def bandFrequency (channel : BitVec 32) : BitVec 32 :=
  if channel = 14 then 2484 else 2407 + 5 * channel

/-- The hardware follows the first strobe. -/
def prompt : Answers := { token := 0, takes := fun _ => true, cap := ⟨64, 0⟩ }

/-- Channel 11 by the hardware, with an offset of 100 kHz. -/
theorem divider_of_run_channel_11 :
    let t : Tuner := ⟨⟨0, 0, fun _ => 0, fun _ => 0⟩, 0, 0, fun _ => 0, []⟩
    let u := [Event.hwInit pllReadings, .channelOffset 100 prompt].foldl
      (step .esp32s3 freqBuffers.base bandFrequency) t
    ((step .esp32s3 freqBuffers.base bandFrequency u (.channel 11 0 prompt)).divider -
      idealDivider .esp32s3 0 62 100).natAbs ≤ 16 := by
  intro t u
  have hfresh : ¬t.programmed freqBuffers.base := fun h => h (by decide)
  have hevents : ∀ e ∈ [Event.hwInit pllReadings, .channelOffset 100 prompt] ++
      [.channel 11 0 prompt], e.InRange := by decide
  have hselector : t.param freqBuffers.base 0xf3 1 = 0 := by decide
  have happlied : (([Event.hwInit pllReadings, .channelOffset 100 prompt] ++
      [Event.channel 11 0 prompt]).foldl (Request.next freqBuffers.base t.freq.ram)
        ⟨(short (t.param freqBuffers.base 0xe0 2)).toInt, 0⟩).applied = 100 := by decide
  have hdivider := divider_of_run .esp32s3 freqBuffers bandFrequency t
    [.hwInit pllReadings, .channelOffset 100 prompt] (.channel 11 0 prompt) 11 prompt 62 hfresh
    (.inl hselector) (by decide) hevents rfl (by decide) (by decide) fun _ => .inl rfl
  rw [happlied, hselector] at hdivider
  exact hdivider

end Tuning

end EspWifiHal
