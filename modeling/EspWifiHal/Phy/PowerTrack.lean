import EspWifiHal.Phy.Tracking
import EspWifiHal.Lib.Signed

/-!
# The accuracy of the power tracking

The correction of the transmit power is a staircase in the temperature: a step for every few
degrees from the reference.  `power_track` computes it anew only when the temperature has moved
by two or four degrees since the correction in use was computed, and otherwise keeps that one.

`correction` is the staircase as a function of the temperature.  `power_of_run` says that, while
only the power of Wi-Fi is tracked and nothing else writes its parameters, a correction that was
on the staircase at the start is never more than two steps from it.
-/

namespace EspWifiHal

namespace Tracking

open Memory Trace

/-! ## The staircase -/

/-- The correction for a temperature, with the reference temperature `b`.  Above it there is a step
for every five or six degrees, below it one for every four.  S3 skips one step below -12. -/
def correction (chip : PhyChip) (b t : Int) : Int :=
  match chip with
  | .esp32c3 => if b < t then (t - b) / 6 else -((b - t) / 4)
  | .esp32s3 =>
      if b < t then (t - b) / 5
      else if 12 < (b - t) / 4 then -((b - t) / 4) - 1
      else -((b - t) / 4)

/-- The temperature within the limits of the radio. -/
def clamp (low high t : Int) : Int := if high < t then high else if t < low then low else t

/-- The callback limits a word to an interval. -/
def IsLimit (f : BitVec 32 → BitVec 32 → BitVec 32 → BitVec 32) : Prop :=
  ∀ value high low, low.toInt ≤ high.toInt →
    (f value high low).toInt = clamp low.toInt high.toInt value.toInt

theorem correction_bounds (chip : PhyChip) {b t : Int} (h : -400 ≤ t - b ∧ t - b ≤ 400) :
    -101 ≤ correction chip b t ∧ correction chip b t ≤ 100 := by
  cases chip with
  | esp32s3 =>
      unfold correction
      split
      · omega
      · split <;> omega
  | esp32c3 =>
      unfold correction
      split <;> omega

/-- Three degrees are at most two steps. -/
theorem correction_near (chip : PhyChip) (b : Int) {t u : Int} (h : |t - u| ≤ 3) :
    |correction chip b t - correction chip b u| ≤ 2 := by
  rw [abs_le] at h ⊢
  cases chip with
  | esp32s3 =>
      unfold correction
      grind
  | esp32c3 =>
      unfold correction
      grind

theorem clamp_bounds {low high : Int} (h : low ≤ high) (t : Int) :
    low ≤ clamp low high t ∧ clamp low high t ≤ high := by
  unfold clamp
  split <;> (try split) <;> omega

/-- A limited temperature is not farther from another one than from its limit. -/
theorem clamp_near {low high : Int} (h : low ≤ high) (t u : Int) :
    |clamp low high t - clamp low high u| ≤ |clamp low high t - u| := by
  have ht := clamp_bounds h t
  rw [abs_le]
  rcases abs_cases (clamp low high t - u) with ⟨habs, hsign⟩ | ⟨habs, hsign⟩ <;>
  · rw [habs]
    generalize clamp low high t = x at *
    unfold clamp
    split
    · omega
    · split <;> omega

/-! ## The code computes the staircase -/

theorem toInt_ofInt_byte {z : Int} (h : -128 ≤ z ∧ z ≤ 127) : (BitVec.ofInt 8 z).toInt = z := by
  rw [BitVec.toInt_ofInt]
  exact Int.bmod_eq_of_le (by omega) (by omega)

theorem setWidth_signExtend_byte (x : BitVec 8) : (x.signExtend 32).setWidth 8 = x := by
  rw [Signed.setWidth_signExtend x (by decide), BitVec.signExtend_eq]

/-- A truncated quotient by its sign. -/
theorem tdiv_eq (z n : Int) : z.tdiv n = if 0 < z then z / n else -(-z / n) := by
  split
  case isTrue h => exact Int.tdiv_eq_ediv_of_nonneg h.le
  case isFalse h => rw [← Int.tdiv_eq_ediv_of_nonneg (by omega), Int.neg_tdiv, neg_neg]

theorem tempToPower_toInt (chip : PhyChip) {x b : BitVec 16}
    (h : -400 ≤ x.toInt - b.toInt ∧ x.toInt - b.toInt ≤ 400) :
    ((tempToPower chip (x.signExtend 32) (b.signExtend 32) 0).setWidth 8).toInt =
      correction chip b.toInt x.toInt := by
  have hdelta : ((x.signExtend 32 - b.signExtend 32).setWidth 16).toInt = x.toInt - b.toInt := by
    rw [← BitVec.ofInt_toInt (x := x.signExtend 32 - b.signExtend 32),
      Tracker.toInt_signExtend_sub]
    exact Signed.toInt_setWidth_ofInt (by decide) (by decide) ⟨0, by omega⟩ (by omega) (by omega)
  have hneg : -(x.toInt - b.toInt) = b.toInt - x.toInt := by omega
  have hbounds := correction_bounds chip h
  cases chip with
  | esp32c3 =>
      have hquotient : (if x.toInt - b.toInt > 0 then (x.toInt - b.toInt).tdiv 6
          else (x.toInt - b.toInt).tdiv 4) = correction .esp32c3 b.toInt x.toInt := by
        rw [tdiv_eq, tdiv_eq, hneg, correction]
        grind
      simp only [tempToPower, hdelta, ne_eq, not_true_eq_false, if_false]
      rw [setWidth_signExtend_byte, hquotient, toInt_ofInt_byte (by omega)]
  | esp32s3 =>
      have hquotient : (if x.toInt - b.toInt > 0 then (x.toInt - b.toInt).tdiv 5
          else (x.toInt - b.toInt).tdiv 4) =
          if b.toInt < x.toInt then (x.toInt - b.toInt) / 5 else -((b.toInt - x.toInt) / 4) := by
        rw [tdiv_eq, tdiv_eq, hneg]
        grind
      have hbyte : (BitVec.ofInt 8 (if b.toInt < x.toInt then (x.toInt - b.toInt) / 5
          else -((b.toInt - x.toInt) / 4))).toInt =
          if b.toInt < x.toInt then (x.toInt - b.toInt) / 5 else -((b.toInt - x.toInt) / 4) := by
        refine toInt_ofInt_byte ?_
        split <;> omega
      simp only [tempToPower, hdelta, hquotient, hbyte]
      rw [setWidth_byte]
      have hstep : (if x.toInt - b.toInt ≤ 0 ∧ (if b.toInt < x.toInt then
            (x.toInt - b.toInt) / 5 else -((b.toInt - x.toInt) / 4)) < -12 then
            (if b.toInt < x.toInt then (x.toInt - b.toInt) / 5
              else -((b.toInt - x.toInt) / 4)) - 1
          else if b.toInt < x.toInt then (x.toInt - b.toInt) / 5
            else -((b.toInt - x.toInt) / 4)) = correction .esp32s3 b.toInt x.toInt := by
        unfold correction
        grind
      rw [hstep, toInt_ofInt_byte (by omega)]

namespace Tracker

variable (chip : PhyChip)

/-- The reference temperature of Wi-Fi. -/
def base (s : Tracker) : BitVec 16 :=
  s.read16 (if s.read8 0x204 = 1 then chip.slot 0x206 0x20c else chip.slot 0x2c4 0x210)

theorem baseline_zero (s : Tracker) : s.baseline chip 0 = (s.base chip).signExtend 32 := by
  unfold baseline base
  simp [signed16]

/-- The temperature within the limits, as a halfword. -/
def level (s : Tracker) : BitVec 16 :=
  if (s.read16 0xb0).toInt < s.temp then s.read16 0xb0
  else if s.temp < (s.read16 0xae).toInt then s.read16 0xae
  else s.read16 0x92

theorem level_toInt (s : Tracker) :
    s.level.toInt = clamp (s.read16 0xae).toInt (s.read16 0xb0).toInt s.temp := by
  unfold level clamp
  split
  · rfl
  · split <;> rfl

theorem converted_zero {cb : Callbacks} (hcb : IsLimit cb.limit) {s : Tracker}
    (h : (s.read16 0xae).toInt ≤ (s.read16 0xb0).toInt) :
    s.converted cb 0 = s.level.signExtend 32 := by
  have hshort : ∀ x : BitVec 16, short (x.signExtend 32) = x.signExtend 32 := by
    intro x
    rw [short, Signed.setWidth_signExtend x (by decide), BitVec.signExtend_eq]
  have hint : ∀ x : BitVec 16, (x.signExtend 32).toInt = x.toInt := fun x =>
    BitVec.toInt_signExtend_of_le (by decide)
  have hlimit : cb.limit (s.signed16 0x92) (s.signed16 0xb0) (s.signed16 0xae) =
      s.level.signExtend 32 := by
    apply BitVec.toInt_inj.mp
    rw [hcb _ _ _ (by rw [signed16, signed16, hint, hint]; exact h), signed16, signed16, signed16,
      hint, hint, hint, hint, level_toInt, temp]
  rw [converted, if_pos rfl, if_pos rfl, hlimit, hshort]

/-- The temperature has moved since the correction in use was computed. -/
def Moved (s : Tracker) : Prop :=
  |s.level.toInt - (s.read16 0x96).toInt| ≥ if |s.temp - (s.base chip).toInt| > 7 then 4 else 2

instance (s : Tracker) : Decidable (s.Moved chip) := inferInstanceAs (Decidable (_ ≥ _))

/-- The correction that a call for Wi-Fi uses. -/
def code (s : Tracker) : BitVec 8 :=
  if s.Moved chip then
    (tempToPower chip (s.level.signExtend 32) ((s.base chip).signExtend 32) 0).setWidth 8
  else s.read8 0x1fa

/-- A correction as a word.  Only C3 extends its sign. -/
def codeWord (code : BitVec 8) : BitVec 32 :=
  match chip with
  | .esp32c3 => code.signExtend 32
  | .esp32s3 => code.setWidth 32

section Exact

variable {cb : Callbacks} (habs : IsAbsolute cb.absolute) (hlimit : IsLimit cb.limit)

include habs hlimit

theorem powerCode_zero {s : Tracker} (horder : (s.read16 0xae).toInt ≤ (s.read16 0xb0).toInt) :
    s.powerCode chip cb 0 = codeWord chip (s.code chip) := by
  have hmoved : ((cb.absolute (s.level.signExtend 32 - (s.read16 0x96).signExtend 32)).toInt ≥
      if (cb.absolute ((s.read16 0x92).signExtend 32 - (s.base chip).signExtend 32)).toInt > 7
      then 4 else 2) ↔ s.Moved chip := by
    rw [absolute_sub habs, absolute_sub habs]
    exact Iff.rfl
  rw [powerCode.eq_def, converted_zero hlimit horder, baseline_zero, signed16, signed16, code]
  by_cases h : s.Moved chip
  · rw [if_pos h]
    cases chip with
    | esp32c3 =>
        exact (if_pos (hmoved.mpr h)).trans
          (congrArg (BitVec.signExtend 32) (setWidth_signExtend_byte _)).symm
    | esp32s3 => exact if_pos (hmoved.mpr h)
  · rw [if_neg h]
    cases chip <;> exact if_neg (mt hmoved.mp h)

theorem powerTrack_zero (apply : BitVec 32) {s : Tracker}
    (horder : (s.read16 0xae).toInt ≤ (s.read16 0xb0).toInt) :
    s.powerTrack chip cb 0 apply =
      if chip.byte apply = 0 then s
      else if s.read8 0x1fb = s.code chip then s
      else s.applyCode 0 (s.code chip) := by
  have hradio : chip.byte 0 = 0 := by cases chip <;> rfl
  have hcode : (s.powerCode chip cb 0).setWidth 8 = s.code chip := by
    rw [powerCode_zero chip habs hlimit horder]
    cases chip with
    | esp32c3 => exact setWidth_signExtend_byte _
    | esp32s3 => exact setWidth_byte _
  have hsame : s.hasCode chip 0 (s.powerCode chip cb 0) = true ↔ s.read8 0x1fb = s.code chip := by
    have hoffset : powerOffset 0 = 0x1fb := if_pos rfl
    rw [hasCode.eq_def, decide_eq_true_eq, hoffset, hcode, ← BitVec.toInt_inj]
    cases chip with
    | esp32c3 =>
        have hword : (s.powerCode .esp32c3 cb 0).toInt = (s.code .esp32c3).toInt := by
          rw [powerCode_zero .esp32c3 habs hlimit horder]
          exact BitVec.toInt_signExtend_of_le (by decide)
        dsimp only
        rw [hword]
    | esp32s3 => exact Iff.rfl
  unfold powerTrack
  dsimp only
  rw [hradio, hcode]
  by_cases h : chip.byte apply = 0
  · rw [if_pos h, if_pos h]
  · rw [if_neg h, if_neg h]
    by_cases hread : s.read8 0x1fb = s.code chip
    · rw [if_pos (hsame.mpr hread), if_pos hread]
    · rw [if_neg (mt hsame.mp hread), if_neg hread]

end Exact

/-! ## Runs -/

/-- The parameters of the power tracking of Wi-Fi. -/
def powerParams : List Nat :=
  [0x96, 0x97, 0xae, 0xaf, 0xb0, 0xb1, 0x1fa, 0x1fb, 0x204, chip.slot 0x206 0x20c,
    chip.slot 0x206 0x20c + 1, chip.slot 0x2c4 0x210, chip.slot 0x2c4 0x210 + 1]

/-- The correction in use is that of the temperature for which it was computed. -/
structure Settled (b low high : Int) (s : Tracker) : Prop where
  base_eq : (s.base chip).toInt = b
  low_eq : (s.read16 0xae).toInt = low
  high_eq : (s.read16 0xb0).toInt = high
  same : s.read8 0x1fa = s.read8 0x1fb
  code_eq : (s.read8 0x1fb).toInt = correction chip b (clamp low high (s.read16 0x96).toInt)

/-- The correction in use is at most two steps from that of the last temperature. -/
def Accurate (b low high : Int) (s : Tracker) : Prop :=
  |(s.read8 0x1fb).toInt - correction chip b (clamp low high s.temp)| ≤ 2

variable {chip} {b low high : Int} {s s' : Tracker}

/-- What does not touch the parameters of the power tracking. -/
theorem Settled.only (hs : s.Settled chip b low high) {touched : List Nat} (h : Only touched s s')
    (hdisjoint : ∀ i ∈ powerParams chip, i ∉ touched) : s'.Settled chip b low high := by
  have h16 : ∀ o, o ∈ powerParams chip → o + 1 ∈ powerParams chip → s'.read16 o = s.read16 o :=
    fun o ho ho' => h.read16 (hdisjoint o ho) (hdisjoint (o + 1) ho')
  have h8 : ∀ o ∈ powerParams chip, s'.read8 o = s.read8 o := fun o ho => h.read8 (hdisjoint o ho)
  have hbase : s'.base chip = s.base chip := by
    unfold Tracker.base
    rw [h8 0x204 (by simp [powerParams])]
    split <;> exact h16 _ (by simp [powerParams]) (by simp [powerParams])
  exact {
    base_eq := by rw [hbase, hs.base_eq]
    low_eq := by rw [h16 0xae (by simp [powerParams]) (by simp [powerParams]), hs.low_eq]
    high_eq := by rw [h16 0xb0 (by simp [powerParams]) (by simp [powerParams]), hs.high_eq]
    same := by
      rw [h8 0x1fa (by simp [powerParams]), h8 0x1fb (by simp [powerParams]), hs.same]
    code_eq := by
      rw [h8 0x1fb (by simp [powerParams]),
        h16 0x96 (by simp [powerParams]) (by simp [powerParams]), hs.code_eq] }

/-- Limits and a reference that a radio can have. -/
structure Sensible (b low high : Int) : Prop where
  order : low ≤ high
  low : -200 ≤ low
  high : high ≤ 200
  base : -200 ≤ b ∧ b ≤ 200

/-- The correction of a changed temperature is on the staircase. -/
theorem Settled.code_of_moved (hs : s.Settled chip b low high) (hb : Sensible b low high)
    (hmoved : s.Moved chip) : (s.code chip).toInt = correction chip b (clamp low high s.temp) := by
  have hlevel : s.level.toInt = clamp low high s.temp := by
    rw [level_toInt, hs.low_eq, hs.high_eq]
  have hbounds := clamp_bounds hb.order s.temp
  have hlow := hb.low
  have hhigh := hb.high
  have hbase := hb.base
  rw [Tracker.code, if_pos hmoved, tempToPower_toInt chip (by rw [hlevel, hs.base_eq]; omega),
    hlevel, hs.base_eq]

/-- An unchanged temperature is at most three degrees from that of the correction in use. -/
theorem Settled.accurate_of_not_moved (hs : s.Settled chip b low high) (hb : Sensible b low high)
    (hmoved : ¬ s.Moved chip) : s.Accurate chip b low high := by
  have hlevel : s.level.toInt = clamp low high s.temp := by
    rw [level_toInt, hs.low_eq, hs.high_eq]
  have hthree : |s.level.toInt - (s.read16 0x96).toInt| ≤ 3 := by
    have hlt := not_le.mp hmoved
    split at hlt <;> omega
  have hnear := clamp_near hb.order s.temp (s.read16 0x96).toInt
  rw [hlevel] at hthree
  rw [Accurate, hs.code_eq, abs_sub_comm]
  exact correction_near chip b (hnear.trans hthree)

theorem applyCode_read16 (s : Tracker) (c : BitVec 8) :
    (s.applyCode 0 c).read16 0x96 = s.read16 0x92 := by
  have honly : Only [0x1fb] ((s.act (.phyBbpllCal 1)).write8 0x1fa c |>.write16 0x96
      (s.read16 0x92)) (s.applyCode 0 c) := .write8 _ _ (by decide)
  rw [honly.read16 (by decide) (by decide), read16_write16]

theorem applyCode_read8 (s : Tracker) (c : BitVec 8) :
    (s.applyCode 0 c).read8 0x1fa = c ∧ (s.applyCode 0 c).read8 0x1fb = c := by
  have honly : Only [0x96, 0x97, 0x1fb] ((s.act (.phyBbpllCal 1)).write8 0x1fa c)
      (s.applyCode 0 c) :=
    (Only.write16 _ _ (by decide) (by decide)).trans (.write8 _ _ (by decide))
  exact ⟨(honly.read8 (by decide)).trans (read8_write8 _ _ _), read8_write8 _ _ _⟩

/-- The parameters of the power tracking that a correction leaves alone. -/
theorem applyCode_frame (chip : PhyChip) (s : Tracker) (c : BitVec 8) :
    (s.applyCode 0 c).base chip = s.base chip ∧
      (s.applyCode 0 c).read16 0xae = s.read16 0xae ∧
      (s.applyCode 0 c).read16 0xb0 = s.read16 0xb0 ∧ (s.applyCode 0 c).temp = s.temp := by
  have honly := (applyCode_calm 0 c s).only
  refine ⟨?_, honly.read16 (by decide) (by decide), honly.read16 (by decide) (by decide),
    congrArg BitVec.toInt (honly.read16 (by decide) (by decide))⟩
  unfold Tracker.base
  rw [honly.read8 (by decide)]
  split <;> exact honly.read16 (by cases chip <;> decide) (by cases chip <;> decide)

/-- A correction for the last temperature. -/
theorem Settled.applyCode (hs : s.Settled chip b low high) {c : BitVec 8}
    (hc : c.toInt = correction chip b (clamp low high s.temp)) :
    (s.applyCode 0 c).Settled chip b low high ∧ (s.applyCode 0 c).Accurate chip b low high := by
  obtain ⟨hbase, hlow, hhigh, htemp⟩ := applyCode_frame chip s c
  obtain ⟨hlast, huse⟩ := applyCode_read8 s c
  constructor
  · exact {
      base_eq := by rw [hbase, hs.base_eq]
      low_eq := by rw [hlow, hs.low_eq]
      high_eq := by rw [hhigh, hs.high_eq]
      same := hlast.trans huse.symm
      code_eq := by
        rw [huse, applyCode_read16]
        exact hc }
  · rw [Accurate, huse, htemp, hc, sub_self, abs_zero]
    decide

section Exact

variable {cb : Callbacks} (habs : IsAbsolute cb.absolute) (hlimit : IsLimit cb.limit)

include habs hlimit

theorem Settled.powerTrack (hs : s.Settled chip b low high) (hb : Sensible b low high)
    {radio : BitVec 32} (hradio : chip.byte radio = 0) (apply : BitVec 32) :
    (s.powerTrack chip cb radio apply).Settled chip b low high ∧
      (chip.byte apply ≠ 0 ∨ s.Accurate chip b low high →
        (s.powerTrack chip cb radio apply).Accurate chip b low high) := by
  have hwifi : s.powerTrack chip cb radio apply = s.powerTrack chip cb 0 apply := by
    have hzero : chip.byte 0 = 0 := by cases chip <;> rfl
    unfold Tracker.powerTrack
    rw [hradio, hzero]
  have horder : (s.read16 0xae).toInt ≤ (s.read16 0xb0).toInt := by
    rw [hs.low_eq, hs.high_eq]
    exact hb.order
  rw [hwifi, powerTrack_zero chip habs hlimit apply horder]
  by_cases happly : chip.byte apply = 0
  · rw [if_pos happly]
    exact ⟨hs, fun h => h.resolve_left (not_not.mpr happly)⟩
  rw [if_neg happly]
  by_cases hmoved : s.Moved chip
  · have hcode := hs.code_of_moved hb hmoved
    split
    case isTrue heq =>
        refine ⟨hs, fun _ => ?_⟩
        rw [Accurate, heq, hcode, sub_self, abs_zero]
        decide
    case isFalse =>
        obtain ⟨hsettled, haccurate⟩ := hs.applyCode hcode
        exact ⟨hsettled, fun _ => haccurate⟩
  · have hcode : s.code chip = s.read8 0x1fa := if_neg hmoved
    rw [if_pos (hs.same.symm.trans hcode.symm)]
    exact ⟨hs, fun _ => hs.accurate_of_not_moved hb hmoved⟩

/-- The background call applies a correction of Wi-Fi. -/
def Applied (chip : PhyChip) (enabled : BitVec 8) (rom : List PowerCall) : Prop :=
  match chip with
  | .esp32s3 => enabled ≠ 0
  | .esp32c3 => ∃ call ∈ rom, PhyChip.byte .esp32c3 call.apply ≠ 0

theorem Settled.power (hs : s.Settled chip b low high) (hb : Sensible b low high)
    (enabled : BitVec 8) {rom : List PowerCall} (hrom : ∀ call ∈ rom, chip.byte call.radio = 0) :
    (s.power chip cb enabled rom).Settled chip b low high ∧
      (Applied chip enabled rom → (s.power chip cb enabled rom).Accurate chip b low high) := by
  cases chip with
  | esp32s3 =>
      have hwifi : PhyChip.byte .esp32s3 0 = 0 := rfl
      obtain ⟨hsettled, haccurate⟩ := hs.powerTrack habs hlimit hb hwifi (enabled.setWidth 32)
      refine ⟨hsettled, fun happlied => haccurate (Or.inl fun hzero => happlied ?_)⟩
      have hword : (enabled.setWidth 32).setWidth 8 = (0 : BitVec 32).setWidth 8 := by
        rw [← setWidth_byte ((enabled.setWidth 32 : BitVec 32).setWidth 8), ← hzero]
        rfl
      rwa [setWidth_byte] at hword
  | esp32c3 =>
      have hall : ∀ (rom : List PowerCall) (s : Tracker), s.Settled .esp32c3 b low high →
          (∀ call ∈ rom, PhyChip.byte .esp32c3 call.radio = 0) →
          (s.power .esp32c3 cb enabled rom).Settled .esp32c3 b low high ∧
          ((∃ call ∈ rom, PhyChip.byte .esp32c3 call.apply ≠ 0) ∨ s.Accurate .esp32c3 b low high →
            (s.power .esp32c3 cb enabled rom).Accurate .esp32c3 b low high) := by
        intro rom
        induction rom with
        | nil => exact fun s hs _ => ⟨hs, fun h => h.resolve_left nofun⟩
        | cons call rom ih =>
            intro s hs hrom
            obtain ⟨hcall, hrest⟩ := List.forall_mem_cons.mp hrom
            obtain ⟨hsettled, haccurate⟩ := hs.powerTrack habs hlimit hb hcall call.apply
            obtain ⟨hend, hkeep⟩ := ih _ hsettled hrest
            refine ⟨hend, fun h => hkeep ?_⟩
            rw [List.exists_mem_cons_iff, or_right_comm] at h
            exact h.symm.imp_right haccurate
      obtain ⟨hsettled, haccurate⟩ := hall rom s hs hrom
      exact ⟨hsettled, fun h => haccurate (Or.inl h)⟩

end Exact

/-- Events that leave the parameters of the power tracking to it. -/
def PowerAllowed (chip : PhyChip) : Event → Prop
  | .param offset _ => offset ∉ closedFlag chip :: ownParams chip ∧ offset ∉ powerParams chip
  | .background _ _ rom _ => ∀ call ∈ rom, chip.byte call.radio = 0
  | _ => True

theorem PowerAllowed.allowed {e : Event} (h : PowerAllowed chip e) : e.Allowed chip := by
  cases e with
  | param offset value => exact h.1
  | background => trivial
  | close => trivial
  | xpd => trivial
  | wakeup => trivial

variable {cb : Callbacks} {t d : Int}

theorem Sound.measure_only (hs : s.Sound chip cb t d) {reading : Reading}
    (h : Tracking.measure chip s reading = some s') : Only [0x92, 0x93, 0xaa] s s' := by
  obtain ⟨r, hr⟩ := hs.row
  obtain ⟨u, hu, hmeasured⟩ := outer_spec chip hr reading
  rw [Tracking.measure, hu] at h
  cases h
  exact hmeasured.only

theorem Settled.measure (hset : s.Settled chip b low high) (hs : s.Sound chip cb t d)
    {reading : Reading} (h : Tracking.measure chip s reading = some s') :
    s'.Settled chip b low high :=
  hset.only (hs.measure_only h) (by cases chip <;> decide)

theorem pllGate_only (cb : Callbacks) (s : Tracker) (hidle : s.read8 (busy chip) = 0) :
    Only (pllParams chip) s (s.pllGate chip cb) := by
  unfold pllGate
  split
  · rcases pllTrack_cases chip cb hidle with ⟨heq, -⟩ | ⟨h, -⟩
    · rw [heq]
      exact .refl _ _
    · exact h.only
  · exact .refl _ _

theorem Accurate.only (h : s.Accurate chip b low high) {touched : List Nat}
    (honly : Only touched s s') (h92 : 0x92 ∉ touched ∧ 0x93 ∉ touched) (huse : 0x1fb ∉ touched) :
    s'.Accurate chip b low high := by
  rw [Accurate, temp, honly.read8 huse, honly.read16 h92.1 h92.2]
  exact h

theorem Settled.act (hset : s.Settled chip b low high) (a : Action) :
    (s.act a).Settled chip b low high := hset.only (.refl [] s) (fun _ _ => List.not_mem_nil)

section Exact

variable (habs : IsAbsolute cb.absolute) (hlimit : IsLimit cb.limit)

include habs hlimit

theorem Settled.trackAll (hset : s.Settled chip b low high) (hs : s.Sound chip cb t d)
    (hon : s.read8 (offFlag chip) = 0) (hb : Sensible b low high) (enabled : BitVec 8)
    (reading : Reading) {rom : List PowerCall} (hrom : ∀ call ∈ rom, chip.byte call.radio = 0) :
    ∃ s', s.trackAll chip cb enabled reading rom = some s' ∧ s'.Settled chip b low high ∧
      (Applied chip enabled rom → s'.Accurate chip b low high) := by
  obtain ⟨u, hu, hsound, -⟩ := hs.measure hon reading
  obtain ⟨hpower, haccurate⟩ := (hset.measure hs hu).power habs hlimit hb enabled hrom
  have hidle : (u.power chip cb enabled rom).read8 (busy chip) = 0 :=
    ((power_calm chip cb enabled rom u).only.read8 (by cases chip <;> decide)).trans hsound.idle
  have hgate := pllGate_only cb _ hidle
  have hrfcal := (rfcalTrack_calm chip cb ((u.power chip cb enabled rom).pllGate chip cb)).only
  rw [Tracker.trackAll, hu]
  refine ⟨_, rfl, ?_, fun happlied => ?_⟩
  · exact (hpower.only hgate (by cases chip <;> decide)).only hrfcal (by cases chip <;> decide)
  · have hpll := (haccurate happlied).only hgate (by cases chip <;> decide)
      (by cases chip <;> decide)
    exact hpll.only hrfcal (by decide) (by decide)

theorem Settled.dispatch (hset : s.Settled chip b low high) (hs : s.Sound chip cb t d)
    (hb : Sensible b low high) (enabled : BitVec 8) (reading : Reading) {rom : List PowerCall}
    (hrom : ∀ call ∈ rom, chip.byte call.radio = 0) (token : BitVec 32) :
    ∃ s', s.dispatch chip cb enabled reading rom token = some s' ∧ s'.Settled chip b low high ∧
      (s.isOpen chip = true → Applied chip enabled rom → s'.Accurate chip b low high) := by
  have hopen : (s.act .enter).isOpen chip = s.isOpen chip := by cases chip <;> rfl
  rw [Tracker.dispatch, hopen]
  cases hgate : s.isOpen chip with
  | false => exact ⟨_, rfl, (hset.act _).act _, fun h => absurd h Bool.false_ne_true⟩
  | true =>
      have henter : (s.act .enter).Sound chip cb t d := hs.act trivial
      obtain ⟨u, hu, hsettled, haccurate⟩ := (hset.act .enter).trackAll habs hlimit henter
        ((isOpen_iff s).mp hgate).1 hb enabled reading hrom
      refine ⟨u.act (.exit token), ?_, hsettled.act _, fun _ => haccurate⟩
      rw [if_pos rfl, hu]
      rfl

theorem Settled.step (hset : s.Settled chip b low high) (hs : s.Sound chip cb t d)
    (hb : Sensible b low high) {e : Event} (he : PowerAllowed chip e)
    (h : s.step chip cb e = some s') : s'.Settled chip b low high := by
  cases e with
  | background enabled reading rom token =>
      obtain ⟨u, hu, hsettled, -⟩ := hset.dispatch habs hlimit hs hb enabled reading he token
      exact Option.some.inj (hu.symm.trans h) ▸ hsettled
  | close reading =>
      have hend : ∀ u : Tracker, u.Settled chip b low high →
          ((u.act .closeRf).write8 (closedFlag chip) 1).Settled chip b low high := fun u hu =>
        (hu.act .closeRf).only (.write8 _ 1 (List.mem_singleton.mpr rfl))
          (by cases chip <;> decide)
      rw [Tracker.step, Tracker.close] at h
      obtain ⟨u, hu, rfl⟩ := Option.map_eq_some_iff.mp h
      split at hu
      · exact hend u (hset.measure hs hu)
      · exact hend u (Option.some.inj hu ▸ hset)
  | xpd =>
      have hflag : Only [offFlag chip] s (s.xpd chip) := by
        unfold Tracker.xpd
        rw [sensorPower_eq]
        split <;> exact .write8 _ 1 (List.mem_singleton.mpr rfl)
      exact Option.some.inj h ▸ hset.only hflag (by cases chip <;> decide)
  | wakeup token =>
      have hflags : Only [closedFlag chip, offFlag chip] s (s.wakeup chip token) := by
        unfold Tracker.wakeup
        rw [sensorPower_eq]
        exact (Only.write8 _ 0 (by simp)).trans (.write8 _ 0 (by simp))
      exact Option.some.inj h ▸ hset.only hflags (by cases chip <;> decide)
  | param offset value =>
      refine Option.some.inj h ▸ hset.only (.write8 s value (List.mem_singleton.mpr rfl)) ?_
      intro i hi hmem
      obtain rfl := List.mem_singleton.mp hmem
      exact he.2 hi

theorem Settled.run (hset : s.Settled chip b low high) (hs : s.Sound chip cb t d)
    (hb : Sensible b low high) {es : List Event} (hes : ∀ e ∈ es, PowerAllowed chip e) :
    ∃ s', Trace.run (Tracker.step chip cb) s es = some s' ∧ s'.Sound chip cb t d ∧
      s'.Settled chip b low high := by
  refine run_total (fun u e hu he => ?_) hes ⟨hs, hset⟩
  obtain ⟨s', hs', hsound⟩ := hu.1.step he.allowed
  exact ⟨s', hs', hsound, hu.2.step habs hlimit hu.1 hb he hs'⟩

end Exact

end Tracker

open Tracker

/-- A run starts with a correction on the staircase, ordered limits and a reference within 200
degrees, the ROM tracks no other radio than Wi-Fi, and nothing else writes the parameters of the
tracking.  Then after a background call with the RF open that applies the correction of the
transmit power, the one in use is at most two steps from the one of the temperature just
measured, although it is computed anew only when the temperature has moved by some degrees. -/
theorem power_of_run (chip : PhyChip) {cb : Callbacks} (habs : IsAbsolute cb.absolute)
    (hlimit : IsLimit cb.limit) {b low high : Int} (hb : Sensible b low high) {s : Tracker}
    (h : s.Ready chip) (hset : s.Settled chip b low high) {es : List Event}
    (hes : ∀ e ∈ es, PowerAllowed chip e) :
    ∃ s', run (step chip cb) s es = some s' ∧
      ∀ enabled reading rom token, (∀ call ∈ rom, chip.byte call.radio = 0) →
        s'.isOpen chip = true → Applied chip enabled rom →
        ∃ t, s'.dispatch chip cb enabled reading rom token = some t ∧
          |(t.read8 0x1fb).toInt - correction chip b (clamp low high t.temp)| ≤ 2 := by
  obtain ⟨s', hrun, hsound, hsettled⟩ := hset.run habs hlimit (h.sound cb) hb hes
  refine ⟨s', hrun, fun enabled reading rom token hrom hopen happlied => ?_⟩
  obtain ⟨t, ht, -, haccurate⟩ :=
    hsettled.dispatch habs hlimit hsound hb enabled reading hrom token
  exact ⟨t, ht, haccurate hopen happlied⟩

theorem exactCallbacks_limit : IsLimit exactCallbacks.limit := by
  intro value high low _
  simp only [exactCallbacks, clamp, BitVec.slt_iff_toInt_lt]
  split
  · rfl
  · split <;> rfl

/-- The ready tracking of S3 with limits at 0 and 100 degrees and the reference at 0. -/
def settledTracker : Tracker :=
  { readyTracker with
    params := fun i => if i = 0xb0 then 100 else if i = 0x1fa ∨ i = 0x1fb then 4
      else if i = 0x96 then 20 else readyTracker.params i }

theorem settledTracker_ready : settledTracker.Ready .esp32s3 where
  row := ⟨2, rfl⟩
  powered := fun _ => rfl
  unpowered := fun h => absurd rfl h
  idle := rfl
  fresh := rfl

theorem settledTracker_settled : settledTracker.Settled .esp32s3 0 0 100 := by
  constructor <;> decide

theorem power_of_run_reopen :
    ∃ s, run (step .esp32s3 exactCallbacks) settledTracker reopenEvents = some s ∧
      s.isOpen .esp32s3 = true ∧
      ∀ reading, ∃ t, s.dispatch .esp32s3 exactCallbacks 1 reading [] 7 = some t ∧
        |(t.read8 0x1fb).toInt - correction .esp32s3 0 (clamp 0 100 t.temp)| ≤ 2 := by
  have hes : ∀ e ∈ reopenEvents, PowerAllowed .esp32s3 e := by simp [reopenEvents, PowerAllowed]
  have hb : Sensible 0 0 100 := ⟨by decide, by decide, by decide, by decide⟩
  obtain ⟨s, hrun, haccurate⟩ :=
    power_of_run .esp32s3 exactCallbacks_absolute exactCallbacks_limit hb settledTracker_ready
      settledTracker_settled hes
  have hopen : s.isOpen .esp32s3 = true := by
    have hmap : (run (step .esp32s3 exactCallbacks) settledTracker reopenEvents).map
        (isOpen .esp32s3) = some true := by decide +kernel
    rw [hrun] at hmap
    exact Option.some.inj hmap
  exact ⟨s, hrun, hopen, fun reading => haccurate 1 reading [] 7 (by simp) hopen
    (by rw [Applied]; decide)⟩

end Tracking

end EspWifiHal
