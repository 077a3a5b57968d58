import EspWifiHal.Phy.Init
import EspWifiHal.Lib.Loop
import EspWifiHal.Lib.Signed
import Mathlib.Algebra.Order.Group.Int
import Mathlib.Algebra.Order.Group.Abs

/-!
# The attenuation of a tone

`attenuation` looks for the attenuation at which the power detector shows a given target.  It
emits a tone, compares the sample with the target and takes the difference as the next step.
If a larger attenuation gave a larger sample, the search goes back by 20 before it goes on.

This step back changes the code after the tone has been emitted and before the sample is
compared, so that a code without a tone could be returned.  `attenuation_sound` says that it is
not, for all readings of the detector.
-/

namespace EspWifiHal

open Signed

/-! ## The functions -/

/-- An argument of type `u16`, which only S3 narrows. -/
def PhyChip.half (chip : PhyChip) (value : BitVec 32) : BitVec 32 :=
  match chip with
  | .esp32s3 => (value.setWidth 16).setWidth 32
  | .esp32c3 => value

/-- `db`: the reading of the detector, from two samples that a callback has converted. -/
def detectorDb (chip : PhyChip) (offset first second : BitVec 32) : BitVec 16 :=
  (chip.half offset + first - second).setWidth 16

/-- Which `return` has ended the search. -/
inductive AttenuationExit where
  | tolerance
  | low
  | high
  /-- After the last tone. -/
  | last
deriving DecidableEq, Repr

/-- The local variables of `attenuation`, and the tones with their codes. -/
structure AttenuationState where
  tones : List (Int × Int)
  previousAttenuation : Int
  previousSample : Int
  attenuation : Int
  exit : AttenuationExit
deriving DecidableEq, Repr

def AttenuationState.start (attenuation : Int) : AttenuationState where
  tones := []
  previousAttenuation := 0
  previousSample := 0
  attenuation := attenuation
  exit := .last

namespace PhyChip

/-- The same for numbers. -/
def signedHalf (chip : PhyChip) (value : Int) : Int :=
  match chip with
  | .esp32s3 => i16 value
  | .esp32c3 => value

def signedByte (chip : PhyChip) (value : Int) : Int :=
  match chip with
  | .esp32s3 => i8 value
  | .esp32c3 => value

def unsignedByte (chip : PhyChip) (value : Int) : Int :=
  match chip with
  | .esp32s3 => u8 value
  | .esp32c3 => value

/-- The difference, which C3 limits. -/
def limited (chip : PhyChip) (limit : Int → Int) (delta : Int) : Int :=
  match chip with
  | .esp32s3 => delta
  | .esp32c3 => i16 (limit delta)

/-- The step for a difference. -/
def adjustment (chip : PhyChip) (limit : Int → Int) (delta : Int) : Int :=
  let step := chip.limited limit delta
  if step > 0 then step else (step * 3).tdiv 4

end PhyChip

/-- The sample of a reading. -/
def powerSample (reading : BitVec 16) : Int := i16 (reading.toInt / 4)

/-- The code after a tone.  It goes back if the attenuation and the sample have both grown. -/
def stepBack (s : AttenuationState) (iteration : Nat) (sample : Int) : Int :=
  if iteration ≠ 0 ∧ s.previousAttenuation < s.attenuation ∧ s.previousSample < sample then
    i16 (s.previousAttenuation - 20)
  else s.attenuation

def attenuationStep (chip : PhyChip) (limit : Int → Int) (tone target : Int)
    (readings : Nat → BitVec 16) (s : AttenuationState) (iteration : Nat) :
    AttenuationState × Bool :=
  let s := { s with tones := s.tones ++ [(tone, u8 s.attenuation)] }
  let sample := powerSample (readings iteration)
  let delta := i16 (sample - target)
  let attenuation := stepBack s iteration sample
  if u16 (delta + 3) ≤ 6 then ({ s with attenuation, exit := .tolerance }, true)
  else
    let next := i16 (attenuation + chip.adjustment limit delta)
    if next < 0 then ({ s with attenuation := 0, exit := .low }, true)
    else if next > 120 then ({ s with attenuation := 120, exit := .high }, true)
    else
      ({ s with
        previousAttenuation := attenuation, previousSample := sample, attenuation := next }, false)

/-- The result is the attenuation of the state at the end.  `readings` is what `power_db` returns
for each tone. -/
def attenuation (chip : PhyChip) (limit : Int → Int) (tone attenuation target : Int)
    (readings : Nat → BitVec 16) : AttenuationState :=
  let tone := chip.signedHalf tone
  let target := chip.unsignedByte target
  Loop.forBreak (attenuationStep chip limit tone target readings) (List.range 6)
    (AttenuationState.start (chip.signedByte attenuation))

/-! ## The search -/

section Search

variable {chip : PhyChip} {limit : Int → Int} {tone target start : Int}
  {readings : Nat → BitVec 16}

/-- The callback does not turn a step around, as far as the code sees its result. -/
def SignPreserving (limit : Int → Int) : Prop :=
  ∀ delta, (0 ≤ delta → 0 ≤ i16 (limit delta)) ∧ (delta ≤ 0 → i16 (limit delta) ≤ 0)

theorem powerSample_bounds (reading : BitVec 16) :
    -8192 ≤ powerSample reading ∧ powerSample reading ≤ 8191 := by
  have hlow := BitVec.le_toInt reading
  have hhigh := BitVec.toInt_lt (x := reading)
  rw [powerSample, i16]
  omega

theorem delta_eq (htarget : 0 ≤ target ∧ target ≤ 255) (reading : BitVec 16) :
    i16 (powerSample reading - target) = powerSample reading - target := by
  have hsample := powerSample_bounds reading
  rw [i16]
  omega

theorem limited_bounds (chip : PhyChip) (limit : Int → Int) {delta : Int}
    (h : -8447 ≤ delta ∧ delta ≤ 8191) :
    -32768 ≤ chip.limited limit delta ∧ chip.limited limit delta ≤ 32767 := by
  cases chip with
  | esp32s3 =>
      rw [PhyChip.limited]
      omega
  | esp32c3 =>
      simp only [PhyChip.limited, i16]
      omega

theorem limited_nonpos (hlimit : chip = .esp32c3 → SignPreserving limit) {delta : Int}
    (h : delta ≤ 0) : chip.limited limit delta ≤ 0 := by
  cases chip with
  | esp32s3 => exact h
  | esp32c3 => exact (hlimit rfl delta).2 h

/-- A sample that is not above the target does not raise the code, and no step down is too large
for 16 bits. -/
theorem adjustment_nonpos (hlimit : chip = .esp32c3 → SignPreserving limit) {delta : Int}
    (h : -8447 ≤ delta ∧ delta ≤ 0) :
    -24576 ≤ chip.adjustment limit delta ∧ chip.adjustment limit delta ≤ 0 := by
  have hbounds := limited_bounds chip limit ⟨h.1, Int.le_trans h.2 (by decide)⟩
  have hnonpos := limited_nonpos hlimit h.2
  have hsign : Int.sign 4 = 1 := rfl
  rw [PhyChip.adjustment, if_neg (by omega), Int.tdiv_eq_ediv, hsign]
  split_ifs <;> omega

/-- The code is raised only if the sample is too large. -/
theorem raised_sample (hlimit : chip = .esp32c3 → SignPreserving limit) {code delta : Int}
    (hcode : -120 ≤ code ∧ code ≤ 127) (hdelta : -8447 ≤ delta ∧ delta ≤ 8191)
    (htolerance : ¬u16 (delta + 3) ≤ 6)
    (hraised : code < i16 (code + chip.adjustment limit delta)) : 3 < delta := by
  by_contra hle
  rw [u16] at htolerance
  have hdown : -8447 ≤ delta ∧ delta ≤ 0 := by omega
  have hadjust := adjustment_nonpos hlimit hdown
  rw [i16] at hraised
  omega

/-- The state before the tone number `k`.  If the attenuation has been raised, then the sample
before was too large. -/
structure Searching (start target : Int) (k : Nat) (s : AttenuationState) : Prop where
  tones : s.tones.length = k
  codes : ∀ t ∈ s.tones.tail, 0 ≤ t.2 ∧ t.2 ≤ 120
  attenuation : k = 0 ∧ s.attenuation = start ∨ k ≠ 0 ∧ 0 ≤ s.attenuation ∧ s.attenuation ≤ 120
  previous : k ≠ 0 → -20 * (k : Int) ≤ s.previousAttenuation ∧ s.previousAttenuation ≤ 127
  climb : k ≠ 0 → s.previousAttenuation < s.attenuation → target + 3 < s.previousSample
  exit : s.exit = .last

/-- The state at the end. -/
structure SearchEnd (tone start target : Int) (readings : Nat → BitVec 16)
    (s : AttenuationState) : Prop where
  tones : s.tones.length ≤ 6
  codes : ∀ t ∈ s.tones.tail, 0 ≤ t.2 ∧ t.2 ≤ 120
  result : s.attenuation = start ∨ 0 ≤ s.attenuation ∧ s.attenuation ≤ 120
  tested : s.exit = .tolerance → s.tones.getLast? = some (tone, s.attenuation) ∧
    |powerSample (readings (s.tones.length - 1)) - target| ≤ 3

/-- The codes after the next tone. -/
theorem Searching.codes_append {k : Nat} {s : AttenuationState} (h : Searching start target k s) :
    ∀ t ∈ (s.tones ++ [(tone, u8 s.attenuation)]).tail, 0 ≤ t.2 ∧ t.2 ≤ 120 := by
  rcases h.attenuation with ⟨hk, -⟩ | ⟨hk, hcode⟩
  · have hnil : s.tones = [] := List.length_eq_zero_iff.mp (h.tones.trans hk)
    simp [hnil]
  · have hne : s.tones ≠ [] := by
      intro hnil
      have hlength := h.tones
      rw [hnil] at hlength
      exact hk hlength.symm
    rw [List.tail_append_of_ne_nil hne]
    intro t ht
    rcases List.mem_append.mp ht with hold | hnew
    · exact h.codes t hold
    · rw [List.mem_singleton.mp hnew, u8]
      omega

/-- After a step back the sample is too large. -/
theorem Searching.back {k : Nat} (hk : k < 6) {s : AttenuationState}
    (h : Searching start target k s) (hstart : 0 ≤ start ∧ start ≤ 127) (sample : Int) :
    (-20 * ((k + 1 : Nat) : Int) ≤ stepBack s k sample ∧ stepBack s k sample ≤ 127) ∧
      (stepBack s k sample = s.attenuation ∨ target + 3 < sample) := by
  have hattenuation := h.attenuation
  by_cases hback : k ≠ 0 ∧ s.previousAttenuation < s.attenuation ∧ s.previousSample < sample
  · have hprevious := h.previous hback.1
    have hclimb := h.climb hback.1 hback.2.1
    rw [stepBack, if_pos hback, i16]
    omega
  · rw [stepBack, if_neg hback]
    omega

theorem attenuationStep_spec (hlimit : chip = .esp32c3 → SignPreserving limit)
    (hstart : 0 ≤ start ∧ start ≤ 127) (htarget : 0 ≤ target ∧ target ≤ 255) {k : Nat}
    (hk : k < 6) {s : AttenuationState} (h : Searching start target k s) :
    let r := attenuationStep chip limit tone target readings s k
    (r.2 = false → Searching start target (k + 1) r.1) ∧
      (r.2 = true → SearchEnd tone start target readings r.1) := by
  have hsample := powerSample_bounds (readings k)
  have hdelta := delta_eq htarget (readings k)
  obtain ⟨hrange, hback⟩ := h.back hk hstart (powerSample (readings k))
  have hlength : (s.tones ++ [(tone, u8 s.attenuation)]).length = k + 1 := by
    rw [List.length_append, h.tones]
    rfl
  have hfew : (s.tones ++ [(tone, u8 s.attenuation)]).length ≤ 6 := by omega
  have hattenuation := h.attenuation
  have htones : stepBack { s with tones := s.tones ++ [(tone, u8 s.attenuation)] } k
      (powerSample (readings k)) = stepBack s k (powerSample (readings k)) := rfl
  simp only [attenuationStep, hdelta, htones]
  split_ifs with htolerance hneg hbig
  · -- the sample is close to the target, so there was no step back
    rw [u16] at htolerance
    have hsame : stepBack s k (powerSample (readings k)) = s.attenuation := by omega
    have hresult : s.attenuation = start ∨ 0 ≤ s.attenuation ∧ s.attenuation ≤ 120 := by omega
    have hcode : u8 s.attenuation = s.attenuation := by
      rw [u8]
      omega
    refine ⟨nofun, fun _ => ⟨hfew, h.codes_append, ?_, fun _ => ⟨?_, ?_⟩⟩⟩
    · rw [hsame]
      exact hresult
    · rw [List.getLast?_concat, hcode]
      exact congrArg (fun code => some (tone, code)) hsame.symm
    · rw [hlength, Nat.add_sub_cancel, abs_le]
      omega
  · refine ⟨nofun, fun _ => ⟨hfew, h.codes_append, Or.inr ?_, nofun⟩⟩
    exact ⟨Int.le_refl 0, show (0 : Int) ≤ 120 by decide⟩
  · refine ⟨nofun, fun _ => ⟨hfew, h.codes_append, Or.inr ?_, nofun⟩⟩
    exact ⟨show (0 : Int) ≤ 120 by decide, Int.le_refl 120⟩
  · refine ⟨fun _ => ⟨hlength, h.codes_append, Or.inr ⟨Nat.succ_ne_zero k, ?_, ?_⟩, fun _ => ?_,
      fun _ hclimb => ?_, h.exit⟩, nofun⟩
    · exact Int.not_lt.mp hneg
    · exact Int.not_lt.mp hbig
    · exact hrange
    · -- the code has been raised, so the step was upwards
      have hcode : -120 ≤ stepBack s k (powerSample (readings k)) ∧
          stepBack s k (powerSample (readings k)) ≤ 127 := by omega
      have hlarge := raised_sample hlimit hcode (by omega) htolerance hclimb
      show target + 3 < powerSample (readings k)
      omega

end Search

/-- At most six tones are emitted, all codes after the first are at most 120, and so is the
result if it is not the start.  A result that is within the tolerance is the code of the last
tone, and the sample of that tone is within 3 of the target. -/
theorem attenuation_sound (chip : PhyChip) (limit : Int → Int)
    (hlimit : chip = .esp32c3 → SignPreserving limit) (tone start target : Int)
    (hstart : 0 ≤ start ∧ start ≤ 127) (htarget : 0 ≤ target ∧ target ≤ 255)
    (readings : Nat → BitVec 16) :
    let run := attenuation chip limit tone start target readings
    run.tones.length ≤ 6 ∧ (∀ t ∈ run.tones.tail, 0 ≤ t.2 ∧ t.2 ≤ 120) ∧
      (run.attenuation = start ∨ 0 ≤ run.attenuation ∧ run.attenuation ≤ 120) ∧
      (run.exit = .tolerance →
        run.tones.getLast? = some (chip.signedHalf tone, run.attenuation) ∧
        |powerSample (readings (run.tones.length - 1)) - target| ≤ 3) := by
  intro run
  have hstartByte : chip.signedByte start = start := by
    cases chip with
    | esp32s3 =>
        simp only [PhyChip.signedByte, i8]
        omega
    | esp32c3 => rfl
  have htargetByte : chip.unsignedByte target = target := by
    cases chip with
    | esp32s3 =>
        simp only [PhyChip.unsignedByte, u8]
        omega
    | esp32c3 => rfl
  suffices hend : SearchEnd (chip.signedHalf tone) start target readings run from
    ⟨hend.tones, hend.codes, hend.result, hend.tested⟩
  have hrun : run = Loop.forBreak
      (attenuationStep chip limit (chip.signedHalf tone) target readings) (List.range 6)
      (AttenuationState.start start) := by
    simp only [run, attenuation, hstartByte, htargetByte]
  have hinit : Searching start target 0 (AttenuationState.start start) :=
    ⟨rfl, nofun, Or.inl ⟨rfl, rfl⟩, fun h => absurd rfl h, fun h => absurd rfl h, rfl⟩
  have hloop := Loop.forBreak_range
    (attenuationStep chip limit (chip.signedHalf tone) target readings)
    (Searching start target) 6 hinit
    fun k hk t ht => (attenuationStep_spec hlimit hstart htarget hk ht).1
  rw [hrun]
  rcases hloop with hlast | ⟨k, hk, t, ht, hstop, heq⟩
  · have hresult := hlast.attenuation.resolve_left fun h => absurd h.1 (by decide)
    refine ⟨Nat.le_of_eq hlast.tones, hlast.codes, Or.inr hresult.2, fun hexit => ?_⟩
    rw [hlast.exit] at hexit
    cases hexit
  · rw [heq]
    exact (attenuationStep_spec hlimit hstart htarget hk ht).2 hstop

/-- The clamp that the ROM has in the place of the callback. -/
def clampTwenty (delta : Int) : Int := max (-20) (min 20 delta)

theorem signPreserving_clampTwenty : SignPreserving clampTwenty := by
  intro delta
  simp only [clampTwenty, i16]
  omega

/-- The first sample is 20 above the target and the second is on it. -/
theorem attenuation_sound_of_two :
    let readings := fun i => detectorDb .esp32c3 0 (if i = 0 then 480 else 400) 0
    let run := attenuation .esp32c3 clampTwenty 5 40 100 readings
    run.exit = .tolerance ∧ run.tones.getLast? = some (5, run.attenuation) ∧
      |powerSample (readings (run.tones.length - 1)) - 100| ≤ 3 := by
  intro readings run
  have hexit : run.exit = .tolerance := by decide
  exact ⟨hexit, (attenuation_sound .esp32c3 clampTwenty (fun _ => signPreserving_clampTwenty) 5 40
    100 (by decide) (by decide) readings).2.2.2 hexit⟩

end EspWifiHal
