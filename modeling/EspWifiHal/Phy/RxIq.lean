import EspWifiHal.Phy.TxIq
import EspWifiHal.Lib.Register

/-!
# The receive IQ correction

`mismatch` turns four sums of the estimator into a magnitude and a phase, each of one byte.
`correct` programs a correction, measures what is left and adds it, twice.  It computes with
bytes in 32-bit words, which one of the two chips extends by zeros and the other by the sign.
`collect` repeats this until two results agree, and returns the average in one word.

`correct_coefficients` and `collect_average` say that these are the computations with numbers.
-/

namespace EspWifiHal

open Signed

/-! ## The estimator -/

/-- The registers `0x60006148` to `0x60006154`. -/
structure IqEstimate where
  a : BitVec 32
  b : BitVec 32
  c : BitVec 32
  d : BitVec 32

/-- The values that `mismatch` computes with. -/
structure MismatchTerms where
  x : Int
  y : Int
  u : Int
  v : Int
  xx : Int
  yy : Int
  xu : Int
  yv : Int
  xv : Int
  yu : Int
  sum : Int
  denominator : Int
  firstSum : Int
  first : Int
  secondSum : Int
  second : Int
deriving DecidableEq, Repr

/-- The products, for a narrowing to 64 bits. -/
def mismatchProducts (long : Int → Int) (x y u v : Int) : MismatchTerms :=
  let xx := long (x * x)
  let yy := long (y * y)
  let sum := long (xx + yy)
  let denominator := if sum = 0 then 1 else sum
  let xu := long (x * u)
  let yv := long (y * v)
  let firstSum := long (xu - yv)
  let first := long (firstSum * 512)
  let xv := long (x * v)
  let yu := long (y * u)
  let secondSum := long (xv + yu)
  let second := long (secondSum * 512)
  { x, y, u, v, xx, yy, xu, yv, xv, yu, sum, denominator, firstSum, first, secondSum, second }

/-- The terms, for narrowings to 32 and to 64 bits. -/
def mismatchTerms (word long : Int → Int) (shift : Nat) (e : IqEstimate) : MismatchTerms :=
  let a := e.a.toInt / 2 ^ shift
  let d := e.d.toInt / 2 ^ shift
  let c := e.c.toInt / 2 ^ shift
  let b := e.b.toInt / 2 ^ shift
  mismatchProducts long (word (a + d)) (word (b - c)) (word (a - d)) (word (c + b))

/-- A quotient as a coefficient.  `divide` is the ROM's division of 64-bit words. -/
def mismatchByte (divide : Int → Int → Int) (numerator denominator : Int) : BitVec 8 :=
  BitVec.ofInt 8 ((i8 (divide numerator denominator) + 1) / 2)

def mismatchShift (chip : PhyChip) (mode : BitVec 32) : Nat := ((chip.byte mode - 2) &&& 31).toNat

/-- The magnitude and the phase. -/
def mismatch (chip : PhyChip) (divide : Int → Int → Int) (mode : BitVec 32) (e : IqEstimate) :
    BitVec 8 × BitVec 8 :=
  let t := mismatchTerms i32 i64 (mismatchShift chip mode) e
  (mismatchByte divide t.first t.denominator, mismatchByte divide t.second t.denominator)

/-! ## The correction -/

/-- `phy_reg::rx_iq`: the register `0x6000607c` and the result. -/
def rxIq (chip : PhyChip) (coefficient : Int) (mode : BitVec 32) (register : BitVec 32) :
    BitVec 32 × Int :=
  let mode := chip.byte mode
  let value := chip.signedByte coefficient
  let value :=
    if mode = 0 then max (-31) (min 31 value) else max (-15) (min 15 (value.tdiv 2))
  let word := BitVec.ofInt 32 value
  let register : BitVec 32 :=
    if mode = 0 then (register &&& ~~~0x07e00000#32) ||| ((word <<< 21) &&& 0x07e00000)
    else (register &&& ~~~0x001f0000#32) ||| ((word <<< 16) &&& 0x001f0000)
  let result := if mode = 0 then value else value * 2
  (register, match chip with
    | .esp32s3 => u8 result
    | .esp32c3 => u32 result)

/-- The local variables of `correct`, the register `0x6000607c` and the coefficients that are
passed to the setter. -/
structure RxCorrect where
  register : BitVec 32
  magnitude : Int
  phase : Int
  set : List (Int × BitVec 32)
deriving DecidableEq, Repr

namespace RxCorrect

def start (register : BitVec 32) : RxCorrect where
  register := register
  magnitude := 0
  phase := 0
  set := []

def setIq (chip : PhyChip) (coefficient : Int) (mode : BitVec 32) (s : RxCorrect) :
    RxCorrect × Int :=
  let result := rxIq chip coefficient mode s.register
  ({ s with register := result.1, set := s.set ++ [(coefficient, mode)] }, result.2)

/-- One round, with the result of its measurement. -/
def round (chip : PhyChip) (measured : BitVec 8 × BitVec 8) (s : RxCorrect) : RxCorrect :=
  let signedPhase := i8 s.phase
  let correction := u8 ((signedPhase * signedPhase + 128) / 256)
  let first := s.setIq chip (i8 (u32 (s.magnitude - correction))) 1
  let magnitude := chip.unsignedByte first.2
  let second := first.1.setIq chip signedPhase 0
  let phase := chip.unsignedByte second.2
  let magnitude := u32 (u32 (magnitude + correction) + measured.1.toNat)
  let phase := u32 (phase - measured.2.toNat)
  { second.1 with magnitude := u8 magnitude, phase := u8 phase }

end RxCorrect

/-- The state after `correct` and the two bytes that it stores. -/
def correctIq (chip : PhyChip) (divide : Int → Int → Int) (mode : BitVec 32)
    (estimates : Nat → IqEstimate) (register : BitVec 32) : RxCorrect × (BitVec 8 × BitVec 8) :=
  let mode := chip.byte mode
  let s := (List.range 2).foldl
    (fun s i => RxCorrect.round chip (mismatch chip divide mode (estimates i)) s)
    (RxCorrect.start register)
  let magnitude := max (-31) (min 31 (i8 s.magnitude))
  let phase := max (-31) (min 31 (i8 s.phase))
  let s := (s.setIq chip magnitude 1).1
  let s := (s.setIq chip phase 0).1
  (s, BitVec.ofInt 8 magnitude, BitVec.ofInt 8 phase)

/-! ## The average -/

/-- The local variables of `collect`, and the number of samples. -/
structure IqAverage where
  previousM : Int
  previousP : Int
  sumM : Int
  sumP : Int
  magnitude : Int
  phase : Int
  samples : Nat
deriving DecidableEq, Repr

def IqAverage.start : IqAverage where
  previousM := 0
  previousP := 0
  sumM := 0
  sumP := 0
  magnitude := 0
  phase := 0
  samples := 0

/-- One sample, for the narrowing to 8 and to 16 bits. -/
def collectStep (byte half : Int → Int) (difference : Int → Int)
    (sample : Nat → BitVec 8 × BitVec 8) (s : IqAverage) (index : Nat) : IqAverage × Bool :=
  let m := (sample index).1.toInt
  let p := (sample index).2.toInt
  let s := { s with samples := s.samples + 1 }
  if index ≠ 0 ∧ difference (s.previousM - m) ≤ 1 ∧ difference (s.previousP - p) ≤ 1 then
    ({ s with
      magnitude := byte ((s.previousM + m + 1) / 2)
      phase := byte ((s.previousP + p + 1) / 2) }, true)
  else
    let sumM := half (s.sumM + half m)
    let sumP := half (s.sumP + half p)
    ({ s with
      previousM := m, previousP := p, sumM, sumP
      magnitude := byte ((sumM + 2) / 4)
      phase := byte ((sumP + 2) / 4) }, false)

def packAverage (s : IqAverage) : BitVec 32 :=
  let magnitude := BitVec.ofInt 32 (max (-31) (min 31 s.magnitude))
  let phase := BitVec.ofInt 32 (max (-31) (min 31 s.phase))
  ((magnitude &&& 63) <<< 6) ||| (phase &&& 63)

/-- The state at the end and the word that is returned. -/
def collectIq (difference : Int → Int) (sample : Nat → BitVec 8 × BitVec 8) :
    IqAverage × BitVec 32 :=
  let s := Loop.forBreak (collectStep i8 i16 difference sample) (List.range 4) IqAverage.start
  (s, packAverage s)

/-! ## Exact terms -/

/-- The sums and differences of the shifted registers. -/
theorem estimate_bounds (x : BitVec 32) :
    -524288 ≤ x.toInt / 2 ^ 12 ∧ x.toInt / 2 ^ 12 ≤ 524287 := by
  have hlow := BitVec.le_toInt x
  have hhigh := BitVec.toInt_lt (x := x)
  omega

theorem i32_eq {z : Int} (h : -1048576 ≤ z ∧ z ≤ 1048576) : i32 z = z := by
  rw [i32]
  omega

theorem i64_eq {z : Int} (h : -1125899906842624 ≤ z ∧ z ≤ 1125899906842624) : i64 z = z := by
  rw [i64]
  omega

theorem mismatchProducts_exact {x y u v : Int} (hx : -1048576 ≤ x ∧ x ≤ 1048576)
    (hy : -1048576 ≤ y ∧ y ≤ 1048576) (hu : -1048576 ≤ u ∧ u ≤ 1048576)
    (hv : -1048576 ≤ v ∧ v ≤ 1048576) :
    mismatchProducts i64 x y u v = mismatchProducts id x y u v := by
  have hxx := mul_bounds hx hx
  have hyy := mul_bounds hy hy
  have hxu := mul_bounds hx hu
  have hyv := mul_bounds hy hv
  have hxv := mul_bounds hx hv
  have hyu := mul_bounds hy hu
  have exact_xx : i64 (x * x) = x * x := i64_eq (by omega)
  have exact_yy : i64 (y * y) = y * y := i64_eq (by omega)
  have exact_xu : i64 (x * u) = x * u := i64_eq (by omega)
  have exact_yv : i64 (y * v) = y * v := i64_eq (by omega)
  have exact_xv : i64 (x * v) = x * v := i64_eq (by omega)
  have exact_yu : i64 (y * u) = y * u := i64_eq (by omega)
  have exact_sum : i64 (x * x + y * y) = x * x + y * y := i64_eq (by omega)
  have exact_first : i64 (x * u - y * v) = x * u - y * v := i64_eq (by omega)
  have exact_second : i64 (x * v + y * u) = x * v + y * u := i64_eq (by omega)
  have exact_shift : i64 ((x * u - y * v) * 512) = (x * u - y * v) * 512 := i64_eq (by omega)
  have exact_shift' : i64 ((x * v + y * u) * 512) = (x * v + y * u) * 512 := i64_eq (by omega)
  simp only [mismatchProducts, id, exact_xx, exact_yy, exact_xu, exact_yv, exact_xv, exact_yu,
    exact_sum, exact_first, exact_second, exact_shift, exact_shift']

/-- No term of `mismatch` leaves its word, and it does not divide by zero. -/
theorem mismatchTerms_exact (e : IqEstimate) :
    mismatchTerms i32 i64 12 e = mismatchTerms id id 12 e ∧
      (mismatchTerms i32 i64 12 e).denominator ≠ 0 := by
  have ha := estimate_bounds e.a
  have hb := estimate_bounds e.b
  have hc := estimate_bounds e.c
  have hd := estimate_bounds e.d
  constructor
  · simp only [mismatchTerms]
    rw [i32_eq (by omega), i32_eq (by omega), i32_eq (by omega), i32_eq (by omega)]
    exact mismatchProducts_exact (by omega) (by omega) (by omega) (by omega)
  · simp only [mismatchTerms, mismatchProducts]
    split_ifs with hsum
    · decide
    · exact hsum

/-- The magnitude and the phase for mode 14, with all terms over the integers. -/
def integerMismatch (divide : Int → Int → Int) (e : IqEstimate) : BitVec 8 × BitVec 8 :=
  let a := e.a.toInt / 4096
  let b := e.b.toInt / 4096
  let c := e.c.toInt / 4096
  let d := e.d.toInt / 4096
  let first := ((a + d) * (a - d) - (b - c) * (c + b)) * 512
  let second := ((a + d) * (c + b) + (b - c) * (a - d)) * 512
  let sum := (a + d) * (a + d) + (b - c) * (b - c)
  let denominator := if sum = 0 then 1 else sum
  (mismatchByte divide first denominator, mismatchByte divide second denominator)

theorem mode_14 (chip : PhyChip) : chip.byte 14 = 14 ∧ mismatchShift chip 14 = 12 := by
  cases chip <;> decide

theorem mismatch_eq_integerMismatch (chip : PhyChip) (divide : Int → Int → Int)
    (e : IqEstimate) : mismatch chip divide 14 e = integerMismatch divide e := by
  rw [mismatch, (mode_14 chip).2, (mismatchTerms_exact e).1]
  rfl

theorem mismatchByte_bounds (divide : Int → Int → Int) (numerator denominator : Int) :
    -64 ≤ (mismatchByte divide numerator denominator).toInt ∧
      (mismatchByte divide numerator denominator).toInt ≤ 64 := by
  have hbyte : -64 ≤ (i8 (divide numerator denominator) + 1) / 2 ∧
      (i8 (divide numerator denominator) + 1) / 2 ≤ 64 := by
    rw [i8]
    omega
  rw [mismatchByte, BitVec.toInt_ofInt_eq_self (by decide) (Int.le_trans (by decide) hbyte.1)
    (Int.lt_of_le_of_lt hbyte.2 (by decide))]
  exact hbyte

/-! ## The rounds -/

/-- What the setter makes of a magnitude: half of it, limited and doubled. -/
def halved (z : Int) : Int := 2 * max (-15) (min 15 (z.tdiv 2))

def limited31 (z : Int) : Int := max (-31) (min 31 z)

/-- The square of a phase, scaled. -/
def phaseSquare (p : Int) : Int := (p * p + 128) / 256

theorem phaseSquare_bounds {p : Int} (h : -64 ≤ p ∧ p ≤ 64) :
    0 ≤ phaseSquare p ∧ phaseSquare p ≤ 16 := by
  have hsquare := mul_bounds h h
  have hnonneg := mul_self_nonneg p
  rw [phaseSquare]
  omega

section Rounds

variable {chip : PhyChip}

theorem signedByte_eq (chip : PhyChip) {z : Int} (hz : -128 ≤ z ∧ z ≤ 127) :
    chip.signedByte z = z := by
  cases chip with
  | esp32s3 =>
      rw [PhyChip.signedByte, i8]
      omega
  | esp32c3 => rfl

theorem u8_unsignedByte (chip : PhyChip) (z : Int) : u8 (chip.unsignedByte z) = u8 z := by
  cases chip with
  | esp32s3 => exact Int.emod_emod_of_dvd z (Int.dvd_refl 256)
  | esp32c3 => rfl

/-- The results of the setter, up to a multiple of 256. -/
theorem rxIq_magnitude (chip : PhyChip) {z : Int} (hz : -128 ≤ z ∧ z ≤ 127) (register : BitVec 32) :
    u8 (rxIq chip z 1 register).2 = u8 (halved z) := by
  simp only [rxIq, (byte_mode chip).2, if_false, signedByte_eq chip hz, halved]
  cases chip with
  | esp32s3 =>
      simp only [u8]
      omega
  | esp32c3 =>
      simp only [u8, u32]
      omega

theorem rxIq_phase (chip : PhyChip) {z : Int} (hz : -128 ≤ z ∧ z ≤ 127) (register : BitVec 32) :
    u8 (rxIq chip z 0 register).2 = u8 (limited31 z) := by
  simp only [rxIq, (byte_mode chip).1, if_true, signedByte_eq chip hz, limited31]
  cases chip with
  | esp32s3 =>
      simp only [u8]
      omega
  | esp32c3 =>
      simp only [u8, u32]
      omega

/-- A byte as an unsigned and as a signed number. -/
theorem u8_toNat (x : BitVec 8) : u8 x.toNat = u8 x.toInt := by
  rw [BitVec.toInt_eq_toNat_cond]
  simp only [u8]
  split_ifs <;> omega

/-- One round, for any numbers that the magnitude and the phase stand for. -/
theorem round_spec (chip : PhyChip) {s : RxCorrect} {mg ph : Int} (hmg : s.magnitude = u8 mg)
    (hph : s.phase = u8 ph) (hphase : -64 ≤ ph ∧ ph ≤ 64)
    (hcorrected : -128 ≤ mg - phaseSquare ph ∧ mg - phaseSquare ph ≤ 127)
    (measured : BitVec 8 × BitVec 8) :
    (s.round chip measured).magnitude =
      u8 (halved (mg - phaseSquare ph) + phaseSquare ph + measured.1.toInt) ∧
    (s.round chip measured).phase = u8 (limited31 ph - measured.2.toInt) := by
  have hsquare := phaseSquare_bounds hphase
  have hsigned : i8 s.phase = ph := by
    rw [hph]
    simp only [i8, u8]
    omega
  have hcorrection : u8 ((ph * ph + 128) / 256) = phaseSquare ph := by
    rw [phaseSquare] at hsquare ⊢
    rw [u8]
    omega
  have hset : i8 (u32 (s.magnitude - phaseSquare ph)) = mg - phaseSquare ph := by
    rw [hmg]
    simp only [i8, u8, u32]
    omega
  have hm := u8_toNat measured.1
  have hp := u8_toNat measured.2
  simp only [RxCorrect.round, RxCorrect.setIq, hsigned, hcorrection, hset]
  constructor
  · have hresult := (u8_unsignedByte chip _).trans (rxIq_magnitude chip hcorrected s.register)
    simp only [u8, u32] at hresult hm ⊢
    omega
  · have hresult := (u8_unsignedByte chip _).trans (rxIq_phase chip (z := ph) (by omega)
      (rxIq chip (mg - phaseSquare ph) 1 s.register).1)
    simp only [u8, u32] at hresult hp ⊢
    omega

end Rounds

/-- The coefficients from two measurements, over the integers. -/
def rxMagnitude (m₁ p₁ m₂ : Int) : Int :=
  limited31 (halved (m₁ - phaseSquare p₁) + phaseSquare p₁ + m₂)

def rxPhase (p₁ p₂ : Int) : Int := limited31 (limited31 (-p₁) - p₂)

theorem phaseSquare_neg (p : Int) : phaseSquare (-p) = phaseSquare p := by
  rw [phaseSquare, Int.neg_mul_neg, phaseSquare]

theorem halved_bounds (z : Int) : -30 ≤ halved z ∧ halved z ≤ 30 := by
  rw [halved]
  omega

/-- The state after both rounds. -/
theorem rounds_spec (chip : PhyChip) (register : BitVec 32) {first second : BitVec 8 × BitVec 8}
    (hm : -64 ≤ first.1.toInt ∧ first.1.toInt ≤ 64)
    (hp : -64 ≤ first.2.toInt ∧ first.2.toInt ≤ 64) :
    let s := ((RxCorrect.start register).round chip first).round chip second
    s.magnitude = u8 (halved (first.1.toInt - phaseSquare first.2.toInt) +
      phaseSquare first.2.toInt + second.1.toInt) ∧
    s.phase = u8 (limited31 (-first.2.toInt) - second.2.toInt) := by
  intro s
  have hzero : phaseSquare 0 = 0 := rfl
  have hstart : (RxCorrect.start register).magnitude = u8 0 := rfl
  have hstart' : (RxCorrect.start register).phase = u8 0 := rfl
  obtain ⟨hmagnitude, hphase⟩ := round_spec chip hstart hstart' (by decide) (by decide) first
  have hmagnitude' : ((RxCorrect.start register).round chip first).magnitude =
      u8 first.1.toInt := by
    rw [hmagnitude, hzero]
    simp [halved]
  have hphase' : ((RxCorrect.start register).round chip first).phase = u8 (-first.2.toInt) := by
    rw [hphase]
    simp [limited31]
  have hsquare := phaseSquare_bounds hp
  have hspec := round_spec chip hmagnitude' hphase' (by omega)
    (by rw [phaseSquare_neg]; omega) second
  rw [phaseSquare_neg] at hspec
  exact hspec

/-- A coefficient that is limited to 31 is stored in a byte. -/
theorem limited31_stored {z : Int} (h : -128 ≤ z ∧ z ≤ 127) :
    limited31 (i8 (u8 z)) = limited31 z ∧
      (BitVec.ofInt 8 (limited31 z)).toInt = limited31 z := by
  have hbyte : i8 (u8 z) = z := by
    simp only [i8, u8]
    omega
  have hbounds : -31 ≤ limited31 z ∧ limited31 z ≤ 31 := by
    rw [limited31]
    omega
  exact ⟨congrArg limited31 hbyte, BitVec.toInt_ofInt_eq_self (by decide)
    (Int.le_trans (by decide) hbounds.1) (Int.lt_of_le_of_lt hbounds.2 (by decide))⟩

theorem mismatch_bounds (chip : PhyChip) (divide : Int → Int → Int) (mode : BitVec 32)
    (e : IqEstimate) :
    (-64 ≤ (mismatch chip divide mode e).1.toInt ∧ (mismatch chip divide mode e).1.toInt ≤ 64) ∧
      -64 ≤ (mismatch chip divide mode e).2.toInt ∧ (mismatch chip divide mode e).2.toInt ≤ 64 :=
  ⟨mismatchByte_bounds .., mismatchByte_bounds ..⟩

theorem correctIq_spec (chip : PhyChip) (divide : Int → Int → Int) (estimates : Nat → IqEstimate)
    (register : BitVec 32) :
    let measured := fun i => mismatch chip divide 14 (estimates i)
    let M := rxMagnitude (measured 0).1.toInt (measured 0).2.toInt (measured 1).1.toInt
    let P := rxPhase (measured 0).2.toInt (measured 1).2.toInt
    let run := correctIq chip divide 14 estimates register
    (∃ rounds, run.1.set = rounds ++ [(M, 1), (P, 0)]) ∧
      run.2 = (BitVec.ofInt 8 M, BitVec.ofInt 8 P) ∧
      (BitVec.ofInt 8 M).toInt = M ∧ (BitVec.ofInt 8 P).toInt = P := by
  intro measured M P run
  have hbounds : ∀ i, (-64 ≤ (measured i).1.toInt ∧ (measured i).1.toInt ≤ 64) ∧
      -64 ≤ (measured i).2.toInt ∧ (measured i).2.toInt ≤ 64 :=
    fun i => mismatch_bounds chip divide 14 (estimates i)
  obtain ⟨hm₁, hp₁⟩ := hbounds 0
  obtain ⟨hm₂, hp₂⟩ := hbounds 1
  let s := ((RxCorrect.start register).round chip (measured 0)).round chip (measured 1)
  obtain ⟨hmagnitude, hphase⟩ : s.magnitude = u8 _ ∧ s.phase = u8 _ :=
    rounds_spec chip register hm₁ hp₁
  have hhalved := halved_bounds ((measured 0).1.toInt - phaseSquare (measured 0).2.toInt)
  have hsquare := phaseSquare_bounds hp₁
  have hlimited : -31 ≤ limited31 (-(measured 0).2.toInt) ∧
      limited31 (-(measured 0).2.toInt) ≤ 31 := by
    rw [limited31]
    omega
  obtain ⟨hM, hMstored⟩ := limited31_stored (z := halved ((measured 0).1.toInt -
    phaseSquare (measured 0).2.toInt) + phaseSquare (measured 0).2.toInt +
    (measured 1).1.toInt) (by omega)
  obtain ⟨hP, hPstored⟩ := limited31_stored (z := limited31 (-(measured 0).2.toInt) -
    (measured 1).2.toInt) (by omega)
  rw [← hmagnitude] at hM
  rw [← hphase] at hP
  have hrun : run = (((s.setIq chip M 1).1.setIq chip P 0).1, BitVec.ofInt 8 M,
      BitVec.ofInt 8 P) := by
    have hM' : max (-31) (min 31 (i8 s.magnitude)) = M := hM
    have hP' : max (-31) (min 31 (i8 s.phase)) = P := hP
    rw [← hM', ← hP']
    simp only [run, correctIq, (mode_14 chip).1]
    rfl
  rw [hrun]
  exact ⟨⟨s.set, List.append_assoc s.set [(M, 1)] [(P, 0)]⟩, rfl, hMstored, hPstored⟩

/-- For mode 14 the terms of `mismatch` are exact, so that it divides what the integers give, and
its results are in `-64..64`.  What `correct` passes to the setter at the end and stores is what
the integers give, too. -/
theorem correct_coefficients (chip : PhyChip) (divide : Int → Int → Int)
    (estimates : Nat → IqEstimate) (register : BitVec 32) :
    let measured := fun i => mismatch chip divide 14 (estimates i)
    let M := rxMagnitude (measured 0).1.toInt (measured 0).2.toInt (measured 1).1.toInt
    let P := rxPhase (measured 0).2.toInt (measured 1).2.toInt
    let run := correctIq chip divide 14 estimates register
    (∀ i, mismatchTerms i32 i64 (mismatchShift chip 14) (estimates i) =
        mismatchTerms id id (mismatchShift chip 14) (estimates i) ∧
      (mismatchTerms i32 i64 (mismatchShift chip 14) (estimates i)).denominator ≠ 0) ∧
    (∀ i, measured i = integerMismatch divide (estimates i)) ∧
    (∀ i, (-64 ≤ (measured i).1.toInt ∧ (measured i).1.toInt ≤ 64) ∧
      -64 ≤ (measured i).2.toInt ∧ (measured i).2.toInt ≤ 64) ∧
    (∃ rounds, run.1.set = rounds ++ [(M, 1), (P, 0)]) ∧
    run.2.1.toInt = M ∧ run.2.2.toInt = P ∧
    ∀ other : PhyChip, (correctIq other divide 14 estimates register).2 = run.2 := by
  intro measured M P run
  obtain ⟨hset, hstored, hM, hP⟩ := correctIq_spec chip divide estimates register
  refine ⟨fun i => ?_, fun i => mismatch_eq_integerMismatch chip divide (estimates i),
    fun i => mismatch_bounds chip divide 14 (estimates i), hset, ?_, ?_, ?_⟩
  · rw [(mode_14 chip).2]
    exact mismatchTerms_exact (estimates i)
  · rw [show run.2 = _ from hstored]
    exact hM
  · rw [show run.2 = _ from hstored]
    exact hP
  · intro other
    have hmeasured : ∀ i, mismatch other divide 14 (estimates i) = measured i := fun i =>
      (mismatch_eq_integerMismatch other divide _).trans
        (mismatch_eq_integerMismatch chip divide _).symm
    obtain ⟨-, hother, -⟩ := correctIq_spec other divide estimates register
    rw [hother, show run.2 = _ from hstored]
    simp only [hmeasured, measured]

/-! ## The samples -/

section Average

variable {sample : Nat → BitVec 8 × BitVec 8}

/-- The sample agrees with the one before it. -/
def Agrees (sample : Nat → BitVec 8 × BitVec 8) (k : Nat) : Prop :=
  |(sample (k - 1)).1.toInt - (sample k).1.toInt| ≤ 1 ∧
    |(sample (k - 1)).2.toInt - (sample k).2.toInt| ≤ 1

instance (sample : Nat → BitVec 8 × BitVec 8) (k : Nat) : Decidable (Agrees sample k) :=
  inferInstanceAs (Decidable (_ ∧ _))

/-- The sum of the first `k` values. -/
def sampleSum (value : Nat → BitVec 8) (k : Nat) : Int :=
  ((List.range k).map fun i => (value i).toInt).sum

theorem sampleSum_succ (value : Nat → BitVec 8) (k : Nat) :
    sampleSum value (k + 1) = sampleSum value k + (value k).toInt := by
  simp [sampleSum, List.range_succ]

theorem byte_bounds (x : BitVec 8) : -128 ≤ x.toInt ∧ x.toInt ≤ 127 :=
  ⟨BitVec.le_toInt x, Int.le_of_lt_add_one BitVec.toInt_lt⟩

theorem sampleSum_bounds (value : Nat → BitVec 8) (k : Nat) :
    -128 * (k : Int) ≤ sampleSum value k ∧ sampleSum value k ≤ 127 * (k : Int) := by
  induction k with
  | zero => exact ⟨Int.le_refl 0, Int.le_refl 0⟩
  | succ k ih =>
      have hbyte := byte_bounds (value k)
      rw [sampleSum_succ]
      omega

/-- The state before the sample number `k`. -/
structure Averaging (sample : Nat → BitVec 8 × BitVec 8) (k : Nat) (s : IqAverage) : Prop where
  samples : s.samples = k
  previous : k ≠ 0 → s.previousM = (sample (k - 1)).1.toInt ∧ s.previousP = (sample (k - 1)).2.toInt
  sumM : s.sumM = sampleSum (fun i => (sample i).1) k
  sumP : s.sumP = sampleSum (fun i => (sample i).2) k
  average : k ≠ 0 → s.magnitude = (s.sumM + 2) / 4 ∧ s.phase = (s.sumP + 2) / 4
  before : ∀ j, 1 ≤ j → j < k → ¬Agrees sample j

/-- Narrowing changes none of the values. -/
theorem collectStep_exact {k : Nat} (hk : k < 4) {s : IqAverage} (h : Averaging sample k s) :
    collectStep i8 i16 (fun x => |x|) sample s k = collectStep id id (fun x => |x|) sample s k := by
  have hm := byte_bounds (sample k).1
  have hp := byte_bounds (sample k).2
  have hsumM := sampleSum_bounds (fun i => (sample i).1) k
  have hsumP := sampleSum_bounds (fun i => (sample i).2) k
  rw [← h.sumM] at hsumM
  rw [← h.sumP] at hsumP
  simp only [collectStep, id]
  split_ifs with hagree
  · obtain ⟨hprevM, hprevP⟩ := h.previous hagree.1
    have hm' := byte_bounds (sample (k - 1)).1
    have hp' := byte_bounds (sample (k - 1)).2
    rw [← hprevM] at hm'
    rw [← hprevP] at hp'
    have hmagnitude : i8 ((s.previousM + (sample k).1.toInt + 1) / 2) =
        (s.previousM + (sample k).1.toInt + 1) / 2 := by
      rw [i8]
      omega
    have hphase : i8 ((s.previousP + (sample k).2.toInt + 1) / 2) =
        (s.previousP + (sample k).2.toInt + 1) / 2 := by
      rw [i8]
      omega
    rw [hmagnitude, hphase]
  · have hhalf : ∀ z : Int, -512 ≤ z ∧ z ≤ 508 → i16 z = z := by
      intro z hz
      rw [i16]
      omega
    have hbyte : ∀ z : Int, -512 ≤ z ∧ z ≤ 508 → i8 ((z + 2) / 4) = (z + 2) / 4 := by
      intro z hz
      rw [i8]
      omega
    rw [hhalf (sample k).1.toInt (by omega), hhalf (sample k).2.toInt (by omega)]
    rw [hhalf (s.sumM + _) (by omega), hhalf (s.sumP + _) (by omega)]
    rw [hbyte (s.sumM + _) (by omega), hbyte (s.sumP + _) (by omega)]

/-- The samples end with the number `k`, which agrees with the one before it. -/
structure AgreesFirst (sample : Nat → BitVec 8 × BitVec 8) (k : Nat) : Prop where
  pos : 1 ≤ k
  agrees : Agrees sample k
  before : ∀ j, 1 ≤ j → j < k → ¬Agrees sample j

/-- The state after that sample. -/
structure AveragedTwo (sample : Nat → BitVec 8 × BitVec 8) (k : Nat) (s : IqAverage) : Prop where
  first : AgreesFirst sample k
  samples : s.samples = k + 1
  magnitude : s.magnitude = ((sample (k - 1)).1.toInt + (sample k).1.toInt + 1) / 2
  phase : s.phase = ((sample (k - 1)).2.toInt + (sample k).2.toInt + 1) / 2

theorem collectStep_spec {k : Nat} {s : IqAverage} (h : Averaging sample k s) :
    let r := collectStep id id (fun x => |x|) sample s k
    (r.2 = false → Averaging sample (k + 1) r.1) ∧ (r.2 = true → AveragedTwo sample k r.1) := by
  simp only [collectStep, id]
  split_ifs with hagree
  · obtain ⟨hk, hm, hp⟩ := hagree
    obtain ⟨hprevM, hprevP⟩ := h.previous hk
    rw [hprevM] at hm
    rw [hprevP] at hp
    refine ⟨nofun, fun _ => ⟨⟨Nat.one_le_iff_ne_zero.mpr hk, ⟨hm, hp⟩, h.before⟩, ?_, ?_, ?_⟩⟩
    · exact congrArg (· + 1) h.samples
    · rw [hprevM]
    · rw [hprevP]
  · refine ⟨fun _ => ⟨congrArg (· + 1) h.samples, fun _ => ⟨rfl, rfl⟩, ?_, ?_, fun _ => ⟨rfl, rfl⟩,
      fun j hj hjk => ?_⟩, nofun⟩
    · rw [sampleSum_succ, ← h.sumM]
    · rw [sampleSum_succ, ← h.sumP]
    · rcases Nat.lt_succ_iff_lt_or_eq.mp hjk with hlt | rfl
      · exact h.before j hj hlt
      · intro hj'
        obtain ⟨hprevM, hprevP⟩ := h.previous (by omega)
        refine hagree ⟨by omega, ?_, ?_⟩
        · rw [hprevM]
          exact hj'.1
        · rw [hprevP]
          exact hj'.2

theorem averaging_start : Averaging sample 0 IqAverage.start :=
  ⟨rfl, fun h => absurd rfl h, rfl, rfl, fun h => absurd rfl h, fun j hj hj0 => by omega⟩

/-- No narrowing changes a value in any iteration. -/
theorem collect_exact (sample : Nat → BitVec 8 × BitVec 8) {n : Nat} (hn : n ≤ 4) :
    Loop.forBreak (collectStep i8 i16 (fun x => |x|) sample) (List.range n) IqAverage.start =
      Loop.forBreak (collectStep id id (fun x => |x|) sample) (List.range n) IqAverage.start := by
  refine Loop.forBreak_congr n averaging_start (fun k hk t ht => collectStep_exact (by omega) ht)
    fun k hk t ht => ?_
  rw [collectStep_exact (by omega) ht]
  exact (collectStep_spec ht).1

theorem collect_end (sample : Nat → BitVec 8 × BitVec 8) :
    let s := Loop.forBreak (collectStep i8 i16 (fun x => |x|) sample) (List.range 4)
      IqAverage.start
    Averaging sample 4 s ∨ ∃ k < 4, AveragedTwo sample k s := by
  intro s
  rw [show s = _ from collect_exact sample (Nat.le_refl 4)]
  rcases Loop.forBreak_range (collectStep id id (fun x => |x|) sample) (Averaging sample) 4
    averaging_start fun k _ t ht => (collectStep_spec ht).1 with hend | ⟨k, hk, t, ht, hstop, heq⟩
  · exact Or.inl hend
  · rw [heq]
    exact Or.inr ⟨k, hk, (collectStep_spec ht).2 hstop⟩

/-! ## The word -/

/-- Two fields of six bits. -/
theorem pair_fields (magnitude phase : BitVec 32) :
    let word := ((magnitude &&& 63) <<< 6) ||| (phase &&& 63)
    word.toNat < 4096 ∧ word.extractLsb' 6 6 = magnitude.setWidth 6 ∧
      word.extractLsb' 0 6 = phase.setWidth 6 := by
  refine ⟨?_, Register.extractLsb'_pair 6 6 (by decide) rfl rfl⟩
  have hmask : ∀ x : BitVec 32, (x &&& 63).toNat < 64 := by
    intro x
    rw [Register.toNat_and_mask 6 rfl]
    exact Nat.mod_lt _ (by decide)
  have hmagnitude := hmask magnitude
  have hphase := hmask phase
  rw [BitVec.or_comm, Register.toNat_or_shiftLeft (n := 6) hphase (by omega)]
  omega

/-- The word has the limited average in two fields of six bits. -/
theorem packAverage_fields (s : IqAverage) :
    (packAverage s).toNat < 4096 ∧
      ((packAverage s).extractLsb' 6 6).toInt = limited31 s.magnitude ∧
      ((packAverage s).extractLsb' 0 6).toInt = limited31 s.phase := by
  have hfield : ∀ z : Int, ((BitVec.ofInt 32 (limited31 z)).setWidth 6).toInt = limited31 z := by
    intro z
    have hbounds : -31 ≤ limited31 z ∧ limited31 z ≤ 31 := by
      rw [limited31]
      omega
    exact toInt_setWidth_ofInt (by decide) (by decide) ⟨0, by omega⟩
      (Int.le_trans (by decide) hbounds.1) (Int.lt_of_le_of_lt hbounds.2 (by decide))
  obtain ⟨hpacked, hmagnitude, hphase⟩ := pair_fields (BitVec.ofInt 32 (limited31 s.magnitude))
    (BitVec.ofInt 32 (limited31 s.phase))
  have hword : packAverage s = ((BitVec.ofInt 32 (limited31 s.magnitude) &&& 63) <<< 6) |||
      (BitVec.ofInt 32 (limited31 s.phase) &&& 63) := rfl
  rw [hword, hmagnitude, hphase]
  exact ⟨hpacked, hfield _, hfield _⟩

/-- The word decodes to the limited average. -/
theorem debugIq_average (chip : PhyChip) {selector : BitVec 32} (h : chip.byte selector ≠ 0)
    (s : IqAverage) :
    (debugIq chip (packAverage s) selector).1.toInt = limited31 s.magnitude ∧
      (debugIq chip (packAverage s) selector).2.toInt = limited31 s.phase := by
  obtain ⟨hpacked, hmagnitude, hphase⟩ := packAverage_fields s
  rw [debugIq_eq chip (Nat.lt_trans hpacked (by decide)) selector (if_neg h)]
  exact ⟨(BitVec.toInt_signExtend_of_le (by decide)).trans hmagnitude,
    (BitVec.toInt_signExtend_of_le (by decide)).trans hphase⟩

end Average

/-- Samples are taken until one agrees with the one before it, and the word decodes to the mean of
the two, or to the mean of four if none agrees.  No narrowing changes a value. -/
theorem collect_average (chip : PhyChip) (selector : BitVec 32)
    (hselector : chip.byte selector ≠ 0) (sample : Nat → BitVec 8 × BitVec 8) :
    let run := collectIq (fun x => |x|) sample
    let decoded := debugIq chip run.2 selector
    (∀ k ≤ 3, AgreesFirst sample k → run.1.samples = k + 1 ∧
      decoded.1.toInt = limited31 (((sample (k - 1)).1.toInt + (sample k).1.toInt + 1) / 2) ∧
      decoded.2.toInt = limited31 (((sample (k - 1)).2.toInt + (sample k).2.toInt + 1) / 2)) ∧
    ((∀ k, 1 ≤ k → k ≤ 3 → ¬Agrees sample k) → run.1.samples = 4 ∧
      decoded.1.toInt = limited31 ((sampleSum (fun i => (sample i).1) 4 + 2) / 4) ∧
      decoded.2.toInt = limited31 ((sampleSum (fun i => (sample i).2) 4 + 2) / 4)) ∧
    ∀ n ≤ 4,
      Loop.forBreak (collectStep i8 i16 (fun x => |x|) sample) (List.range n) IqAverage.start =
        Loop.forBreak (collectStep id id (fun x => |x|) sample) (List.range n)
          IqAverage.start := by
  intro run decoded
  obtain ⟨hfirst, hsecond⟩ : decoded.1.toInt = limited31 run.1.magnitude ∧
      decoded.2.toInt = limited31 run.1.phase := debugIq_average chip hselector run.1
  rw [hfirst, hsecond]
  have hend : Averaging sample 4 run.1 ∨ ∃ k < 4, AveragedTwo sample k run.1 := collect_end sample
  refine ⟨fun k hk hagrees => ?_, fun hnone => ?_, fun n hn => collect_exact sample hn⟩
  · rcases hend with hfour | ⟨l, hl, htwo⟩
    · exact absurd hagrees.agrees (hfour.before k hagrees.pos (by omega))
    · -- there is only one first sample that agrees
      obtain rfl : k = l := by
        rcases Nat.lt_trichotomy k l with hlt | heq | hgt
        · exact absurd hagrees.agrees (htwo.first.before k hagrees.pos hlt)
        · exact heq
        · exact absurd htwo.first.agrees (hagrees.before l htwo.first.pos hgt)
      exact ⟨htwo.samples, congrArg limited31 htwo.magnitude, congrArg limited31 htwo.phase⟩
  · rcases hend with hfour | ⟨l, hl, htwo⟩
    · obtain ⟨hmagnitude, hphase⟩ := hfour.average (by decide)
      rw [hfour.sumM] at hmagnitude
      rw [hfour.sumP] at hphase
      exact ⟨hfour.samples, congrArg limited31 hmagnitude, congrArg limited31 hphase⟩
    · exact absurd htwo.first.agrees (hnone l htwo.first.pos (by omega))

/-- The second and the third sample agree. -/
theorem collect_average_of_third :
    let sample : Nat → BitVec 8 × BitVec 8 := fun i => if i = 0 then (3, 40) else (7, 40)
    let run := collectIq (fun x => |x|) sample
    run.1.samples = 3 ∧ (debugIq .esp32s3 run.2 1).1.toInt = limited31 7 ∧
      (debugIq .esp32s3 run.2 1).2.toInt = limited31 40 := by
  intro sample run
  have hfirst : AgreesFirst sample 2 := by
    refine ⟨by decide, by decide, fun j hj hj2 => ?_⟩
    obtain rfl : j = 1 := by omega
    decide
  have haverage := (collect_average .esp32s3 1 (by decide) sample).1 2 (by decide) hfirst
  exact ⟨haverage.1, haverage.2.1.trans (by decide), haverage.2.2.trans (by decide)⟩

end EspWifiHal
