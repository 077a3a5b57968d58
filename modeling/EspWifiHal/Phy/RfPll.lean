import EspWifiHal.Phy.Init

/-!
# The divider of the RF PLL

`frequency` divides the frequency by the reference clock and writes the quotient as three
digits to the base 256.  The first is the integral part and the others are the fraction.
The arithmetic is that of 32-bit words: signed divisions, of which the lowest byte is kept,
and a remainder that is shifted by a byte.  `frequency_digits` says that nothing is lost.
-/

namespace EspWifiHal

open Memory

/-! ## The functions -/

/-- The lower half of a word as a signed number. -/
def short (value : BitVec 32) : BitVec 32 := (value.setWidth 16).signExtend 32

/-- The reference clock in MHz. -/
def PhyChip.clock (chip : PhyChip) (selector : BitVec 32) : BitVec 32 :=
  let selector : BitVec 8 := selector.setWidth 8
  if selector = 1 then 26
  else if selector = 2 then 32
  else if selector = 3 ∧ chip ≠ .esp32s3 then 48
  else 40

/-- A signed argument, of which S3 takes the lower half. -/
def PhyChip.offset : PhyChip → BitVec 32 → BitVec 32
  | .esp32s3, value => short value
  | .esp32c3, value => value

/-- One digit.  The numerator is what is left to divide. -/
def frequencyStep (denominator : BitVec 32) (buffer : Nat) (s : BitVec 32 × ByteMem) (i : Nat) :
    BitVec 32 × ByteMem :=
  let quotient : BitVec 8 := (s.1.sdiv denominator).setWidth 8
  ((s.1 - quotient.setWidth 32 * denominator) <<< 8,
    write s.2 (buffer + i) 1 (quotient.setWidth 32))

def frequency (chip : PhyChip) (frequency selector offset : BitVec 32) (buffer : Nat)
    (m : ByteMem) : ByteMem :=
  let denominator := chip.clock selector * 3000
  let numerator := (frequency * 1000 + chip.offset offset) * 4 - denominator * 32
  ((List.range 3).foldl (frequencyStep denominator buffer) (numerator, m)).2

/-! ## Long division -/

/-- The first digit of a quotient and the others. -/
theorem mul_div_eq_digit {d : Nat} (b n : Nat) (hd : 0 < d) :
    b * n / d = b * (n / d) + n % d * b / d :=
  calc
    b * n / d = b * (d * (n / d) + n % d) / d := by rw [Nat.div_add_mod]
    _ = (d * (b * (n / d)) + n % d * b) / d := by
      rw [Nat.mul_add, Nat.mul_left_comm, Nat.mul_comm b (n % d)]
    _ = b * (n / d) + n % d * b / d := Nat.mul_add_div hd _ _

theorem mul_mod_eq_digit (b n d : Nat) : b * n % d = n % d * b % d := by
  rw [Nat.mul_comm, Nat.mod_mul_mod]

/-- What is left to divide after `k` digits. -/
def dividendAfter (b d n : Nat) : Nat → Nat
  | 0 => n
  | k + 1 => dividendAfter b d n k % d * b

theorem dividendAfter_lt {b d n : Nat} (hd : 0 < d) (hn : n < b * d) (k : Nat) :
    dividendAfter b d n k < b * d := by
  induction k with
  | zero => exact hn
  | succ k _ =>
      have hb : 0 < b := Nat.pos_of_mul_pos_right (Nat.zero_lt_of_lt hn)
      rw [dividendAfter, Nat.mul_comm b]
      exact Nat.mul_lt_mul_of_pos_right (Nat.mod_lt _ hd) hb

theorem three_digits {d : Nat} (b n : Nat) (hd : 0 < d) :
    b * (b * (dividendAfter b d n 0 / d) + dividendAfter b d n 1 / d) + dividendAfter b d n 2 / d =
      b * (b * n) / d := by
  rw [mul_div_eq_digit b (b * n) hd, mul_div_eq_digit b n hd, mul_mod_eq_digit b n d]
  rfl

/-! ## The digits -/

/-- The numerator after `k` digits. -/
def pllRemainder (denominator numerator : BitVec 32) : Nat → BitVec 32
  | 0 => numerator
  | k + 1 =>
      let n := pllRemainder denominator numerator k
      (n - ((n.sdiv denominator).setWidth 8).setWidth 32 * denominator) <<< 8

/-- The digit `k`. -/
def pllDigit (chip : PhyChip) (frequency selector offset : BitVec 32) (k : Nat) : BitVec 8 :=
  let denominator := chip.clock selector * 3000
  let numerator := (frequency * 1000 + chip.offset offset) * 4 - denominator * 32
  ((pllRemainder denominator numerator k).sdiv denominator).setWidth 8

theorem foldl_frequencyStep (denominator numerator : BitVec 32) (buffer : Nat) (m : ByteMem)
    (k : Nat) :
    (List.range k).foldl (frequencyStep denominator buffer) (numerator, m) =
      (pllRemainder denominator numerator k, fill m buffer k fun i =>
        ((pllRemainder denominator numerator i).sdiv denominator).setWidth 8) := by
  induction k with
  | zero => exact congrArg (Prod.mk numerator) (fill_zero ..).symm
  | succ k ih =>
      rw [List.range_succ, List.foldl_append, ih, List.foldl_cons, List.foldl_nil, frequencyStep,
        write_one, setWidth_byte, ← fill_fill m buffer k 1]
      refine congrArg (Prod.mk _) (fill_congr fun i hi => ?_)
      obtain rfl : i = 0 := by omega
      rfl

/-- Three bytes are written, and what they are does not depend on the memory. -/
theorem frequency_eq (chip : PhyChip) (f selector offset : BitVec 32) (buffer : Nat)
    (m : ByteMem) :
    frequency chip f selector offset buffer m =
      fill m buffer 3 (pllDigit chip f selector offset) := by
  rw [frequency, foldl_frequencyStep]
  rfl

section Digits

variable {numerator denominator : BitVec 32}

/-- The digit of a small numerator. -/
theorem quotient_toNat (hpos : 0 < denominator.toNat) (hsmall : denominator.toNat ≤ 144000)
    (hlt : numerator.toNat < 256 * denominator.toNat) :
    ((numerator.sdiv denominator).setWidth 8 : BitVec 8).toNat =
      numerator.toNat / denominator.toNat := by
  have hquotient : numerator.toNat / denominator.toNat < 256 :=
    (Nat.div_lt_iff_lt_mul hpos).mpr hlt
  -- neither operand has its sign bit, so the division is the unsigned one
  have hn : numerator.msb = false := by
    rw [BitVec.msb_eq_decide, decide_eq_false_iff_not]
    omega
  have hd : denominator.msb = false := by
    rw [BitVec.msb_eq_decide, decide_eq_false_iff_not]
    omega
  have hsdiv : numerator.sdiv denominator = numerator.udiv denominator := by
    simp only [BitVec.sdiv, hn, hd]
  rw [hsdiv, BitVec.toNat_setWidth]
  show (numerator / denominator).toNat % 256 = _
  rw [BitVec.toNat_udiv, Nat.mod_eq_of_lt hquotient]

theorem remainder_toNat {quotient : BitVec 8} (hpos : 0 < denominator.toNat)
    (hsmall : denominator.toNat ≤ 144000)
    (hquotient : quotient.toNat = numerator.toNat / denominator.toNat) :
    ((numerator - quotient.setWidth 32 * denominator) <<< 8).toNat =
      numerator.toNat % denominator.toNat * 256 := by
  have hdigit : (quotient.setWidth 32).toNat = numerator.toNat / denominator.toNat := by
    rw [BitVec.toNat_setWidth, hquotient]
    exact Nat.mod_eq_of_lt (Nat.lt_of_le_of_lt (Nat.div_le_self _ _) numerator.isLt)
  have hdivision := Nat.div_add_mod numerator.toNat denominator.toNat
  have hmod : numerator.toNat % denominator.toNat < denominator.toNat := Nat.mod_lt _ hpos
  have hle := Nat.mul_div_le numerator.toNat denominator.toNat
  have hproduct : (quotient.setWidth 32 * denominator).toNat =
      denominator.toNat * (numerator.toNat / denominator.toNat) := by
    rw [BitVec.toNat_mul, hdigit, Nat.mul_comm]
    exact Nat.mod_eq_of_lt (Nat.lt_of_le_of_lt hle numerator.isLt)
  have hsub : (numerator - quotient.setWidth 32 * denominator).toNat =
      numerator.toNat % denominator.toNat := by
    rw [BitVec.toNat_sub_of_le (by rw [BitVec.le_def, hproduct]; exact hle), hproduct]
    omega
  rw [BitVec.toNat_shiftLeft, hsub, Nat.shiftLeft_eq]
  omega

theorem pllRemainder_toNat (hpos : 0 < denominator.toNat) (hsmall : denominator.toNat ≤ 144000)
    (hlt : numerator.toNat < 256 * denominator.toNat) (k : Nat) :
    (pllRemainder denominator numerator k).toNat =
      dividendAfter 256 denominator.toNat numerator.toNat k := by
  induction k with
  | zero => rfl
  | succ k ih =>
      have hbound := dividendAfter_lt hpos hlt k
      rw [← ih] at hbound
      rw [dividendAfter, ← ih, pllRemainder]
      exact remainder_toNat hpos hsmall (quotient_toNat hpos hsmall hbound)

end Digits

theorem clock_bounds (chip : PhyChip) (selector : BitVec 32) :
    0 < (chip.clock selector).toNat ∧ (chip.clock selector).toNat ≤ 48 := by
  rw [PhyChip.clock]
  split_ifs <;> decide

/-- `D`: the unit of the numerator. -/
def pllDenominator (chip : PhyChip) (selector : BitVec 32) : Nat :=
  3000 * (chip.clock selector).toNat

/-- `N`: the numerator of the divider, as an integer. -/
def pllNumerator (chip : PhyChip) (frequency selector offset : BitVec 32) : Int :=
  4 * (1000 * frequency.toNat + (chip.offset offset).toInt) - 32 * pllDenominator chip selector

theorem pllDenominator_toNat (chip : PhyChip) (selector : BitVec 32) :
    (chip.clock selector * 3000).toNat = pllDenominator chip selector := by
  have hclock := clock_bounds chip selector
  rw [BitVec.toNat_mul, pllDenominator]
  show (chip.clock selector).toNat * 3000 % 2 ^ 32 = _
  omega

theorem pllNumerator_toNat {chip : PhyChip} {frequency selector offset : BitVec 32}
    (hlow : 0 ≤ pllNumerator chip frequency selector offset)
    (hhigh : pllNumerator chip frequency selector offset < 256 * pllDenominator chip selector) :
    ((frequency * 1000 + chip.offset offset) * 4 - chip.clock selector * 3000 * 32).toNat =
      (pllNumerator chip frequency selector offset).toNat := by
  have hclock := clock_bounds chip selector
  have hdenominator := pllDenominator_toNat chip selector
  rw [pllNumerator] at hlow hhigh ⊢
  rw [pllDenominator] at hdenominator hlow hhigh ⊢
  rw [BitVec.toInt_eq_toNat_cond] at hlow hhigh ⊢
  simp only [BitVec.toNat_sub, BitVec.toNat_add, BitVec.toNat_mul frequency,
    BitVec.toNat_mul (frequency * 1000 + _), BitVec.toNat_mul (chip.clock selector * 3000),
    hdenominator]
  show (2 ^ 32 - 3000 * (chip.clock selector).toNat * 32 % 2 ^ 32 +
    (frequency.toNat * 1000 % 2 ^ 32 + (chip.offset offset).toNat) % 2 ^ 32 * 4 % 2 ^ 32) %
      2 ^ 32 = _
  split_ifs at hlow hhigh ⊢ <;> omega

theorem pllDigit_toNat {chip : PhyChip} {f selector offset : BitVec 32}
    (hlow : 0 ≤ pllNumerator chip f selector offset)
    (hhigh : pllNumerator chip f selector offset < 256 * pllDenominator chip selector) (k : Nat) :
    (pllDigit chip f selector offset k).toNat =
      dividendAfter 256 (pllDenominator chip selector)
        (pllNumerator chip f selector offset).toNat k / pllDenominator chip selector := by
  have hclock := clock_bounds chip selector
  have hdenominator := pllDenominator_toNat chip selector
  have hnumerator := pllNumerator_toNat hlow hhigh
  have hpos : 0 < (chip.clock selector * 3000).toNat := by
    rw [hdenominator, pllDenominator]
    omega
  have hsmall : (chip.clock selector * 3000).toNat ≤ 144000 := by
    rw [hdenominator, pllDenominator]
    omega
  have hlt : ((f * 1000 + chip.offset offset) * 4 - chip.clock selector * 3000 * 32).toNat <
      256 * (chip.clock selector * 3000).toNat := by
    rw [hdenominator, hnumerator]
    omega
  have hremainder := pllRemainder_toNat hpos hsmall hlt k
  have hbound := dividendAfter_lt hpos hlt k
  rw [← hremainder] at hbound
  rw [pllDigit, quotient_toNat hpos hsmall hbound, hremainder, hnumerator, hdenominator]

/-- The three bytes are the quotient with a fraction of 16 bits, rounded down. -/
theorem frequency_digits (chip : PhyChip) (f selector offset : BitVec 32) (buffer : Nat)
    (m : ByteMem) (hlow : 0 ≤ pllNumerator chip f selector offset)
    (hhigh : pllNumerator chip f selector offset < 256 * pllDenominator chip selector) :
    let m' := frequency chip f selector offset buffer m
    (65536 * (m' buffer).toNat + 256 * (m' (buffer + 1)).toNat + (m' (buffer + 2)).toNat : Int) =
      65536 * pllNumerator chip f selector offset / pllDenominator chip selector := by
  intro m'
  have hpos : 0 < pllDenominator chip selector := by omega
  have hdigit := pllDigit_toNat hlow hhigh
  obtain ⟨n, hn⟩ := Int.eq_ofNat_of_zero_le hlow
  rw [hn, Int.toNat_natCast] at hdigit
  have hbyte : ∀ i < 3, m' (buffer + i) = pllDigit chip f selector offset i := by
    intro i hi
    show frequency chip f selector offset buffer m (buffer + i) = _
    rw [frequency_eq, fill_range hi]
  have hfirst : m' buffer = pllDigit chip f selector offset 0 := hbyte 0 (by decide)
  have hquotient : 65536 * (m' buffer).toNat + 256 * (m' (buffer + 1)).toNat +
      (m' (buffer + 2)).toNat = 65536 * n / pllDenominator chip selector :=
    calc
      _ = 256 * (256 * (m' buffer).toNat + (m' (buffer + 1)).toNat) + (m' (buffer + 2)).toNat := by
        omega
      _ = 256 * (256 * n) / pllDenominator chip selector := by
        rw [hfirst, hbyte 1 (by decide), hbyte 2 (by decide), hdigit, hdigit, hdigit,
          three_digits 256 n hpos]
      _ = 65536 * n / pllDenominator chip selector := by rw [← Nat.mul_assoc]
  rw [hn]
  exact_mod_cast hquotient

/-- Channel 6 with the clock of 40 MHz. -/
theorem frequency_digits_channel_6 :
    let m' := frequency .esp32s3 2437 0 0 0 fun _ => 0
    pllDenominator .esp32s3 0 = 120000 ∧
      (65536 * (m' 0).toNat + 256 * (m' 1).toNat + (m' 2).toNat : Int) = 65536 * 5908000 / 120000 :=
  ⟨by decide, frequency_digits .esp32s3 2437 0 0 0 (fun _ => 0) (by decide) (by decide)⟩

end EspWifiHal
