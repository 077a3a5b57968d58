import Mathlib.Data.BitVec

/-!
# Narrowing of numbers

A conversion to a narrower machine integer keeps the residue of the number.  The signed types
take the residue around zero.  They are written with a remainder, so that the arithmetic of a
range argument can be left to a decision procedure.
-/

namespace Signed

def i8 (z : Int) : Int := (z + 128) % 256 - 128

def i16 (z : Int) : Int := (z + 32768) % 65536 - 32768

def i32 (z : Int) : Int := (z + 2147483648) % 4294967296 - 2147483648

def i64 (z : Int) : Int := (z + 9223372036854775808) % 18446744073709551616 - 9223372036854775808

def u8 (z : Int) : Int := z % 256

def u16 (z : Int) : Int := z % 65536

def u32 (z : Int) : Int := z % 4294967296

theorem mul_bounds {x y b c : Int} (hx : -b ≤ x ∧ x ≤ b) (hy : -c ≤ y ∧ y ≤ c) :
    -(b * c) ≤ x * y ∧ x * y ≤ b * c := by
  obtain ⟨m, rfl⟩ := Int.eq_ofNat_of_zero_le (show 0 ≤ b by omega)
  obtain ⟨n, rfl⟩ := Int.eq_ofNat_of_zero_le (show 0 ≤ c by omega)
  have hle : (x * y).natAbs ≤ m * n := by
    rw [Int.natAbs_mul]
    exact Nat.mul_le_mul (by omega) (by omega)
  rw [← Int.natCast_mul]
  omega

/-! ## Arithmetic that is checked -/

/-- Why an operation on machine integers has no result. -/
inductive ArithError where
  | overflow
  | divisionByZero
deriving DecidableEq, Repr

def checkedI32 (z : Int) : Except ArithError Int :=
  if -2147483648 ≤ z ∧ z ≤ 2147483647 then .ok z else .error .overflow

def divideI32 (n d : Int) : Except ArithError Int :=
  if d = 0 then .error .divisionByZero else checkedI32 (n.tdiv d)

theorem checkedI32_eq {z : Int} (h : -2147483648 ≤ z ∧ z ≤ 2147483647) :
    checkedI32 z = .ok z :=
  if_pos h

/-- A quotient is not larger than the numerator. -/
theorem tdiv_bounds (n d : Int) {b : Int} (h : -b ≤ n ∧ n ≤ b) : -b ≤ n.tdiv d ∧ n.tdiv d ≤ b := by
  have hle : (n.tdiv d).natAbs ≤ n.natAbs := by
    rw [Int.natAbs_tdiv]
    exact Nat.div_le_self _ _
  omega

theorem divideI32_eq {n d : Int} (hd : d ≠ 0) (h : -2147483647 ≤ n ∧ n ≤ 2147483647) :
    divideI32 n d = .ok (n.tdiv d) := by
  have hquotient := tdiv_bounds n d h
  rw [divideI32, if_neg hd, checkedI32_eq (by omega)]

/-! ## Fields -/

section Fields

variable {w n : Nat}

/-- The lower bits of a number, for any number with the same residue. -/
theorem setWidth_ofInt (hw : n ≤ w) {z v : Int} (h : (2 ^ n : Int) ∣ z - v) :
    (BitVec.ofInt w z).setWidth n = BitVec.ofInt n v := by
  have hdvd : ((2 ^ n : Nat) : Int) ∣ ((2 ^ w : Nat) : Int) :=
    Int.natCast_dvd_natCast.mpr (Nat.pow_dvd_pow 2 hw)
  have hcast : ((2 ^ n : Nat) : Int) = 2 ^ n := Int.natCast_pow 2 n
  have hmod : z % ((2 ^ n : Nat) : Int) = v % ((2 ^ n : Nat) : Int) :=
    Int.emod_eq_emod_iff_emod_sub_eq_zero.mpr (Int.emod_eq_zero_of_dvd (hcast ▸ h))
  have hnonneg : ∀ (y : Int) (m : Nat), 0 ≤ y % ((2 ^ m : Nat) : Int) := fun y m =>
    Int.emod_nonneg y (Int.natCast_ne_zero.mpr (Nat.ne_of_gt (Nat.two_pow_pos m)))
  apply BitVec.eq_of_toNat_eq
  rw [BitVec.toNat_setWidth, BitVec.toNat_ofInt, BitVec.toNat_ofInt, ← hmod,
    ← Int.emod_emod_of_dvd z hdvd]
  apply Int.ofNat.inj
  show (((z % ((2 ^ w : Nat) : Int)).toNat % 2 ^ n : Nat) : Int) = _
  rw [Int.natCast_emod, Int.toNat_of_nonneg (hnonneg z w)]
  exact (Int.toNat_of_nonneg (hnonneg _ n)).symm

/-- A field that holds a number is read back as that number. -/
theorem toInt_setWidth_ofInt (hn : 0 < n) (hw : n ≤ w) {z v : Int} (h : (2 ^ n : Int) ∣ z - v)
    (hlow : -2 ^ (n - 1) ≤ v) (hhigh : v < 2 ^ (n - 1)) :
    ((BitVec.ofInt w z).setWidth n).toInt = v := by
  rw [setWidth_ofInt hw h, BitVec.toInt_ofInt_eq_self hn hlow hhigh]

/-- A field that is shifted to the top of a word and back down is sign-extended. -/
theorem sshiftRight_shiftLeft {m j : Nat} (x : BitVec w) (h : m + j + n = w) (hn : 0 < n) :
    (x <<< m).sshiftRight (m + j) = (x.extractLsb' j n).signExtend w := by
  apply BitVec.eq_of_getLsbD_eq
  intro i hi
  have hmsb : (x <<< m).msb = x.getLsbD (j + (n - 1)) := by
    have htop : w - 1 - m = j + (n - 1) := by omega
    rw [BitVec.msb_eq_getLsbD_last, BitVec.getLsbD_shiftLeft, htop]
    simp
    omega
  have hsign : (x.extractLsb' j n).msb = x.getLsbD (j + (n - 1)) := by
    have hlast : n - 1 < n := by omega
    rw [BitVec.msb_eq_getLsbD_last, BitVec.getLsbD_extractLsb']
    simp [hlast]
  rw [BitVec.getLsbD_sshiftRight, BitVec.getLsbD_signExtend, hmsb, hsign]
  have hle : ¬w ≤ i := by omega
  by_cases hin : i < n
  · have hw : m + j + i < w := by omega
    have hsub : m + j + i - m = j + i := by omega
    have hm : ¬m + j + i < m := by omega
    rw [if_pos hw, if_pos hin, BitVec.getLsbD_shiftLeft, BitVec.getLsbD_extractLsb', hsub]
    simp [hw, hi, hin, hle, hm]
  · have hw : ¬m + j + i < w := by omega
    simp [hi, hin, hw, hle]

theorem setWidth_signExtend {m : Nat} (x : BitVec w) (h : m ≤ n) :
    (x.signExtend n).setWidth m = x.signExtend m := by
  apply BitVec.eq_of_getLsbD_eq
  intro i hi
  have hn : i < n := by omega
  rw [BitVec.getLsbD_setWidth, BitVec.getLsbD_signExtend, BitVec.getLsbD_signExtend]
  simp only [hi, hn, decide_true, Bool.true_and]

end Fields

end Signed
