import Mathlib.Data.BitVec

/-!
# Bits of a register

Software tests, sets and clears a bit of a register with a mask.  A mask with
one bit changes that bit and no other.  Fields that do not overlap add up.
-/

namespace Register

variable {w : Nat}

/-- The register has a bit of the mask. -/
def hasBit (r mask : BitVec w) : Bool := r &&& mask != 0#w

theorem hasBit_twoPow (r : BitVec w) {i : Nat} (hi : i < w) :
    hasBit r (BitVec.twoPow w i) = r.getLsbD i := by
  have hne : BitVec.twoPow w i ≠ 0#w := by
    intro h
    have hbit := congrArg (BitVec.getLsbD · i) h
    simp [hi] at hbit
  cases hr : r.getLsbD i <;> simp [hasBit, BitVec.and_twoPow, hr, hne]

/-- Setting a bit. -/
theorem hasBit_or_twoPow (r : BitVec w) {i j : Nat} (hj : j < w) :
    hasBit (r ||| BitVec.twoPow w i) (BitVec.twoPow w j) =
      (hasBit r (BitVec.twoPow w j) || decide (i = j)) := by
  rw [hasBit_twoPow _ hj, hasBit_twoPow _ hj, BitVec.getLsbD_or, BitVec.getLsbD_twoPow]
  by_cases hij : i = j
  · subst hij
    simp [hj]
  · simp [hij]

/-- Clearing a bit. -/
theorem hasBit_and_not_twoPow (r : BitVec w) {i j : Nat} (hj : j < w) :
    hasBit (r &&& ~~~BitVec.twoPow w i) (BitVec.twoPow w j) =
      (hasBit r (BitVec.twoPow w j) && !decide (i = j)) := by
  rw [hasBit_twoPow _ hj, hasBit_twoPow _ hj, BitVec.getLsbD_and, BitVec.getLsbD_not,
    BitVec.getLsbD_twoPow]
  by_cases hij : i = j
  · subst hij
    simp [hj]
  · simp [hij, hj]

/-- The register with a bit set to a value. -/
def writeBit (r : BitVec w) (i : Fin w) (value : Bool) : BitVec w :=
  (r &&& ~~~BitVec.twoPow w i) ||| if value then BitVec.twoPow w i else 0

theorem getLsbD_writeBit (r : BitVec w) (i j : Fin w) (value : Bool) :
    (writeBit r i value).getLsbD j = if j = i then value else r.getLsbD j := by
  rw [writeBit, BitVec.getLsbD_or, BitVec.getLsbD_and, BitVec.getLsbD_not, BitVec.getLsbD_twoPow]
  by_cases h : j = i
  · subst h
    cases value <;> simp
  · have hne : i.val ≠ j.val := fun heq => h (Fin.ext heq.symm)
    cases value <;> simp [h, hne, Ne.symm hne]

/-- Two registers with a common bit overlap. -/
theorem hasBit_of_common {r q : BitVec w} {i : Nat} (hi : i < w)
    (hr : hasBit r (BitVec.twoPow w i) = true) (hq : hasBit q (BitVec.twoPow w i) = true) :
    hasBit r q = true := by
  rw [hasBit_twoPow _ hi] at hr hq
  rw [hasBit, bne_iff_ne]
  intro h
  have hbit : (r &&& q).getLsbD i = false := by rw [h, BitVec.getLsbD_zero]
  rw [BitVec.getLsbD_and, hr, hq] at hbit
  cases hbit

theorem toNat_and_mask {a m : BitVec w} (n : Nat) (hm : m.toNat = 2 ^ n - 1) :
    (a &&& m).toNat = a.toNat % 2 ^ n := by
  rw [BitVec.toNat_and, hm, Nat.and_two_pow_sub_one_eq_mod]

theorem getLsbD_and_mask {a m : BitVec w} (n : Nat) (hm : m.toNat = 2 ^ n - 1) (i : Nat) :
    (a &&& m).getLsbD i = (a.getLsbD i && decide (i < n)) := by
  rw [BitVec.getLsbD_and, ← BitVec.testBit_toNat m, hm, Nat.testBit_two_pow_sub_one]

/-- Two fields side by side are read back. -/
theorem extractLsb'_pair {x y xMask yMask : BitVec w} (n m : Nat) (hw : n + m ≤ w)
    (hx : xMask.toNat = 2 ^ m - 1) (hy : yMask.toNat = 2 ^ n - 1) :
    (((x &&& xMask) <<< n) ||| (y &&& yMask)).extractLsb' n m = x.setWidth m ∧
      (((x &&& xMask) <<< n) ||| (y &&& yMask)).extractLsb' 0 n = y.setWidth n := by
  constructor
  · apply BitVec.eq_of_getLsbD_eq
    intro i hi
    have hplace : n + i < w := by omega
    have hlow : ¬n + i < n := by omega
    rw [BitVec.getLsbD_extractLsb', BitVec.getLsbD_or, BitVec.getLsbD_shiftLeft,
      getLsbD_and_mask m hx, getLsbD_and_mask n hy, BitVec.getLsbD_setWidth,
      Nat.add_sub_cancel_left]
    simp only [hi, hplace, hlow, decide_true, decide_false, Bool.not_false, Bool.true_and,
      Bool.and_true, Bool.and_false, Bool.or_false]
  · apply BitVec.eq_of_getLsbD_eq
    intro i hi
    rw [BitVec.getLsbD_extractLsb', BitVec.getLsbD_or, BitVec.getLsbD_shiftLeft,
      getLsbD_and_mask n hy, BitVec.getLsbD_setWidth]
    simp only [hi, Nat.zero_add, decide_true, Bool.not_true, Bool.true_and, Bool.and_true,
      Bool.and_false, Bool.false_and, Bool.false_or]

/-- The number of bits that are set is not larger than the number of bits of the mask. -/
theorem toNat_cpop_and_mask_le {a m : BitVec w} (n : Nat) (hm : m.toNat = 2 ^ n - 1) :
    (a &&& m).cpop.toNat ≤ n := by
  have hclear : ∀ k, n ≤ k → (a &&& m).getLsbD k = false := by
    intro k hk
    rw [getLsbD_and_mask n hm, decide_eq_false (Nat.not_lt.mpr hk), Bool.and_false]
  have hrec : ∀ position acc, (a &&& m).cpopNatRec position acc ≤ acc + n := by
    intro position
    induction position with
    | zero => exact fun acc => Nat.le_add_right acc n
    | succ position ih =>
        intro acc
        by_cases hposition : n ≤ position
        · rw [BitVec.cpopNatRec_succ, hclear position hposition]
          exact ih acc
        · exact Nat.le_trans (BitVec.cpopNatRec_le (position + 1)) (by omega)
  rw [BitVec.toNat_cpop]
  exact Nat.le_trans (hrec w 0) (by omega)

/-- A field above the bit `n`, or-ed to the bits below it. -/
theorem toNat_or_shiftLeft {a b : BitVec w} {n : Nat} (ha : a.toNat < 2 ^ n)
    (hb : b.toNat * 2 ^ n < 2 ^ w) : (a ||| b <<< n).toNat = a.toNat + b.toNat * 2 ^ n := by
  have hshift : (b <<< n).toNat = b.toNat <<< n := by
    rw [BitVec.toNat_shiftLeft, Nat.shiftLeft_eq, Nat.mod_eq_of_lt hb]
  rw [BitVec.toNat_or, hshift, Nat.or_comm, ← Nat.shiftLeft_add_eq_or_of_lt ha, Nat.shiftLeft_eq,
    Nat.add_comm]

/-! ## Masks -/

section Masks

variable (x y m : BitVec w)

/-- Setting the bits of a mask. -/
theorem or_and_mask : (x ||| m) &&& m = m := by
  ext i hi
  simp
  grind

theorem or_and_not_mask : (x ||| m) &&& ~~~m = x &&& ~~~m := by
  ext i hi
  simp
  grind

/-- Clearing the bits of a mask. -/
theorem and_not_and_mask : (x &&& ~~~m) &&& m = 0 := by
  ext i hi
  simp

theorem and_not_and_not_mask : (x &&& ~~~m) &&& ~~~m = x &&& ~~~m := by
  rw [BitVec.and_assoc, BitVec.and_self]

/-- A pulse of the bits of a mask changes no other bit. -/
theorem pulse_or_mask : ((x ||| m) &&& ~~~m) ||| m = x ||| m := by
  ext i hi
  simp
  grind

/-- A write of the bits of a mask. -/
theorem masked_and_mask : ((x &&& ~~~m) ||| (y &&& m)) &&& m = y &&& m := by
  ext i hi
  simp
  grind

/-- Setting other bits than those of the mask. -/
theorem or_and_of_disjoint {b : BitVec w} (h : m &&& b = 0#w) : (x ||| b) &&& m = x &&& m := by
  ext i hi
  have hbit := congrArg (BitVec.getLsbD · i) h
  simp [hi] at hbit ⊢
  grind

end Masks

end Register
