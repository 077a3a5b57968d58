import EspWifiHal.Lib.Register
import Mathlib.Data.BitVec
import Mathlib.Data.List.Range

/-!
# Byte memory

A memory is the content of its addresses.  Every operation that changes one is a `fill`:
a range of addresses gets new bytes and the others keep theirs.  `foldl_fill` is the rule
for a loop that fills a range block by block.

`Regions` are buffers that do not overlap, so filling one leaves the others as they are.
-/

namespace Memory

abbrev ByteMem := Nat → BitVec 8

/-- The byte `i` of a word, from the lowest one on. -/
def byteOf (v : BitVec 32) (i : Nat) : BitVec 8 := (v >>> (8 * i)).setWidth 8

def fill (m : ByteMem) (a n : Nat) (f : Nat → BitVec 8) : ByteMem :=
  fun x => if a ≤ x ∧ x < a + n then f (x - a) else m x

/-- A load of `width` bytes in little-endian order. -/
def read (m : ByteMem) (a : Nat) : Nat → BitVec 32
  | 0 => 0
  | width + 1 => read m (a + 1) width <<< 8 ||| (m a).setWidth 32

/-- A store of the lowest `width` bytes. -/
def write (m : ByteMem) (a width : Nat) (v : BitVec 32) : ByteMem := fill m a width (byteOf v)

def copy (m : ByteMem) (destination source size : Nat) : ByteMem :=
  fill m destination size fun i => m (source + i)

variable {m m' : ByteMem} {a b n k i : Nat} {f g : Nat → BitVec 8} {v w : BitVec 32}

/-! ## Ranges -/

/-- The byte at an offset of the base `a`. -/
theorem fill_add (m : ByteMem) (a k n i : Nat) (f : Nat → BitVec 8) :
    fill m (a + k) n f (a + i) = if k ≤ i ∧ i < k + n then f (i - k) else m (a + i) := by
  have hrange : (a + k ≤ a + i ∧ a + i < a + k + n) ↔ (k ≤ i ∧ i < k + n) := by omega
  have hoffset : a + i - (a + k) = i - k := by omega
  simp only [fill, hrange, hoffset]

theorem fill_range (h : i < n) : fill m a n f (a + i) = f i := by
  have hbyte := fill_add m a 0 n i f
  rwa [Nat.add_zero, if_pos (by omega)] at hbyte

theorem fill_self (m : ByteMem) (a : Nat) (f : Nat → BitVec 8) : fill m a 1 f a = f 0 :=
  fill_range Nat.one_pos

theorem fill_of_not_mem {x : Nat} (h : x < a ∨ a + n ≤ x) : fill m a n f x = m x :=
  if_neg (by omega)

theorem fill_zero (m : ByteMem) (a : Nat) (f : Nat → BitVec 8) : fill m a 0 f = m := by
  funext x
  simp [fill]

theorem fill_congr (h : ∀ i < n, f i = g i) : fill m a n f = fill m a n g := by
  funext x
  simp only [fill]
  split
  case isTrue hx => exact h (x - a) (by omega)
  case isFalse => rfl

theorem fill_overwrite (m : ByteMem) (a n : Nat) (f g : Nat → BitVec 8) :
    fill (fill m a n f) a n g = fill m a n g := by
  funext x
  simp only [fill]
  split <;> rfl

theorem ite_fill (c : Prop) [Decidable c] (m : ByteMem) (a n : Nat) (f g : Nat → BitVec 8) :
    (if c then fill m a n f else fill m a n g) = fill m a n fun i => if c then f i else g i := by
  split <;> rfl

/-- Two ranges, one behind the other. -/
theorem fill_fill (m : ByteMem) (a n k : Nat) (f : Nat → BitVec 8) :
    fill (fill m a n f) (a + n) k (fun i => f (n + i)) = fill m a (n + k) f := by
  funext x
  simp only [fill]
  split
  case isTrue hx =>
      rw [if_pos (by omega)]
      congr 1
      omega
  case isFalse hx =>
      split
      case isTrue hin => rw [if_pos (by omega)]
      case isFalse hout => rw [if_neg (by omega)]

/-- A loop whose iteration `k` fills the block `k` of a range. -/
theorem foldl_fill (body : ByteMem → Nat → ByteMem) (m : ByteMem) (a width n : Nat)
    (f : Nat → BitVec 8)
    (hbody : ∀ k < n, body (fill m a (width * k) f) k =
      fill (fill m a (width * k) f) (a + width * k) width fun i => f (width * k + i)) :
    (List.range n).foldl body m = fill m a (width * n) f := by
  induction n with
  | zero => exact (fill_zero m a f).symm
  | succ n ih =>
      rw [List.range_succ, List.foldl_append, ih fun k hk => hbody k (Nat.lt_succ_of_lt hk)]
      rw [List.foldl_cons, List.foldl_nil, hbody n (Nat.lt_succ_self n), fill_fill, Nat.mul_succ]

/-- A loop whose iteration `k` fills the byte `k` of a range. -/
theorem foldl_fill_bytes (body : ByteMem → Nat → ByteMem) (m : ByteMem) (a n : Nat)
    (f : Nat → BitVec 8)
    (hbody : ∀ k < n, body (fill m a k f) k = fill (fill m a k f) (a + k) 1 fun _ => f k) :
    (List.range n).foldl body m = fill m a n f := by
  have hbytes := foldl_fill body m a 1 n f fun k hk => by
    rw [Nat.one_mul, hbody k hk]
    refine fill_congr fun i hi => ?_
    obtain rfl : i = 0 := by omega
    rfl
  rwa [Nat.one_mul] at hbytes

/-! ## Words -/

theorem read_congr {width : Nat} (h : ∀ i < width, m (a + i) = m' (b + i)) :
    read m a width = read m' b width := by
  induction width generalizing a b with
  | zero => rfl
  | succ width ih =>
      have hrest : ∀ i < width, m (a + 1 + i) = m' (b + 1 + i) := by
        intro i hi
        have hnext := h (i + 1) (Nat.succ_lt_succ hi)
        rwa [Nat.add_right_comm, Nat.add_right_comm b]
      rw [read, read, ih hrest]
      exact congrArg (fun byte : BitVec 8 => _ ||| byte.setWidth 32) (h 0 (Nat.succ_pos width))

theorem byteOf_zero (v : BitVec 32) : byteOf v 0 = v.setWidth 8 := by
  simp [byteOf]

theorem write_one (m : ByteMem) (a : Nat) (v : BitVec 32) :
    write m a 1 v = fill m a 1 fun _ => v.setWidth 8 := by
  refine fill_congr fun i hi => ?_
  obtain rfl : i = 0 := by omega
  exact byteOf_zero v

theorem read_one (m : ByteMem) (a : Nat) : read m a 1 = (m a).setWidth 32 := by
  simp [read]

theorem byteOf_read {width : Nat} (hwidth : width ≤ 4) (hi : i < width) :
    byteOf (read m a width) i = m (a + i) := by
  induction width generalizing a i with
  | zero => omega
  | succ width ih =>
      cases i with
      | zero =>
          apply BitVec.eq_of_getLsbD_eq
          intro j hj
          simp [byteOf, read, hj]
      | succ i =>
          have hrest : byteOf (read m (a + 1) width) i = m (a + 1 + i) :=
            ih (Nat.le_of_succ_le hwidth) (Nat.lt_of_succ_lt_succ hi)
          rw [← Nat.add_assoc, Nat.add_right_comm, ← hrest]
          apply BitVec.eq_of_getLsbD_eq
          intro j hj
          -- the shift of the load moves bit `8 * i + j` of the rest up by one byte
          have hlt : 8 * (i + 1) + j < 32 := by omega
          have hge : ¬8 * (i + 1) + j < 8 := by omega
          have hshift : 8 * (i + 1) + j - 8 = 8 * i + j := by omega
          have hhigh : (m a).getLsbD (8 * (i + 1) + j) = false :=
            BitVec.getLsbD_of_ge _ _ (by omega)
          simp only [byteOf, read, BitVec.getLsbD_setWidth, BitVec.getLsbD_ushiftRight,
            BitVec.getLsbD_or, BitVec.getLsbD_shiftLeft, hlt, hge, hshift, hhigh, decide_true,
            decide_false, Bool.not_false, Bool.true_and, Bool.and_false, Bool.or_false]

theorem setWidth_shiftRight (v : BitVec 32) (i : Nat) :
    (v >>> (i * 8)).setWidth 8 = byteOf v i := by
  rw [byteOf, Nat.mul_comm]

theorem setWidth_byte (x : BitVec 8) : (x.setWidth 32).setWidth 8 = x := by
  rw [BitVec.setWidth_setWidth_of_le _ (by decide), BitVec.setWidth_eq]

/-- The lower part of a word is its bytes. -/
theorem setWidth_eq_of_byteOf_eq (h : ∀ i < n, byteOf v i = byteOf w i) :
    v.setWidth (8 * n) = w.setWidth (8 * n) := by
  apply BitVec.eq_of_getLsbD_eq
  intro j hj
  have hbyte := congrArg (BitVec.getLsbD · (j % 8)) (h (j / 8) (by omega))
  have hmod : j % 8 < 8 := Nat.mod_lt j (by decide)
  simpa [byteOf, hmod, hj, Nat.div_add_mod] using hbyte

/-- The bytes of a store are those that a load returns. -/
theorem read_write_setWidth (m : ByteMem) (a : Nat) (v : BitVec 32) {width : Nat}
    (hwidth : width ≤ 4) :
    (read (write m a width v) a width).setWidth (8 * width) = v.setWidth (8 * width) := by
  apply setWidth_eq_of_byteOf_eq
  intro i hi
  rw [byteOf_read hwidth hi, write, fill_range hi]

theorem getLsbD_read {width : Nat} (hi : 8 * width ≤ i) : (read m a width).getLsbD i = false := by
  induction width generalizing a i with
  | zero => exact BitVec.getLsbD_zero
  | succ width ih =>
      have hrest : (read m (a + 1) width).getLsbD (i - 8) = false := ih (by omega)
      have hbyte : (m a).getLsbD i = false := BitVec.getLsbD_of_ge _ _ (by omega)
      simp [read, hrest, hbyte]

/-- A load of a few bytes has no bits above them. -/
theorem setWidth_read (m : ByteMem) (a width : Nat) :
    ((read m a width).setWidth (8 * width)).setWidth 32 = read m a width := by
  apply BitVec.eq_of_getLsbD_eq
  intro i hi
  by_cases hlt : i < 8 * width
  · simp [hi, hlt]
  · rw [getLsbD_read (Nat.le_of_not_lt hlt)]
    simp [hlt]

theorem toNat_read_lt (m : ByteMem) (a width : Nat) : (read m a width).toNat < 2 ^ (8 * width) := by
  rw [← setWidth_read, BitVec.toNat_setWidth]
  exact Nat.lt_of_le_of_lt (Nat.mod_le _ _) (BitVec.isLt _)

/-- A load as a number, byte by byte. -/
theorem toNat_read_succ (m : ByteMem) (a : Nat) {width : Nat} (hwidth : width < 4) :
    (read m a (width + 1)).toNat = (m a).toNat + (read m (a + 1) width).toNat * 2 ^ 8 := by
  have hbyte : ((m a).setWidth 32).toNat = (m a).toNat := by
    rw [BitVec.toNat_setWidth]
    exact Nat.mod_eq_of_lt (Nat.lt_of_lt_of_le (m a).isLt (by decide))
  have hrest : (read m (a + 1) width).toNat < 2 ^ 24 :=
    Nat.lt_of_lt_of_le (toNat_read_lt m (a + 1) width)
      (Nat.pow_le_pow_right Nat.zero_lt_two (by omega))
  rw [read, BitVec.or_comm,
    Register.toNat_or_shiftLeft (by rw [hbyte]; exact (m a).isLt) (by omega), hbyte]

theorem toNat_byteOf (v : BitVec 32) (i : Nat) :
    (byteOf v i).toNat = v.toNat / 2 ^ (8 * i) % 2 ^ 8 := by
  rw [byteOf, BitVec.toNat_setWidth, BitVec.toNat_ushiftRight, Nat.shiftRight_eq_div_pow]

theorem read_write_of_le (m : ByteMem) (a : Nat) (v : BitVec 32) {width : Nat}
    (hwidth : width ≤ 4) :
    read (write m a width v) a width = (v.setWidth (8 * width)).setWidth 32 := by
  rw [← setWidth_read, read_write_setWidth m a v hwidth]

/-- A store of a word that was loaded copies its bytes. -/
theorem write_read (m m' : ByteMem) (a b : Nat) {width : Nat} (h : width ≤ 4) :
    write m' a width (read m b width) = fill m' a width fun i => m (b + i) :=
  fill_congr fun _ hi => byteOf_read h hi

/-- A loop that stores a word byte by byte. -/
theorem foldl_write_bytes (m : ByteMem) (a : Nat) (v : BitVec 32) :
    (List.range 4).foldl (fun m i => write m (a + i) 1 (v >>> (i * 8))) m = write m a 4 v := by
  refine foldl_fill_bytes _ m a 4 (byteOf v) fun k _ => ?_
  rw [write_one, setWidth_shiftRight]

/-- A loop that copies words of a few bytes. -/
theorem foldl_copy_words (m : ByteMem) (destination source : Nat) {width : Nat} (hwidth : width ≤ 4)
    {n : Nat} (h : source + n * width ≤ destination ∨ destination + n * width ≤ source) :
    (List.range n).foldl
      (fun m i => write m (destination + i * width) width (read m (source + i * width) width)) m =
      copy m destination source (n * width) := by
  rw [Nat.mul_comm n, copy]
  refine foldl_fill _ m destination width n _ fun k hk => ?_
  have hword : k * width + width ≤ n * width := by
    rw [← Nat.succ_mul]
    exact Nat.mul_le_mul_right width hk
  rw [write_read _ _ _ _ hwidth, Nat.mul_comm width]
  refine fill_congr fun i hi => ?_
  rw [fill_of_not_mem (by omega), Nat.add_assoc]

/-- A loop that copies byte by byte. -/
theorem foldl_copy (m : ByteMem) {destination source n : Nat}
    (h : source + n ≤ destination ∨ destination + n ≤ source) :
    (List.range n).foldl (fun m i => write m (destination + i) 1 (read m (source + i) 1)) m =
      copy m destination source n := by
  have hwords := foldl_copy_words m destination source (by decide : 1 ≤ 4)
    (n := n) (by omega)
  simpa only [Nat.mul_one] using hwords

/-- Words of one table. -/
theorem read_write_entry (m : ByteMem) (a k j : Nat) (v : BitVec 32) {width : Nat}
    (hwidth : width ≤ 4) :
    read (write m (a + width * k) width v) (a + width * j) width =
      if j = k then (v.setWidth (8 * width)).setWidth 32 else read m (a + width * j) width := by
  split
  case isTrue h => rw [h, read_write_of_le m _ v hwidth]
  case isFalse h =>
      refine read_congr fun i hi => fill_of_not_mem ?_
      rcases Nat.lt_or_gt_of_ne h with hlt | hgt
      · have hentry := Nat.mul_le_mul_left width (Nat.succ_le_of_lt hlt)
        rw [Nat.mul_succ] at hentry
        omega
      · have hentry := Nat.mul_le_mul_left width (Nat.succ_le_of_lt hgt)
        rw [Nat.mul_succ] at hentry
        omega

/-- Aligned words. -/
theorem read_write_word (m : ByteMem) (a k j : Nat) (v : BitVec 32) :
    read (write m (a + 4 * k) 4 v) (a + 4 * j) 4 =
      if j = k then v else read m (a + 4 * j) 4 := by
  have hword := read_write_entry m a k j v (Nat.le_refl 4)
  rwa [BitVec.setWidth_eq, BitVec.setWidth_eq] at hword

/-- A loop that stores words one behind the other. -/
theorem foldl_write_words (m : ByteMem) (a n : Nat) (f : Nat → BitVec 32) :
    (∀ i < n, read ((List.range n).foldl (fun m i => write m (a + i * 4) 4 (f i)) m) (a + i * 4) 4 =
      f i) ∧
      ∀ x, x < a ∨ a + n * 4 ≤ x →
        (List.range n).foldl (fun m i => write m (a + i * 4) 4 (f i)) m x = m x := by
  induction n with
  | zero => exact ⟨fun i hi => absurd hi (Nat.not_lt_zero i), fun _ _ => rfl⟩
  | succ n ih =>
      obtain ⟨hwords, hframe⟩ := ih
      rw [List.range_succ, List.foldl_append, List.foldl_cons, List.foldl_nil]
      refine ⟨fun i hi => ?_, fun x hx => ?_⟩
      · rw [Nat.mul_comm n, Nat.mul_comm i, read_write_word, Nat.mul_comm 4 i]
        split
        case isTrue h => rw [h]
        case isFalse h => exact hwords i (by omega)
      · rw [write, fill_of_not_mem (by omega), hframe x (by omega)]

/-! ## Changes -/

/-- In the block of `size` bytes at `a` only the given ranges change. -/
def ChangesOnly (a size : Nat) (ranges : List (Nat × Nat)) (m m' : ByteMem) : Prop :=
  ∀ x < size, (∀ r ∈ ranges, x < r.1 ∨ r.1 + r.2 ≤ x) → m' (a + x) = m (a + x)

namespace ChangesOnly

variable {size : Nat} {ranges : List (Nat × Nat)} {m₁ m₂ m₃ : ByteMem}

theorem refl (a size : Nat) (ranges : List (Nat × Nat)) (m : ByteMem) :
    ChangesOnly a size ranges m m :=
  fun _ _ _ => rfl

theorem trans (h : ChangesOnly a size ranges m₁ m₂) (h' : ChangesOnly a size ranges m₂ m₃) :
    ChangesOnly a size ranges m₁ m₃ :=
  fun x hx hout => (h' x hx hout).trans (h x hx hout)

theorem mono {ranges' : List (Nat × Nat)} (hsub : ranges ⊆ ranges')
    (h : ChangesOnly a size ranges m₁ m₂) : ChangesOnly a size ranges' m₁ m₂ :=
  fun x hx hout => h x hx fun r hr => hout r (hsub hr)

theorem write {k width : Nat} (v : BitVec 32) (h : ChangesOnly a size ranges m₁ m₂)
    (hk : (k, width) ∈ ranges) :
    ChangesOnly a size ranges m₁ (Memory.write m₂ (a + k) width v) := by
  intro x hx hout
  have hx' := hout _ hk
  rw [Memory.write, fill_of_not_mem (by omega)]
  exact h x hx hout

theorem read_eq {k width : Nat} (h : ChangesOnly a size ranges m₁ m₂) (hk : k + width ≤ size)
    (hout : ∀ r ∈ ranges, k + width ≤ r.1 ∨ r.1 + r.2 ≤ k) :
    read m₂ (a + k) width = read m₁ (a + k) width := by
  refine read_congr fun i hi => ?_
  rw [Nat.add_assoc]
  refine h (k + i) (by omega) fun r hr => ?_
  have hr' := hout r hr
  omega

end ChangesOnly

/-! ## Buffers -/

/-- Buffers of the given sizes that do not overlap. -/
structure Regions (R : Type) (size : R → Nat) where
  base : R → Nat
  separate : ∀ r s, r ≠ s → base r + size r ≤ base s ∨ base s + size s ≤ base r

namespace Regions

variable {R : Type} {size : R → Nat} (L : Regions R size) {r s : R}

/-- Parts of the buffers do not overlap, if the parts of one buffer do not. -/
theorem separate_parts {S : Type} {base part : S → Nat} (owner : S → R) (offset : S → Nat)
    (hbase : ∀ s, base s = L.base (owner s) + offset s)
    (hfit : ∀ s, offset s + part s ≤ size (owner s))
    (hparts : ∀ s t, s ≠ t → owner s = owner t →
      offset s + part s ≤ offset t ∨ offset t + part t ≤ offset s)
    (s t : S) (hst : s ≠ t) : base s + part s ≤ base t ∨ base t + part t ≤ base s := by
  have hs := hfit s
  have ht := hfit t
  rw [hbase, hbase]
  by_cases howner : owner s = owner t
  · have hoffsets := hparts s t hst howner
    rw [howner]
    omega
  · have hseparate := L.separate (owner s) (owner t) howner
    omega

/-- Filling a part of a buffer changes no other one. -/
theorem fill_other (hrs : r ≠ s) (hk : k + n ≤ size r) (hi : i < size s) :
    fill m (L.base r + k) n f (L.base s + i) = m (L.base s + i) := by
  have hseparate := L.separate r s hrs
  exact fill_of_not_mem (by omega)

end Regions

end Memory
