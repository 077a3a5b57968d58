import EspWifiHal.Lib.Register
import Mathlib.Data.BitVec
import Mathlib.Logic.Function.Basic

/-!
# Fields of a register file

A field is a range of bits of one register.  Software reads the register, clears the bits of
the field, sets them and writes the register back.  A list of such updates leaves in each field
the value of the last update of that field, if the fields have no bit in common
(`Layout.get_putAll`).
-/

namespace Fields

/-- Registers of 32 bits, by their address. -/
abbrev Registers := Nat → BitVec 32

/-- Some bits of a register. -/
structure Field where
  address : Nat
  lsb : Nat
  width : Nat
deriving DecidableEq, Repr

/-- Clear the bits of a mask and set those of a value. -/
def update (address : Nat) (mask value : BitVec 32) (r : Registers) : Registers :=
  Function.update r address ((r address &&& ~~~mask) ||| value)

namespace Field

/-- The bits of the field, at the bottom of a word. -/
def mask (f : Field) : BitVec 32 := BitVec.ofNat 32 (2 ^ f.width - 1)

def put (f : Field) (value : BitVec 32) : Registers → Registers :=
  update f.address (f.mask <<< f.lsb) ((value &&& f.mask) <<< f.lsb)

def get (f : Field) (r : Registers) : Nat := (r f.address).toNat / 2 ^ f.lsb % 2 ^ f.width

/-- The field has a bit and is inside of its register. -/
def Fits (f : Field) : Prop := 0 < f.width ∧ f.lsb + f.width ≤ 32

/-- The fields have no bit in common. -/
def Apart (f g : Field) : Prop :=
  f.address ≠ g.address ∨ f.lsb + f.width ≤ g.lsb ∨ g.lsb + g.width ≤ f.lsb

instance (f : Field) : Decidable f.Fits := inferInstanceAs (Decidable (_ ∧ _))

instance (f g : Field) : Decidable (f.Apart g) := inferInstanceAs (Decidable (_ ∨ _ ∨ _))

theorem getLsbD_mask (f : Field) (h : f.Fits) (k : Nat) :
    f.mask.getLsbD k = decide (k < f.width) := by
  rw [mask, BitVec.getLsbD_ofNat, Nat.testBit_two_pow_sub_one]
  have hfits : f.lsb + f.width ≤ 32 := h.2
  by_cases hk : k < f.width
  · simp [hk]
    omega
  · simp [hk]

/-- A value that fits needs no mask. -/
theorem put_of_lt (f : Field) (h : f.Fits) {value : BitVec 32} (hvalue : value.toNat < 2 ^ f.width)
    (r : Registers) : f.put value r = update f.address (f.mask <<< f.lsb) (value <<< f.lsb) r := by
  have hfits : f.lsb + f.width ≤ 32 := h.2
  have hpow : 2 ^ f.width ≤ 2 ^ 32 := Nat.pow_le_pow_right Nat.zero_lt_two (by omega)
  have hmask : f.mask.toNat = 2 ^ f.width - 1 := by
    rw [mask, BitVec.toNat_ofNat]
    exact Nat.mod_eq_of_lt (by omega)
  have hand : value &&& f.mask = value := by
    apply BitVec.eq_of_toNat_eq
    rw [Register.toNat_and_mask f.width hmask, Nat.mod_eq_of_lt hvalue]
  rw [put, hand]

/-- The bits of a register after an update. -/
theorem getLsbD_put (f : Field) (h : f.Fits) (value : BitVec 32) (r : Registers) (a k : Nat)
    (hk : k < 32) :
    (f.put value r a).getLsbD k =
      if a = f.address ∧ f.lsb ≤ k ∧ k < f.lsb + f.width then value.getLsbD (k - f.lsb)
      else (r a).getLsbD k := by
  by_cases ha : a = f.address
  · subst ha
    rw [put, update, Function.update_self]
    simp only [BitVec.getLsbD_or, BitVec.getLsbD_and, BitVec.getLsbD_not, BitVec.getLsbD_shiftLeft,
      getLsbD_mask f h, hk, decide_true, Bool.true_and, true_and]
    by_cases hlow : f.lsb ≤ k
    · by_cases hhigh : k < f.lsb + f.width
      · have hin : k - f.lsb < f.width := by omega
        simp [hlow, hhigh, hin, Nat.not_lt.mpr hlow]
      · have hout : ¬k - f.lsb < f.width := by omega
        simp [hlow, hhigh, hout]
    · simp [hlow, Nat.lt_of_not_le hlow]
  · rw [put, update, Function.update_of_ne ha, if_neg (fun hin => ha hin.1)]

theorem testBit_get (f : Field) (r : Registers) (j : Nat) :
    (f.get r).testBit j = (decide (j < f.width) && (r f.address).getLsbD (f.lsb + j)) := by
  rw [get, Nat.testBit_mod_two_pow, Nat.testBit_div_two_pow, BitVec.testBit_toNat, Nat.add_comm]

theorem get_put_self (f : Field) (h : f.Fits) (value : BitVec 32) (r : Registers) :
    f.get (f.put value r) = value.toNat % 2 ^ f.width := by
  have hfits : f.lsb + f.width ≤ 32 := h.2
  apply Nat.eq_of_testBit_eq
  intro j
  rw [testBit_get, Nat.testBit_mod_two_pow]
  by_cases hj : j < f.width
  · rw [getLsbD_put f h value r _ _ (by omega), if_pos ⟨rfl, by omega, by omega⟩,
      Nat.add_sub_cancel_left, BitVec.testBit_toNat]
  · simp [hj]

theorem get_put_of_apart {f g : Field} (hf : f.Fits) (hg : g.Fits) (hfg : f.Apart g)
    (value : BitVec 32) (r : Registers) : g.get (f.put value r) = g.get r := by
  have hfits : g.lsb + g.width ≤ 32 := hg.2
  apply Nat.eq_of_testBit_eq
  intro j
  rw [testBit_get, testBit_get]
  by_cases hj : j < g.width
  · rw [getLsbD_put f hf value r _ _ (by omega), if_neg]
    rintro ⟨haddress, hlow, hhigh⟩
    rcases hfg with hne | hbelow | habove
    · exact hne haddress.symm
    · omega
    · omega
  · simp [hj]

end Field

/-! ## Layouts -/

/-- Fields that have no bit in common. -/
structure Layout (ι : Type*) where
  field : ι → Field
  fits : ∀ i, (field i).Fits
  apart : ∀ i j, i ≠ j → (field i).Apart (field j)

namespace Layout

variable {ι : Type*} (L : Layout ι)

/-- A layout in which the owner of each bit can be told from its register and its place. -/
def ofOwner (field : ι → Field) (owner : Nat → Nat → Option ι) (fits : ∀ i, (field i).Fits)
    (howner : ∀ i, ∀ b < (field i).width, owner (field i).address ((field i).lsb + b) = some i) :
    Layout ι where
  field := field
  fits := fits
  apart i j hij := by
    by_contra hover
    simp only [Field.Apart, not_or, not_not, Nat.not_le] at hover
    obtain ⟨haddress, hbelow, habove⟩ := hover
    -- the bit where the upper one of the two begins has two owners
    rcases Nat.le_total (field i).lsb (field j).lsb with hle | hle
    · have hi := howner i ((field j).lsb - (field i).lsb) (by omega)
      have hj := howner j 0 (fits j).1
      rw [Nat.add_sub_cancel' hle, haddress] at hi
      exact hij (Option.some.inj (hi.symm.trans hj))
    · have hj := howner j ((field i).lsb - (field j).lsb) (by omega)
      have hi := howner i 0 (fits i).1
      rw [Nat.add_sub_cancel' hle, ← haddress] at hj
      exact hij (Option.some.inj (hi.symm.trans hj))

def get (i : ι) : Registers → Nat := (L.field i).get

/-- All updates of a list, in their order. -/
def putAll (updates : List (ι × BitVec 32)) (r : Registers) : Registers :=
  updates.foldl (fun r u => (L.field u.1).put u.2 r) r

theorem putAll_append (us vs : List (ι × BitVec 32)) (r : Registers) :
    L.putAll (us ++ vs) r = L.putAll vs (L.putAll us r) := List.foldl_append

/-- A loop whose body is a list of updates. -/
theorem foldl_putAll {α : Type*} {body : Registers → α → Registers}
    {updates : α → List (ι × BitVec 32)} {xs : List α}
    (h : ∀ x ∈ xs, ∀ r, body r x = L.putAll (updates x) r) (r : Registers) :
    xs.foldl body r = L.putAll (xs.flatMap updates) r := by
  induction xs generalizing r with
  | nil => rfl
  | cons x xs ih =>
      rw [List.foldl_cons, List.flatMap_cons, putAll_append, h x List.mem_cons_self r]
      exact ih (fun y hy => h y (List.mem_cons_of_mem x hy)) _

variable [DecidableEq ι]

/-- The value of the last update of a field in a list. -/
def lastValue (i : ι) (updates : List (ι × BitVec 32)) : Option (BitVec 32) :=
  ((updates.filter fun u => u.1 = i).getLast?).map Prod.snd

theorem lastValue_append (i : ι) (us vs : List (ι × BitVec 32)) :
    lastValue i (us ++ vs) = (lastValue i vs).or (lastValue i us) := by
  rw [lastValue, List.filter_append, List.getLast?_append, Option.map_or]
  rfl

theorem lastValue_eq_none {i : ι} {us : List (ι × BitVec 32)} (h : ∀ u ∈ us, u.1 ≠ i) :
    lastValue i us = none := by
  have hempty : us.filter (fun u => u.1 = i) = [] :=
    List.filter_eq_nil_iff.mpr fun u hu => by simpa using h u hu
  rw [lastValue, hempty]
  rfl

/-- Updates whose values depend on the field only. -/
theorem lastValue_map (value : ι → BitVec 32) (i : ι) (is : List ι) :
    lastValue i (is.map fun j => (j, value j)) = if i ∈ is then some (value i) else none := by
  induction is with
  | nil => rfl
  | cons j is ih =>
      rw [List.map_cons, ← List.singleton_append, lastValue_append, ih]
      by_cases hmem : i ∈ is
      · simp [hmem]
      · by_cases hij : j = i
        · simp [hmem, hij, lastValue]
        · simp [hmem, hij, lastValue, Ne.symm hij]

/-- What a field holds after a list of updates. -/
theorem get_putAll (i : ι) (updates : List (ι × BitVec 32)) (r : Registers) :
    L.get i (L.putAll updates r) =
      match lastValue i updates with
      | some value => value.toNat % 2 ^ (L.field i).width
      | none => L.get i r := by
  -- the last update decides, so the list is taken apart from its end
  induction updates using List.reverseRecOn with
  | nil => rfl
  | append_singleton us u ih =>
      rw [putAll_append]
      by_cases heq : u.1 = i
      · have hlast : lastValue i (us ++ [u]) = some u.2 := by
          simp [lastValue, heq]
        rw [hlast, ← heq]
        exact (L.field u.1).get_put_self (L.fits u.1) u.2 _
      · have hlast : lastValue i (us ++ [u]) = lastValue i us := by
          simp [lastValue, heq]
        rw [hlast, ← ih]
        exact Field.get_put_of_apart (L.fits u.1) (L.fits i) (L.apart u.1 i heq) u.2 _

end Layout

end Fields
