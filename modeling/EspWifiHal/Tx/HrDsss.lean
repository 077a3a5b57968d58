import EspWifiHal.Tx.Rates

/-!
# Rates of the HR/DSSS PHY

The setters of a rate and its airtime.  `new` refuses 1 Mbit/s with a short preamble and
the setters keep to that.  But `set_rate` has a condition that only the rate 0 meets, so it
never sets another one (`setters_refine_iff`).

The airtime divides by 11 for 5.5 Mbit/s and by 22 for 11 Mbit/s.  Both are twice what the
data rate gives (`airtime_iff`).
-/

namespace EspWifiHal

namespace HrDsssRate

/-! ## The functions -/

def new (rateIndex : Byte) (shortPreamble : Bool) : Option HrDsssRate :=
  if h : rateIndex > 3 ∨ (rateIndex = 0 ∧ shortPreamble = true) then none
  else
    some ⟨rateIndex, shortPreamble, BitVec.not_lt.mp fun hgt => h (.inl hgt),
      fun h0 => h (.inr h0)⟩

def setRate (rate : HrDsssRate) (rateIndex : Byte) : HrDsssRate :=
  if h : (rateIndex = 0 ∧ rate.shortPreamble = false) ∧ rateIndex ≤ 3 then
    ⟨rateIndex, rate.shortPreamble, h.2, fun hshort => by
      rw [h.1.2] at hshort
      cases hshort.2⟩
  else rate

def setShortPreamble (rate : HrDsssRate) (shortPreamble : Bool) : HrDsssRate :=
  if h : rate.rateIndex ≠ 0 then ⟨rate.rateIndex, shortPreamble, rate.le, fun hzero => h hzero.1⟩
  else rate

def kilo : Nat := 1000

def mega : Nat := 1000000

/-- Bits per second.  The index is at most 3. -/
def dataRate (rate : HrDsssRate) : Nat :=
  match rate.rateIndex.toNat with
  | 0 => mega
  | 1 => 2 * mega
  | 2 => 11 * mega / 2
  | _ => 11 * mega

def preambleDuration (rate : HrDsssRate) : Nat := (if rate.shortPreamble then 96 else 192) * kilo

/-- A result of type `usize`, with `none` for an overflow. -/
def usizeOf (max value : Nat) : Option Nat := if value ≤ max then some value else none

/-- The airtime of a PPDU in nanoseconds. -/
def airtime (max : Nat) (rate : HrDsssRate) (ppduLength : Nat) : Option Nat := do
  let dataBits ← usizeOf max (ppduLength * 8)
  let product ← usizeOf max (dataBits * kilo)
  let dataDuration :=
    match rate.rateIndex.toNat with
    | 0 => product
    | 1 => product / 2
    | 2 => product / 11
    | _ => product / 22
  usizeOf max (rate.preambleDuration + dataDuration)

/-! ## The constructor -/

theorem new_eq_some {rateIndex : Byte} {shortPreamble : Bool} (hle : rateIndex ≤ 3)
    (hlong : rateIndex = 0 → shortPreamble = false) :
    new rateIndex shortPreamble =
      some ⟨rateIndex, shortPreamble, hle, fun h => by simp [hlong h.1] at h⟩ := by
  refine dif_neg ?_
  rintro (hgt | ⟨hzero, hshort⟩)
  · exact BitVec.not_lt.mpr hle hgt
  · rw [hlong hzero] at hshort
    cases hshort

theorem new_eq_none {rateIndex : Byte} {shortPreamble : Bool}
    (h : rateIndex > 3 ∨ (rateIndex = 0 ∧ shortPreamble = true)) :
    new rateIndex shortPreamble = none := dif_pos h

/-! ## Airtime -/

theorem rateIndex_cases (rate : HrDsssRate) :
    rate.rateIndex.toNat = 0 ∨ rate.rateIndex.toNat = 1 ∨ rate.rateIndex.toNat = 2 ∨
      rate.rateIndex.toNat = 3 := by
  have hle := rate.toNat_le
  omega

theorem usizeOf_eq_some {max value v : Nat} (h : usizeOf max value = some v) : v = value := by
  rw [usizeOf] at h
  split at h
  · exact (Option.some.inj h).symm
  · cases h

theorem airtime_eq {rate : HrDsssRate} {max n t : Nat} (h : rate.airtime max n = some t) :
    t = rate.preambleDuration +
      match rate.rateIndex.toNat with
      | 0 => n * 8 * kilo
      | 1 => n * 8 * kilo / 2
      | 2 => n * 8 * kilo / 11
      | _ => n * 8 * kilo / 22 := by
  rw [airtime, Option.bind_eq_bind, Option.bind_eq_some_iff] at h
  obtain ⟨dataBits, hbits, h⟩ := h
  rw [Option.bind_eq_some_iff] at h
  obtain ⟨product, hproduct, h⟩ := h
  obtain rfl := usizeOf_eq_some hbits
  obtain rfl := usizeOf_eq_some hproduct
  exact usizeOf_eq_some h

end HrDsssRate

/-- An airtime that does not overflow is the preamble and the time for the bits at the data
rate, rounded down, if and only if the rate is 1 or 2 Mbit/s or there are no bits. -/
theorem airtime_iff (rate : HrDsssRate) (max n t : Nat) (h : rate.airtime max n = some t) :
    t = rate.preambleDuration + 8 * n * 10 ^ 9 / rate.dataRate ↔
      rate.rateIndex.toNat < 2 ∨ n = 0 := by
  rw [HrDsssRate.airtime_eq h, Nat.add_left_cancel_iff, HrDsssRate.dataRate, HrDsssRate.mega,
    HrDsssRate.kilo]
  rcases rate.rateIndex_cases with hindex | hindex | hindex | hindex
  · simp only [hindex]
    omega
  · simp only [hindex]
    omega
  · -- 5.5 Mbit/s: a factor of two is missing
    simp only [hindex]
    omega
  · simp only [hindex]
    omega

theorem airtime_iff_of_5m5 :
    ∃ rate, HrDsssRate.new 2 false = some rate ∧ rate.airtime (2 ^ 32 - 1) 11 = some 200000 ∧
      200000 ≠ rate.preambleDuration + 8 * 11 * 10 ^ 9 / rate.dataRate :=
  ⟨_, rfl, rfl, fun h => absurd ((airtime_iff _ (2 ^ 32 - 1) 11 200000 rfl).mp h) (by decide)⟩

/-- Eleven bytes at 5.5 Mbit/s take 16 microseconds behind the preamble and not 8. -/
theorem airtime_of_5m5 :
    ∃ rate, HrDsssRate.new 2 false = some rate ∧ rate.dataRate = 5500000 ∧
      rate.airtime (2 ^ 32 - 1) 11 = some (192000 + 8000) ∧
      8 * 11 * 10 ^ 9 / rate.dataRate = 16000 :=
  ⟨_, rfl, rfl, rfl, rfl⟩

/-! ## Setters -/

inductive RateSetter where
  | setRate (rateIndex : Byte)
  | setShortPreamble (shortPreamble : Bool)
deriving DecidableEq, Repr

namespace RateSetter

def apply (rate : HrDsssRate) : RateSetter → HrDsssRate
  | .setRate rateIndex => rate.setRate rateIndex
  | .setShortPreamble shortPreamble => rate.setShortPreamble shortPreamble

/-- The field is replaced if `new` accepts the result. -/
def reference (rate : HrDsssRate) : RateSetter → HrDsssRate
  | .setRate rateIndex => (HrDsssRate.new rateIndex rate.shortPreamble).getD rate
  | .setShortPreamble shortPreamble => (HrDsssRate.new rate.rateIndex shortPreamble).getD rate

/-- The setter does not ask for another rate than 1 Mbit/s, unless that is out of bounds. -/
def Harmless (rate : HrDsssRate) : RateSetter → Prop
  | .setRate rateIndex => rateIndex ≠ 0 → rateIndex ≤ 3 → rateIndex = rate.rateIndex
  | .setShortPreamble _ => True

theorem setShortPreamble_eq_reference (rate : HrDsssRate) (shortPreamble : Bool) :
    apply rate (.setShortPreamble shortPreamble) =
      reference rate (.setShortPreamble shortPreamble) := by
  rw [apply, reference, HrDsssRate.setShortPreamble]
  by_cases hzero : rate.rateIndex = 0
  · rw [dif_neg (not_not.mpr hzero)]
    cases hshort : shortPreamble with
    | true => rw [HrDsssRate.new_eq_none (.inr ⟨hzero, rfl⟩), Option.getD_none]
    | false =>
        -- at 1 Mbit/s the preamble is long already
        have hlong : rate.shortPreamble = false := by
          rw [← Bool.not_eq_true]
          exact fun h => rate.long ⟨hzero, h⟩
        rw [HrDsssRate.new_eq_some rate.le fun _ => rfl]
        cases rate
        cases hlong
        rfl
  · rw [dif_pos hzero, HrDsssRate.new_eq_some rate.le fun h => absurd h hzero, Option.getD_some]

theorem setRate_eq_reference_iff (rate : HrDsssRate) (rateIndex : Byte) :
    apply rate (.setRate rateIndex) = reference rate (.setRate rateIndex) ↔
      Harmless rate (.setRate rateIndex) := by
  rw [apply, reference, HrDsssRate.setRate, Harmless]
  by_cases hzero : rateIndex = 0
  · subst hzero
    refine iff_of_true ?_ fun hne => absurd rfl hne
    by_cases hshort : rate.shortPreamble = true
    · rw [HrDsssRate.new_eq_none (.inr ⟨rfl, hshort⟩), Option.getD_none]
      exact dif_neg fun h => absurd (hshort.symm.trans h.1.2) Bool.noConfusion
    · rw [Bool.not_eq_true] at hshort
      have hle : (0 : Byte) ≤ 3 := by decide
      rw [HrDsssRate.new_eq_some hle fun _ => hshort, Option.getD_some]
      exact dif_pos ⟨⟨rfl, hshort⟩, hle⟩
  · rw [dif_neg fun h => hzero h.1.1]
    by_cases hle : rateIndex ≤ 3
    · rw [HrDsssRate.new_eq_some hle fun h => absurd h hzero, Option.getD_some]
      constructor
      · intro h _ _
        exact (congrArg HrDsssRate.rateIndex h).symm
      · intro h
        cases rate
        cases h hzero hle
        rfl
    · rw [HrDsssRate.new_eq_none (.inl (BitVec.not_le.mp hle)), Option.getD_none]
      exact iff_of_true rfl fun _ h => absurd h hle

theorem apply_eq_reference_iff (rate : HrDsssRate) (setter : RateSetter) :
    setter.apply rate = setter.reference rate ↔ setter.Harmless rate := by
  cases setter with
  | setRate rateIndex => exact setRate_eq_reference_iff rate rateIndex
  | setShortPreamble shortPreamble =>
      exact iff_of_true (setShortPreamble_eq_reference rate shortPreamble) trivial

end RateSetter

/-- After each of the setters the rate is the one of the reference, if and only if none of
them asks for a rate other than 1 Mbit/s that is in bounds and not set already. -/
theorem setters_refine_iff (rate : HrDsssRate) (setters : List RateSetter) :
    (∀ k, (setters.take k).foldl RateSetter.apply rate =
        (setters.take k).foldl RateSetter.reference rate) ↔
      ∀ (k : Nat) (setter : RateSetter), setters[k]? = some setter →
        setter.Harmless ((setters.take k).foldl RateSetter.reference rate) := by
  induction setters generalizing rate with
  | nil => simp
  | cons setter setters ih =>
      constructor
      · intro h
        have hfirst : setter.apply rate = setter.reference rate := h 1
        intro k setter' hk
        cases k with
        | zero =>
            cases hk
            exact (RateSetter.apply_eq_reference_iff rate setter).mp hfirst
        | succ k =>
            refine (ih (setter.reference rate)).mp (fun j => ?_) k setter' hk
            have hnext := h (j + 1)
            rwa [List.take_succ_cons, List.foldl_cons, List.foldl_cons, hfirst] at hnext
      · intro h k
        have hfirst := (RateSetter.apply_eq_reference_iff rate setter).mpr (h 0 setter rfl)
        cases k with
        | zero => rfl
        | succ k =>
            rw [List.take_succ_cons, List.foldl_cons, List.foldl_cons, hfirst]
            exact (ih (setter.reference rate)).mpr (fun j setter' hj => h (j + 1) setter' hj) k

/-- A rate of 1 Mbit/s cannot be set to 2 Mbit/s. -/
theorem setRate_keeps_1m :
    ∃ rate, HrDsssRate.new 0 false = some rate ∧ (rate.setRate 1).rateIndex = 0 ∧
      (RateSetter.reference rate (.setRate 1)).rateIndex = 1 :=
  ⟨_, rfl, rfl, rfl⟩

end EspWifiHal
