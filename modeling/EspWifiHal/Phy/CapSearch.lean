import EspWifiHal.Phy.FreqMemory
import EspWifiHal.Lib.Loop
import Mathlib.Algebra.Order.BigOperators.Group.List

/-!
# The capacitor searches

The capacitor register of the PLL has nine bits.  Two functions look for a code at which the
PLL locks.  `correctCap` walks away from the present code until the lock status changes, goes
one step further, and adds the distance to the codes of the channel memory.  `initCap` tries
codes around the present one and takes their mean.

The lock status is read from the hardware, so each reading is arbitrary.  `correctCap_register`
says when the register and the channel memory are in step afterwards, and `initCap_codes` says
when all codes are codes of nine bits.  In both cases there are readings for which they are not.
-/

namespace EspWifiHal

open Memory

/-! ## The functions -/

/-- The byte that selects the saved code, and the saved code. -/
def PhyChip.special : PhyChip → Nat
  | .esp32s3 => 0x2a8
  | .esp32c3 => 0x325

def PhyChip.savedCap : PhyChip → Nat
  | .esp32s3 => 0x2aa
  | .esp32c3 => 0x326

/-- `status`: two bits of the lock register. -/
def lockStatus (reading : BitVec 32) : BitVec 32 := (reading >>> 2) &&& 3

/-- What `correct_cap` reads from the lock register. -/
structure LockReadings where
  /-- Before the first attempt. -/
  first : BitVec 32
  /-- In each attempt. -/
  attempt : Nat → BitVec 32
  /-- After the step that follows the attempts. -/
  last : BitVec 32

/-- The local variables of `correct_cap`, and the values given to `write_cap`. -/
structure CapSearch where
  writes : List (BitVec 32)
  step : BitVec 32
  candidate : BitVec 32
  success : Bool

/-- The step of the attempts. -/
def attemptStep (first : BitVec 32) : BitVec 32 := if first = 2 then -2 else 2

def CapSearch.start (first : BitVec 32) : CapSearch where
  writes := []
  step := attemptStep first
  candidate := 0
  success := false

/-- The status has left the side it was on first. -/
def capCrossed (first last : BitVec 32) : Bool :=
  first = 1 ∧ last = 0 ∨ first = 0 ∧ last = 2 ∨ first = 2 ∧ last = 0

/-- The step after the attempts. -/
def crossedStep (first : BitVec 32) : BitVec 32 :=
  if first = 1 then 2 else if first = 0 then -6 else -4

def correctAttempt (limit : LimitCallback) (special : Bool) (initial : BitVec 32)
    (readings : LockReadings) (s : CapSearch) (i : Nat) : CapSearch × Bool :=
  let attempt := i + 1
  let first := lockStatus readings.first
  let raw := limit (short (initial + BitVec.ofNat 32 attempt * s.step)) 511 0
  if special then ({ s with candidate := short initial }, true)
  else
    let s := { s with
      candidate := short raw, writes := s.writes ++ [(raw.setWidth 16).setWidth 32] }
    let last := lockStatus (readings.attempt attempt)
    if capCrossed first last then ({ s with step := crossedStep first, success := true }, true)
    else if attempt = 10 then
      ({ s with writes := s.writes ++ [initial], candidate := short initial }, true)
    else (s, false)

/-- What `correct_cap` returns and does. -/
structure CapCorrection where
  result : BitVec 32
  /-- The values given to `write_cap`. -/
  writes : List (BitVec 32)
  /-- The updates of the channel memory. -/
  calls : List FreqCall

/-- The part that follows the attempts. -/
def correctSettle (limit : LimitCallback) (initial : BitVec 32) (readings : LockReadings)
    (s : CapSearch) : CapCorrection :=
  if s.success then
    let raw := limit (short (s.candidate + s.step)) 511 0
    let writes := s.writes ++ [(raw.setWidth 16).setWidth 32]
    if lockStatus readings.last = 0 then
      let result := short (raw - initial)
      { result, writes, calls := if result ≠ 0 then [.capMemory result] else [] }
    else { result := 0, writes, calls := [] }
  else { result := 0, writes := s.writes, calls := [] }

def correctCap (chip : PhyChip) (limit : LimitCallback) (param : Nat) (m : ByteMem)
    (reading : CapReading) (readings : LockReadings) (mode : BitVec 32) : CapCorrection :=
  let mode := chip.byte mode
  let special : Bool := read m (param + chip.special) 1 ≠ 0 ∧ mode ≠ 0
  let initial := readCap reading
  let s := Loop.forBreak (correctAttempt limit special initial readings) (List.range 10)
    (CapSearch.start (lockStatus readings.first))
  if special then
    { result := 0, writes := s.writes ++ [read m (param + chip.savedCap) 2], calls := [] }
  else correctSettle limit initial readings s

/-- The local variables of `init_cap`, and the values given to `write_cap`. -/
structure CapMean where
  writes : List (BitVec 32)
  sum : BitVec 16
  count : Nat

/-- The code number `i` of a pass.  The first pass goes down and the second goes up. -/
def initCode (initial : BitVec 32) (pass i : Nat) : BitVec 16 :=
  let cap := if pass = 0 then initial - BitVec.ofNat 32 i else initial + (1 + BitVec.ofNat 32 i)
  cap.setWidth 16

def initTry (initial : BitVec 32) (readings : Nat → Nat → BitVec 32) (pass : Nat) (s : CapMean)
    (i : Nat) : CapMean × Bool :=
  let cap := initCode initial pass i
  let s := { s with writes := s.writes ++ [cap.setWidth 32] }
  if lockStatus (readings pass i) = 0 then
    ({ s with sum := s.sum + cap, count := s.count + 1 }, false)
  else (s, s.count ≠ 0)

def initPass (initial : BitVec 32) (readings : Nat → Nat → BitVec 32) (s : CapMean)
    (pass : Nat) : CapMean :=
  Loop.forBreak (initTry initial readings pass) (List.range 10) s

/-- The values given to `write_cap` and the result.  `readings` is the lock register after each
code of each pass. -/
def initCap (reading : CapReading) (readings : Nat → Nat → BitVec 32) :
    List (BitVec 32) × BitVec 32 :=
  let initial := readCap reading
  let s := (List.range 2).foldl (initPass initial readings) { writes := [], sum := 0, count := 0 }
  let cap := if s.count = 0 then initial else s.sum.setWidth 32 / BitVec.ofNat 32 s.count
  (s.writes ++ [cap], initial <<< 16 ||| cap)

/-! ## Correction -/

section Correct

variable (initial : BitVec 32) (readings : LockReadings)

/-- The code of an attempt. -/
def attemptCode (attempt : Nat) : Int :=
  max 0 (min 511 (initial.toNat + attempt * (attemptStep (lockStatus readings.first)).toInt))

/-- The code of the step that follows the attempts. -/
def settledCode (attempt : Nat) : Int :=
  max 0 (min 511 (attemptCode initial readings attempt +
    (crossedStep (lockStatus readings.first)).toInt))

/-- The status crosses in this attempt and in none before it. -/
structure CrossesAt (attempt : Nat) : Prop where
  pos : 1 ≤ attempt
  le : attempt ≤ 10
  crossed : capCrossed (lockStatus readings.first) (lockStatus (readings.attempt attempt)) = true
  first : ∀ k, 1 ≤ k → k < attempt →
    capCrossed (lockStatus readings.first) (lockStatus (readings.attempt k)) = false

theorem CrossesAt.unique {readings : LockReadings} {k l : Nat} (hk : CrossesAt readings k)
    (hl : CrossesAt readings l) : k = l := by
  rcases Nat.lt_trichotomy k l with hlt | heq | hgt
  · have hnot := hl.first k hk.pos hlt
    rw [hk.crossed] at hnot
    cases hnot
  · exact heq
  · have hnot := hk.first l hl.pos hgt
    rw [hl.crossed] at hnot
    cases hnot

/-- The callback on a word whose value fits into 16 bits. -/
theorem clamp_short {x : BitVec 32} {code : Int} (h : x.toInt = code) (hlow : -32768 ≤ code)
    (hhigh : code ≤ 32767) :
    (clampCallback (short x) 511 0).toInt = max 0 (min 511 code) := by
  have hshort : (short x).toInt = code := (short_toInt (by omega) (by omega)).trans h
  obtain ⟨code', hcode', heq⟩ := clampCallback_eq hshort
  rw [heq, ← hcode', BitVec.toInt_eq_toNat_of_lt] <;> rw [BitVec.toNat_setWidth] <;> omega

/-- A code is not changed by the conversions on its way to `write_cap`. -/
theorem toInt_code {raw : BitVec 32} (hlow : 0 ≤ raw.toInt) (hhigh : raw.toInt ≤ 511) :
    ((raw.setWidth 16).setWidth 32).toInt = raw.toInt := by
  have hraw : raw.toInt = raw.toNat := BitVec.toInt_eq_toNat_of_msb (by
    rw [BitVec.msb_eq_toInt]
    exact decide_eq_false (by omega))
  rw [hraw] at hhigh ⊢
  have hnat : ((raw.setWidth 16).setWidth 32).toNat = raw.toNat := by
    rw [BitVec.toNat_setWidth, BitVec.toNat_setWidth]
    omega
  rw [BitVec.toInt_eq_toNat_of_lt (by omega), hnat]

variable {initial readings}

theorem attemptStep_toInt (first : BitVec 32) :
    (attemptStep first).toInt = -2 ∨ (attemptStep first).toInt = 2 := by
  rw [attemptStep]
  split_ifs
  · exact Or.inl rfl
  · exact Or.inr rfl

/-- The code that the loop computes. -/
theorem attempt_toInt (readings : LockReadings) (hinitial : initial.toNat ≤ 511) {i : Nat}
    (hi : i < 10) :
    (clampCallback (short (initial + BitVec.ofNat 32 (i + 1) *
      attemptStep (lockStatus readings.first))) 511 0).toInt =
        attemptCode initial readings (i + 1) := by
  have hinitialInt : initial.toInt = initial.toNat := BitVec.toInt_eq_toNat_of_lt (by omega)
  have hindex : (BitVec.ofNat 32 (i + 1)).toInt = (i + 1 : Nat) := by
    rw [BitVec.toInt_eq_toNat_of_lt] <;> rw [BitVec.toNat_ofNat] <;> omega
  rw [attemptCode]
  -- the product is linear once the step is a number
  rcases attemptStep_toInt (lockStatus readings.first) with hstep | hstep
  all_goals
    rw [hstep]
    refine clamp_short ?_ (by omega) (by omega)
    rw [BitVec.toInt_add, BitVec.toInt_mul, hindex, hstep, hinitialInt]
    rw [Int.bmod_eq_of_le (n := _ * _) (by omega) (by omega)]
    exact Int.bmod_eq_of_le (by omega) (by omega)

theorem settled_toInt {candidate : BitVec 32} {attempt : Nat}
    (h : candidate.toInt = attemptCode initial readings attempt) :
    (clampCallback (short (candidate + crossedStep (lockStatus readings.first))) 511 0).toInt =
      settledCode initial readings attempt := by
  have hstep : -6 ≤ (crossedStep (lockStatus readings.first)).toInt ∧
      (crossedStep (lockStatus readings.first)).toInt ≤ 2 := by
    rw [crossedStep]
    split_ifs <;> decide
  have hcode : 0 ≤ attemptCode initial readings attempt ∧
      attemptCode initial readings attempt ≤ 511 := by
    rw [attemptCode]
    omega
  refine clamp_short ?_ (by omega) (by omega)
  rw [BitVec.toInt_add, h]
  exact Int.bmod_eq_of_le (by omega) (by omega)

/-- The state before the attempt number `k + 1`. -/
structure Attempting (readings : LockReadings) (k : Nat) (s : CapSearch) : Prop where
  le : k ≤ 9
  writes : s.writes.length = k
  step : s.step = attemptStep (lockStatus readings.first)
  success : s.success = false
  none : ∀ j, 1 ≤ j → j ≤ k →
    capCrossed (lockStatus readings.first) (lockStatus (readings.attempt j)) = false

/-- How the attempts end: with a crossing, or with the initial code. -/
structure Crossed (initial : BitVec 32) (readings : LockReadings) (k : Nat) (s : CapSearch) :
    Prop where
  at_attempt : CrossesAt readings k
  writes : s.writes.length = k
  candidate : s.candidate.toInt = attemptCode initial readings k
  step : s.step = crossedStep (lockStatus readings.first)
  success : s.success = true

structure Exhausted (initial : BitVec 32) (readings : LockReadings) (s : CapSearch) : Prop where
  never : ∀ k, ¬CrossesAt readings k
  writes : s.writes.length = 11
  last : s.writes.getLast? = some initial
  success : s.success = false

theorem correctAttempt_spec (hinitial : initial.toNat ≤ 511) {k : Nat} {s : CapSearch}
    (h : Attempting readings k s) :
    ((correctAttempt clampCallback false initial readings s k).2 = false →
      Attempting readings (k + 1) (correctAttempt clampCallback false initial readings s k).1) ∧
    ((correctAttempt clampCallback false initial readings s k).2 = true →
      Crossed initial readings (k + 1) (correctAttempt clampCallback false initial readings s k).1 ∨
      Exhausted initial readings (correctAttempt clampCallback false initial readings s k).1) := by
  have hle := h.le
  have hcode := attempt_toInt readings hinitial (Nat.lt_succ_of_le hle)
  have hrange : 0 ≤ attemptCode initial readings (k + 1) ∧
      attemptCode initial readings (k + 1) ≤ 511 := by
    rw [attemptCode]
    omega
  simp only [correctAttempt, Bool.false_eq_true, if_false, h.step]
  by_cases hcrossed : capCrossed (lockStatus readings.first)
      (lockStatus (readings.attempt (k + 1))) = true
  · rw [if_pos hcrossed]
    refine ⟨fun hgo => absurd hgo Bool.noConfusion, fun _ => Or.inl ?_⟩
    have hat : CrossesAt readings (k + 1) :=
      ⟨by omega, by omega, hcrossed, fun j hj hlt => h.none j hj (by omega)⟩
    refine ⟨hat, ?_, ?_, rfl, rfl⟩
    · simp [h.writes]
    · exact (short_toInt (by omega) (by omega)).trans hcode
  · rw [if_neg hcrossed]
    have hnone : ∀ j, 1 ≤ j → j ≤ k + 1 →
        capCrossed (lockStatus readings.first) (lockStatus (readings.attempt j)) = false := by
      intro j hj hjk
      rcases Nat.lt_or_eq_of_le hjk with hlt | rfl
      · exact h.none j hj (by omega)
      · exact Bool.eq_false_iff.mpr hcrossed
    by_cases hten : k + 1 = 10
    · rw [if_pos hten]
      refine ⟨fun hgo => absurd hgo Bool.noConfusion, fun _ => Or.inr ?_⟩
      refine ⟨fun j hj => ?_, ?_, ?_, h.success⟩
      · have hnot := hnone j hj.pos (by have := hj.le; omega)
        rw [hj.crossed] at hnot
        cases hnot
      · simp [h.writes]
        omega
      · simp
    · rw [if_neg hten]
      refine ⟨fun _ => ⟨by omega, ?_, rfl, h.success, hnone⟩,
        fun hstop => absurd hstop Bool.noConfusion⟩
      simp [h.writes]

theorem attempts_spec (readings : LockReadings) (hinitial : initial.toNat ≤ 511) :
    let s := Loop.forBreak (correctAttempt clampCallback false initial readings) (List.range 10)
      (CapSearch.start (lockStatus readings.first))
    (∃ k, Crossed initial readings k s) ∨ Exhausted initial readings s := by
  intro s
  have hstart : Attempting readings 0 (CapSearch.start (lockStatus readings.first)) :=
    ⟨by omega, rfl, rfl, rfl, fun j hj hj0 => by omega⟩
  have hloop := Loop.forBreak_range (correctAttempt clampCallback false initial readings)
    (Attempting readings) 10 hstart fun k _ t ht => (correctAttempt_spec hinitial ht).1
  rcases hloop with hend | ⟨k, -, t, ht, hstop, heq⟩
  · -- the last attempt does not go on
    exact absurd hend.le (by decide)
  · rw [show s = _ from heq]
    exact ((correctAttempt_spec hinitial ht).2 hstop).imp_left fun h => ⟨k + 1, h⟩

/-- The register is where the channel memory is. -/
def InStep (initial : BitVec 32) (run : CapCorrection) : Prop :=
  ∃ code, run.writes.getLast? = some code ∧ code.toInt = initial.toInt + run.result.toInt

theorem correctCap_eq {chip : PhyChip} {param : Nat} {m : ByteMem} {mode : BitVec 32}
    (reading : CapReading)
    (h : read m (param + chip.special) 1 = 0 ∨ chip.byte mode = 0) :
    correctCap chip clampCallback param m reading readings mode =
      correctSettle clampCallback (readCap reading) readings
        (Loop.forBreak (correctAttempt clampCallback false (readCap reading) readings)
          (List.range 10) (CapSearch.start (lockStatus readings.first))) := by
  have hspecial : decide (read m (param + chip.special) 1 ≠ 0 ∧ chip.byte mode ≠ 0) = false := by
    rw [decide_eq_false_iff_not, not_and_or, not_not, not_not]
    exact h
  simp only [correctCap, hspecial, Bool.false_eq_true, if_false]

theorem correctSettle_crossed (hinitial : initial.toNat ≤ 511) {k : Nat} {s : CapSearch}
    (h : Crossed initial readings k s) :
    (InStep initial (correctSettle clampCallback initial readings s) ↔
      (lockStatus readings.last = 0 ∨ settledCode initial readings k = initial.toNat)) ∧
    (correctSettle clampCallback initial readings s).writes.length = k + 1 := by
  have hinitialInt : initial.toInt = initial.toNat := BitVec.toInt_eq_toNat_of_lt (by omega)
  let raw := clampCallback (short (s.candidate + crossedStep (lockStatus readings.first))) 511 0
  have hraw : raw.toInt = settledCode initial readings k := settled_toInt h.candidate
  have hrange : 0 ≤ settledCode initial readings k ∧ settledCode initial readings k ≤ 511 := by
    rw [settledCode]
    omega
  have hwritten : ((raw.setWidth 16).setWidth 32).toInt = settledCode initial readings k :=
    (toInt_code (by omega) (by omega)).trans hraw
  simp only [correctSettle, h.success, h.step, if_true]
  by_cases hlast : lockStatus readings.last = 0
  · simp only [hlast, if_true, true_or, iff_true]
    refine ⟨⟨_, List.getLast?_concat, hwritten.trans ?_⟩, by simp [h.writes]⟩
    have hdelta : (raw - initial).toInt = settledCode initial readings k - initial.toNat := by
      rw [BitVec.toInt_sub, hraw, hinitialInt]
      exact Int.bmod_eq_of_le (by omega) (by omega)
    show _ = initial.toInt + (short (raw - initial)).toInt
    rw [short_toInt (by omega) (by omega), hdelta]
    omega
  · simp only [hlast, if_false, false_or]
    refine ⟨⟨?_, fun heq => ⟨_, List.getLast?_concat, hwritten.trans ?_⟩⟩, by simp [h.writes]⟩
    · rintro ⟨code, hcode, heq⟩
      obtain rfl := Option.some.inj (List.getLast?_concat.symm.trans hcode)
      rw [show _ = settledCode initial readings k from hwritten] at heq
      rw [heq, hinitialInt]
      simp
    · rw [heq, hinitialInt]
      simp

theorem correctSettle_exhausted {s : CapSearch} (h : Exhausted initial readings s) :
    InStep initial (correctSettle clampCallback initial readings s) ∧
      (correctSettle clampCallback initial readings s).writes.length = 11 := by
  simp only [correctSettle, h.success, Bool.false_eq_true, if_false]
  exact ⟨⟨initial, h.last, by simp⟩, h.writes⟩

theorem correctSettle_calls (s : CapSearch) :
    (correctSettle clampCallback initial readings s).calls =
      if (correctSettle clampCallback initial readings s).result = 0 then []
      else [.capMemory (correctSettle clampCallback initial readings s).result] := by
  rw [correctSettle]
  by_cases hsuccess : s.success = true
  · by_cases hlast : lockStatus readings.last = 0
    · simp only [hsuccess, hlast, if_true, ne_eq, ite_not]
    · simp only [hsuccess, hlast, if_true, if_false]
  · simp only [hsuccess, Bool.false_eq_true, if_false, if_true]

/-- Outside the special mode the correction of the channel memory is the result, at most eleven
codes are tried, and the register is at the initial code plus the result, with one exception.
If the status crosses, and the PLL is not locked after the step that follows, then that step is
not taken back. -/
theorem correctCap_register (chip : PhyChip) (param : Nat) (m : ByteMem) (reading : CapReading)
    (readings : LockReadings) (mode : BitVec 32)
    (h : read m (param + chip.special) 1 = 0 ∨ chip.byte mode = 0) :
    let run := correctCap chip clampCallback param m reading readings mode
    (InStep (readCap reading) run ↔
      ¬∃ k, CrossesAt readings k ∧ lockStatus readings.last ≠ 0 ∧
        settledCode (readCap reading) readings k ≠ (readCap reading).toNat) ∧
    run.calls = (if run.result = 0 then [] else [.capMemory run.result]) ∧
    run.writes.length ≤ 11 := by
  intro run
  have hinitial := readCap_le reading
  rw [show run = _ from correctCap_eq reading h]
  refine ⟨?_, correctSettle_calls _, ?_⟩
  · rcases attempts_spec readings hinitial with ⟨k, hk⟩ | hnever
    · rw [(correctSettle_crossed hinitial hk).1]
      constructor
      · rintro hor ⟨l, hl, hlast, hcode⟩
        obtain rfl := hl.unique hk.at_attempt
        exact hor.elim hlast hcode
      · intro hnot
        by_contra hor
        rw [not_or] at hor
        exact hnot ⟨k, hk.at_attempt, hor⟩
    · refine iff_of_true (correctSettle_exhausted hnever).1 ?_
      rintro ⟨k, hk, -⟩
      exact hnever.never k hk
  · rcases attempts_spec readings hinitial with ⟨k, hk⟩ | hnever
    · rw [(correctSettle_crossed hinitial hk).2]
      exact Nat.succ_le_succ hk.at_attempt.le
    · exact Nat.le_of_eq (correctSettle_exhausted hnever).2

/-- The PLL is locked at 104. -/
theorem correctCap_register_of_lock :
    InStep (readCap ⟨100, 0⟩)
      (correctCap .esp32s3 clampCallback 0 (fun _ => 0) ⟨100, 0⟩ ⟨4, fun _ => 0, 0⟩ 0) := by
  refine (correctCap_register .esp32s3 0 (fun _ => 0) ⟨100, 0⟩ ⟨4, fun _ => 0, 0⟩ 0
    (Or.inr rfl)).1.mpr ?_
  rintro ⟨k, -, hlast, -⟩
  exact hlast rfl

/-- The code is 100 and the status is 1.  At 102 it is 0, so 104 is tried, at which it is 1
again. -/
theorem correctCap_not_restored :
    ¬∀ (chip : PhyChip) (param : Nat) (m : ByteMem) (reading : CapReading)
      (readings : LockReadings) (mode : BitVec 32),
      read m (param + chip.special) 1 = 0 ∨ chip.byte mode = 0 →
      InStep (readCap reading)
        (correctCap chip clampCallback param m reading readings mode) := by
  intro h
  obtain ⟨code, hcode, heq⟩ := h .esp32s3 0 (fun _ => 0) ⟨100, 0⟩ ⟨4, fun _ => 0, 4⟩ 0 (by decide)
  have hlast : (correctCap .esp32s3 clampCallback 0 (fun _ => 0) ⟨100, 0⟩ ⟨4, fun _ => 0, 4⟩
      0).writes.getLast? = some 104 := by decide
  obtain rfl := Option.some.inj (hlast.symm.trans hcode)
  exact absurd heq (by decide)

end Correct

/-! ## Initialization -/

section Init

variable {initial : BitVec 32} {readings : Nat → Nat → BitVec 32} {pass : Nat}

/-- The PLL locks at the code number `i` of a pass. -/
def lockedAt (readings : Nat → Nat → BitVec 32) (pass i : Nat) : Bool :=
  lockStatus (readings pass i) = 0

/-- A pass does not stop before the code number `i`.  It stops at a code without lock after one
with lock, which may have been one of an earlier pass. -/
def Reaches (locked : Nat → Bool) (found : Prop) (i : Nat) : Prop :=
  ∀ j < i, locked j = true ∨ ¬found ∧ ∀ l ≤ j, locked l = false

theorem Reaches.mono {locked : Nat → Bool} {found : Prop} {i k : Nat}
    (h : Reaches locked found k) (hik : i ≤ k) : Reaches locked found i :=
  fun j hj => h j (Nat.lt_of_lt_of_le hj hik)

/-- The codes with lock among the first `n` of a pass. -/
def lockedCodes (initial : BitVec 32) (readings : Nat → Nat → BitVec 32) (pass n : Nat) :
    List (BitVec 16) :=
  ((List.range n).filter (lockedAt readings pass)).map (initCode initial pass)

theorem lockedCodes_succ (initial : BitVec 32) (readings : Nat → Nat → BitVec 32) (pass n : Nat) :
    lockedCodes initial readings pass (n + 1) = lockedCodes initial readings pass n ++
      if lockedAt readings pass n then [initCode initial pass n] else [] := by
  rw [lockedCodes, List.range_succ, List.filter_append, List.map_append, lockedCodes]
  cases hlocked : lockedAt readings pass n <;> simp [hlocked]

theorem lockedCodes_eq_nil_iff (n : Nat) :
    lockedCodes initial readings pass n = [] ↔ ∀ i < n, lockedAt readings pass i = false := by
  rw [lockedCodes, List.map_eq_nil_iff, List.filter_eq_nil_iff]
  simp

/-- The first `n` codes of a pass lead from `s` to `t`. -/
structure Tries (initial : BitVec 32) (readings : Nat → Nat → BitVec 32) (pass : Nat)
    (s : CapMean) (n : Nat) (t : CapMean) : Prop where
  writes : t.writes = s.writes ++ (List.range n).map fun i => (initCode initial pass i).setWidth 32
  sum : t.sum = s.sum + (lockedCodes initial readings pass n).sum
  count : t.count = s.count + (lockedCodes initial readings pass n).length

theorem Tries.step {s t : CapMean} {n : Nat} (h : Tries initial readings pass s n t) :
    Tries initial readings pass s (n + 1) (initTry initial readings pass t n).1 := by
  have hwrites : t.writes ++ [(initCode initial pass n).setWidth 32] =
      s.writes ++ (List.range (n + 1)).map fun i => (initCode initial pass i).setWidth 32 := by
    rw [h.writes, List.range_succ, List.map_append, List.append_assoc]
    rfl
  have hsucc := lockedCodes_succ initial readings pass n
  by_cases hlocked : lockStatus (readings pass n) = 0
  · have hat : lockedAt readings pass n = true := decide_eq_true hlocked
    rw [hat, if_pos rfl] at hsucc
    simp only [initTry, hlocked, if_true]
    refine ⟨hwrites, ?_, ?_⟩
    · rw [hsucc, List.sum_append, ← BitVec.add_assoc, ← h.sum]
      simp
    · rw [hsucc, List.length_append, ← Nat.add_assoc, ← h.count]
      rfl
  · have hat : lockedAt readings pass n = false := decide_eq_false hlocked
    rw [hat, if_neg Bool.false_ne_true, List.append_nil] at hsucc
    simp only [initTry, hlocked, if_false]
    exact ⟨hwrites, hsucc ▸ h.sum, hsucc ▸ h.count⟩

/-- Whether the pass goes on after the code number `n`. -/
theorem Tries.reaches_succ {s t : CapMean} {n : Nat} (h : Tries initial readings pass s n t)
    (hreach : Reaches (lockedAt readings pass) (s.count ≠ 0) n) :
    Reaches (lockedAt readings pass) (s.count ≠ 0) (n + 1) ↔
      (initTry initial readings pass t n).2 = false := by
  have hcount : t.count = 0 ↔ s.count = 0 ∧ ∀ i < n, lockedAt readings pass i = false := by
    rw [h.count, Nat.add_eq_zero_iff, List.length_eq_zero_iff, lockedCodes_eq_nil_iff]
  have hlast : Reaches (lockedAt readings pass) (s.count ≠ 0) (n + 1) ↔
      (lockedAt readings pass n = true ∨
        ¬s.count ≠ 0 ∧ ∀ l ≤ n, lockedAt readings pass l = false) := by
    refine ⟨fun hr => hr n (Nat.lt_succ_self n), fun hn j hj => ?_⟩
    rcases Nat.lt_succ_iff_lt_or_eq.mp hj with hlt | rfl
    · exact hreach j hlt
    · exact hn
  rw [hlast]
  by_cases hlocked : lockStatus (readings pass n) = 0
  · simp [initTry, hlocked, lockedAt]
  · have hat : lockedAt readings pass n = false := decide_eq_false hlocked
    simp only [initTry, hlocked, if_false, hat, Bool.false_eq_true, false_or, not_not,
      decide_eq_false_iff_not, ne_eq, hcount]
    refine and_congr_right fun _ => ⟨fun hall i hi => hall i (Nat.le_of_lt hi), fun hall l hl => ?_⟩
    rcases Nat.lt_or_eq_of_le hl with hlt | rfl
    · exact hall l hlt
    · exact hat

/-- A pass tries the codes that it reaches. -/
theorem initPass_spec (initial : BitVec 32) (readings : Nat → Nat → BitVec 32) (pass : Nat)
    (s : CapMean) :
    ∃ n ≤ 10, (∀ i < 10, Reaches (lockedAt readings pass) (s.count ≠ 0) i ↔ i < n) ∧
      Tries initial readings pass s n (initPass initial readings s pass) := by
  have hstart : Tries initial readings pass s 0 s ∧
      Reaches (lockedAt readings pass) (s.count ≠ 0) 0 :=
    ⟨⟨by simp, by simp [lockedCodes], by simp [lockedCodes]⟩, fun j hj => by omega⟩
  have hloop := Loop.forBreak_range (initTry initial readings pass)
    (fun k t => Tries initial readings pass s k t ∧
      Reaches (lockedAt readings pass) (s.count ≠ 0) k) 10 hstart
    fun k _ t ht hgo => ⟨ht.1.step, (ht.1.reaches_succ ht.2).mpr hgo⟩
  rcases hloop with ⟨htries, hreach⟩ | ⟨k, hk, t, ⟨htries, hreach⟩, hstop, heq⟩
  · exact ⟨10, Nat.le_refl 10, fun i hi => iff_of_true (hreach.mono (Nat.le_of_lt hi)) hi, htries⟩
  · refine ⟨k + 1, hk, fun i _ => ⟨fun hi' => ?_, fun hi' => ?_⟩, ?_⟩
    · by_contra hge
      have hgo := (htries.reaches_succ hreach).mp (hi'.mono (by omega))
      rw [hstop] at hgo
      cases hgo
    · exact hreach.mono (Nat.le_of_lt_succ hi')
    · rw [initPass, heq]
      exact htries.step

/-- The code number `i` of a pass is tried. -/
def Tried (readings : Nat → Nat → BitVec 32) : Nat → Nat → Prop
  | 0, i => i < 10 ∧ Reaches (lockedAt readings 0) False i
  | pass + 1, i =>
      i < 10 ∧ Reaches (lockedAt readings (pass + 1))
        (∃ l, Tried readings pass l ∧ lockedAt readings pass l = true) i

/-- The code number `i` of a pass, as a number. -/
def triedCode (initial : Nat) (pass i : Nat) : Int :=
  if pass = 0 then initial - i else initial + 1 + i

/-- The state after both passes. -/
theorem initPasses_spec (initial : BitVec 32) (readings : Nat → Nat → BitVec 32) :
    ∃ n₀ ≤ 10, ∃ n₁ ≤ 10, (∀ i, Tried readings 0 i ↔ i < n₀) ∧ (∀ i, Tried readings 1 i ↔ i < n₁) ∧
      ∃ s, Tries initial readings 0 { writes := [], sum := 0, count := 0 } n₀ s ∧
        Tries initial readings 1 s n₁ ((List.range 2).foldl (initPass initial readings)
          { writes := [], sum := 0, count := 0 }) := by
  obtain ⟨n₀, hn₀, htried₀, hs⟩ :=
    initPass_spec initial readings 0 { writes := [], sum := 0, count := 0 }
  obtain ⟨n₁, hn₁, htried₁, ht⟩ := initPass_spec initial readings 1
    (initPass initial readings { writes := [], sum := 0, count := 0 } 0)
  have hfirst : ∀ i, Tried readings 0 i ↔ i < n₀ := by
    intro i
    simp only [ne_eq, not_true] at htried₀
    exact ⟨fun h => (htried₀ i h.1).mp h.2, fun h => ⟨by omega, (htried₀ i (by omega)).mpr h⟩⟩
  have hfound : (initPass initial readings { writes := [], sum := 0, count := 0 } 0).count ≠ 0 ↔
      ∃ l, Tried readings 0 l ∧ lockedAt readings 0 l = true := by
    rw [hs.count, Nat.zero_add, Ne, List.length_eq_zero_iff, lockedCodes_eq_nil_iff]
    simp [hfirst]
  refine ⟨n₀, hn₀, n₁, hn₁, hfirst, fun i => ?_, _, hs, ht⟩
  rw [hfound] at htried₁
  exact ⟨fun h => (htried₁ i h.1).mp h.2, fun h => ⟨by omega, (htried₁ i (by omega)).mpr h⟩⟩

theorem initCode_toNat_le_iff (pass : Nat) (hinitial : initial.toNat ≤ 511) {i : Nat}
    (hi : i < 10) :
    ((initCode initial pass i).toNat ≤ 511 ↔
      0 ≤ triedCode initial.toNat pass i ∧ triedCode initial.toNat pass i ≤ 511) ∧
    ((initCode initial pass i).toNat ≤ 511 →
      ((initCode initial pass i).toNat : Int) = triedCode initial.toNat pass i) := by
  have hindex : (BitVec.ofNat 32 i).toNat = i := by
    rw [BitVec.toNat_ofNat]
    omega
  by_cases hpass : pass = 0
  · have hcode : (initCode initial pass i).toNat = (2 ^ 32 - i + initial.toNat) % 2 ^ 16 := by
      simp only [initCode, hpass, if_true, BitVec.toNat_setWidth, BitVec.toNat_sub, hindex]
      omega
    rw [hcode, triedCode, if_pos hpass]
    omega
  · have hone : (1 : BitVec 32).toNat = 1 := rfl
    have hcode : (initCode initial pass i).toNat = initial.toNat + 1 + i := by
      simp only [initCode, hpass, if_false, BitVec.toNat_setWidth, BitVec.toNat_add, hindex, hone]
      omega
    rw [hcode, triedCode, if_neg hpass]
    omega

theorem toNat_sum (l : List (BitVec 16)) : l.sum.toNat = (l.map BitVec.toNat).sum % 2 ^ 16 := by
  induction l with
  | nil => rfl
  | cons x l ih =>
      rw [List.sum_cons, BitVec.toNat_add, ih, List.map_cons, List.sum_cons, Nat.add_mod_mod]

/-- The mean lies between two members of the list. -/
theorem mean_between {l : List Nat} (hl : l ≠ []) :
    (∃ a ∈ l, a ≤ l.sum / l.length) ∧ ∃ b ∈ l, l.sum / l.length ≤ b := by
  have hpos : 0 < l.length := List.length_pos_iff.mpr hl
  constructor
  · have hlt : (l.map id).sum < (l.map fun _ => l.sum / l.length + 1).sum := by
      rw [List.map_id, List.map_const', List.sum_replicate_nat]
      exact Nat.lt_mul_div_succ l.sum hpos
    obtain ⟨a, ha, hle⟩ := List.exists_lt_of_sum_lt _ _ hlt
    exact ⟨a, ha, Nat.le_of_lt_succ hle⟩
  · have hle : (l.map fun _ => l.sum / l.length).sum ≤ (l.map id).sum := by
      rw [List.map_id, List.map_const', List.sum_replicate_nat]
      exact Nat.mul_div_le l.sum l.length
    obtain ⟨b, hb, hle⟩ := List.exists_le_of_sum_le hl _ _ hle
    exact ⟨b, hb, hle⟩

/-- The codes with lock are those that were tried. -/
theorem mem_lockedCodes {n : Nat} {code : BitVec 16} (htried : ∀ i, Tried readings pass i ↔ i < n) :
    code ∈ lockedCodes initial readings pass n ↔
      ∃ i, Tried readings pass i ∧ lockedAt readings pass i = true ∧
        initCode initial pass i = code := by
  simp [lockedCodes, htried, and_assoc]

/-- Every code that is tried is one of the register. -/
def CodesFit (initial : Nat) (readings : Nat → Nat → BitVec 32) : Prop :=
  ∀ pass < 2, ∀ i, Tried readings pass i →
    0 ≤ triedCode initial pass i ∧ triedCode initial pass i ≤ 511

/-- The PLL locked at this code. -/
def LockedCode (initial : Nat) (readings : Nat → Nat → BitVec 32) (code : Int) : Prop :=
  ∃ pass < 2, ∃ i, Tried readings pass i ∧ lockedAt readings pass i = true ∧
    triedCode initial pass i = code

/-- What `initCap` takes at the end. -/
def meanCode (initial : BitVec 32) (l : List (BitVec 16)) : BitVec 32 :=
  if l.length = 0 then initial else l.sum.setWidth 32 / BitVec.ofNat 32 l.length

theorem meanCode_toNat {l : List (BitVec 16)} (hl : l ≠ []) (hlength : l.length ≤ 20)
    (hsmall : ∀ x ∈ l, x.toNat ≤ 511) :
    (meanCode initial l).toNat = (l.map BitVec.toNat).sum / (l.map BitVec.toNat).length := by
  have hpos : 0 < l.length := List.length_pos_iff.mpr hl
  have hsum : (l.map BitVec.toNat).sum ≤ l.length * 511 := by
    have hle := List.sum_le_card_nsmul (l.map BitVec.toNat) 511 (by simpa using hsmall)
    simpa using hle
  have hword : (l.sum.setWidth 32).toNat = (l.map BitVec.toNat).sum := by
    rw [BitVec.toNat_setWidth, toNat_sum]
    omega
  have hcount : (BitVec.ofNat 32 l.length).toNat = l.length := by
    rw [BitVec.toNat_ofNat]
    omega
  rw [meanCode, if_neg (by omega), BitVec.toNat_udiv, hword, hcount, List.length_map]

/-- The codes with lock of both passes. -/
def allLocked (initial : BitVec 32) (readings : Nat → Nat → BitVec 32) (n₀ n₁ : Nat) :
    List (BitVec 16) :=
  lockedCodes initial readings 0 n₀ ++ lockedCodes initial readings 1 n₁

theorem initCap_eq (reading : CapReading) (readings : Nat → Nat → BitVec 32) :
    ∃ n₀ ≤ 10, ∃ n₁ ≤ 10, (∀ i, Tried readings 0 i ↔ i < n₀) ∧ (∀ i, Tried readings 1 i ↔ i < n₁) ∧
      let initial := readCap reading
      let cap := meanCode initial (allLocked initial readings n₀ n₁)
      initCap reading readings =
        ((List.range n₀).map (fun i => (initCode initial 0 i).setWidth 32) ++
          (List.range n₁).map (fun i => (initCode initial 1 i).setWidth 32) ++ [cap],
          initial <<< 16 ||| cap) := by
  obtain ⟨n₀, hn₀, n₁, hn₁, htried₀, htried₁, s, hs, ht⟩ :=
    initPasses_spec (readCap reading) readings
  refine ⟨n₀, hn₀, n₁, hn₁, htried₀, htried₁, ?_⟩
  have hzero : ∀ x : BitVec 16, 0 + x = x := fun x => BitVec.zero_add x
  simp only [initCap, ht.writes, ht.sum, ht.count, hs.writes, hs.sum, hs.count, meanCode, allLocked,
    List.length_append, List.sum_append, List.nil_append, Nat.zero_add, hzero]

theorem Tried.lt_ten {pass i : Nat} (h : Tried readings pass i) : i < 10 := by
  cases pass with
  | zero => exact h.1
  | succ pass => exact h.1

section Mean

variable {n₀ n₁ : Nat} (htried₀ : ∀ i, Tried readings 0 i ↔ i < n₀)
  (htried₁ : ∀ i, Tried readings 1 i ↔ i < n₁)

include htried₀ htried₁

theorem mem_allLocked (x : BitVec 16) :
    x ∈ allLocked initial readings n₀ n₁ ↔
      ∃ pass < 2, ∃ i, Tried readings pass i ∧ lockedAt readings pass i = true ∧
        initCode initial pass i = x := by
  rw [allLocked, List.mem_append, mem_lockedCodes htried₀, mem_lockedCodes htried₁]
  constructor
  · rintro (h | h)
    · exact ⟨0, by decide, h⟩
    · exact ⟨1, by decide, h⟩
  · rintro ⟨pass, hpass, h⟩
    obtain rfl | rfl : pass = 0 ∨ pass = 1 := by omega
    · exact Or.inl h
    · exact Or.inr h

theorem allLocked_code (hinitial : initial.toNat ≤ 511) (hfit : CodesFit initial.toNat readings)
    {x : BitVec 16} (hx : x ∈ allLocked initial readings n₀ n₁) :
    x.toNat ≤ 511 ∧ LockedCode initial.toNat readings x.toNat := by
  obtain ⟨pass, hpass, i, htried, hlocked, rfl⟩ := (mem_allLocked htried₀ htried₁ x).mp hx
  obtain ⟨hiff, hval⟩ := initCode_toNat_le_iff pass hinitial htried.lt_ten
  have hle := hiff.mpr (hfit pass hpass i htried)
  exact ⟨hle, pass, hpass, i, htried, hlocked, (hval hle).symm⟩

/-- The mean is a code of the register, between two codes with lock if there are any. -/
theorem meanCode_spec (hinitial : initial.toNat ≤ 511) (hn₀ : n₀ ≤ 10) (hn₁ : n₁ ≤ 10)
    (hfit : CodesFit initial.toNat readings) :
    let cap := meanCode initial (allLocked initial readings n₀ n₁)
    cap.toNat ≤ 511 ∧
      ((∃ a b, LockedCode initial.toNat readings a ∧ LockedCode initial.toNat readings b ∧
        a ≤ cap.toNat ∧ cap.toNat ≤ b) ∨
      (∀ a, ¬LockedCode initial.toNat readings a) ∧ cap = initial) := by
  intro cap
  let l := allLocked initial readings n₀ n₁
  have hcode : ∀ x ∈ l, x.toNat ≤ 511 ∧ LockedCode initial.toNat readings x.toNat :=
    fun x hx => allLocked_code htried₀ htried₁ hinitial hfit hx
  by_cases hnil : l = []
  · have hcap : cap = initial := by
      rw [show cap = meanCode initial l from rfl, hnil]
      rfl
    refine ⟨hcap ▸ hinitial, Or.inr ⟨?_, hcap⟩⟩
    rintro a ⟨pass, hpass, i, htried, hlocked, -⟩
    have hin : initCode initial pass i ∈ l :=
      (mem_allLocked htried₀ htried₁ _).mpr ⟨pass, hpass, i, htried, hlocked, rfl⟩
    rw [hnil] at hin
    cases hin
  · have hlength : l.length ≤ 20 := by
      have h0 := List.length_filter_le (lockedAt readings 0) (List.range n₀)
      have h1 := List.length_filter_le (lockedAt readings 1) (List.range n₁)
      simp only [l, allLocked, lockedCodes, List.length_append, List.length_map]
      simp only [List.length_range] at h0 h1
      omega
    have hcap : cap.toNat = (l.map BitVec.toNat).sum / (l.map BitVec.toNat).length :=
      meanCode_toNat hnil hlength fun x hx => (hcode x hx).1
    have hne : l.map BitVec.toNat ≠ [] := mt List.map_eq_nil_iff.mp hnil
    obtain ⟨⟨a, ha, hlow⟩, b, hb, hhigh⟩ := mean_between hne
    obtain ⟨x, hx, rfl⟩ := List.mem_map.mp ha
    obtain ⟨y, hy, rfl⟩ := List.mem_map.mp hb
    rw [← hcap] at hlow hhigh
    have hy511 := (hcode y hy).1
    exact ⟨by omega, Or.inl ⟨x.toNat, y.toNat, (hcode x hx).2, (hcode y hy).2, by omega, by omega⟩⟩

end Mean

/-- The codes of one pass. -/
theorem pass_codes_iff (hinitial : initial.toNat ≤ 511) {n : Nat}
    (htried : ∀ i, Tried readings pass i ↔ i < n) :
    (∀ code ∈ (List.range n).map fun i => (initCode initial pass i).setWidth 32,
      code.toNat ≤ 511) ↔
    ∀ i, Tried readings pass i →
      0 ≤ triedCode initial.toNat pass i ∧ triedCode initial.toNat pass i ≤ 511 := by
  have hwidth : ∀ i, ((initCode initial pass i).setWidth 32).toNat =
      (initCode initial pass i).toNat := fun i => BitVec.toNat_setWidth_of_le (by decide)
  simp only [List.forall_mem_map, List.mem_range, hwidth]
  refine forall_congr' fun i => ?_
  rw [← htried i]
  exact imp_congr_right fun hi => (initCode_toNat_le_iff pass hinitial hi.lt_ten).1

theorem codesFit_iff (initial : Nat) (readings : Nat → Nat → BitVec 32) :
    CodesFit initial readings ↔
      (∀ i, Tried readings 0 i → 0 ≤ triedCode initial 0 i ∧ triedCode initial 0 i ≤ 511) ∧
      ∀ i, Tried readings 1 i → 0 ≤ triedCode initial 1 i ∧ triedCode initial 1 i ≤ 511 := by
  refine ⟨fun h => ⟨h 0 (by decide), h 1 (by decide)⟩, fun h pass hpass => ?_⟩
  obtain rfl | rfl : pass = 0 ∨ pass = 1 := by omega
  · exact h.1
  · exact h.2

/-- A pass stops before the code number `n`: there is a code without lock after one with lock,
which may have been one of an earlier pass. -/
def StopsBefore (locked : Nat → Bool) (found : Prop) (n : Nat) : Prop :=
  ∃ j < n, locked j = false ∧ (found ∨ ∃ l < j, locked l = true)

/-- Each pass starts far enough from the end of the codes, or stops before it gets there. -/
structure StaysInRange (initial : Nat) (readings : Nat → Nat → BitVec 32) : Prop where
  down : 9 ≤ initial ∨ StopsBefore (lockedAt readings 0) False (initial + 1)
  up : initial ≤ 501 ∨ StopsBefore (lockedAt readings 1)
    (∃ l < 10, lockedAt readings 0 l = true) (511 - initial)

theorem not_reaches_iff {locked : Nat → Bool} {found : Prop} {n : Nat} :
    ¬Reaches locked found n ↔ StopsBefore locked found n := by
  constructor
  · intro hnot
    simp only [Reaches, not_forall, not_or, not_and_or, not_not, Bool.not_eq_true] at hnot
    obtain ⟨j, hj, hunlocked, hfound⟩ := hnot
    refine ⟨j, hj, hunlocked, hfound.imp_right ?_⟩
    rintro ⟨l, hl, hlocked⟩
    have hlock : locked l = true := Bool.eq_true_of_not_eq_false hlocked
    have hne : l ≠ j := fun heq => hlocked (heq ▸ hunlocked)
    exact ⟨l, by omega, hlock⟩
  · rintro ⟨j, hj, hunlocked, hfound⟩ hreach
    rcases hreach j hj with hlocked | ⟨hnone, hbefore⟩
    · exact absurd (hunlocked.symm.trans hlocked) Bool.false_ne_true
    · rcases hfound with hfound | ⟨l, hl, hlocked⟩
      · exact hnone hfound
      · exact absurd ((hbefore l (Nat.le_of_lt hl)).symm.trans hlocked) Bool.false_ne_true

/-- The codes of a pass are all before the code number `n`. -/
theorem reached_lt_iff (locked : Nat → Bool) (found : Prop) (n : Nat) :
    (∀ i < 10, Reaches locked found i → i < n) ↔ 10 ≤ n ∨ StopsBefore locked found n := by
  rw [← not_reaches_iff]
  constructor
  · intro hall
    by_cases hn : 10 ≤ n
    · exact .inl hn
    · exact .inr fun hreach => Nat.lt_irrefl n (hall n (by omega) hreach)
  · rintro (hn | hnot) i hi hreach
    · omega
    · by_contra hge
      exact hnot (hreach.mono (by omega))

/-- The first code with lock is always reached. -/
theorem found_iff (readings : Nat → Nat → BitVec 32) :
    (∃ l, Tried readings 0 l ∧ lockedAt readings 0 l = true) ↔
      ∃ l < 10, lockedAt readings 0 l = true := by
  constructor
  · rintro ⟨l, htried, hlocked⟩
    exact ⟨l, htried.1, hlocked⟩
  · intro hfound
    obtain ⟨hlt, hlocked⟩ := Nat.find_spec hfound
    refine ⟨Nat.find hfound, ⟨hlt, fun j hj => .inr ⟨id, fun l hl => ?_⟩⟩, hlocked⟩
    have hmin := Nat.find_min hfound (Nat.lt_of_le_of_lt hl hj)
    exact Bool.eq_false_of_not_eq_true fun hlock => hmin ⟨by omega, hlock⟩

theorem codesFit_iff_staysInRange {initial : Nat} (readings : Nat → Nat → BitVec 32)
    (hinitial : initial ≤ 511) :
    CodesFit initial readings ↔ StaysInRange initial readings := by
  have hdown : (∀ i, Tried readings 0 i →
      0 ≤ triedCode initial 0 i ∧ triedCode initial 0 i ≤ 511) ↔
        (9 ≤ initial ∨ StopsBefore (lockedAt readings 0) False (initial + 1)) := by
    have hiff := reached_lt_iff (lockedAt readings 0) False (initial + 1)
    rw [Nat.succ_le_succ_iff] at hiff
    rw [← hiff]
    refine forall_congr' fun i => and_imp.trans ?_
    refine imp_congr_right fun _ => imp_congr_right fun _ => ?_
    rw [triedCode, if_pos rfl]
    omega
  have hup : (∀ i, Tried readings 1 i →
      0 ≤ triedCode initial 1 i ∧ triedCode initial 1 i ≤ 511) ↔
        (initial ≤ 501 ∨ StopsBefore (lockedAt readings 1)
          (∃ l < 10, lockedAt readings 0 l = true) (511 - initial)) := by
    have hiff := reached_lt_iff (lockedAt readings 1)
      (∃ l < 10, lockedAt readings 0 l = true) (511 - initial)
    have hten : 10 ≤ 511 - initial ↔ initial ≤ 501 := by omega
    rw [← hten, ← hiff, ← found_iff]
    refine forall_congr' fun i => and_imp.trans ?_
    refine imp_congr_right fun _ => imp_congr_right fun _ => ?_
    rw [triedCode, if_neg Nat.one_ne_zero]
    omega
  rw [codesFit_iff, hdown, hup]
  exact ⟨fun h => ⟨h.1, h.2⟩, fun h => ⟨h.down, h.up⟩⟩

/-- The codes that `initCap` writes are codes of the register if and only if the first pass
starts at 9 or above or stops in time, and the second starts at 501 or below or stops in time.
Then the last code lies between two codes at which the PLL locked, or is the initial one, and the
result holds it and the initial code.  From 9 to 501 this does not depend on the lock. -/
theorem initCap_codes (reading : CapReading) (readings : Nat → Nat → BitVec 32) :
    let initial := readCap reading
    let run := initCap reading readings
    ((∀ code ∈ run.1, code.toNat ≤ 511) ↔ StaysInRange initial.toNat readings) ∧
    (StaysInRange initial.toNat readings → ∃ cap, run.1.getLast? = some cap ∧
      ((∃ a b, LockedCode initial.toNat readings a ∧ LockedCode initial.toNat readings b ∧
        a ≤ cap.toNat ∧ cap.toNat ≤ b) ∨
      (∀ a, ¬LockedCode initial.toNat readings a) ∧ cap = initial) ∧
      run.2.toNat = initial.toNat * 65536 + cap.toNat) ∧
    (9 ≤ initial.toNat → initial.toNat ≤ 501 → ∀ code ∈ run.1, code.toNat ≤ 511) := by
  intro initial run
  have hinitial : initial.toNat ≤ 511 := readCap_le reading
  have hrange := codesFit_iff_staysInRange readings hinitial
  obtain ⟨n₀, hn₀, n₁, hn₁, htried₀, htried₁, heq⟩ := initCap_eq reading readings
  let cap := meanCode initial (allLocked initial readings n₀ n₁)
  have hcodes : (∀ code ∈ run.1, code.toNat ≤ 511) ↔ StaysInRange initial.toNat readings := by
    have hfirst := pass_codes_iff hinitial htried₀
    have hsecond := pass_codes_iff hinitial htried₁
    rw [show run = _ from heq, ← hrange, codesFit_iff, ← hfirst, ← hsecond]
    simp only [List.forall_mem_append, List.forall_mem_singleton]
    refine ⟨fun h => h.1, fun h => ⟨h, ?_⟩⟩
    have hfit := (codesFit_iff _ _).mpr ⟨hfirst.mp h.1, hsecond.mp h.2⟩
    exact (meanCode_spec htried₀ htried₁ hinitial hn₀ hn₁ hfit).1
  refine ⟨hcodes, fun hstays => ?_, fun hlow hhigh => hcodes.mpr ⟨.inl hlow, .inl hhigh⟩⟩
  obtain ⟨hcap, hbetween⟩ :=
    meanCode_spec htried₀ htried₁ hinitial hn₀ hn₁ (hrange.mpr hstays)
  rw [show run = _ from heq]
  refine ⟨cap, List.getLast?_concat, hbetween, ?_⟩
  have hword := Register.toNat_or_shiftLeft (a := cap) (b := initial) (n := 16)
    (Nat.lt_of_le_of_lt hcap (by decide)) (by omega)
  show (initial <<< 16 ||| cap).toNat = _
  rw [BitVec.or_comm, hword, Nat.add_comm]
  rfl

/-- The code is 0 and the PLL is always locked.  The second code tried is `0xffff`. -/
theorem initCap_wraps :
    ¬∀ (reading : CapReading) (readings : Nat → Nat → BitVec 32),
      ∀ code ∈ (initCap reading readings).1, code.toNat ≤ 511 := by
  intro h
  have hmem : 0xffff ∈ (initCap ⟨0, 0⟩ fun _ _ => 0).1 := by decide
  exact absurd (h ⟨0, 0⟩ (fun _ _ => 0) 0xffff hmem) (by decide)

end Init

end EspWifiHal
