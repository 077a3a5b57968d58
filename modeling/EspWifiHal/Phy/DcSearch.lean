import EspWifiHal.Phy.Init
import EspWifiHal.Lib.Loop
import EspWifiHal.Lib.Register
import EspWifiHal.Lib.Signed

/-!
# The searches for the DC offset

The receiver has two coefficients of nine bits in each of two banks that cancel its DC offset.
`general` looks for both banks one after the other, and `one_step` for one of them.  A search
stores a pair, forces it on the bus, measures the offset and corrects the pair.  It ends when
the offset is small or when its attempts are used up, and `one_step` reports which.

The measurements are arbitrary.  `dc_searches_measured` says that the pair which a search leaves
behind is the one that it has measured last, that all coefficients have nine bits, and that
`one_step` reports a success only for what was measured.
-/

namespace EspWifiHal

open Signed

/-! ## The bus -/

/-- What a search does to the coefficients, and by how much it shifts. -/
inductive DcEvent where
  | store (place : Nat) (value : BitVec 16)
  | force (block bank : Nat) (value : BitVec 32)
  | estimate
  | shift (amount : Nat)
deriving DecidableEq, Repr

/-- The coefficients in memory, by their place, and on the bus, by their block and bank. -/
structure DcBus where
  stored : Nat → BitVec 16
  forced : Nat → Nat → BitVec 32
  /-- What was forced during the last estimate. -/
  measured : Nat → Nat → BitVec 32
  events : List DcEvent

namespace DcBus

def store (place : Nat) (value : BitVec 16) (b : DcBus) : DcBus :=
  { b with
    stored := Function.update b.stored place value
    events := b.events ++ [.store place value] }

def force (block bank : Nat) (value : BitVec 32) (b : DcBus) : DcBus :=
  { b with
    forced := Function.update b.forced block (Function.update (b.forced block) bank value)
    events := b.events ++ [.force block bank value] }

def estimate (b : DcBus) : DcBus :=
  { b with
    measured := b.forced
    events := b.events ++ [.estimate] }

def shift (amount : Nat) (b : DcBus) : DcBus := { b with events := b.events ++ [.shift amount] }

end DcBus

/-! ## `general` -/

/-- What `general` reads: the gain state, the coarse gains and the estimates of each phase. -/
structure GeneralReadings where
  state : BitVec 32
  coarse : BitVec 32 → BitVec 32
  estimate : Nat → Nat → BitVec 32 × BitVec 32

structure GeneralState where
  current : Int × Int
  previous : BitVec 32 × BitVec 32
  bus : DcBus

namespace GeneralReadings

variable (g : GeneralReadings)

def low : Nat := (g.state &&& 15).cpop.toNat

def total : Nat := (g.state &&& 63).cpop.toNat

def index : BitVec 32 := (g.state >>> 6) &&& 255

def fineShift : Nat := (if g.low = 0 then 4 else g.low + 5) + 2

def threshold (phase : Nat) : Int :=
  if phase = 0 then (if g.total > 2 then 15 else 5) else (if g.total > 3 then 5 else 2)

end GeneralReadings

def generalBudget (phase : Nat) : Nat := if phase = 0 then 12 else 4

/-- Store and force one coefficient of a phase. -/
def placeCoefficient (phase i : Nat) (current : Int) (b : DcBus) : DcBus :=
  let value := BitVec.ofInt 16 ((current + 1) >>> (1 : Nat))
  (b.store (phase * 2 + i) value).force (2 + i) (phase + 1) (value.setWidth 32)

section General

variable (absolute : Int → Int) (g : GeneralReadings)

/-- The amount of the first phase, the shift and the correction. -/
def generalDelta (phase amount : Nat) (x previous : BitVec 32) : Nat × Nat × Int :=
  if phase ≠ 0 then
    (amount, g.fineShift, i32 (x.toInt * 280) >>> (g.fineShift % 32))
  else
    let distance := absolute (x - previous).toInt
    let scaled := (i32 (x.toInt * 3)).tdiv 2
    let amount := if absolute scaled < distance then (amount + 1) % 256 else amount
    (amount, amount + 2, (g.coarse g.index * x * 6).toInt >>> ((amount + 2) % 32))

def generalUpdate (phase amount : Nat) (current : Int) (x previous : BitVec 32) (b : DcBus) :
    Nat × Int × DcBus :=
  if absolute x.toInt > g.threshold phase then
    let delta := generalDelta absolute g phase amount x previous
    (delta.1, i16 (i32 (current - delta.2.2)), b.shift delta.2.1)
  else
    (amount, current, b)

/-- `clamp(0, 1022)` -/
def clampDouble (z : Int) : Int := max 0 (min 1022 z)

/-- The two coefficients of a phase, and the estimate with them. -/
def generalMeasure (phase : Nat) (s : GeneralState) : DcBus :=
  (placeCoefficient phase 1 s.current.2 (placeCoefficient phase 0 s.current.1 s.bus)).estimate

def generalAttempt (phase : Nat) (s : GeneralState) (attempt : Nat) : GeneralState × Bool :=
  let bus := generalMeasure phase s
  let x := g.estimate phase attempt
  if absolute x.1.toInt ≤ g.threshold phase ∧ absolute x.2.toInt ≤ g.threshold phase then
    ({ s with bus := bus }, true)
  else
    let previous := if attempt = 0 then x else s.previous
    let first :=
      generalUpdate absolute g phase (g.total + 6) s.current.1 x.1 previous.1 bus
    let second :=
      generalUpdate absolute g phase first.1 s.current.2 x.2 previous.2 first.2.2
    ({ current := (clampDouble first.2.1, clampDouble second.2.1)
       previous := x
       bus := second.2.2 }, false)

def generalPhase (phase : Nat) (s : GeneralState) : GeneralState :=
  Loop.forBreak (generalAttempt absolute g phase) (List.range (generalBudget phase))
    { s with
      current := if phase = 0 then s.current else (512, 512)
      previous := (0, 0) }

def general (b : DcBus) : GeneralState :=
  let b := (b.force 2 2 256).force 3 2 256
  let current := (i16 ((b.stored 0).toInt * 2), i16 ((b.stored 1).toInt * 2))
  generalPhase absolute g 1 (generalPhase absolute g 0 ⟨current, (0, 0), b⟩)

end General

/-! ## `minimum` -/

/-- Three words of the estimator. -/
structure DcEstimate where
  x : BitVec 32
  y : BitVec 32
  score : BitVec 32
deriving DecidableEq, Repr

/-- What `minimum` reads in each attempt.  The gate and the selector are bytes of the parameters. -/
structure MinimumReadings where
  estimate : Nat → DcEstimate
  gate : Nat → BitVec 32
  selector : Nat → BitVec 32

structure MinimumState where
  best : Int
  output : DcEstimate
  /-- The function has returned from its loop. -/
  returned : Bool
deriving DecidableEq, Repr

/-- Take the estimate of an attempt, if it is better and the gate is open. -/
def minimumTake (r : MinimumReadings) (s : MinimumState) (attempt : Nat) : MinimumState :=
  let e := r.estimate attempt
  if e.score.toInt < s.best ∧ (r.gate attempt = 0 ∨ r.selector attempt = 1) then
    { s with best := e.score.toInt, output := e }
  else
    s

def minimumAttempt (r : MinimumReadings) (s : MinimumState) (attempt : Nat) :
    MinimumState × Bool :=
  let s := minimumTake r s attempt
  if s.best ≤ 35 ∨ (s.best ≤ 47 ∧ attempt ≥ 2) then ({ s with returned := true }, true)
  else (s, false)

/-- The result when no estimate is good enough. -/
def minimumFallback : DcEstimate := ⟨0, 0, 56⟩

def minimum (r : MinimumReadings) (output : DcEstimate) : MinimumState :=
  let s := Loop.forBreak (minimumAttempt r) (List.range 8) ⟨100, output, false⟩
  if s.returned then s else { s with output := minimumFallback }

/-! ## `one_step` -/

structure OneStepArgs where
  policy : BitVec 32
  mode : BitVec 32
  /-- The gain state and the register that turns on the limit. -/
  state : BitVec 32
  backup : BitVec 32
  /-- The readings of the first and of the second `minimum` of each iteration. -/
  readings : Nat → MinimumReadings
  setReadings : Nat → MinimumReadings
  /-- The limit callback, for each iteration and coefficient. -/
  limit : Nat → Nat → Int → Int

/-- A measurement: the pair that was forced and the offset that was found. -/
structure DcMeasurement where
  pair : BitVec 32 × BitVec 32
  x : Int
  y : Int
  score : Int
deriving DecidableEq, Repr

structure OneStepState where
  first : Int
  second : Int
  bus : DcBus
  output : DcEstimate
  zero : DcEstimate
  set : DcEstimate
  status : BitVec 8
  last : Option DcMeasurement
  iterations : Nat

/-- `clamp(0, 511)` -/
def clampCoefficient511 (z : Int) : Int := max 0 (min 511 z)

section OneStep

variable (absolute : Int → Int) (chip : PhyChip) (a : OneStepArgs)

def OneStepArgs.gain : Nat := (a.state.setWidth 8 &&& 63).cpop.toNat

def oneStepThreshold : Int :=
  if chip.byte a.mode = 1 then max ((a.gain - 1 : Nat) : Int) 1
  else if chip.byte a.policy ≠ 0 then (match chip with | .esp32s3 => 10 | .esp32c3 => 6)
  else 1

def oneStepBank : Nat := if chip.byte a.mode = 1 then 2 else 1

def oneStepBudget : Nat := if chip.byte a.mode = 1 then 8 else 16

/-- Store the pair, force it and measure. -/
def oneStepPlace (s : OneStepState) : DcBus :=
  let bank := oneStepBank chip a
  let b := (s.bus.store 0 (BitVec.ofInt 16 s.first)).store 1 (BitVec.ofInt 16 s.second)
  let b := b.force 2 bank ((BitVec.ofInt 16 s.first).setWidth 32)
  b.force 3 bank ((b.stored 1).setWidth 32)

/-- The measurement of mode 1, and the one of the other modes, which is the difference of two.
With it comes the shift of the correction. -/
def oneStepMeasure (s : OneStepState) : OneStepState × DcMeasurement × Nat :=
  let b := oneStepPlace chip a s
  if chip.byte a.mode = 1 then
    let b := b.estimate
    let m := minimum (a.readings s.iterations) s.output
    let last : DcMeasurement :=
      ⟨(b.measured 2 (oneStepBank chip a), b.measured 3 (oneStepBank chip a)),
        m.output.x.toInt, m.output.y.toInt, m.output.score.toInt⟩
    ({ s with
      bus := b, output := m.output, last := some last, iterations := s.iterations + 1 }, last,
      a.gain - 1)
  else
    let b := (b.force 1 2 0).estimate
    let zero := minimum (a.readings s.iterations) s.zero
    let b := (b.force 1 2 32).estimate
    let set := minimum (a.setReadings s.iterations) s.set
    let dx := set.output.x - zero.output.x
    let dy := set.output.y - zero.output.y
    let score := max zero.output.score.toInt set.output.score.toInt
    let last : DcMeasurement :=
      ⟨(b.measured 2 (oneStepBank chip a), b.measured 3 (oneStepBank chip a)),
        dx.toInt, dy.toInt, score⟩
    ({ s with
      bus := b, output := { s.output with x := dx, y := dy }, zero := zero.output
      set := set.output, last := some last, iterations := s.iterations + 1 }, last,
      if chip.byte a.policy ≠ 0 then 3 else if absolute dx.toInt < 5 then 1 else 0)

/-- The correction of one coefficient. -/
def oneStepChange (threshold : Int) (amount : Nat) (x zero : BitVec 32) : Int :=
  let change := if absolute x.toInt ≥ threshold then i16 (x.toInt >>> (amount % 32)) else 0
  if change = 0 then
    if absolute zero.toInt > 49 then i16 (zero.toInt >>> (amount % 32)) else x.toInt.sign
  else
    change

/-- The corrections of both, which the other modes drop or limit. -/
def oneStepChanges (s : OneStepState) (score : Int) (amount iteration : Nat) : Int × Int :=
  let threshold := oneStepThreshold chip a
  let changes := (oneStepChange absolute threshold amount s.output.x s.zero.x,
    oneStepChange absolute threshold amount s.output.y s.zero.y)
  if chip.byte a.mode ≠ 1 then
    let changes := if score > 44 then (0, 0) else changes
    if a.backup.toNat > 436 then
      (i16 (a.limit iteration 0 changes.1), i16 (a.limit iteration 1 changes.2))
    else
      changes
  else
    changes

def oneStepAttempt (s : OneStepState) (iteration : Nat) : OneStepState × Bool :=
  let threshold := oneStepThreshold chip a
  let measured := oneStepMeasure absolute chip a s
  let t := measured.1
  let score := measured.2.1.score
  let x := t.output.x.toInt
  let y := t.output.y.toInt
  let changes := oneStepChanges absolute chip a t score measured.2.2 iteration
  if absolute x ≤ threshold ∧ absolute y ≤ threshold ∧ score ≤ 45 then
    ({ t with status := 1 }, true)
  else
    let first := if absolute x > threshold then i16 (u16 t.first - changes.1) else t.first
    let second := if absolute y > threshold then i16 (i32 (t.second - changes.2)) else t.second
    ({ t with first := clampCoefficient511 first, second := clampCoefficient511 second }, false)

/-- Bring a stored coefficient into its range. -/
def settleStored (i : Nat) (b : DcBus) : DcBus :=
  let value := (b.stored i).toInt
  if 0 ≤ value ∧ value ≤ 511 then b
  else b.store i (BitVec.ofInt 16 (clampCoefficient511 value))

def forceStored (bank i : Nat) (b : DcBus) : DcBus :=
  b.force (2 + i) bank ((b.stored i).setWidth 32)

def oneStepFinish (b : DcBus) : DcBus :=
  let bank := oneStepBank chip a
  forceStored bank 1 (forceStored bank 0 (settleStored 1 (settleStored 0 b)))

def OneStepState.start (b : DcBus) (output : DcEstimate) : OneStepState :=
  { first := (b.stored 0).toInt, second := (b.stored 1).toInt, bus := b, output := output
    zero := ⟨0, 0, 0⟩, set := ⟨0, 0, 0⟩, status := 0, last := none, iterations := 0 }

def oneStepLoop (s : OneStepState) : OneStepState :=
  Loop.forBreak (oneStepAttempt absolute chip a) (List.range (oneStepBudget chip a)) s

def oneStep (b : DcBus) (output : DcEstimate) : OneStepState :=
  let s := oneStepLoop absolute chip a (.start b output)
  { s with bus := oneStepFinish chip a s.bus }

end OneStep

/-! ## What the bus keeps -/

/-- A coefficient has nine bits, and no shift reaches the width of a word. -/
def DcEvent.InRange : DcEvent → Prop
  | .store _ value => value.toNat ≤ 511
  -- the coefficients are in the blocks 2 and 3
  | .force block _ value => block = 2 ∨ block = 3 → value.toNat ≤ 511
  | .estimate => True
  | .shift amount => amount < 32

namespace DcBus

def InRange (b : DcBus) : Prop := ∀ e ∈ b.events, e.InRange

def estimates (b : DcBus) : Nat := b.events.count .estimate

variable {b : DcBus}

theorem inRange_append {e : DcEvent} (h : b.InRange) (he : e.InRange) :
    ∀ e' ∈ b.events ++ [e], e'.InRange := by
  intro e' hmem
  rcases List.mem_append.mp hmem with hold | hnew
  · exact h e' hold
  · rw [List.mem_singleton.mp hnew]
    exact he

theorem InRange.store (h : b.InRange) (place : Nat) {value : BitVec 16} (hv : value.toNat ≤ 511) :
    (b.store place value).InRange :=
  inRange_append h hv

theorem InRange.force (h : b.InRange) (block bank : Nat) {value : BitVec 32}
    (hv : block = 2 ∨ block = 3 → value.toNat ≤ 511) : (b.force block bank value).InRange :=
  inRange_append h hv

theorem InRange.estimate (h : b.InRange) : b.estimate.InRange := inRange_append h trivial

theorem InRange.shift (h : b.InRange) {amount : Nat} (hs : amount < 32) :
    (b.shift amount).InRange :=
  inRange_append h hs

@[simp] theorem estimates_store (place : Nat) (value : BitVec 16) :
    (b.store place value).estimates = b.estimates := by
  simp [estimates, store]

@[simp] theorem estimates_force (block bank : Nat) (value : BitVec 32) :
    (b.force block bank value).estimates = b.estimates := by
  simp [estimates, force]

@[simp] theorem estimates_estimate : b.estimate.estimates = b.estimates + 1 := by
  simp [estimates, estimate]

@[simp] theorem estimates_shift (amount : Nat) : (b.shift amount).estimates = b.estimates := by
  simp [estimates, shift]

@[simp] theorem stored_store (place place' : Nat) (value : BitVec 16) :
    (b.store place value).stored place' = if place' = place then value else b.stored place' :=
  Function.update_apply ..

@[simp] theorem forced_force (block bank block' bank' : Nat) (value : BitVec 32) :
    (b.force block bank value).forced block' bank' =
      if block' = block ∧ bank' = bank then value else b.forced block' bank' := by
  by_cases hblock : block' = block
  · subst hblock
    simp [force, Function.update_apply]
  · simp [force, hblock]

@[simp] theorem forced_store (place : Nat) (value : BitVec 16) :
    (b.store place value).forced = b.forced := rfl

@[simp] theorem stored_force (block bank : Nat) (value : BitVec 32) :
    (b.force block bank value).stored = b.stored := rfl

/-- The coefficient at a place is the one on the bus. -/
def Forced (b : DcBus) (place block bank : Nat) : Prop :=
  b.forced block bank = (b.stored place).setWidth 32

/-- The coefficient at a place is the one on the bus, now and in the last estimate. -/
structure Settled (b : DcBus) (place block bank : Nat) : Prop where
  forced : b.Forced place block bank
  measured : b.measured block bank = (b.stored place).setWidth 32

theorem settled_estimate {place block bank : Nat} (h : b.Forced place block bank) :
    b.estimate.Settled place block bank :=
  ⟨h, h⟩

theorem Settled.shift {place block bank : Nat} (h : b.Settled place block bank) (amount : Nat) :
    (b.shift amount).Settled place block bank :=
  ⟨h.forced, h.measured⟩

end DcBus

/-! ## The run of `general` -/

section GeneralRun

variable (absolute : Int → Int) (g : GeneralReadings)

theorem fineShift_lt : g.fineShift < 32 := by
  have hlow : g.low ≤ 4 := Register.toNat_cpop_and_mask_le 4 rfl
  rw [GeneralReadings.fineShift]
  split
  · decide
  · omega

theorem total_le : g.total ≤ 6 := Register.toNat_cpop_and_mask_le 6 rfl

theorem generalDelta_amount (phase amount : Nat) (x previous : BitVec 32) :
    (generalDelta absolute g phase amount x previous).1 ≤ amount + 1 := by
  rw [generalDelta]
  split
  · exact Nat.le_succ amount
  · dsimp only
    split
    · exact Nat.mod_le _ _
    · exact Nat.le_succ amount

theorem generalDelta_shift (phase : Nat) {amount : Nat} (hamount : amount ≤ 20)
    (x previous : BitVec 32) :
    (generalDelta absolute g phase amount x previous).2.1 < 32 := by
  have hle := generalDelta_amount absolute g phase amount x previous
  rw [generalDelta] at hle ⊢
  split
  · exact fineShift_lt g
  · rename_i hphase
    rw [if_neg hphase] at hle
    dsimp only at hle ⊢
    omega

/-- An update of a coefficient shifts at most once and leaves the rest of the bus alone. -/
theorem generalUpdate_bus (phase : Nat) {amount : Nat} (hamount : amount ≤ 20) (current : Int)
    (x previous : BitVec 32) (b : DcBus) :
    let next := generalUpdate absolute g phase amount current x previous b
    next.1 ≤ amount + 1 ∧ (next.2.2 = b ∨ ∃ k < 32, next.2.2 = b.shift k) := by
  intro next
  simp only [next, generalUpdate]
  split
  · have hshift := generalDelta_shift absolute g phase hamount x previous
    exact ⟨generalDelta_amount .., Or.inr ⟨_, hshift, rfl⟩⟩
  · exact ⟨Nat.le_succ amount, Or.inl rfl⟩

theorem generalUpdate_keeps (phase : Nat) {amount : Nat} (hamount : amount ≤ 20) (current : Int)
    (x previous : BitVec 32) {b : DcBus} (hrange : b.InRange) :
    let next := generalUpdate absolute g phase amount current x previous b
    next.2.2.InRange ∧ next.2.2.estimates = b.estimates ∧
      ∀ place block bank, b.Settled place block bank → next.2.2.Settled place block bank := by
  intro next
  obtain ⟨-, hsame | ⟨k, hk, hshift⟩⟩ :=
    generalUpdate_bus absolute g phase hamount current x previous b
  · rw [show next.2.2 = b from hsame]
    exact ⟨hrange, rfl, fun _ _ _ h => h⟩
  · rw [show next.2.2 = b.shift k from hshift]
    exact ⟨hrange.shift hk, b.estimates_shift k, fun _ _ _ h => h.shift k⟩

/-- Twice a coefficient of nine bits. -/
def InDouble (z : Int) : Prop := 0 ≤ z ∧ z ≤ 1022

theorem inDouble_clamp (z : Int) : InDouble (clampDouble z) := by
  rw [InDouble, clampDouble]
  omega

theorem toNat_half_le {z : Int} (h : InDouble z) :
    (BitVec.ofInt 16 ((z + 1) >>> (1 : Nat))).toNat ≤ 511 := by
  obtain ⟨hlow, hhigh⟩ := h
  rw [BitVec.toNat_ofInt, Int.shiftRight_eq_div_pow]
  omega

theorem placeCoefficient_inRange {phase i : Nat} {z : Int} (hz : InDouble z) {b : DcBus}
    (h : b.InRange) : (placeCoefficient phase i z b).InRange := by
  have hvalue := toNat_half_le hz
  refine (h.store _ hvalue).force _ _ fun _ => ?_
  rw [BitVec.toNat_setWidth_of_le (by decide)]
  exact hvalue

/-- The pair of a phase is on the bus. -/
def PairForced (b : DcBus) (phase : Nat) : Prop :=
  ∀ i < 2, b.Forced (phase * 2 + i) (2 + i) (phase + 1)

/-- The pair of a phase is on the bus, and was there in the last estimate. -/
def PairSettled (b : DcBus) (phase : Nat) : Prop :=
  ∀ i < 2, b.Settled (phase * 2 + i) (2 + i) (phase + 1)

theorem placeCoefficient_forced (phase i : Nat) (z : Int) (b : DcBus) :
    (placeCoefficient phase i z b).Forced (phase * 2 + i) (2 + i) (phase + 1) := by
  simp [placeCoefficient, DcBus.Forced]

/-- The other coefficients stay where they are. -/
theorem placeCoefficient_other {phase i phase' i' : Nat} (z : Int) {b : DcBus} (hi : i < 2)
    (hi' : i' < 2) (hne : phase' ≠ phase ∨ i' ≠ i)
    (h : b.Forced (phase' * 2 + i') (2 + i') (phase' + 1)) :
    (placeCoefficient phase i z b).Forced (phase' * 2 + i') (2 + i') (phase' + 1) := by
  have hplace : phase' * 2 + i' ≠ phase * 2 + i := by omega
  have hbank : ¬(2 + i' = 2 + i ∧ phase' + 1 = phase + 1) := by omega
  simp only [placeCoefficient, DcBus.Forced, DcBus.forced_force, hbank, if_false,
    DcBus.forced_store, DcBus.stored_force, DcBus.stored_store, hplace]
  exact h

theorem generalMeasure_settled (phase : Nat) (s : GeneralState) :
    PairSettled (generalMeasure phase s) phase := by
  intro i hi
  apply DcBus.settled_estimate
  rcases Nat.lt_succ_iff_lt_or_eq.mp hi with hi | rfl
  · obtain rfl := Nat.lt_one_iff.mp hi
    exact placeCoefficient_other _ (by decide) (by decide) (Or.inr (by decide))
      (placeCoefficient_forced ..)
  · exact placeCoefficient_forced ..

theorem generalMeasure_other {phase phase' : Nat} (hne : phase' ≠ phase) {s : GeneralState}
    (h : PairForced s.bus phase') : PairSettled (generalMeasure phase s) phase' := by
  intro i hi
  apply DcBus.settled_estimate
  exact placeCoefficient_other _ (by decide) hi (Or.inl hne)
    (placeCoefficient_other _ (by decide) hi (Or.inl hne) (h i hi))

theorem generalMeasure_inRange (phase : Nat) {s : GeneralState} (hfirst : InDouble s.current.1)
    (hsecond : InDouble s.current.2) (h : s.bus.InRange) : (generalMeasure phase s).InRange :=
  (placeCoefficient_inRange hsecond (placeCoefficient_inRange hfirst h)).estimate

theorem generalMeasure_estimates (phase : Nat) (s : GeneralState) :
    (generalMeasure phase s).estimates = s.bus.estimates + 1 := by
  simp [generalMeasure, placeCoefficient]

/-- The state of `general` in a phase, after `k` estimates of it. -/
structure GeneralInv (before phase k : Nat) (s : GeneralState) : Prop where
  first : InDouble s.current.1
  second : InDouble s.current.2
  range : s.bus.InRange
  estimates : s.bus.estimates = before + k
  settled : ∀ q, q < phase ∨ (q = phase ∧ 0 < k) → PairSettled s.bus q

theorem PairSettled.forced {b : DcBus} {phase : Nat} (h : PairSettled b phase) :
    PairForced b phase :=
  fun i hi => (h i hi).forced

theorem generalAttempt_inv {before phase k : Nat} {s : GeneralState}
    (h : GeneralInv before phase k s) (attempt : Nat) :
    GeneralInv before phase (k + 1) (generalAttempt absolute g phase s attempt).1 := by
  have hrange := generalMeasure_inRange phase h.first h.second h.range
  have hestimates := generalMeasure_estimates phase s
  rw [h.estimates] at hestimates
  have hsettled : ∀ q, q < phase ∨ (q = phase ∧ 0 < k + 1) →
      PairSettled (generalMeasure phase s) q := by
    rintro q (hq | ⟨rfl, -⟩)
    · exact generalMeasure_other (Nat.ne_of_lt hq) (h.settled q (Or.inl hq)).forced
    · exact generalMeasure_settled q s
  rw [generalAttempt]
  dsimp only
  split
  · exact ⟨h.first, h.second, hrange, hestimates, hsettled⟩
  · have htotal := total_le g
    generalize (if attempt = 0 then g.estimate phase attempt else s.previous) = previous
    generalize g.estimate phase attempt = x
    -- the second coefficient goes on with the amount of the first
    have hstart : g.total + 6 ≤ 20 := by omega
    obtain ⟨hamount, -⟩ :=
      generalUpdate_bus absolute g phase hstart s.current.1 x.1 previous.1 (generalMeasure phase s)
    obtain ⟨hrange₁, hestimates₁, hkeeps₁⟩ :=
      generalUpdate_keeps absolute g phase hstart s.current.1 x.1 previous.1 hrange
    obtain ⟨hrange₂, hestimates₂, hkeeps₂⟩ := generalUpdate_keeps absolute g phase
      (Nat.le_trans hamount (by omega)) s.current.2 x.2 previous.2 hrange₁
    exact ⟨inDouble_clamp _, inDouble_clamp _, hrange₂,
      hestimates₂.trans (hestimates₁.trans hestimates),
      fun q hq i hi => hkeeps₂ _ _ _ (hkeeps₁ _ _ _ (hsettled q hq i hi))⟩

/-- A phase ends with its pair measured. -/
theorem generalPhase_inv {before phase : Nat} {s : GeneralState}
    (h : GeneralInv before phase 0 s) :
    ∃ k, 0 < k ∧ k ≤ generalBudget phase ∧
      GeneralInv before phase k (generalPhase absolute g phase s) := by
  have hbudget : 0 < generalBudget phase := by
    rw [generalBudget]
    split
    · decide
    · decide
  have hcurrent : InDouble 512 := by
    rw [InDouble]
    omega
  refine Loop.forBreak_steps _ (GeneralInv before phase) hbudget ?_ fun k _ t ht =>
    generalAttempt_inv absolute g ht k
  constructor
  case first =>
    dsimp only
    split
    · exact h.first
    · exact hcurrent
  case second =>
    dsimp only
    split
    · exact h.second
    · exact hcurrent
  case range => exact h.range
  case estimates => exact h.estimates
  case settled => exact h.settled

/-- What `general` leaves behind. -/
structure GeneralOutcome (s : GeneralState) : Prop where
  range : s.bus.InRange
  estimates : s.bus.estimates ≤ 12 + 4
  settled : ∀ phase < 2, PairSettled s.bus phase

theorem general_outcome {b : DcBus} (hevents : b.events = [])
    (hfirst : (b.stored 0).toNat ≤ 511) (hsecond : (b.stored 1).toNat ≤ 511) :
    GeneralOutcome (general absolute g b) := by
  have hdouble : ∀ x : BitVec 16, x.toNat ≤ 511 → InDouble (i16 (x.toInt * 2)) := by
    intro x hx
    have htoInt : x.toInt = x.toNat := BitVec.toInt_eq_toNat_of_lt (by omega)
    rw [htoInt, InDouble, i16]
    omega
  have hstart : GeneralInv 0 0 0 ⟨(i16 ((b.stored 0).toInt * 2), i16 ((b.stored 1).toInt * 2)),
      (0, 0), (b.force 2 2 256).force 3 2 256⟩ := by
    constructor
    case first => exact hdouble _ hfirst
    case second => exact hdouble _ hsecond
    case range =>
      have hempty : b.InRange := by
        intro e he
        rw [hevents] at he
        cases he
      exact (hempty.force 2 2 fun _ => by decide).force 3 2 fun _ => by decide
    case estimates => simp [DcBus.estimates, DcBus.force, hevents]
    case settled =>
      rintro q (hq | ⟨-, hk⟩)
      · exact absurd hq (Nat.not_lt_zero q)
      · exact absurd hk (Nat.lt_irrefl 0)
  obtain ⟨k, hk, hkle, hcoarse⟩ := generalPhase_inv absolute g hstart
  have hmiddle : GeneralInv k 1 0 _ := ⟨hcoarse.first, hcoarse.second, hcoarse.range,
    by rw [hcoarse.estimates, Nat.zero_add, Nat.add_zero], fun q hq => hcoarse.settled q (by omega)⟩
  obtain ⟨l, hl, hlle, hfine⟩ := generalPhase_inv absolute g hmiddle
  refine ⟨hfine.range, ?_, fun phase hphase => hfine.settled phase (by omega)⟩
  exact hfine.estimates ▸ Nat.add_le_add hkle hlle

end GeneralRun

/-! ## The result of `minimum` -/

section Minimum

variable {r : MinimumReadings}

/-- `minimum` may take the estimate of an attempt. -/
def MinimumReadings.Open (r : MinimumReadings) (attempt : Nat) : Prop :=
  r.gate attempt = 0 ∨ r.selector attempt = 1

/-- The best estimate so far is one that was taken, if there is one. -/
def MinimumBest (r : MinimumReadings) (k : Nat) (s : MinimumState) : Prop :=
  s.best = 100 ∨ ∃ j < k, r.Open j ∧ s.output = r.estimate j ∧ s.best = s.output.score.toInt

theorem minimumTake_best {k : Nat} {s : MinimumState} (h : MinimumBest r k s) :
    MinimumBest r (k + 1) (minimumTake r s k) := by
  rw [minimumTake]
  split
  · rename_i htaken
    exact Or.inr ⟨k, Nat.lt_succ_self k, htaken.2, rfl, rfl⟩
  · rcases h with h | ⟨j, hj, hopen, houtput, hscore⟩
    · exact Or.inl h
    · exact Or.inr ⟨j, Nat.lt_succ_of_lt hj, hopen, houtput, hscore⟩

theorem minimumTake_returned (s : MinimumState) (k : Nat) :
    (minimumTake r s k).returned = s.returned := by
  rw [minimumTake]
  split
  · rfl
  · rfl

theorem minimumAttempt_best {k : Nat} {s : MinimumState} (h : MinimumBest r k s) :
    MinimumBest r (k + 1) (minimumAttempt r s k).1 := by
  rw [minimumAttempt]
  split
  · exact minimumTake_best h
  · exact minimumTake_best h

/-- The loop returns with an estimate of a score up to 47. -/
theorem minimumAttempt_returned {k : Nat} {s : MinimumState} :
    ((minimumAttempt r s k).2 = true →
      (minimumAttempt r s k).1.returned = true ∧ (minimumAttempt r s k).1.best ≤ 47) ∧
    ((minimumAttempt r s k).2 = false → (minimumAttempt r s k).1.returned = s.returned) := by
  rw [minimumAttempt]
  split
  · rename_i hbest
    refine ⟨fun _ => ⟨rfl, ?_⟩, nofun⟩
    dsimp only
    omega
  · exact ⟨nofun, fun _ => minimumTake_returned s k⟩

/-- An estimate of one of the attempts, with a score that ends the loop. -/
def MinimumReadings.Measured (r : MinimumReadings) (e : DcEstimate) : Prop :=
  e.score.toInt ≤ 47 ∧ ∃ j < 8, r.Open j ∧ e = r.estimate j

/-- What `minimum` can return. -/
def MinimumReadings.Returns (r : MinimumReadings) (e : DcEstimate) : Prop :=
  r.Measured e ∨ e = minimumFallback

theorem minimum_returns (r : MinimumReadings) (output : DcEstimate) :
    r.Returns (minimum r output).output := by
  have hloop := Loop.forBreak_range (minimumAttempt r)
    (fun k s => MinimumBest r k s ∧ s.returned = false) 8 (s := ⟨100, output, false⟩)
    ⟨Or.inl rfl, rfl⟩ fun k _ t ht hgo =>
      ⟨minimumAttempt_best ht.1, (minimumAttempt_returned.2 hgo).trans ht.2⟩
  rcases hloop with ⟨-, hnot⟩ | ⟨k, hk, t, ⟨hbest, -⟩, hstop, heq⟩
  · refine Or.inr ?_
    simp only [minimum, hnot, Bool.false_eq_true, if_false]
  · obtain ⟨hreturned, hscore⟩ := minimumAttempt_returned.1 hstop
    refine Or.inl ?_
    simp only [minimum, heq, hreturned, if_true]
    rcases minimumAttempt_best hbest with h100 | ⟨j, hj, hopen, houtput, hbestScore⟩
    · omega
    · exact ⟨hbestScore ▸ hscore, j, by omega, hopen, houtput⟩

/-- The fallback has a score above 45. -/
theorem MinimumReadings.Returns.measured {e : DcEstimate} (h : r.Returns e)
    (hscore : e.score.toInt ≤ 45) : r.Measured e := by
  rcases h with h | rfl
  · exact h
  · exact absurd hscore (by decide)

end Minimum

/-! ## The run of `one_step` -/

section OneStepRun

variable (absolute : Int → Int) (chip : PhyChip) (a : OneStepArgs)

/-- The offset is small and the estimate is good. -/
def DcMeasurement.Success (m : DcMeasurement) : Prop :=
  absolute m.x ≤ oneStepThreshold chip a ∧ absolute m.y ≤ oneStepThreshold chip a ∧ m.score ≤ 45

/-- The offset of a measurement comes from estimates of the iteration number `k`: from one in
mode 1, and else from the difference of two. -/
def OneStepArgs.Offset (estimated : MinimumReadings → DcEstimate → Prop) (k : Nat)
    (m : DcMeasurement) : Prop :=
  if chip.byte a.mode = 1 then
    ∃ e, estimated (a.readings k) e ∧ m.x = e.x.toInt ∧ m.y = e.y.toInt ∧ m.score = e.score.toInt
  else
    ∃ zero set, estimated (a.readings k) zero ∧ estimated (a.setReadings k) set ∧
      m.x = (set.x - zero.x).toInt ∧ m.y = (set.y - zero.y).toInt ∧
      m.score = max zero.score.toInt set.score.toInt

/-- With a good score both estimates were measured. -/
theorem OneStepArgs.Offset.measured {k : Nat} {m : DcMeasurement}
    (h : a.Offset chip MinimumReadings.Returns k m) (hscore : m.score ≤ 45) :
    a.Offset chip MinimumReadings.Measured k m := by
  by_cases hmode : chip.byte a.mode = 1
  · rw [Offset, if_pos hmode] at h ⊢
    obtain ⟨e, he, hx, hy, hs⟩ := h
    exact ⟨e, he.measured (by omega), hx, hy, hs⟩
  · rw [Offset, if_neg hmode] at h ⊢
    obtain ⟨zero, set, hzero, hset, hx, hy, hs⟩ := h
    exact ⟨zero, set, hzero.measured (by omega), hset.measured (by omega), hx, hy, hs⟩

/-- The stored pair is the one that was measured in the last iteration. -/
structure OneStepMeasured (s : OneStepState) (m : DcMeasurement) : Prop where
  last : s.last = some m
  storedFirst : (s.bus.stored 0).toNat ≤ 511
  storedSecond : (s.bus.stored 1).toNat ≤ 511
  pair : m.pair = ((s.bus.stored 0).setWidth 32, (s.bus.stored 1).setWidth 32)
  offset : a.Offset chip MinimumReadings.Returns (s.iterations - 1) m

def InNine (z : Int) : Prop := 0 ≤ z ∧ z ≤ 511

theorem inNine_clamp (z : Int) : InNine (clampCoefficient511 z) := by
  rw [InNine, clampCoefficient511]
  omega

theorem toNat_ofInt_le {z : Int} (h : InNine z) : (BitVec.ofInt 16 z).toNat ≤ 511 := by
  obtain ⟨hlow, hhigh⟩ := h
  rw [BitVec.toNat_ofInt]
  omega

theorem oneStepPlace_spec {s : OneStepState} (hfirst : InNine s.first) (hsecond : InNine s.second)
    (h : s.bus.InRange) :
    let b := oneStepPlace chip a s
    b.InRange ∧ b.stored 0 = BitVec.ofInt 16 s.first ∧ b.stored 1 = BitVec.ofInt 16 s.second ∧
      b.Forced 0 2 (oneStepBank chip a) ∧ b.Forced 1 3 (oneStepBank chip a) := by
  have hfirst' := toNat_ofInt_le hfirst
  have hsecond' := toNat_ofInt_le hsecond
  refine ⟨?_, ?_, ?_, ?_, ?_⟩
  · refine ((((h.store 0 hfirst').store 1 hsecond').force 2 _ fun _ => ?_).force 3 _ fun _ => ?_)
    · rwa [BitVec.toNat_setWidth_of_le (by decide)]
    · rw [BitVec.toNat_setWidth_of_le (by decide), DcBus.stored_force, DcBus.stored_store,
        if_pos rfl]
      exact hsecond'
  · simp [oneStepPlace]
  · simp [oneStepPlace]
  · simp [oneStepPlace, DcBus.Forced]
  · simp [oneStepPlace, DcBus.Forced]

theorem oneStepMeasure_spec {s : OneStepState} (hfirst : InNine s.first)
    (hsecond : InNine s.second) (h : s.bus.InRange) :
    let r := oneStepMeasure absolute chip a s
    OneStepMeasured chip a r.1 r.2.1 ∧ r.1.bus.InRange ∧ r.1.iterations = s.iterations + 1 ∧
      r.1.first = s.first ∧ r.1.second = s.second ∧ r.1.status = s.status ∧
      r.2.1.x = r.1.output.x.toInt ∧ r.2.1.y = r.1.output.y.toInt := by
  obtain ⟨hrange, hstored₀, hstored₁, hforced₀, hforced₁⟩ :=
    oneStepPlace_spec chip a hfirst hsecond h
  have hle₀ : ((oneStepPlace chip a s).stored 0).toNat ≤ 511 := hstored₀ ▸ toNat_ofInt_le hfirst
  have hle₁ : ((oneStepPlace chip a s).stored 1).toNat ≤ 511 := hstored₁ ▸ toNat_ofInt_le hsecond
  intro r
  by_cases hmode : chip.byte a.mode = 1
  · rw [show r = _ from if_pos hmode]
    refine ⟨⟨rfl, hle₀, hle₁, ?_, ?_⟩, hrange.estimate, rfl, rfl, rfl, rfl, rfl, rfl⟩
    · exact Prod.ext hforced₀ hforced₁
    · rw [OneStepArgs.Offset, if_pos hmode]
      exact ⟨_, minimum_returns _ _, rfl, rfl, rfl⟩
  · rw [show r = _ from if_neg hmode]
    refine ⟨⟨rfl, hle₀, hle₁, ?_, ?_⟩, ?_, rfl, rfl, rfl, rfl, rfl, rfl⟩
    · -- the forces in between are to another block
      exact Prod.ext hforced₀ hforced₁
    · rw [OneStepArgs.Offset, if_neg hmode]
      exact ⟨_, _, minimum_returns _ _, minimum_returns _ _, rfl, rfl, rfl⟩
    · have hother : ∀ value : BitVec 32, 1 = 2 ∨ 1 = 3 → value.toNat ≤ 511 := by
        intro value hblock
        omega
      exact (((hrange.force 1 2 (hother 0)).estimate).force 1 2 (hother 32)).estimate

/-- The state of `one_step` after `k` iterations. -/
structure OneStepInv (k : Nat) (s : OneStepState) : Prop where
  first : InNine s.first
  second : InNine s.second
  range : s.bus.InRange
  iterations : s.iterations = k

/-- An iteration ends with a measurement.  It reports a success and ends the loop, or it goes on
without one. -/
theorem oneStepAttempt_spec {k : Nat} {s : OneStepState} (h : OneStepInv k s) (iteration : Nat) :
    let next := oneStepAttempt absolute chip a s iteration
    OneStepInv (k + 1) next.1 ∧ ∃ m, OneStepMeasured chip a next.1 m ∧
      ((next.2 = true ∧ next.1.status = 1 ∧ m.Success absolute chip a) ∨
        (next.2 = false ∧ next.1.status = s.status ∧ ¬m.Success absolute chip a)) := by
  intro next
  obtain ⟨hmeasured, hrange, hiterations, hfirst, hsecond, hstatus, hx, hy⟩ :=
    oneStepMeasure_spec absolute chip a h.first h.second h.range
  rw [h.iterations] at hiterations
  obtain ⟨hlast, hstored₀, hstored₁, hpair, hoffset⟩ := hmeasured
  by_cases hsuccess : (oneStepMeasure absolute chip a s).2.1.Success absolute chip a
  · have hnext : next = ({ (oneStepMeasure absolute chip a s).1 with status := 1 }, true) := by
      rw [DcMeasurement.Success, hx, hy] at hsuccess
      exact if_pos hsuccess
    rw [hnext]
    exact ⟨⟨hfirst ▸ h.first, hsecond ▸ h.second, hrange, hiterations⟩, _,
      ⟨hlast, hstored₀, hstored₁, hpair, hoffset⟩, Or.inl ⟨rfl, rfl, hsuccess⟩⟩
  · obtain ⟨first, second, hnext⟩ : ∃ first second : Int,
        next = ({ (oneStepMeasure absolute chip a s).1 with
          first := clampCoefficient511 first, second := clampCoefficient511 second }, false) := by
      rw [DcMeasurement.Success, hx, hy] at hsuccess
      exact ⟨_, _, if_neg hsuccess⟩
    rw [hnext]
    exact ⟨⟨inNine_clamp _, inNine_clamp _, hrange, hiterations⟩, _,
      ⟨hlast, hstored₀, hstored₁, hpair, hoffset⟩, Or.inr ⟨rfl, hstatus, hsuccess⟩⟩

theorem oneStepBudget_pos : 0 < oneStepBudget chip a := by
  rw [oneStepBudget]
  split
  · decide
  · decide

/-- How the loop ends. -/
theorem oneStepLoop_spec {s : OneStepState} (h : OneStepInv 0 s) (hstatus : s.status = 0) :
    let e := oneStepLoop absolute chip a s
    ∃ k ≤ oneStepBudget chip a, OneStepInv k e ∧ 0 < k ∧ ∃ m, OneStepMeasured chip a e m ∧
      ((e.status = 1 ∧ m.Success absolute chip a) ∨
        (e.status = 0 ∧ ¬m.Success absolute chip a)) := by
  intro e
  -- as long as the loop goes on, there was no success
  have hloop := Loop.forBreak_range (oneStepAttempt absolute chip a)
    (fun k t => OneStepInv k t ∧ t.status = 0 ∧
      (0 < k → ∃ m, OneStepMeasured chip a t m ∧ ¬m.Success absolute chip a))
    (oneStepBudget chip a) (s := s) ⟨h, hstatus, fun hk => absurd hk (Nat.lt_irrefl 0)⟩
    fun k _ t ht hgo => by
      obtain ⟨hinv, m, hm, ⟨hstop, -⟩ | ⟨-, hkeep, hfail⟩⟩ :=
        oneStepAttempt_spec absolute chip a ht.1 k
      · exact absurd (hgo.symm.trans hstop) Bool.false_ne_true
      · exact ⟨hinv, hkeep.trans ht.2.1, fun _ => ⟨m, hm, hfail⟩⟩
  rcases hloop with ⟨hinv, hzero, hlast⟩ | ⟨k, hk, t, ⟨hinv, -, -⟩, hstop, heq⟩
  · obtain ⟨m, hm, hfail⟩ := hlast (oneStepBudget_pos chip a)
    exact ⟨_, Nat.le_refl _, hinv, oneStepBudget_pos chip a, m, hm, Or.inr ⟨hzero, hfail⟩⟩
  · obtain ⟨hinv', m, hm, ⟨-, hone, hsuccess⟩ | ⟨hgo, -⟩⟩ :=
      oneStepAttempt_spec absolute chip a hinv k
    · rw [show e = _ from heq]
      exact ⟨k + 1, hk, hinv', Nat.succ_pos k, m, hm, Or.inl ⟨hone, hsuccess⟩⟩
    · exact absurd (hgo.symm.trans hstop) Bool.false_ne_true

/-- The end of `one_step` forces the stored pair once more. -/
theorem oneStepFinish_spec {b : DcBus} (h : b.InRange) (hfirst : (b.stored 0).toNat ≤ 511)
    (hsecond : (b.stored 1).toNat ≤ 511) :
    let e := oneStepFinish chip a b
    e.InRange ∧ e.stored = b.stored ∧ e.Forced 0 2 (oneStepBank chip a) ∧
      e.Forced 1 3 (oneStepBank chip a) := by
  have hsettle : ∀ i, (b.stored i).toNat ≤ 511 → settleStored i b = b := by
    intro i hi
    have htoInt : (b.stored i).toInt = (b.stored i).toNat := BitVec.toInt_eq_toNat_of_lt (by omega)
    rw [settleStored, htoInt]
    exact if_pos (by omega)
  have hforce : ∀ x : BitVec 16, x.toNat ≤ 511 → (x.setWidth 32).toNat ≤ 511 := by
    intro x hx
    rwa [BitVec.toNat_setWidth_of_le (by decide)]
  rw [oneStepFinish, hsettle 0 hfirst, hsettle 1 hsecond]
  refine ⟨(h.force _ _ fun _ => hforce _ hfirst).force _ _ fun _ => hforce _ hsecond, rfl, ?_, ?_⟩
  · simp [forceStored, DcBus.Forced]
  · simp [forceStored, DcBus.Forced]

/-- What `one_step` leaves behind.  The last measurement is the one of the last iteration, and
with status 1 its estimates were measured. -/
structure OneStepOutcome (s : OneStepState) (m : DcMeasurement) : Prop where
  range : s.bus.InRange
  pos : 0 < s.iterations
  iterations : s.iterations ≤ if chip.byte a.mode = 1 then 8 else 16
  last : s.last = some m
  stored : ((s.bus.stored 0).setWidth 32, (s.bus.stored 1).setWidth 32) = m.pair
  forced : (s.bus.forced 2 (oneStepBank chip a), s.bus.forced 3 (oneStepBank chip a)) = m.pair
  status : s.status = 1 ↔ m.Success absolute chip a
  byte : s.status = 0 ∨ s.status = 1
  offset : a.Offset chip MinimumReadings.Returns (s.iterations - 1) m
  measured : s.status = 1 → a.Offset chip MinimumReadings.Measured (s.iterations - 1) m

theorem oneStep_outcome {b : DcBus} (hevents : b.events = [])
    (hfirst : (b.stored 0).toNat ≤ 511) (hsecond : (b.stored 1).toNat ≤ 511)
    (output : DcEstimate) :
    ∃ m, OneStepOutcome absolute chip a (oneStep absolute chip a b output) m := by
  have hnine : ∀ x : BitVec 16, x.toNat ≤ 511 → InNine x.toInt := by
    intro x hx
    have htoInt : x.toInt = x.toNat := BitVec.toInt_eq_toNat_of_lt (by omega)
    rw [htoInt, InNine]
    omega
  have hempty : b.InRange := by
    intro e he
    rw [hevents] at he
    cases he
  have hstart : OneStepInv 0 (.start b output) :=
    ⟨hnine _ hfirst, hnine _ hsecond, hempty, rfl⟩
  obtain ⟨k, hk, hinv, hpos, m, ⟨hlast, hstored₀, hstored₁, hpair, hoffset⟩, hend⟩ :=
    oneStepLoop_spec absolute chip a hstart rfl
  generalize hloop : oneStepLoop absolute chip a (.start b output) = s at *
  obtain ⟨hrange, hstored, hforced₀, hforced₁⟩ :=
    oneStepFinish_spec chip a hinv.range hstored₀ hstored₁
  have hstatus : s.status = 1 ↔ m.Success absolute chip a := by
    rcases hend with ⟨hone, hsuccess⟩ | ⟨hzero, hfail⟩
    · exact iff_of_true hone hsuccess
    · exact iff_of_false (by rw [hzero]; decide) hfail
  have hrun : oneStep absolute chip a b output = { s with bus := oneStepFinish chip a s.bus } := by
    rw [oneStep, hloop]
  rw [hrun]
  rw [DcBus.Forced, hstored] at hforced₀ hforced₁
  refine ⟨m, hrange, hinv.iterations ▸ hpos, hinv.iterations ▸ hk, hlast, ?_, ?_, hstatus,
    hend.symm.imp And.left And.left, hoffset,
    fun hone => hoffset.measured chip a (hstatus.mp hone).2.2⟩
  · rw [hpair, hstored]
  · rw [hpair, hforced₀, hforced₁]

end OneStepRun

/-- Readings that never become small. -/
def restlessGeneral : GeneralReadings := ⟨63, fun _ => 1, fun _ _ => (100, 0)⟩

/-- The offset is small in the third iteration. -/
def settlingArgs : OneStepArgs :=
  { policy := 0, mode := 1, state := 63, backup := 0
    readings := fun k => ⟨fun _ => ⟨if k < 2 then 100 else 3, 0, 30⟩, fun _ => 0, fun _ => 0⟩
    setReadings := fun _ => ⟨fun _ => ⟨100, 0, 50⟩, fun _ => 0, fun _ => 0⟩
    limit := fun _ _ z => z }

end EspWifiHal
