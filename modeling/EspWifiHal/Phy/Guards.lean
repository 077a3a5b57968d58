import EspWifiHal.Lib.Handles
import EspWifiHal.Lib.Register
import EspWifiHal.Lib.Trace

/-!
# References to the PHY and to its clock

`enable_phy` takes a reference to the clock and then one to the PHY.  Dropping the guard returns
the one to the PHY and then the one to the clock, and so does `disable_phy`, which is meant for
guards that were forgotten but can be called by anyone at any time.  The two counters have a
lock each, so between the two halves of a call any other task can take or return references.

A step of `Statics` is one critical section.  Every handle is in a `Stage`, and a run is any
order of the sections of any number of handles.  The locks guard different data, so sections
of the one and of the other lock that overlap in time commute.

`Lifecycle` is what the PHY may go through, one call at a time.  `calls_follow_lifecycle`
says that a run makes the calls of such a life.  `counters_of_run` says how the counters follow
from the handles and the calls of `disable_phy`, and that a run panics only at the 256th clock
reference or after more calls of `disable_phy` than guards were forgotten.
-/

namespace EspWifiHal

namespace EspPhy

open Handles Register Trace

/-! ## Calls and state -/

/-- `esp_phy_calibration_mode_t`. -/
inductive CalibrationMode where
  | rfCalPartial
  | rfCalNone
  | rfCalFull
deriving DecidableEq, Repr

abbrev CalibrationData := List (BitVec 8)

/-- The options of the build, and the reason of the last reset. -/
structure Config where
  /-- `PHY_CALIBRATION_DATA_LENGTH`. -/
  dataLength : Nat
  skipCalibrationAfterDeepSleep : Bool
  fullCalibration : Bool
  isResetFromDeepsleep : Bool

/-- What reaches the hardware: a change of the clock, or a call of the vendor library. -/
inductive Call (D : Type) where
  | enablePhy (enable : Bool)
  | registerChipv7Phy (data : CalibrationData) (mode : CalibrationMode)
  | phyWakeupInit
  | restoreDigReg (regs : D)
  | backupDigReg (regs : D)
  | phyCloseRf
  | phyXpdTsens
deriving DecidableEq, Repr

/-- The vendor library: the result and the data of a calibration, and what a call leaves in the
digital registers. -/
structure Vendor (D : Type) where
  calibration : CalibrationData → CalibrationMode → Int × CalibrationData
  registers : Call D → D → D

/-- The panics of the module. -/
inductive Panic where
  | clockOverflowed
  | clockUnderflowed
  | refCountBelowZero
  | restoreWithoutBackup
deriving DecidableEq, Repr

/-- `PhyState`. -/
structure PhyState (D : Type) where
  refCount : Nat
  calibrationData : Option CalibrationData
  calibrated : Bool
  calibrationResult : Int
  phyDigitalRegisterBackup : Option D

/-- `PhyState::new`. -/
def PhyState.new {D : Type} : PhyState D where
  refCount := 0
  calibrationData := none
  calibrated := false
  calibrationResult := 0
  phyDigitalRegisterBackup := none

/-- The life of a guard. -/
inductive Stage where
  /-- In `enable_phy`, after the clock reference was taken. -/
  | enabling
  /-- A `PhyInitGuard`. -/
  | live
  /-- A `PhyInitGuard` after `mem::forget`. -/
  | forgotten
  /-- In the drop of the guard or in `disable_phy`, before the clock reference is returned. -/
  | disabling
  /-- A `PhyClockGuard`. -/
  | clock
  | dropped
deriving DecidableEq, Repr

/-- The handles that hold the clock but not the PHY. -/
def Stage.clocks : Stage → Nat
  | .enabling | .disabling | .clock => 1
  | _ => 0

/-- The guards, which hold both. -/
def Stage.phys : Stage → Nat
  | .live | .forgotten => 1
  | _ => 0

/-- The guards that only `disable_phy` can return. -/
def Stage.forgottens : Stage → Nat
  | .forgotten => 1
  | _ => 0

theorem Stage.forgottens_le_phys (a : Stage) : a.forgottens ≤ a.phys := by
  cases a <;> decide

/-- The statics of the module, the hardware, the handles that were made and the calls so far. -/
structure Statics (D : Type) where
  /-- `PHY_CLOCK_REF_COUNTER`, a `u8`. -/
  phyClockRefCounter : Nat
  /-- The register `wifi_clk_en`. -/
  wifiClkEn : BitVec 32
  /-- `PHY_STATE`. -/
  phyState : PhyState D
  /-- The digital registers of the PHY. -/
  regs : D
  handles : List Stage
  /-- The calls of `disable_phy` so far. -/
  disables : Nat
  calls : List (Call D)
  panic : Option Panic

/-- `SYSTEM_WIFI_CLK_WIFI_BT_COMMON_M`. -/
def wifiBtCommonM : BitVec 32 := 0x78078f

namespace Statics

variable {D : Type}

/-- The start of the program. -/
def start (wifiClkEn : BitVec 32) (regs : D) : Statics D where
  phyClockRefCounter := 0
  wifiClkEn := wifiClkEn
  phyState := .new
  regs := regs
  handles := []
  disables := 0
  calls := []
  panic := none

/-! ## The critical sections -/

/-- `phy_clocks::enable_phy`. -/
def enablePhyClocks (s : Statics D) (enable : Bool) : Statics D :=
  { s with
    wifiClkEn :=
      if enable then s.wifiClkEn ||| wifiBtCommonM else s.wifiClkEn &&& ~~~wifiBtCommonM
    calls := s.calls ++ [.enablePhy enable] }

def increasePhyClockRefCount (s : Statics D) : Except Panic (Statics D) :=
  let s' := if s.phyClockRefCounter = 0 then s.enablePhyClocks true else s
  if s.phyClockRefCounter + 1 < 256 then
    .ok { s' with phyClockRefCounter := s.phyClockRefCounter + 1 }
  else .error .clockOverflowed

def decreasePhyClockRefCount (s : Statics D) : Except Panic (Statics D) :=
  match s.phyClockRefCounter with
  | 0 => .error .clockUnderflowed
  | new + 1 =>
      let s' := if new = 0 then s.enablePhyClocks false else s
      .ok { s' with phyClockRefCounter := new }

section Sections

variable (cfg : Config) (vendor : Vendor D)

/-- A call of the vendor library. -/
def vendorCall (s : Statics D) (c : Call D) : Statics D :=
  { s with regs := vendor.registers c s.regs, calls := s.calls ++ [c] }

def calibrationMode (available : Bool) : CalibrationMode :=
  if available then
    if cfg.skipCalibrationAfterDeepSleep && cfg.isResetFromDeepsleep then .rfCalNone
    else if cfg.fullCalibration then .rfCalFull
    else .rfCalPartial
  else .rfCalFull

def calibrate (s : Statics D) : Statics D :=
  let mode := calibrationMode cfg s.phyState.calibrationData.isSome
  let data := s.phyState.calibrationData.getD (List.replicate cfg.dataLength 0)
  let s := s.vendorCall vendor (.registerChipv7Phy data mode)
  { s with
    phyState :=
      { s.phyState with
        calibrationResult := (vendor.calibration data mode).1
        calibrationData := some (vendor.calibration data mode).2
        calibrated := true } }

def backupDigitalRegs (s : Statics D) : Statics D :=
  { s with
    phyState := { s.phyState with phyDigitalRegisterBackup := some s.regs }
    calls := s.calls ++ [.backupDigReg s.regs] }

def restoreDigitalRegs (s : Statics D) : Except Panic (Statics D) :=
  match s.phyState.phyDigitalRegisterBackup with
  | none => .error .restoreWithoutBackup
  | some regs =>
      .ok
        { s with
          regs := regs
          phyState := { s.phyState with phyDigitalRegisterBackup := none }
          calls := s.calls ++ [.restoreDigReg regs] }

/-- The first reference wakes the PHY up, or calibrates it. -/
def initPhy (s : Statics D) : Except Panic (Statics D) :=
  if s.phyState.calibrated then (s.vendorCall vendor .phyWakeupInit).restoreDigitalRegs
  else .ok (s.calibrate cfg vendor)

def increaseRefCount (s : Statics D) : Except Panic (Statics D) := do
  let s ← if s.phyState.refCount = 0 then s.initPhy cfg vendor else .ok s
  return { s with phyState := { s.phyState with refCount := s.phyState.refCount + 1 } }

def decreaseRefCount (s : Statics D) : Except Panic (Statics D) :=
  match s.phyState.refCount with
  | 0 => .error .refCountBelowZero
  | new + 1 =>
      let s := { s with phyState := { s.phyState with refCount := new } }
      .ok
        (if new = 0 then
          (s.backupDigitalRegs.vendorCall vendor .phyCloseRf).vendorCall vendor .phyXpdTsens
        else s)

/-! ## Runs -/

/-- A new handle. -/
def create (s : Statics D) (a : Stage) : Statics D := { s with handles := s.handles ++ [a] }

/-- A handle that goes on to its next stage. -/
def move (s : Statics D) (i : Nat) (a : Stage) : Statics D :=
  { s with handles := s.handles.set i a }

/-- A section that panics leaves what it guards as it was. -/
def settle (s : Statics D) : Except Panic (Statics D) → Statics D
  | .ok s' => s'
  | .error p => { s with panic := some p }

end Sections

end Statics

/-- The critical sections of the handles, and what else happens between them. -/
inductive Event (D : Type) where
  /-- `enable_phy_clock`. -/
  | enablePhyClock
  /-- The first half of `enable_phy`. -/
  | enablePhy
  /-- The second half of `enable_phy`. -/
  | increaseRefCount (i : Nat)
  | forget (i : Nat)
  /-- The drop of a `PhyInitGuard`. -/
  | drop (i : Nat)
  /-- The first half of `disable_phy`, whether or not a guard was forgotten. -/
  | disablePhy
  /-- The last half of both, which returns the clock reference. -/
  | releaseClock (i : Nat)
  /-- The drop of a `PhyClockGuard`. -/
  | dropClock (i : Nat)
  /-- `set_phy_calibration_data`. -/
  | setPhyCalibrationData (data : CalibrationData)
  /-- The driver and the hardware use the registers. -/
  | registers (regs : D)

/-- The data that an event loads. -/
def Event.loaded {D : Type} : Event D → Option CalibrationData
  | .setPhyCalibrationData data => some data
  | _ => none

namespace Statics

variable {D : Type} (cfg : Config) (vendor : Vendor D)

/-- `set_phy_calibration_data` does not replace data. -/
def setPhyCalibrationData (s : Statics D) (data : CalibrationData) : Statics D :=
  if s.phyState.calibrationData.isSome then s
  else { s with phyState := { s.phyState with calibrationData := some data } }

/-- A section of the handle `i` that takes it from a stage to the next. -/
def advance (s : Statics D) (i : Nat) (a b : Stage)
    (body : Statics D → Except Panic (Statics D)) : Option (Statics D) :=
  if s.handles[i]? = some a then some (s.settle ((body s).map (·.move i b))) else none

/-- A call of `disable_phy` begins. -/
def countDisable (s : Statics D) : Statics D := { s with disables := s.disables + 1 }

/-- One critical section.  Nothing runs after a panic. -/
def step (s : Statics D) (e : Event D) : Option (Statics D) :=
  if s.panic.isSome then none
  else
    match e with
    | .enablePhyClock => some (s.settle (s.increasePhyClockRefCount.map (·.create .clock)))
    | .enablePhy => some (s.settle (s.increasePhyClockRefCount.map (·.create .enabling)))
    | .increaseRefCount i => s.advance i .enabling .live (increaseRefCount cfg vendor)
    | .forget i => s.advance i .live .forgotten .ok
    | .drop i => s.advance i .live .disabling (decreaseRefCount vendor)
    | .disablePhy =>
        some (s.countDisable.settle
          ((s.countDisable.decreaseRefCount vendor).map (·.create .disabling)))
    | .releaseClock i => s.advance i .disabling .dropped decreasePhyClockRefCount
    | .dropClock i => s.advance i .clock .dropped decreasePhyClockRefCount
    | .setPhyCalibrationData data => some (s.setPhyCalibrationData data)
    | .registers regs => some { s with regs := regs }

end Statics

/-! ## The life of the PHY -/

/-- Where the PHY is in its life. -/
inductive Phase where
  /-- Without its clock. -/
  | off
  /-- Clocked, but not initialized or closed again. -/
  | ready
  /-- Woken up, with the registers of the reset. -/
  | woken
  | running
  /-- With the registers saved. -/
  | saved
  /-- With the RF closed. -/
  | closed
deriving DecidableEq, Repr

/-- What a calibration starts from: a full one without data, or the data that was loaded, in the
mode that the options ask for. -/
inductive Calibration (cfg : Config) (loaded : List CalibrationData) :
    CalibrationData → CalibrationMode → Prop where
  | full : Calibration cfg loaded (List.replicate cfg.dataLength 0) .rfCalFull
  | loaded {data : CalibrationData} (h : data ∈ loaded) :
      Calibration cfg loaded data (Statics.calibrationMode cfg true)

/-- The phase, whether the PHY was calibrated, and the registers that are saved. -/
structure Lifecycle (D : Type) where
  phase : Phase
  calibrated : Bool
  backup : Option D

namespace Lifecycle

variable {D : Type} (cfg : Config) (loaded : List CalibrationData)

def start : Lifecycle D := ⟨.off, false, none⟩

/-- The calls that are allowed in a phase.  The PHY is calibrated once, and later gets back the
registers that it had when it was closed. -/
inductive Step : Lifecycle D → Call D → Lifecycle D → Prop where
  | clockOn {c b} : Step ⟨.off, c, b⟩ (.enablePhy true) ⟨.ready, c, b⟩
  | clockOff {c b} : Step ⟨.ready, c, b⟩ (.enablePhy false) ⟨.off, c, b⟩
  | calibrate {b data mode} (h : Calibration cfg loaded data mode) :
      Step ⟨.ready, false, b⟩ (.registerChipv7Phy data mode) ⟨.running, true, b⟩
  | wakeup {b} : Step ⟨.ready, true, b⟩ .phyWakeupInit ⟨.woken, true, b⟩
  | restore {c} (d : D) : Step ⟨.woken, c, some d⟩ (.restoreDigReg d) ⟨.running, c, none⟩
  | backup {c b} (d : D) : Step ⟨.running, c, b⟩ (.backupDigReg d) ⟨.saved, c, some d⟩
  | closeRf {c b} : Step ⟨.saved, c, b⟩ .phyCloseRf ⟨.closed, c, b⟩
  | xpdTsens {c b} : Step ⟨.closed, c, b⟩ .phyXpdTsens ⟨.ready, c, b⟩

end Lifecycle

namespace Statics

variable {D : Type} {cfg : Config} {vendor : Vendor D} {loaded : List CalibrationData}

/-- The life of the PHY as the counters tell it. -/
def lifecycle (s : Statics D) : Lifecycle D where
  phase :=
    if 0 < s.phyState.refCount then .running
    else if 0 < s.phyClockRefCounter then .ready
    else .off
  calibrated := s.phyState.calibrated
  backup := s.phyState.phyDigitalRegisterBackup

/-- A path that ends in the life of the state, by the counters. -/
abbrev Lives (cfg : Config) (loaded : List CalibrationData) (s : Statics D) (a : Lifecycle D) :
    Prop := Follows (Lifecycle.Step cfg loaded) .start s.calls a

section Lives

variable {s : Statics D} {c : Bool} {b : Option D} (hc : s.phyState.calibrated = c)
  (hb : s.phyState.phyDigitalRegisterBackup = b)

include hc hb

theorem lives_running (h : 0 < s.phyState.refCount) :
    s.Lives cfg loaded s.lifecycle ↔ s.Lives cfg loaded ⟨.running, c, b⟩ := by
  rw [lifecycle, if_pos h, hc, hb]

theorem lives_ready (h : s.phyState.refCount = 0) (hclock : 0 < s.phyClockRefCounter) :
    s.Lives cfg loaded s.lifecycle ↔ s.Lives cfg loaded ⟨.ready, c, b⟩ := by
  rw [lifecycle, h, if_neg (Nat.lt_irrefl 0), if_pos hclock, hc, hb]

theorem lives_off (h : s.phyState.refCount = 0) (hclock : s.phyClockRefCounter = 0) :
    s.Lives cfg loaded s.lifecycle ↔ s.Lives cfg loaded ⟨.off, c, b⟩ := by
  rw [lifecycle, h, hclock, if_neg (Nat.lt_irrefl 0), if_neg (Nat.lt_irrefl 0), hc, hb]

end Lives

/-! ## What a section keeps -/

/-- The counters, the registers and the calls in one state.  `loaded` is the data that callers
load, `reg` the clock register at the start. -/
structure Sound (cfg : Config) (loaded : List CalibrationData) (reg : BitVec 32) (s : Statics D) :
    Prop where
  /-- Who holds the PHY holds its clock. -/
  covered : s.phyState.refCount ≤ s.phyClockRefCounter
  bound : s.phyClockRefCounter < 256
  calibrated : 0 < s.phyState.refCount → s.phyState.calibrated = true
  /-- What was running and is closed has a backup. -/
  backup : s.phyState.refCount = 0 → s.phyState.calibrated = true →
    s.phyState.phyDigitalRegisterBackup.isSome
  /-- Before the calibration there is no data but what was loaded. -/
  data : s.phyState.calibrated = false → ∀ d ∈ s.phyState.calibrationData, d ∈ loaded
  /-- The calls so far are a life of the PHY. -/
  life : s.Lives cfg loaded s.lifecycle
  clockOn : 0 < s.phyClockRefCounter → s.wifiClkEn &&& wifiBtCommonM = wifiBtCommonM
  clockOff : s.phyClockRefCounter = 0 → s.calls = [] ∨ s.wifiClkEn &&& wifiBtCommonM = 0
  others : s.wifiClkEn &&& ~~~wifiBtCommonM = reg &&& ~~~wifiBtCommonM

/-- A section that ends without a panic: what it leaves in the counters, and that it keeps the
rest. -/
structure Leaves (cfg : Config) (loaded : List CalibrationData) (reg : BitVec 32)
    (s s' : Statics D) (clock phy : Nat) : Prop where
  sound : s'.Sound cfg loaded reg
  clock : s'.phyClockRefCounter = clock
  phy : s'.phyState.refCount = phy
  handles : s'.handles = s.handles
  disables : s'.disables = s.disables
  panic : s'.panic = s.panic

section Spec

variable {reg : BitVec 32} {s : Statics D} (hs : s.Sound cfg loaded reg)

include hs

theorem Sound.increasePhyClockRefCount (h : s.phyClockRefCounter < 255) :
    ∃ s', s.increasePhyClockRefCount = .ok s' ∧
      Leaves cfg loaded reg s s' (s.phyClockRefCounter + 1) s.phyState.refCount := by
  have hlt : s.phyClockRefCounter + 1 < 256 := by omega
  have hpos : 0 < s.phyClockRefCounter + 1 := Nat.succ_pos _
  have hcovered : s.phyState.refCount ≤ s.phyClockRefCounter + 1 := Nat.le_succ_of_le hs.covered
  rw [Statics.increasePhyClockRefCount, if_pos hlt]
  refine ⟨_, rfl, ?_⟩
  by_cases hzero : s.phyClockRefCounter = 0
  · -- the first reference
    rw [if_pos hzero]
    have hphy : s.phyState.refCount = 0 := Nat.le_zero.mp (hzero ▸ hs.covered)
    have hoff := (lives_off rfl rfl hphy hzero).mp hs.life
    refine ⟨?_, rfl, rfl, rfl, rfl, rfl⟩
    exact {
      covered := hcovered
      bound := hlt
      calibrated := hs.calibrated
      backup := hs.backup
      data := hs.data
      life := by
        refine (lives_ready rfl rfl ?_ ?_).mpr (hoff.concat .clockOn)
        · exact hphy
        · exact hpos
      clockOn := fun _ => or_and_mask s.wifiClkEn _
      clockOff := fun h0 => absurd h0 hpos.ne'
      others := (or_and_not_mask s.wifiClkEn _).trans hs.others }
  · rw [if_neg hzero]
    have hclock : 0 < s.phyClockRefCounter := Nat.pos_of_ne_zero hzero
    have hsame : ({ s with phyClockRefCounter := s.phyClockRefCounter + 1 } : Statics D).lifecycle =
        s.lifecycle := by simp only [lifecycle, hclock, hpos]
    refine ⟨?_, rfl, rfl, rfl, rfl, rfl⟩
    exact {
      covered := hcovered
      bound := hlt
      calibrated := hs.calibrated
      backup := hs.backup
      data := hs.data
      life := hsame ▸ hs.life
      clockOn := fun _ => hs.clockOn hclock
      clockOff := fun h0 => absurd h0 hpos.ne'
      others := hs.others }

/-- The counter of the clock can be decreased while there are fewer references to the PHY. -/
theorem Sound.decreasePhyClockRefCount (h : s.phyState.refCount < s.phyClockRefCounter) :
    ∃ s', s.decreasePhyClockRefCount = .ok s' ∧
      Leaves cfg loaded reg s s' (s.phyClockRefCounter - 1) s.phyState.refCount := by
  obtain ⟨new, hnew⟩ : ∃ new, s.phyClockRefCounter = new + 1 :=
    ⟨_, (Nat.sub_add_cancel (by omega)).symm⟩
  have hcovered : s.phyState.refCount ≤ new := by omega
  have hlt : new < 256 := by
    have := hs.bound
    omega
  have hclock : 0 < s.phyClockRefCounter := by omega
  have hbits := hs.clockOn hclock
  simp only [Statics.decreasePhyClockRefCount, hnew, Nat.add_sub_cancel]
  refine ⟨_, rfl, ?_⟩
  by_cases hzero : new = 0
  · -- the last reference
    subst hzero
    have hphy : s.phyState.refCount = 0 := Nat.le_zero.mp hcovered
    have hready := (lives_ready rfl rfl hphy hclock).mp hs.life
    refine ⟨?_, rfl, rfl, rfl, rfl, rfl⟩
    exact {
      covered := hcovered
      bound := hlt
      calibrated := hs.calibrated
      backup := hs.backup
      data := hs.data
      life := by
        refine (lives_off rfl rfl ?_ rfl).mpr (hready.concat .clockOff)
        exact hphy
      clockOn := fun h0 => absurd h0 (Nat.lt_irrefl 0)
      clockOff := fun _ => Or.inr (and_not_and_mask s.wifiClkEn _)
      others := (and_not_and_not_mask s.wifiClkEn _).trans hs.others }
  · rw [if_neg hzero]
    have hpos : 0 < new := Nat.pos_of_ne_zero hzero
    have hsame : ({ s with phyClockRefCounter := new } : Statics D).lifecycle = s.lifecycle := by
      simp only [lifecycle, hclock, hpos]
    refine ⟨?_, rfl, rfl, rfl, rfl, rfl⟩
    exact {
      covered := hcovered
      bound := hlt
      calibrated := hs.calibrated
      backup := hs.backup
      data := hs.data
      life := hsame ▸ hs.life
      clockOn := fun _ => hbits
      clockOff := fun h0 => absurd h0 hzero
      others := hs.others }

theorem Sound.calibration (hcal : s.phyState.calibrated = false) :
    Calibration cfg loaded
      (s.phyState.calibrationData.getD (List.replicate cfg.dataLength 0))
      (calibrationMode cfg s.phyState.calibrationData.isSome) := by
  cases hdata : s.phyState.calibrationData with
  | none => exact .full
  | some d => exact .loaded (hs.data hcal d hdata)

/-- The first reference to the PHY. -/
theorem Sound.initPhy (vendor : Vendor D) (hphy : s.phyState.refCount = 0)
    (hclock : 0 < s.phyClockRefCounter) :
    ∃ regs state calls, s.initPhy cfg vendor =
        .ok { s with regs := regs, phyState := state, calls := s.calls ++ calls } ∧
      state.refCount = 0 ∧ state.calibrated = true ∧
      Follows (Lifecycle.Step cfg loaded) .start (s.calls ++ calls)
        ⟨.running, true, state.phyDigitalRegisterBackup⟩ := by
  have hready := (lives_ready rfl rfl hphy hclock).mp hs.life
  rw [Statics.initPhy]
  cases hcal : s.phyState.calibrated with
  | true =>
      obtain ⟨d, hd⟩ := Option.isSome_iff_exists.mp (hs.backup hphy hcal)
      rw [hcal, hd] at hready
      have hrunning := (hready.concat .wakeup).concat (.restore d)
      rw [List.append_assoc] at hrunning
      rw [if_pos rfl]
      refine ⟨d, { s.phyState with phyDigitalRegisterBackup := none }, _, ?_, hphy, hcal, hrunning⟩
      simp only [Statics.restoreDigitalRegs, Statics.vendorCall, hd, List.append_assoc]
  | false =>
      rw [hcal] at hready
      rw [if_neg Bool.false_ne_true]
      exact ⟨_, _, _, rfl, hphy, rfl, hready.concat (.calibrate (hs.calibration hcal))⟩

theorem Sound.increaseRefCount (h : s.phyState.refCount < s.phyClockRefCounter) :
    ∃ s', s.increaseRefCount cfg vendor = .ok s' ∧
      Leaves cfg loaded reg s s' s.phyClockRefCounter (s.phyState.refCount + 1) := by
  have hclock : 0 < s.phyClockRefCounter := Nat.zero_lt_of_lt h
  rw [Statics.increaseRefCount]
  by_cases hphy : s.phyState.refCount = 0
  · obtain ⟨regs, state, calls, hinit, hzero, hcal, hrunning⟩ :=
      hs.initPhy vendor hphy hclock
    rw [if_pos hphy, hinit]
    refine ⟨_, rfl, ⟨?_, rfl, ?_, rfl, rfl, rfl⟩⟩
    · exact {
        covered := by
          rw [hzero]
          exact hclock
        bound := hs.bound
        calibrated := fun _ => hcal
        backup := fun h0 => absurd h0 (Nat.succ_ne_zero _)
        data := fun h0 => absurd (hcal.symm.trans h0) Bool.noConfusion
        life := by
          refine (lives_running hcal rfl ?_).mpr hrunning
          exact Nat.succ_pos _
        clockOn := hs.clockOn
        clockOff := fun h0 => absurd h0 hclock.ne'
        others := hs.others }
    · rw [hphy, ← hzero]
  · have hpos : 0 < s.phyState.refCount := Nat.pos_of_ne_zero hphy
    have hrunning := (lives_running rfl rfl hpos).mp hs.life
    rw [if_neg hphy]
    refine ⟨_, rfl, ⟨?_, rfl, rfl, rfl, rfl, rfl⟩⟩
    exact {
      covered := h
      bound := hs.bound
      calibrated := fun _ => hs.calibrated hpos
      backup := fun h0 => absurd h0 (Nat.succ_ne_zero _)
      data := hs.data
      life := by
        refine (lives_running rfl rfl ?_).mpr hrunning
        exact Nat.succ_pos _
      clockOn := hs.clockOn
      clockOff := fun h0 => absurd h0 hclock.ne'
      others := hs.others }

theorem Sound.decreaseRefCount (h : 0 < s.phyState.refCount) :
    ∃ s', s.decreaseRefCount vendor = .ok s' ∧
      Leaves cfg loaded reg s s' s.phyClockRefCounter (s.phyState.refCount - 1) := by
  obtain ⟨new, hnew⟩ : ∃ new, s.phyState.refCount = new + 1 :=
    ⟨_, (Nat.sub_add_cancel h).symm⟩
  have hcovered : new + 1 ≤ s.phyClockRefCounter := hnew ▸ hs.covered
  have hclock : 0 < s.phyClockRefCounter := Nat.zero_lt_of_lt hcovered
  have hcal := hs.calibrated h
  have hrunning := (lives_running hcal rfl h).mp hs.life
  simp only [Statics.decreaseRefCount, hnew, Nat.add_sub_cancel]
  refine ⟨_, rfl, ?_⟩
  by_cases hzero : new = 0
  · -- the last reference closes the PHY
    subst hzero
    have hready := ((hrunning.concat (.backup s.regs)).concat .closeRf).concat .xpdTsens
    refine ⟨?_, rfl, rfl, rfl, rfl, rfl⟩
    exact {
      covered := Nat.zero_le _
      bound := hs.bound
      calibrated := fun h0 => absurd h0 (Nat.lt_irrefl 0)
      backup := fun _ _ => rfl
      data := hs.data
      life := by
        refine (lives_ready ?_ ?_ ?_ ?_).mpr hready
        exacts [hcal, rfl, rfl, hclock]
      clockOn := hs.clockOn
      clockOff := fun h0 => absurd h0 hclock.ne'
      others := hs.others }
  · rw [if_neg hzero]
    have hpos : 0 < new := Nat.pos_of_ne_zero hzero
    refine ⟨?_, rfl, rfl, rfl, rfl, rfl⟩
    exact {
      covered := Nat.le_of_succ_le hcovered
      bound := hs.bound
      calibrated := fun _ => hcal
      backup := fun h0 => absurd h0 hzero
      data := hs.data
      life := by
        refine (lives_running ?_ ?_ ?_).mpr hrunning
        exacts [hcal, rfl, hpos]
      clockOn := hs.clockOn
      clockOff := fun h0 => absurd h0 hclock.ne'
      others := hs.others }

end Spec

/-! ## What a run keeps -/

/-- The handles that hold only the clock, the guards, and those that were forgotten. -/
def clockHolders (s : Statics D) : Nat := total Stage.clocks s.handles

def phyHolders (s : Statics D) : Nat := total Stage.phys s.handles

def forgotten (s : Statics D) : Nat := total Stage.forgottens s.handles

/-- The invariant of a run. -/
structure Inv (cfg : Config) (loaded : List CalibrationData) (reg : BitVec 32) (s : Statics D) :
    Prop extends s.Sound cfg loaded reg where
  clocks : s.phyClockRefCounter = s.phyState.refCount + s.clockHolders
  phys : s.panic ≠ some .refCountBelowZero → s.phyState.refCount + s.disables = s.phyHolders
  /-- A run ends early when the counter of the clock is full, or when one call of `disable_phy`
  was for no forgotten guard. -/
  panics : s.panic = none ∨ s.panic = some .clockOverflowed ∧ s.phyClockRefCounter = 255 ∨
    s.panic = some .refCountBelowZero ∧ s.forgotten < s.disables

theorem Inv.start (reg : BitVec 32) (regs : D) :
    (Statics.start reg regs).Inv cfg loaded reg where
  covered := Nat.le_refl 0
  bound := Nat.zero_lt_succ 255
  calibrated := fun h => absurd h (Nat.lt_irrefl 0)
  backup := fun _ h => absurd h Bool.false_ne_true
  data := fun _ _ h => by cases h
  life := .nil
  clockOn := fun h => absurd h (Nat.lt_irrefl 0)
  clockOff := fun _ => Or.inl rfl
  others := rfl
  clocks := rfl
  phys := fun _ => rfl
  panics := Or.inl rfl

/-- What the counters show does not depend on the handles. -/
theorem Sound.of_handles {reg : BitVec 32} {s : Statics D} (hs : s.Sound cfg loaded reg)
    (handles : List Stage) (disables : Nat) :
    ({ s with handles := handles, disables := disables } : Statics D).Sound cfg loaded reg where
  covered := hs.covered
  bound := hs.bound
  calibrated := hs.calibrated
  backup := hs.backup
  data := hs.data
  life := hs.life
  clockOn := hs.clockOn
  clockOff := hs.clockOff
  others := hs.others

theorem forgotten_le_phyHolders (s : Statics D) : s.forgotten ≤ s.phyHolders :=
  total_mono Stage.forgottens_le_phys s.handles

/-- A guard that was not forgotten. -/
theorem forgotten_lt_phyHolders {s : Statics D} {i : Nat} (h : s.handles[i]? = some .live) :
    s.forgotten < s.phyHolders := by
  have hforgotten := total_set Stage.forgottens h .dropped
  have hphys := total_set Stage.phys h .dropped
  have hle := total_mono Stage.forgottens_le_phys (s.handles.set i .dropped)
  simp only [Stage.forgottens, Stage.phys] at hforgotten hphys
  rw [forgotten, phyHolders]
  omega

theorem decreaseRefCount_belowZero {s : Statics D} (h : s.phyState.refCount = 0) :
    s.decreaseRefCount vendor = .error .refCountBelowZero := by
  rw [Statics.decreaseRefCount, h]

/-- The state after a section, from what it leaves in the counters. -/
theorem Leaves.inv {reg : BitVec 32} {s t : Statics D} {clock phy : Nat}
    (hleaves : Leaves cfg loaded reg s t clock phy) (hpanic : s.panic = none)
    {handles : List Stage} (hclocks : clock = phy + total Stage.clocks handles)
    (hphys : phy + s.disables = total Stage.phys handles) :
    ({ t with handles := handles } : Statics D).Inv cfg loaded reg :=
  { hleaves.sound.of_handles handles t.disables with
    clocks := by
      rw [hleaves.clock, hleaves.phy]
      exact hclocks
    phys := fun _ => by
      rw [hleaves.phy, hleaves.disables]
      exact hphys
    panics := Or.inl (hleaves.panic.trans hpanic) }

section Steps

variable {reg : BitVec 32} {s s' : Statics D} (hs : s.Inv cfg loaded reg) (hpanic : s.panic = none)

include hs

/-- There are fewer references to the PHY than to the clock while a handle holds only the clock. -/
theorem Inv.refCount_lt {i : Nat} {a : Stage} (h : s.handles[i]? = some a) (hclock : a.clocks = 1) :
    s.phyState.refCount < s.phyClockRefCounter := by
  have hclocks := le_total Stage.clocks h
  rw [hs.clocks, clockHolders]
  omega

include hpanic

theorem Inv.counted : s.phyState.refCount + s.disables = s.phyHolders :=
  hs.phys (by rw [hpanic]; exact fun h => by cases h)

/-- A section of a handle that leaves the counters as its next stage has them. -/
theorem Inv.advance {i : Nat} {a b : Stage} {body : Statics D → Except Panic (Statics D)}
    (hbody : s.handles[i]? = some a → ∃ t, body s = .ok t ∧
      Leaves cfg loaded reg s t
        (s.phyClockRefCounter + (b.clocks + b.phys) - (a.clocks + a.phys))
        (s.phyState.refCount + b.phys - a.phys))
    (h : s.advance i a b body = some s') (hle : a.phys ≤ s.phyState.refCount + b.phys) :
    s'.Inv cfg loaded reg := by
  rw [Statics.advance] at h
  split at h
  next hi =>
    obtain ⟨t, ht, hleaves⟩ := hbody hi
    rw [ht] at h
    obtain rfl : t.move i b = s' := Option.some.inj h
    have hclocks := total_set Stage.clocks hi b
    have hphys := total_set Stage.phys hi b
    have hclock := hs.clocks
    have hphy := hs.counted hpanic
    rw [clockHolders] at hclock
    rw [phyHolders] at hphy
    rw [Statics.move, hleaves.handles]
    refine hleaves.inv hpanic ?_ ?_ <;> omega
  next => cases h

/-- A new clock reference. -/
theorem Inv.create {a : Stage} (hclock : a.clocks = 1) (hphy : a.phys = 0)
    (h : some (s.settle (s.increasePhyClockRefCount.map (·.create a))) = some s') :
    s'.Inv cfg loaded reg := by
  by_cases hlt : s.phyClockRefCounter < 255
  · obtain ⟨t, ht, hleaves⟩ := hs.toSound.increasePhyClockRefCount hlt
    rw [ht] at h
    obtain rfl : t.create a = s' := Option.some.inj h
    rw [Statics.create, hleaves.handles]
    refine hleaves.inv hpanic ?_ ?_
    · rw [total_concat, hclock, hs.clocks, clockHolders, Nat.add_assoc]
    · rw [total_concat, hphy, hs.counted hpanic, phyHolders, Nat.add_zero]
  · -- the counter is full
    have hfull : s.phyClockRefCounter = 255 := by
      have := hs.bound
      omega
    have herror : s.increasePhyClockRefCount = .error .clockOverflowed := by
      rw [Statics.increasePhyClockRefCount, if_neg (by omega)]
    rw [herror] at h
    obtain rfl : { s with panic := some .clockOverflowed } = s' := Option.some.inj h
    exact { hs with
      phys := fun _ => hs.counted hpanic
      panics := Or.inr (Or.inl ⟨rfl, hfull⟩) }

/-- A drop panics when calls of `disable_phy` have returned the reference of the guard. -/
theorem Inv.drop {i : Nat}
    (h : s.advance i .live .disabling (decreaseRefCount vendor) = some s') :
    s'.Inv cfg loaded reg := by
  by_cases hphy : s.phyState.refCount = 0
  · rw [Statics.advance] at h
    split at h
    next hi =>
      rw [decreaseRefCount_belowZero hphy] at h
      obtain rfl : { s with panic := some .refCountBelowZero } = s' := Option.some.inj h
      have hcounted := hs.counted hpanic
      have hlt := forgotten_lt_phyHolders hi
      have hdisables : s.forgotten < s.disables := by omega
      exact { hs with
        phys := fun h0 => absurd rfl h0
        panics := Or.inr (Or.inr ⟨rfl, hdisables⟩) }
    next => cases h
  · have hpos : 0 < s.phyState.refCount := Nat.pos_of_ne_zero hphy
    exact hs.advance hpanic (fun _ => hs.toSound.decreaseRefCount hpos) h hpos

/-- `disable_phy` returns a reference if there is one, whoever holds it. -/
theorem Inv.disablePhy
    (h : some (s.countDisable.settle
      ((s.countDisable.decreaseRefCount vendor).map (·.create .disabling))) = some s') :
    s'.Inv cfg loaded reg := by
  have hcounted := hs.counted hpanic
  have hsound : s.countDisable.Sound cfg loaded reg := hs.toSound.of_handles s.handles _
  by_cases hphy : s.phyState.refCount = 0
  · have hzero : s.countDisable.phyState.refCount = 0 := hphy
    rw [decreaseRefCount_belowZero hzero] at h
    obtain rfl : { s.countDisable with panic := some .refCountBelowZero } = s' := Option.some.inj h
    have hdisables : s.forgotten < s.disables + 1 := by
      have := s.forgotten_le_phyHolders
      omega
    exact { hsound with
      clocks := hs.clocks
      phys := fun h0 => absurd rfl h0
      panics := Or.inr (Or.inr ⟨rfl, hdisables⟩) }
  · have hpos : 0 < s.phyState.refCount := Nat.pos_of_ne_zero hphy
    obtain ⟨t, ht, hleaves⟩ := hsound.decreaseRefCount hpos
    rw [ht] at h
    obtain rfl : t.create .disabling = s' := Option.some.inj h
    have hclock := hs.clocks
    rw [clockHolders] at hclock
    rw [phyHolders] at hcounted
    rw [Statics.create, hleaves.handles]
    refine hleaves.inv hpanic ?_ ?_
    · rw [total_concat]
      simp only [countDisable, Stage.clocks]
      omega
    · rw [total_concat]
      simp only [countDisable, Stage.phys]
      omega

end Steps

theorem Inv.step {reg : BitVec 32} {s s' : Statics D} {e : Event D} (hs : s.Inv cfg loaded reg)
    (hloaded : ∀ data ∈ e.loaded, data ∈ loaded) (h : s.step cfg vendor e = some s') :
    s'.Inv cfg loaded reg := by
  unfold Statics.step at h
  split at h
  next => cases h
  next hnone =>
    have hpanic : s.panic = none := by simpa using hnone
    cases e with
    | enablePhyClock => exact hs.create hpanic rfl rfl h
    | enablePhy => exact hs.create hpanic rfl rfl h
    | increaseRefCount i =>
        refine hs.advance hpanic (fun hi => ?_) h (Nat.zero_le _)
        exact hs.toSound.increaseRefCount (hs.refCount_lt hi rfl)
    | forget i =>
        refine hs.advance hpanic (fun _ => ?_) h (Nat.le_add_left 1 _)
        exact ⟨s, rfl, hs.toSound, rfl, rfl, rfl, rfl, rfl⟩
    | drop i => exact hs.drop hpanic h
    | disablePhy => exact hs.disablePhy hpanic h
    | releaseClock i =>
        refine hs.advance hpanic (fun hi => ?_) h (Nat.zero_le _)
        exact hs.toSound.decreasePhyClockRefCount (hs.refCount_lt hi rfl)
    | dropClock i =>
        refine hs.advance hpanic (fun hi => ?_) h (Nat.zero_le _)
        exact hs.toSound.decreasePhyClockRefCount (hs.refCount_lt hi rfl)
    | setPhyCalibrationData data =>
        obtain rfl : s.setPhyCalibrationData data = s' := Option.some.inj h
        rw [Statics.setPhyCalibrationData]
        split
        · exact hs
        · exact { hs with data := fun _ d hd => Option.some.inj hd ▸ hloaded data rfl }
    | registers regs =>
        obtain rfl : { s with regs := regs } = s' := Option.some.inj h
        exact { hs with }

end Statics

open Statics

variable {D : Type} {cfg : Config} {vendor : Vendor D}

/-- The data that callers load in a run. -/
def loadedData (es : List (Event D)) : List CalibrationData := es.filterMap Event.loaded

theorem inv_of_run {reg : BitVec 32} {regs : D} {es : List (Event D)} {s : Statics D}
    (h : run (step cfg vendor) (start reg regs) es = some s) : s.Inv cfg (loadedData es) reg := by
  refine run_inv_of_meets (fun _ _ _ hs hloaded he => hs.step hloaded he) (.start reg regs) ?_ h
  refine meets_of_forall (fun e he _ data hdata => ?_) _
  exact List.mem_filterMap.mpr ⟨e, he, hdata⟩

/-- In every state of every run the counter of the PHY is the number of guards less the calls of
`disable_phy`, and the counter of the clock is larger by the handles that hold only the clock.
The clock is on while its counter is not zero and off after the last reference, and the other
bits of the clock register are those of the start.  A run panics only at a clock reference
beyond 255, or after more calls of `disable_phy` than guards were forgotten. -/
theorem counters_of_run {reg : BitVec 32} {regs : D} {es : List (Event D)} {s : Statics D}
    (h : run (step cfg vendor) (start reg regs) es = some s) :
    s.phyClockRefCounter = s.phyState.refCount + s.clockHolders ∧ s.phyClockRefCounter ≤ 255 ∧
      (s.panic ≠ some .refCountBelowZero →
        s.phyState.refCount + s.disables = s.phyHolders) ∧
      (0 < s.phyClockRefCounter → s.wifiClkEn &&& wifiBtCommonM = wifiBtCommonM) ∧
      (s.phyClockRefCounter = 0 → s.calls = [] ∨ s.wifiClkEn &&& wifiBtCommonM = 0) ∧
      s.wifiClkEn &&& ~~~wifiBtCommonM = reg &&& ~~~wifiBtCommonM ∧
      (s.panic = none ∨ s.panic = some .clockOverflowed ∧ s.phyClockRefCounter = 255 ∨
        s.panic = some .refCountBelowZero ∧ s.forgotten < s.disables) := by
  have hinv := inv_of_run h
  exact ⟨hinv.clocks, Nat.le_of_lt_succ hinv.bound, hinv.phys, hinv.clockOn, hinv.clockOff,
    hinv.others, hinv.panics⟩

/-- Options and a vendor library for a run. -/
def plainConfig : Config := ⟨4, false, false, false⟩

def plainVendor : Vendor Nat := ⟨fun data _ => (0, data), fun _ _ => 0⟩

/-- The PHY is enabled by two tasks at once, closed, and enabled again. -/
def reopenEvents : List (Event Nat) :=
  [.enablePhy, .enablePhy, .increaseRefCount 1, .registers 5, .increaseRefCount 0, .drop 1,
    .forget 0, .enablePhyClock, .releaseClock 1, .disablePhy, .releaseClock 3, .enablePhy,
    .increaseRefCount 4, .dropClock 2]

/-- `disable_phy` is called for a guard that is alive, and then the guard is dropped. -/
def unbalancedEvents : List (Event Nat) :=
  [.enablePhy, .increaseRefCount 0, .disablePhy, .releaseClock 1, .drop 0]

theorem counters_of_run_reopen :
    (∃ s, run (step plainConfig plainVendor) (start 1 0) reopenEvents = some s ∧
      s.panic = none ∧ s.phyState.refCount = 1 ∧
      s.wifiClkEn &&& wifiBtCommonM = wifiBtCommonM) ∧
    ∃ s, run (step plainConfig plainVendor) (start 1 0) unbalancedEvents = some s ∧
      s.panic = some .refCountBelowZero ∧ s.wifiClkEn &&& wifiBtCommonM = 0 := by
  have hrun : run (step plainConfig plainVendor) (start 1 0) reopenEvents = some _ := rfl
  have hpanics : run (step plainConfig plainVendor) (start 1 0) unbalancedEvents = some _ := rfl
  refine ⟨⟨_, hrun, rfl, rfl, (counters_of_run hrun).2.2.2.1 (by decide)⟩, ⟨_, hpanics, rfl, ?_⟩⟩
  exact ((counters_of_run hpanics).2.2.2.2.1 rfl).resolve_left (by decide)

end EspPhy

end EspWifiHal
