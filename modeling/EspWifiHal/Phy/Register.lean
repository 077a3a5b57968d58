import EspWifiHal.Phy.Calibration

/-!
# Registering the PHY

`register` initializes the PHY once.  It checks the calibration blob of the caller, then
restores the calibration from it or calibrates and writes a new blob.

Everything outside of the module (the callbacks of the ROM table, the functions of the
vendor library, the RF and baseband setup) is a `BoundaryCall`.  A `Boundary` is any
behaviour of these calls that keeps the blob and the flag at parameter 229.
-/

namespace EspWifiHal

open Memory

/-! ## Calls -/

/-- The functions that are called by name. -/
inductive PhyFunction where
  | rom1I2cMasterReset
  | phyGetRfCalVersion
  | getTempInit
  | chipV7SetChanOffset
  | romPhyBbpllCal
  | getIqValue
deriving DecidableEq, Repr

/-- A call that leaves the module, with its arguments. -/
inductive BoundaryCall where
  | callbacks
  | rf
  | bb
  | callback (offset : Nat) (args : List Nat)
  | invoke (function : PhyFunction) (args : List Nat)
deriving DecidableEq, Repr

/-- What a call returns and how it changes the memory. -/
abbrev PhyCalls := BoundaryCall → ByteMem → BitVec 32 × ByteMem

/-- The functions of the module that `register` calls through `child`. -/
inductive PhyChild where
  | chipVersion
  | powerLimits
  | callbacks
  | initParam
  | check (checkOnly : Bool)
  | recovery
  | checkValue (compare : Bool)
  | rf
  | bb
  | backup
deriving DecidableEq, Repr

/-- The memory, and the children that were called. -/
structure PhyState where
  memory : ByteMem
  children : List PhyChild

namespace PhyState

def update (s : PhyState) (f : ByteMem → ByteMem) : PhyState := { s with memory := f s.memory }

def child (s : PhyState) (c : PhyChild) : PhyState := { s with children := s.children ++ [c] }

def call (s : PhyState) (calls : PhyCalls) (c : BoundaryCall) : BitVec 32 × PhyState :=
  ((calls c s.memory).1, s.update fun m => (calls c m).2)

end PhyState

/-- The offset of a callback in the table of the chip. -/
def PhyChip.slot (chip : PhyChip) (s3 c3 : Nat) : Nat :=
  match chip with
  | .esp32s3 => s3
  | .esp32c3 => c3

inductive RegisterBuffer where
  | param
  | data
  | ctrl
  | defaults
  | scratch
  | initDefaults
  | limits
  | first
  | second
deriving DecidableEq, Repr

def RegisterBuffer.size (chip : PhyChip) : RegisterBuffer → Nat
  | .param => chip.paramSize
  | .data => chip.paramSize + 16
  | .ctrl => 42
  | .defaults => 128
  | .scratch => 96
  | .initDefaults => 20
  | .limits => 28
  | .first => 2
  | .second => 2

/-- The register that `register` writes near its end. -/
def bbpllRegister : Nat := 0x6001cd0c

/-- The buffers are in RAM, outside of the registers. -/
structure RegisterBuffers (chip : PhyChip) extends
    Regions RegisterBuffer (RegisterBuffer.size chip) where
  registers : ∀ r, base r + r.size chip ≤ bbpllRegister ∨ bbpllRegister + 4 ≤ base r

/-! ## Comparing calibrations -/

section CheckValue

variable (chip : PhyChip) (calls : PhyCalls) (base : RegisterBuffer → Nat)

/-- The parameters that are stored to be compared later: offset, place in the reference, number
and width. -/
def snapshotTable : List (Nat × Nat × Nat × Nat) :=
  [(292, 0, 20, 2), (386, 40, 12, 2), (332, 64, 6, 2), (384, 76, 1, 2), (370, 78, 3, 1),
    (374, 81, 3, 1), (344, 84, 9, 1)]

def snapshot (reference : Nat) (m : ByteMem) : ByteMem :=
  snapshotTable.foldl
    (fun m (source, dest, count, width) =>
      (List.range count).foldl
        (fun m i =>
          let v := read m (base .param + source + i * width) width
          write m (reference + dest + i * width) width v)
        m)
    m

/-- Counts a difference of more than 4. -/
def countDifference (delta : BitVec 32) (r : BitVec 32 × PhyState) : BitVec 32 × PhyState :=
  let (differences, s) := r
  let (distance, s) := s.call calls (.callback (chip.slot 0xec 0x100) [delta.toNat])
  (if distance.toInt > 4 then (differences + 1) &&& 65535 else differences, s)

/-- The first two halfwords of groups of eight bytes. -/
def compareGroups (reference : Nat) (r : BitVec 32 × PhyState) : BitVec 32 × PhyState :=
  [(292, 0, 5), (386, 40, 3)].foldl
    (fun r (source, dest, count) =>
      (List.range count).foldl
        (fun r i =>
          (List.range 2).foldl
            (fun r j =>
              let a := read r.2.memory (reference + dest + i * 8 + j * 2) 2
              let b := read r.2.memory (base .param + source + i * 8 + j * 2) 2
              countDifference chip calls (a - b) r)
            r)
        r)
    r

/-- Both coordinates of halfwords that `get_iq_value` decodes to two bytes. -/
def compareIq (reference : Nat) (r : BitVec 32 × PhyState) : BitVec 32 × PhyState :=
  [(332, 64, 2, 0), (336, 68, 4, 1), (384, 76, 1, 0)].foldl
    (fun r (source, dest, count, mode) =>
      (List.range count).foldl
        (fun r i =>
          let (differences, s) := r
          let v := read s.memory (reference + dest + i * 2) 2
          let (_, s) := s.call calls (.invoke .getIqValue [base .first, v.toNat, mode])
          let v := read s.memory (base .param + source + i * 2) 2
          let (_, s) := s.call calls (.invoke .getIqValue [base .second, v.toNat, mode])
          (List.range 2).foldl
            (fun r j =>
              let a := read r.2.memory (base .first + j) 1
              let b := read r.2.memory (base .second + j) 1
              countDifference chip calls (BitVec.ofInt 32 (sb a - sb b)) r)
            (differences, s))
        r)
    r

def compareBytes (reference : Nat) (r : BitVec 32 × PhyState) : BitVec 32 × PhyState :=
  [(370, 78, 3, true), (374, 81, 3, true), (344, 84, 9, false)].foldl
    (fun r (source, dest, count, isSigned) =>
      (List.range count).foldl
        (fun r i =>
          let a := read r.2.memory (reference + dest + i) 1
          let b := read r.2.memory (base .param + source + i) 1
          let delta := if isSigned then BitVec.ofInt 32 (sb a - sb b) else a - b
          countDifference chip calls delta r)
        r)
    r

def checkValue (reference : Nat) (compare : BitVec 32) (s : PhyState) : BitVec 32 × PhyState :=
  if chip.byte compare = 0 then
    let s := (s.child .recovery).update (recovery chip (base .param) (base .data))
    (0, s.update (snapshot base reference))
  else
    compareBytes chip calls base reference
      (compareIq chip calls base reference (compareGroups chip calls base reference (0, s)))

end CheckValue

/-! ## The function -/

section Register

variable (chip : PhyChip) (calls : PhyCalls) (base : RegisterBuffer → Nat) (input : Nat)

/-- `chip_version` with `package`, which reads the fuses. -/
def chipVersion (p : Nat) (m : ByteMem) : ByteMem :=
  write m (p + 525) 1 ((read m 0x60007050 4 >>> 21) &&& 7)

/-- The buffers of `init_param` for the init data at `input`. -/
def RegisterBuffer.init (input : Nat) : InitBuffer → Nat
  | .param => base .param
  | .ctrl => base .ctrl
  | .input => input
  | .defaults => base .initDefaults
  | .limits => base .limits

/-- The default init data and the arguments. -/
def registerDefaults (mode : BitVec 32) (s : PhyState) : PhyState :=
  let p := base .param
  let d := base .defaults
  let s := s.update fun m => fill m d 128 fun _ => 0
  match chip with
  | .esp32s3 =>
      let s := s.update (seedDefaults d 0)
      let s := (s.child .chipVersion).update (chipVersion p)
      (s.child .powerLimits).update (powerLimits p (base .limits) d)
  | .esp32c3 =>
      let s := s.update (seedDefaults d 2)
      let s := s.update fun m => write m d 1 2
      s.update fun m => write m (p + 162) 1 mode

/-- The setup before the parameters are used. -/
def registerSetup (s : PhyState) : PhyState :=
  let s := ((s.child .callbacks).call calls .callbacks).2
  let s := (s.call calls (.callback (chip.slot 0x204 0x228) [])).2
  match chip with
  | .esp32s3 => (s.call calls (.callback 0x234 [])).2
  | .esp32c3 => (s.call calls (.invoke .rom1I2cMasterReset [])).2

/-- The flag of an initialized PHY. -/
def initialized (s : PhyState) : BitVec 32 := read s.memory (base .param + 229) 1

def registerInit (s : PhyState) : PhyState :=
  let source := if input = 0 then base .defaults else input
  (s.child .initParam).update (initParam chip (RegisterBuffer.init base source))

/-- Whether the blob is used: the mode, the status and the state after the check. -/
def registerCheck (mode : BitVec 32) (s : PhyState) : BitVec 32 × BitVec 32 × PhyState :=
  let p := base .param
  let data := base .data
  let (version, s) := s.call calls (.invoke .phyGetRfCalVersion [])
  let (status, m) := check chip 1 data input version s.memory
  let s := (s.child (.check true)).update fun _ => m
  let mode := if mode = 1 ∧ status ≠ 0 then 2 else mode
  if mode = 1 then
    let s := (s.child .recovery).update (recovery chip p data)
    let flags := read s.memory (p + 288) 4
    (mode, status, s.update fun m => write m (p + 288) 4 (flags &&& 0xfffefddf))
  else
    let s :=
      if status = 0 then
        (checkValue chip calls base (base .scratch) 0 (s.child (.checkValue false))).2
      else s
    (mode, status, s.update fun m => write m (p + 288) 4 0)

/-- The RF, the baseband and the temperature sensor. -/
def registerCalibrate (s : PhyState) : PhyState :=
  let flags := read s.memory (base .param + 288) 4
  let s := ((s.child .rf).call calls .rf).2
  let s := ((s.child .bb).call calls .bb).2
  (s.call calls (.invoke .getTempInit
    [((flags >>> 5 ^^^ 1) &&& 1).toNat, ((flags >>> 20 ^^^ 1) &&& 1).toNat])).2

/-- Compares with the blob, if it was valid. -/
def registerCompare (status : BitVec 32) (s : PhyState) : BitVec 32 × PhyState :=
  if status = 0 then
    let (differences, s) :=
      checkValue chip calls base (base .scratch) 1 (s.child (.checkValue true))
    (if differences ≠ 0 then 1 else 0, s)
  else (status, s)

/-- Writes a new blob. -/
def registerStore (s : PhyState) : PhyState :=
  let data := base .data
  let s := (s.child .backup).update (backup chip (base .param) data)
  let (version, s) := s.call calls (.invoke .phyGetRfCalVersion [])
  (s.child (.check false)).update fun m => (check chip 0 data input version m).2

def registerFinish (s : PhyState) : PhyState :=
  let p := base .param
  let s :=
    if initialized base s = 0 ∧ read s.memory (p + 286) 1 ≠ 0 then
      (s.call calls (.invoke .chipV7SetChanOffset [0])).2
    else s
  let s :=
    match chip with
    | .esp32s3 => (s.call calls (.callback 0x240 [0])).2
    | .esp32c3 => (s.call calls (.invoke .romPhyBbpllCal [0])).2
  let s := s.update fun m => write m bbpllRegister 4 23
  let s := (s.call calls (.callback (chip.slot 0x188 0x1ac) [99, 1, 0])).2
  let s := s.update fun m => write m (p + 229) 1 1
  (s.call calls (.callback (chip.slot 0x200 0x224) [])).2

/-- `register` up to the parameters that the calibration starts from. -/
def registerPrepared (mode : BitVec 32) (s : PhyState) : BitVec 32 × BitVec 32 × PhyState :=
  let s := registerSetup chip calls (registerDefaults chip base mode s)
  let mode := chip.byte mode
  let cold := initialized base s = 0
  let s := if cold then registerInit chip base input s else s
  let (mode, status, s) :=
    -- S3 reads the flag again even when it was set
    if (chip = .esp32s3 ∨ cold) ∧ initialized base s = 0 then
      registerCheck chip calls base input mode s
    else (mode, 0, s)
  (mode, status, s)

def register (mode : BitVec 32) (s : PhyState) : BitVec 32 × PhyState :=
  let (mode, status, s) := registerPrepared chip calls base input mode s
  let s := registerCalibrate calls base s
  let (status, s) :=
    if initialized base s = 0 ∧ mode ≠ 1 then
      let (status, s) := registerCompare chip calls base status s
      (status, registerStore chip calls base input s)
    else (status, s)
  (status, registerFinish chip calls base s)

end Register

/-! ## What is kept -/

/-- The blob and the flag are the same in both memories. -/
structure Kept (chip : PhyChip) (base : RegisterBuffer → Nat) (m m' : ByteMem) : Prop where
  blob : ∀ i < chip.paramSize + 16, m' (base .data + i) = m (base .data + i)
  flag : m' (base .param + 229) = m (base .param + 229)

/-- Calls that keep the blob and the flag, with a fixed version of the calibration. -/
structure Boundary (chip : PhyChip) (base : RegisterBuffer → Nat) (version : BitVec 32) where
  calls : PhyCalls
  calVersion : ∀ m, (calls (.invoke .phyGetRfCalVersion []) m).1 = version
  kept : ∀ c m, Kept chip base m (calls c m).2

section Kept

variable {chip : PhyChip} {m m₁ m₂ : ByteMem} {base : RegisterBuffer → Nat}

theorem Kept.refl (m : ByteMem) : Kept chip base m m := ⟨fun _ _ => rfl, rfl⟩

theorem Kept.trans (h : Kept chip base m m₁) (h' : Kept chip base m₁ m₂) : Kept chip base m m₂ :=
  ⟨fun i hi => (h'.blob i hi).trans (h.blob i hi), h'.flag.trans h.flag⟩

theorem Kept.foldl {α : Type} {body : ByteMem → α → ByteMem} {xs : List α}
    (hbody : ∀ m, ∀ x ∈ xs, Kept chip base m (body m x)) (m : ByteMem) :
    Kept chip base m (xs.foldl body m) :=
  List.foldlRecOn xs body (Kept.refl m) fun m' h x hx => h.trans (hbody m' x hx)

variable (B : RegisterBuffers chip) {a n : Nat} {f : Nat → BitVec 8}

/-- A store to a buffer of its own. -/
theorem kept_local (m : ByteMem) (r : RegisterBuffer) (size : Nat) (hsize : r.size chip = size)
    (hr : r ≠ .data ∧ r ≠ .param) (hlow : B.base r ≤ a) (hhigh : a + n ≤ B.base r + size) :
    Kept chip B.base m (fill m a n f) := by
  have hle := chip.le_paramSize
  constructor
  · intro i hi
    have hseparate : B.base r + r.size chip ≤ B.base .data ∨
        B.base .data + (chip.paramSize + 16) ≤ B.base r := B.separate r .data hr.1
    exact fill_of_not_mem (by omega)
  · have hseparate : B.base r + r.size chip ≤ B.base .param ∨
        B.base .param + chip.paramSize ≤ B.base r := B.separate r .param hr.2
    exact fill_of_not_mem (by omega)

/-- A store to other parameters. -/
theorem kept_param (m : ByteMem) (hlow : B.base .param ≤ a)
    (hflag : a + n ≤ B.base .param + 229 ∨ B.base .param + 230 ≤ a)
    (hhigh : a + n ≤ B.base .param + 740) : Kept chip B.base m (fill m a n f) := by
  have hsize := chip.le_paramSize
  constructor
  · intro i hi
    have hseparate : B.base .param + chip.paramSize ≤ B.base .data ∨
        B.base .data + (chip.paramSize + 16) ≤ B.base .param :=
      B.separate .param .data (by decide)
    exact fill_of_not_mem (by omega)
  · exact fill_of_not_mem (by omega)

theorem kept_register (m : ByteMem) :
    Kept chip B.base m (fill m bbpllRegister 4 f) := by
  have hsize := chip.le_paramSize
  constructor
  · intro i hi
    have hregisters : B.base .data + (chip.paramSize + 16) ≤ bbpllRegister ∨
        bbpllRegister + 4 ≤ B.base .data := B.registers .data
    exact fill_of_not_mem (by omega)
  · have hregisters : B.base .param + chip.paramSize ≤ bbpllRegister ∨
        bbpllRegister + 4 ≤ B.base .param := B.registers .param
    exact fill_of_not_mem (by omega)

/-! ## The children -/

theorem kept_limitTables (m : ByteMem) :
    Kept chip B.base m (limitTables (B.base .limits) m) := by
  rw [limitTables]
  have hfirst := kept_local B m (f := fun i => readonly (0 + i)) .limits 28 rfl (by decide)
    (Nat.le_add_right _ 14) (Nat.le_refl (B.base .limits + 14 + 14))
  exact hfirst.trans (kept_local B _ .limits 28 rfl (by decide) (Nat.le_refl _) (by omega))

theorem kept_powerLimits (m : ByteMem) (r : RegisterBuffer) (size : Nat)
    (hsize : r.size chip = size) (hr : r ≠ .data ∧ r ≠ .param) (hle : 16 ≤ size) :
    Kept chip B.base m (powerLimits (B.base .param) (B.base .limits) (B.base r) m) := by
  refine (kept_limitTables B m).trans (Kept.foldl (fun m i hi => ?_) _)
  have hlt : i < 14 := List.mem_range.mp hi
  exact kept_local B m r size hsize hr (by omega) (by omega)

theorem kept_seedDefaults (m : ByteMem) (first : BitVec 32) (r : RegisterBuffer) (size : Nat)
    (hsize : r.size chip = size) (hr : r ≠ .data ∧ r ≠ .param) (hle : 16 ≤ size) :
    Kept chip B.base m (seedDefaults (B.base r) first m) := by
  rw [seedDefaults_eq]
  exact kept_local B m r size hsize hr (Nat.le_refl _) (by omega)

theorem kept_initCeilings (m : ByteMem) (input : Nat) :
    Kept chip B.base m (initCeilings chip (RegisterBuffer.init B.base input) m) := by
  have hseed (m : ByteMem) (first : BitVec 32) :=
    kept_seedDefaults B m first .initDefaults 20 rfl (by decide) (by decide)
  cases chip with
  | esp32s3 =>
      refine Kept.trans ?_ (hseed _ 0)
      exact kept_local B m .initDefaults 20 rfl (by decide) (Nat.le_refl _) (Nat.le_refl _)
  | esp32c3 =>
      refine (hseed m 2).trans ?_
      exact kept_local B _ .initDefaults 20 rfl (by decide) (Nat.le_add_right _ 16)
        (Nat.le_refl _)

theorem kept_initPower (m : ByteMem) (input : Nat) {i : Nat} (hi : i < 16) :
    Kept chip B.base m (initPower (RegisterBuffer.init B.base input) m i) := by
  have hpower (m : ByteMem) (v : BitVec 32) :
      Kept chip B.base m (write m (B.base .param + 242 + i) 1 v) :=
    kept_param B m (by omega) (by omega) (by omega)
  simp only [initPower]
  split
  · exact (hpower m _).trans (hpower _ _)
  · exact hpower m _

theorem kept_initRegulatory (m : ByteMem) (input : Nat) :
    Kept chip B.base m (initRegulatory (RegisterBuffer.init B.base input) m) := by
  simp only [initRegulatory, RegisterBuffer.init]
  have hfirst : Kept chip B.base m
      (write m (B.base .param + 260) 1 (read m (input + 18) 1)) :=
    kept_param B m (by omega) (by omega) (by omega)
  refine hfirst.trans (Kept.trans (Kept.foldl (fun m group hgroup => ?_) _)
    (Kept.foldl (fun m i hi => ?_) _))
  · have hlt : group < 3 := List.mem_range.mp hgroup
    refine Kept.foldl (fun m i hi => ?_) m
    have hlt' : i < 14 := List.mem_range.mp hi
    exact kept_local B m .ctrl 42 rfl (by decide) (by omega) (by omega)
  · have hlt : i < 9 := List.mem_range.mp hi
    exact kept_param B m (by omega) (by omega) (by omega)

theorem kept_initRest (m : ByteMem) (input : Nat) :
    Kept chip B.base m (initRest (RegisterBuffer.init B.base input) m) := by
  simp only [initRest, RegisterBuffer.init]
  have hparam (m : ByteMem) (k width : Nat) (hk : 230 ≤ k ∧ k + width ≤ 740) (v : BitVec 32) :
      Kept chip B.base m (write m (B.base .param + k) width v) :=
    kept_param B m (by omega) (by omega) (by omega)
  exact (((hparam _ 280 2 (by decide) _).trans (hparam _ 282 1 (by decide) _)).trans
    ((hparam _ 284 2 (by decide) _).trans (hparam _ 286 1 (by decide) _))).trans
    (hparam _ 287 1 (by decide) _)

theorem kept_initParam (m : ByteMem) (input : Nat) :
    Kept chip B.base m (initParam chip (RegisterBuffer.init B.base input) m) := by
  have hfirst (m : ByteMem) :
      Kept chip B.base m (initFirst (RegisterBuffer.init B.base input) m) := by
    simp only [initFirst, RegisterBuffer.init]
    have h₀ : Kept chip B.base m (write m (B.base .param + 242) 1 (read m input 1)) :=
      kept_param B m (by omega) (by omega) (by omega)
    exact h₀.trans (kept_param B _ (by omega) (by omega) (by omega))
  have hversion (m : ByteMem) :
      Kept chip B.base m (initVersion chip (RegisterBuffer.init B.base input) m) := by
    cases chip with
    | esp32s3 => exact kept_powerLimits B m .initDefaults 20 rfl (by decide) (by decide)
    | esp32c3 => exact Kept.refl m
  have hpowers (m : ByteMem) : Kept chip B.base m ((List.range 14).foldl
      (fun m i => initPower (RegisterBuffer.init B.base input) m (2 + i)) m) := by
    refine Kept.foldl (fun m i hi => ?_) m
    have hlt : i < 14 := List.mem_range.mp hi
    exact kept_initPower B m input (by omega)
  simp only [initParam]
  exact ((((kept_initCeilings B m input).trans (hfirst _)).trans (hversion _)).trans
    (hpowers _)).trans ((kept_initRegulatory B _ input).trans (kept_initRest B _ input))

theorem kept_recovery (m : ByteMem) :
    Kept chip B.base m (recovery chip (B.base .param) (B.base .data) m) := by
  have hparam (m : ByteMem) (k n : Nat) (hk : k + n ≤ 229 ∨ 230 ≤ k) (hn : k + n ≤ 740)
      (f : Nat → BitVec 8) : Kept chip B.base m (fill m (B.base .param + k) n f) :=
    kept_param B m (by omega) (by omega) (by omega)
  cases chip with
  | esp32s3 =>
      simp only [recovery, copy, write]
      exact ((hparam m 288 236 (by decide) (by decide) _).trans
        (hparam _ 218 2 (by decide) (by decide) _)).trans (hparam _ 220 2 (by decide) (by decide) _)
  | esp32c3 =>
      simp only [recovery, copy, write]
      exact ((hparam m 288 244 (by decide) (by decide) _).trans
        (hparam _ 218 2 (by decide) (by decide) _)).trans (hparam _ 220 2 (by decide) (by decide) _)

/-- The snapshot stays in the scratch buffer. -/
theorem kept_snapshot (m : ByteMem) : Kept chip B.base m (snapshot B.base (B.base .scratch) m) := by
  have hfits : ∀ entry ∈ snapshotTable, ∀ i < entry.2.2.1,
      entry.2.1 + i * entry.2.2.2 + entry.2.2.2 ≤ 96 := by decide
  refine Kept.foldl ?_ m
  rintro m ⟨source, dest, count, width⟩ hentry
  refine Kept.foldl (fun m i hi => ?_) m
  have hfit : dest + i * width + width ≤ 96 := hfits _ hentry i (List.mem_range.mp hi)
  exact kept_local B m .scratch 96 rfl (by decide) (by omega) (by omega)

end Kept

/-! ## Comparing -/

section Compare

variable {chip : PhyChip} {calls : PhyCalls} {base : RegisterBuffer → Nat} {P : ByteMem → Prop}
  {reference : Nat} {s : PhyState} {children : List PhyChild}

/-- The calls of a comparison keep a property of the memory. -/
structure ComparisonKeeps (chip : PhyChip) (calls : PhyCalls) (P : ByteMem → Prop) : Prop where
  distance : ∀ delta m, P m → P (calls (.callback (chip.slot 0xec 0x100) [delta]) m).2
  iqValue : ∀ args m, P m → P (calls (.invoke .getIqValue args) m).2

/-- The property holds and no child was called. -/
def Unchanged (P : ByteMem → Prop) (children : List PhyChild) (r : BitVec 32 × PhyState) : Prop :=
  P r.2.memory ∧ r.2.children = children

theorem countDifference_unchanged (hcalls : ComparisonKeeps chip calls P) (delta : BitVec 32)
    {r : BitVec 32 × PhyState} (h : Unchanged P children r) :
    Unchanged P children (countDifference chip calls delta r) :=
  ⟨hcalls.distance _ _ h.1, h.2⟩

theorem compareGroups_unchanged (hcalls : ComparisonKeeps chip calls P)
    {r : BitVec 32 × PhyState} (h : Unchanged P children r) :
    Unchanged P children (compareGroups chip calls base reference r) := by
  refine List.foldlRecOn _ _ h fun r h entry _ => ?_
  refine List.foldlRecOn _ _ h fun r h i _ => ?_
  exact List.foldlRecOn _ _ h fun r h j _ => countDifference_unchanged hcalls _ h

theorem compareIq_unchanged (hcalls : ComparisonKeeps chip calls P)
    {r : BitVec 32 × PhyState} (h : Unchanged P children r) :
    Unchanged P children (compareIq chip calls base reference r) := by
  refine List.foldlRecOn _ _ h fun r h entry _ => ?_
  refine List.foldlRecOn _ _ h fun r h i _ => ?_
  -- both halfwords are decoded first
  refine List.foldlRecOn _ _ ?_ fun r h j _ => countDifference_unchanged hcalls _ h
  exact ⟨hcalls.iqValue _ _ (hcalls.iqValue _ _ h.1), h.2⟩

theorem compareBytes_unchanged (hcalls : ComparisonKeeps chip calls P)
    {r : BitVec 32 × PhyState} (h : Unchanged P children r) :
    Unchanged P children (compareBytes chip calls base reference r) := by
  refine List.foldlRecOn _ _ h fun r h entry _ => ?_
  exact List.foldlRecOn _ _ h fun r h i _ => countDifference_unchanged hcalls _ h

theorem checkValue_compare (hcalls : ComparisonKeeps chip calls P)
    (base : RegisterBuffer → Nat) (reference : Nat) (s : PhyState) (h : P s.memory) :
    P (checkValue chip calls base reference 1 s).2.memory ∧
      (checkValue chip calls base reference 1 s).2.children = s.children := by
  have hcompare : ¬chip.byte 1 = 0 := by cases chip <;> decide
  rw [checkValue, if_neg hcompare]
  exact compareBytes_unchanged hcalls (compareIq_unchanged hcalls
    (compareGroups_unchanged hcalls (r := (0, s)) ⟨h, rfl⟩))

theorem checkValue_snapshot (B : RegisterBuffers chip) (calls : PhyCalls) (s : PhyState) :
    Kept chip B.base s.memory (checkValue chip calls B.base (B.base .scratch) 0 s).2.memory ∧
      (checkValue chip calls B.base (B.base .scratch) 0 s).2.children =
        s.children ++ [.recovery] := by
  have hsnapshot : chip.byte 0 = 0 := by cases chip <;> rfl
  rw [checkValue, if_pos hsnapshot]
  exact ⟨(kept_recovery B s.memory).trans (kept_snapshot B _), rfl⟩

end Compare

/-! ## The phases -/

/-- The children that read or write the blob. -/
def PhyChild.UsesBlob : PhyChild → Prop
  | .check _ => True
  | .recovery => True
  | .checkValue _ => True
  | .backup => True
  | _ => False

/-- The blob and the flag are kept and no child used the blob. -/
structure Quiet (chip : PhyChip) (base : RegisterBuffer → Nat) (s s' : PhyState) : Prop where
  kept : Kept chip base s.memory s'.memory
  children : ∀ c : PhyChild, c.UsesBlob → (c ∈ s'.children ↔ c ∈ s.children)

section Phases

variable {chip : PhyChip} {base : RegisterBuffer → Nat} {s s₁ s₂ : PhyState}

theorem Quiet.refl (s : PhyState) : Quiet chip base s s := ⟨Kept.refl _, fun _ _ => Iff.rfl⟩

theorem Quiet.trans (h : Quiet chip base s s₁) (h' : Quiet chip base s₁ s₂) :
    Quiet chip base s s₂ :=
  ⟨h.kept.trans h'.kept, fun c hc => (h'.children c hc).trans (h.children c hc)⟩

theorem Quiet.update (h : Quiet chip base s s₁) {f : ByteMem → ByteMem}
    (hf : ∀ m, Kept chip base m (f m)) : Quiet chip base s (s₁.update f) :=
  ⟨h.kept.trans (hf s₁.memory), h.children⟩

theorem Quiet.child (h : Quiet chip base s s₁) (c : PhyChild) (hc : ¬c.UsesBlob) :
    Quiet chip base s (s₁.child c) := by
  refine ⟨h.kept, fun c' hc' => ?_⟩
  have hne : c' ≠ c := fun heq => hc (heq ▸ hc')
  simpa [PhyState.child, hne] using h.children c' hc'

theorem Quiet.call {v : BitVec 32} (h : Quiet chip base s s₁) (E : Boundary chip base v)
    (c : BoundaryCall) : Quiet chip base s (s₁.call E.calls c).2 :=
  h.update fun m => E.kept c m

variable (B : RegisterBuffers chip) {v : BitVec 32} (E : Boundary chip B.base v) (input : Nat)

theorem registerDefaults_quiet (mode : BitVec 32) (s : PhyState) :
    Quiet chip B.base s (registerDefaults chip B.base mode s) := by
  have hclear : Quiet chip B.base s (s.update fun m => fill m (B.base .defaults) 128 fun _ => 0) :=
    (Quiet.refl s).update fun m =>
      kept_local B m .defaults 128 rfl (by decide) (Nat.le_refl _) (Nat.le_refl _)
  have hseed (first : BitVec 32) := hclear.update fun m =>
    kept_seedDefaults B m first .defaults 128 rfl (by decide) (by decide)
  cases chip with
  | esp32s3 =>
      refine ((((hseed 0).child .chipVersion id).update fun m => ?_).child .powerLimits
        id).update fun m => ?_
      · exact kept_param B m (by omega) (by omega) (by omega)
      · exact kept_powerLimits B m .defaults 128 rfl (by decide) (by decide)
  | esp32c3 =>
      rw [registerDefaults]
      refine ((hseed 2).update fun m => ?_).update fun m => ?_
      · exact kept_local B m .defaults 128 rfl (by decide) (Nat.le_refl _) (by omega)
      · exact kept_param B m (by omega) (by omega) (by omega)

theorem registerSetup_quiet (s : PhyState) :
    Quiet chip B.base s (registerSetup chip E.calls s) := by
  have hcallbacks := (((Quiet.refl s).child .callbacks id).call E .callbacks).call E
    (.callback (chip.slot 0x204 0x228) [])
  cases chip with
  | esp32s3 => exact hcallbacks.call E _
  | esp32c3 => exact hcallbacks.call E _

theorem registerInit_quiet (s : PhyState) :
    Quiet chip B.base s (registerInit chip B.base input s) :=
  ((Quiet.refl s).child .initParam id).update fun m => kept_initParam B m _

theorem registerCalibrate_quiet (s : PhyState) :
    Quiet chip B.base s (registerCalibrate E.calls B.base s) :=
  have hrf := ((Quiet.refl s).child .rf id).call E .rf
  ((hrf.child .bb id).call E .bb).call E _

theorem initialized_eq_zero_iff (s : PhyState) :
    initialized base s = 0 ↔ s.memory (base .param + 229) = 0 := by
  rw [initialized, read_one, ← BitVec.toNat_inj, ← BitVec.toNat_inj]
  simp
  omega

/-- The calls before the flag is written. -/
theorem registerFinish_quiet (s : PhyState) :
    ∃ t, Quiet chip B.base s t ∧ registerFinish chip E.calls B.base s =
      ((t.update fun m => write m (B.base .param + 229) 1 1).call E.calls
        (.callback (chip.slot 0x200 0x224) [])).2 := by
  refine ⟨_, ?_, rfl⟩
  refine Quiet.call (Quiet.update ?_ (kept_register B)) E _
  have hoffset : Quiet chip B.base s
      (if initialized B.base s = 0 ∧ read s.memory (B.base .param + 286) 1 ≠ 0 then
        (s.call E.calls (.invoke .chipV7SetChanOffset [0])).2 else s) := by
    split
    · exact (Quiet.refl s).call E _
    · exact Quiet.refl s
  cases chip with
  | esp32s3 => exact hoffset.call E _
  | esp32c3 => exact hoffset.call E _

/-- At the end the flag is set and the blob is the same. -/
theorem registerFinish_spec (s : PhyState) :
    let s' := registerFinish chip E.calls B.base s
    (∀ i < chip.paramSize + 16, s'.memory (B.base .data + i) = s.memory (B.base .data + i)) ∧
      s'.memory (B.base .param + 229) = 1 ∧
      ∀ c : PhyChild, c.UsesBlob → (c ∈ s'.children ↔ c ∈ s.children) := by
  obtain ⟨t, hquiet, hfinish⟩ := registerFinish_quiet B E s
  have hlast := E.kept (.callback (chip.slot 0x200 0x224) [])
    (write t.memory (B.base .param + 229) 1 1)
  have hsize := chip.le_paramSize
  rw [hfinish]
  intro s'
  refine ⟨fun i hi => ?_, ?_, hquiet.children⟩
  · have hseparate : B.base .param + chip.paramSize ≤ B.base .data ∨
        B.base .data + (chip.paramSize + 16) ≤ B.base .param :=
      B.separate .param .data (by decide)
    calc
      _ = write t.memory (B.base .param + 229) 1 1 (B.base .data + i) := hlast.blob i hi
      _ = t.memory (B.base .data + i) := fill_of_not_mem (by omega)
      _ = s.memory (B.base .data + i) := hquiet.kept.blob i hi
  · refine hlast.flag.trans ?_
    rw [write_one, fill_self]
    rfl

end Phases

/-! ## The check of the blob -/

section Check

variable {chip : PhyChip} {data : Nat} {m m' : ByteMem} {v : BitVec 32}

theorem check_compare_memory (input : Nat) (v : BitVec 32) (m : ByteMem) :
    (check chip 1 data input v m).2 = write m data 4 v := by
  have hcompare : chip.byte 1 ≠ 0 := by cases chip <;> decide
  rw [check, if_pos hcompare, macData_eq]

/-- The result depends on the blob only. -/
theorem check_congr (h : ∀ i < chip.paramSize + 16, m' (data + i) = m (data + i))
    (input input' : Nat) :
    (check chip 1 data input' v m').1 = (check chip 1 data input v m).1 := by
  have hwords := four_mul_checksumWord chip
  have hread : ∀ j ≤ checksumWord chip, read (write m' data 4 v) (data + 4 * j) 4 =
      read (write m data 4 v) (data + 4 * j) 4 := by
    intro j hj
    rw [read_write_version, read_write_version]
    split
    · rfl
    · refine read_congr fun i hi => ?_
      rw [Nat.add_assoc, h _ (by omega)]
  have hsum : wordSum chip data (write m' data 4 v) = wordSum chip data (write m data 4 v) :=
    wordSum_congr fun j hj => hread j (Nat.le_of_lt hj)
  rw [check_compare, check_compare, hsum, hread _ (Nat.le_refl _)]

/-- A blob that was checked with a version has it. -/
theorem check_again (h : ∀ i < chip.paramSize + 16, m' (data + i) = write m data 4 v (data + i))
    (input input' : Nat) :
    (check chip 1 data input' v m').1 = (check chip 1 data input v m).1 := by
  rw [check_congr h input input', check_compare, check_compare, write, write, fill_overwrite]

theorem write_version_congr (h : ∀ i < chip.paramSize + 16, m' (data + i) = m (data + i)) {i : Nat}
    (hi : i < chip.paramSize + 16) :
    write m' data 4 v (data + i) = write m data 4 v (data + i) := by
  simp only [write, fill]
  split
  · rfl
  · exact h i hi

end Check

/-- What is known after the blob in the memory of `s` was checked with version `v`: the mode, the
status and the state. -/
structure Checked (chip : PhyChip) (base : RegisterBuffer → Nat) (input : Nat) (v mode : BitVec 32)
    (s : PhyState) (r : BitVec 32 × BitVec 32 × PhyState) : Prop where
  mode : r.1 = 1 ↔ mode = 1 ∧ (check chip 1 (base .data) input v s.memory).1 = 0
  status : r.2.1 = (check chip 1 (base .data) input v s.memory).1
  flag : r.2.2.memory (base .param + 229) = s.memory (base .param + 229)
  backup : .backup ∈ r.2.2.children ↔ .backup ∈ s.children
  recovery : r.1 = 1 → .recovery ∈ r.2.2.children
  blob : r.1 = 1 → ∀ i < chip.paramSize + 16,
    r.2.2.memory (base .data + i) = write s.memory (base .data) 4 v (base .data + i)

/-- The parameters in `m'` are those of the blob in `m`, with three flags cleared. -/
structure Restored (chip : PhyChip) (base : RegisterBuffer → Nat) (m m' : ByteMem) : Prop where
  flags : read m' (base .param + 288) 4 = read m (base .data + 300) 4 &&& 0xfffefddf
  params : ∀ i, Recovered chip i → i < 288 ∨ 292 ≤ i →
    m' (base .param + i) = m (base .data + (12 + i))

/-- The same with the parameters that the calibration starts from. -/
structure Readied (chip : PhyChip) (base : RegisterBuffer → Nat) (input : Nat)
    (v mode : BitVec 32) (s : PhyState) (r : BitVec 32 × BitVec 32 × PhyState) : Prop extends
    Checked chip base input v mode s r where
  restored : r.1 = 1 → Restored chip base s.memory r.2.2.memory
  fresh : r.1 ≠ 1 → read r.2.2.memory (base .param + 288) 4 = 0

section Checked

variable {chip : PhyChip} {base : RegisterBuffer → Nat} {input : Nat}
  {v mode status mode' : BitVec 32} {s s₁ s₂ : PhyState}

theorem Checked.after (h : Checked chip base input v mode s (mode', status, s₁))
    (hquiet : Quiet chip base s₁ s₂) : Checked chip base input v mode s (mode', status, s₂) where
  mode := h.mode
  status := h.status
  flag := hquiet.kept.flag.trans h.flag
  backup := (hquiet.children .backup trivial).trans h.backup
  recovery hmode := (hquiet.children .recovery trivial).mpr (h.recovery hmode)
  blob hmode i hi := (hquiet.kept.blob i hi).trans (h.blob hmode i hi)

theorem Checked.before {r : BitVec 32 × BitVec 32 × PhyState}
    (h : Checked chip base input v mode s₁ r) (hquiet : Quiet chip base s s₁) :
    Checked chip base input v mode s r where
  mode := by
    rw [h.mode, check_congr hquiet.kept.blob]
  status := h.status.trans (check_congr hquiet.kept.blob input input)
  flag := h.flag.trans hquiet.kept.flag
  backup := h.backup.trans (hquiet.children .backup trivial)
  recovery := h.recovery
  blob hmode i hi := (h.blob hmode i hi).trans (write_version_congr hquiet.kept.blob hi)

theorem Recovered.lt {i : Nat} (h : Recovered chip i) : i < chip.paramSize := by
  have hsize := chip.le_paramSize
  cases chip <;> simp only [Recovered] at h <;> omega

theorem Restored.before {m m₁ m' : ByteMem} (h : Restored chip base m₁ m')
    (hkept : Kept chip base m m₁) : Restored chip base m m' where
  flags := by
    have hsize := chip.le_paramSize
    rw [h.flags]
    congr 1
    refine read_congr fun i hi => ?_
    rw [Nat.add_assoc, hkept.blob _ (by omega)]
  params i hi hflags := by
    have hlt := hi.lt
    rw [h.params i hi hflags, hkept.blob _ (by omega)]

theorem Readied.before {r : BitVec 32 × BitVec 32 × PhyState}
    (h : Readied chip base input v mode s₁ r) (hquiet : Quiet chip base s s₁) :
    Readied chip base input v mode s r where
  toChecked := h.toChecked.before hquiet
  restored hmode := (h.restored hmode).before hquiet.kept
  fresh := h.fresh

/-- The parameters and the blob as the buffers of a calibration. -/
def RegisterBuffers.calibration (B : RegisterBuffers chip) : CalibrationBuffers chip where
  base
    | .param => B.base .param
    | .data => B.base .data
  separate := by
    intro r s hrs
    cases r <;> cases s
    · exact absurd rfl hrs
    · exact B.separate .param .data (by decide)
    · exact B.separate .data .param (by decide)
    · exact absurd rfl hrs

variable (B : RegisterBuffers chip) (E : Boundary chip B.base v)

/-- `recovery` after the check, and the flags that are cleared. -/
theorem recovery_restored (m : ByteMem) :
    let m₁ := recovery chip (B.base .param) (B.base .data) (write m (B.base .data) 4 v)
    Restored chip B.base m
      (write m₁ (B.base .param + 288) 4 (read m₁ (B.base .param + 288) 4 &&& 0xfffefddf)) := by
  intro m₁
  have hsize := chip.le_paramSize
  -- the version is in front of everything that is restored
  have hparam (i : Nat) (hi : Recovered chip i) :
      m₁ (B.base .param + i) = m (B.base .data + (12 + i)) :=
    calc
      _ = write m (B.base .data) 4 v (B.base .data + (12 + i)) :=
        (recovery_param B.calibration i).trans (if_pos hi)
      _ = m (B.base .data + (12 + i)) := fill_of_not_mem (by omega)
  constructor
  · have hread : read m₁ (B.base .param + 288) 4 = read m (B.base .data + 300) 4 := by
      refine read_congr fun i hi => ?_
      have hrecovered : Recovered chip (288 + i) := by
        cases chip <;> simp only [Recovered] <;> omega
      rw [Nat.add_assoc, hparam _ hrecovered, Nat.add_assoc, ← Nat.add_assoc 12]
    rw [read_write_of_le _ _ _ (Nat.le_refl 4), BitVec.setWidth_eq, BitVec.setWidth_eq, hread]
  · intro i hi hflags
    rw [← hparam i hi]
    exact fill_of_not_mem (by omega)

/-- The flag of an initialized PHY is outside of what a check and the flags write. -/
theorem flag_of_kept {m m' : ByteMem} (h : Kept chip B.base (write m (B.base .data) 4 v) m')
    (flags : BitVec 32) :
    write m' (B.base .param + 288) 4 flags (B.base .param + 229) = m (B.base .param + 229) :=
  calc
    _ = m' (B.base .param + 229) :=
      (kept_param B m' (by omega) (by omega) (by omega)).flag
    _ = write m (B.base .data) 4 v (B.base .param + 229) := h.flag
    _ = m (B.base .param + 229) :=
      param_of_fill_data B.calibration (k := 0) (by omega) (by have := chip.le_paramSize; omega)

/-- A new calibration, whatever happens to the parameters before. -/
theorem readied_new {t : PhyState} (hmode : mode' ≠ 1)
    (hreuse : ¬(mode = 1 ∧ (check chip 1 (B.base .data) input v s.memory).1 = 0))
    (ht : Kept chip B.base (write s.memory (B.base .data) 4 v) t.memory)
    (hbackup : .backup ∈ t.children ↔ .backup ∈ s.children) :
    Readied chip B.base input v mode s
      (mode', (check chip 1 (B.base .data) input v s.memory).1,
        t.update fun m => write m (B.base .param + 288) 4 0) := by
  refine ⟨⟨iff_of_false hmode hreuse, rfl, ?_, hbackup, fun h => absurd h hmode,
    fun h => absurd h hmode⟩, fun h => absurd h hmode, fun _ => ?_⟩
  · simp only [PhyState.update]
    exact flag_of_kept B ht 0
  · simp only [PhyState.update]
    exact read_write_of_le _ _ _ (Nat.le_refl 4)

/-- The calibration of the blob. -/
theorem readied_recovered {t : PhyState} (hmode : mode = 1)
    (hpass : (check chip 1 (B.base .data) input v s.memory).1 = 0)
    (ht : t.memory = write s.memory (B.base .data) 4 v)
    (hbackup : .backup ∈ t.children ↔ .backup ∈ s.children) :
    let s' := (t.child .recovery).update (recovery chip (B.base .param) (B.base .data))
    Readied chip B.base input v mode s
      (mode, (check chip 1 (B.base .data) input v s.memory).1,
        s'.update fun m => write m (B.base .param + 288) 4
          (read s'.memory (B.base .param + 288) 4 &&& 0xfffefddf)) := by
  intro s'
  have hmemory : s'.memory = recovery chip (B.base .param) (B.base .data)
      (write s.memory (B.base .data) 4 v) := by
    simp only [s', PhyState.update, PhyState.child, ht]
  have hrecovery : Kept chip B.base (write s.memory (B.base .data) 4 v) s'.memory := by
    rw [hmemory]
    exact kept_recovery B _
  have hrestored := recovery_restored B (v := v) s.memory
  rw [← hmemory] at hrestored
  refine ⟨⟨iff_of_true hmode ⟨hmode, hpass⟩, rfl, flag_of_kept B hrecovery _, ?_, fun _ => ?_,
    fun _ => (hrecovery.trans (kept_param B _ (by omega) (by omega) (by omega))).blob⟩,
    fun _ => hrestored, fun h => absurd hmode h⟩
  · simpa [s', PhyState.update, PhyState.child] using hbackup
  · simp [s', PhyState.update, PhyState.child]

theorem registerCheck_readied (mode : BitVec 32) (s : PhyState) :
    Readied chip B.base input v mode s (registerCheck chip E.calls B.base input mode s) := by
  have hversion : Quiet chip B.base s (s.call E.calls (.invoke .phyGetRfCalVersion [])).2 :=
    (Quiet.refl s).call E _
  refine Readied.before ?_ hversion
  generalize hs₁ : (s.call E.calls (.invoke .phyGetRfCalVersion [])).2 = s₁
  have hcall : s.call E.calls (.invoke .phyGetRfCalVersion []) = (v, s₁) :=
    Prod.ext (E.calVersion s.memory) hs₁
  simp only [registerCheck, hcall, check_compare_memory]
  by_cases hpass : (check chip 1 (B.base .data) input v s₁.memory).1 = 0
  · have hsame : (if mode = 1 ∧ (check chip 1 (B.base .data) input v s₁.memory).1 ≠ 0 then 2
        else mode) = mode := if_neg fun h => h.2 hpass
    rw [hsame]
    by_cases hmode : mode = 1
    · rw [if_pos hmode]
      refine readied_recovered B hmode hpass rfl ?_
      simp [PhyState.update, PhyState.child]
    · rw [if_neg hmode, if_pos hpass]
      obtain ⟨hkept, hchildren⟩ := checkValue_snapshot B E.calls
        (((s₁.child (.check true)).update fun _ =>
          write s₁.memory (B.base .data) 4 v).child (.checkValue false))
      refine readied_new B hmode (fun h => hmode h.1) hkept ?_
      rw [hchildren]
      simp [PhyState.update, PhyState.child]
  · have hmode : (if mode = 1 ∧ (check chip 1 (B.base .data) input v s₁.memory).1 ≠ 0 then 2
        else mode) ≠ 1 := by
      split
      case isTrue => decide
      case isFalse h => exact fun hmode => h ⟨hmode, hpass⟩
    rw [if_neg hmode, if_neg hpass]
    refine readied_new B hmode (fun h => hpass h.2) (Kept.refl _) ?_
    simp [PhyState.update, PhyState.child]

/-- An initialized PHY is set up again without a look at the blob. -/
theorem registerPrepared_warm (input : Nat) (mode : BitVec 32) (s : PhyState)
    (hflag : s.memory (B.base .param + 229) ≠ 0) :
    ∃ t, registerPrepared chip E.calls B.base input mode s = (chip.byte mode, 0, t) ∧
      Quiet chip B.base s t := by
  have hsetup := (registerDefaults_quiet B mode s).trans (registerSetup_quiet B E _)
  have hwarm : ¬initialized B.base
      (registerSetup chip E.calls (registerDefaults chip B.base mode s)) = 0 := by
    rw [initialized_eq_zero_iff, hsetup.kept.flag]
    exact hflag
  refine ⟨_, ?_, hsetup⟩
  simp only [registerPrepared, if_neg hwarm, if_neg fun h => hwarm (And.right h)]

theorem registerPrepared_cold (mode : BitVec 32) (s : PhyState)
    (hflag : s.memory (B.base .param + 229) = 0) :
    Readied chip B.base input v (chip.byte mode) s
      (registerPrepared chip E.calls B.base input mode s) := by
  have hsetup := (registerDefaults_quiet B mode s).trans (registerSetup_quiet B E _)
  have hcold : initialized B.base
      (registerSetup chip E.calls (registerDefaults chip B.base mode s)) = 0 := by
    rw [initialized_eq_zero_iff, hsetup.kept.flag]
    exact hflag
  have hinit := hsetup.trans (registerInit_quiet B input _)
  have hcold' : initialized B.base (registerInit chip B.base input
      (registerSetup chip E.calls (registerDefaults chip B.base mode s))) = 0 := by
    rw [initialized_eq_zero_iff, hinit.kept.flag]
    exact hflag
  simp only [registerPrepared, if_pos hcold]
  rw [if_pos ⟨.inr hcold, hcold'⟩]
  exact (registerCheck_readied B E (chip.byte mode) _).before hinit

/-! ## The new blob -/

theorem registerStore_spec (input : Nat) (s : PhyState) :
    let s' := registerStore chip E.calls B.base input s
    Sealed chip (B.base .data) v s'.memory ∧ .backup ∈ s'.children ∧
      ∀ i < chip.paramSize,
        s'.memory (B.base .data + (12 + i)) = s.memory (B.base .param + i) := by
  have hkept := E.kept (.invoke .phyGetRfCalVersion [])
    (backup chip (B.base .param) (B.base .data) s.memory)
  have hmemory : (registerStore chip E.calls B.base input s).memory =
      (check chip 0 (B.base .data) input v (E.calls (.invoke .phyGetRfCalVersion [])
        (backup chip (B.base .param) (B.base .data) s.memory)).2).2 :=
    congrArg (fun version => (check chip 0 (B.base .data) input version _).2) (E.calVersion _)
  refine ⟨?_, ?_, fun i hi => ?_⟩
  · rw [hmemory]
    exact sealed_check input v _
  · simp [registerStore, PhyState.update, PhyState.child, PhyState.call]
  · rw [hmemory, check_image input v _ hi, hkept.blob _ (by omega)]
    exact backup_image B.calibration hi

theorem registerCompare_status (status : BitVec 32) (s : PhyState) :
    (registerCompare chip E.calls B.base status s).1 ≠ 0 ↔ status ≠ 0 ∨ status = 0 ∧
      (checkValue chip E.calls B.base (B.base .scratch) 1 (s.child (.checkValue true))).1 ≠ 0 := by
  rw [registerCompare]
  split
  case isTrue hpass =>
      simp only [hpass, ne_eq, not_true_eq_false, true_and, false_or]
      split
      case isTrue hdiffer => exact iff_of_true (by decide) hdiffer
      case isFalse hsame => exact iff_of_false (by decide) hsame
  case isFalse hfail => exact iff_of_true hfail (.inl hfail)

/-- The memory that is stored. -/
theorem registerCompare_state (status : BitVec 32) (s : PhyState) :
    (registerCompare chip E.calls B.base status s).2 =
      if status = 0 then
        (checkValue chip E.calls B.base (B.base .scratch) 1 (s.child (.checkValue true))).2
      else s := by
  rw [registerCompare]
  split <;> rfl

/-- The end of `register` without a new blob. -/
theorem register_of_keep {calls : PhyCalls} {base : RegisterBuffer → Nat}
    (hprepared : registerPrepared chip calls base input mode s = (mode', status, s₁))
    (hkeep : ¬(initialized base (registerCalibrate calls base s₁) = 0 ∧ mode' ≠ 1)) :
    register chip calls base input mode s =
      (status, registerFinish chip calls base (registerCalibrate calls base s₁)) := by
  rw [register, hprepared]
  simp only [if_neg hkeep]

theorem register_of_store {calls : PhyCalls} {base : RegisterBuffer → Nat}
    (hprepared : registerPrepared chip calls base input mode s = (mode', status, s₁))
    (hcalibrated : registerCalibrate calls base s₁ = s₂)
    (hstore : initialized base s₂ = 0 ∧ mode' ≠ 1) :
    register chip calls base input mode s =
      ((registerCompare chip calls base status s₂).1,
        registerFinish chip calls base
          (registerStore chip calls base input (registerCompare chip calls base status s₂).2)) := by
  rw [register, hprepared]
  simp only [hcalibrated, if_pos hstore]

end Checked

/-! ## The policy -/

section Policy

variable {chip : PhyChip} (B : RegisterBuffers chip) {v : BitVec 32} (E : Boundary chip B.base v)
  (input : Nat) (mode : BitVec 32) {m : ByteMem}

theorem register_warm (hflag : m (B.base .param + 229) ≠ 0) :
    let r := register chip E.calls B.base input mode ⟨m, []⟩
    (∀ i < chip.paramSize + 16, r.2.memory (B.base .data + i) = m (B.base .data + i)) ∧
      (∀ c ∈ r.2.children, ¬c.UsesBlob) ∧ r.1 = 0 := by
  obtain ⟨t, hprepared, hsetup⟩ := registerPrepared_warm B E input mode ⟨m, []⟩ hflag
  have hquiet := hsetup.trans (registerCalibrate_quiet B E t)
  have hwarm : ¬initialized B.base (registerCalibrate E.calls B.base t) = 0 := by
    rw [initialized_eq_zero_iff, hquiet.kept.flag]
    exact hflag
  rw [register_of_keep hprepared fun h => hwarm h.1]
  obtain ⟨hblob, -, hchildren⟩ := registerFinish_spec B E (registerCalibrate E.calls B.base t)
  refine ⟨fun i hi => (hblob i hi).trans (hquiet.kept.blob i hi), fun c hc huses => ?_, rfl⟩
  rw [hchildren c huses, hquiet.children c huses] at hc
  exact List.not_mem_nil hc

/-- The state of a PHY that was not initialized, before and after the calibration. -/
theorem registerPrepared_eq (hflag : m (B.base .param + 229) = 0) :
    let c := registerPrepared chip E.calls B.base input mode ⟨m, []⟩
    c = (c.1, (check chip 1 (B.base .data) input v m).1, c.2.2) ∧
      initialized B.base (registerCalibrate E.calls B.base c.2.2) = 0 := by
  have hprepared : Readied chip B.base input v (chip.byte mode) ⟨m, []⟩ _ :=
    registerPrepared_cold B E mode ⟨m, []⟩ hflag
  refine ⟨Prod.ext rfl (Prod.ext hprepared.status rfl), ?_⟩
  rw [initialized_eq_zero_iff, (registerCalibrate_quiet B E _).kept.flag]
  exact hprepared.flag.trans hflag

theorem register_reuse (hflag : m (B.base .param + 229) = 0) (hmode : chip.byte mode = 1)
    (hpass : (check chip 1 (B.base .data) input v m).1 = 0) :
    let prepared := (registerPrepared chip E.calls B.base input mode ⟨m, []⟩).2.2
    let r := register chip E.calls B.base input mode ⟨m, []⟩
    (∀ input', (check chip 1 (B.base .data) input' v r.2.memory).1 = 0) ∧
      .recovery ∈ r.2.children ∧ .backup ∉ r.2.children ∧
      Restored chip B.base m prepared.memory ∧ r.1 = 0 := by
  intro prepared
  have hcold : Readied chip B.base input v (chip.byte mode) ⟨m, []⟩ _ :=
    registerPrepared_cold B E mode ⟨m, []⟩ hflag
  obtain ⟨hprepared, -⟩ := registerPrepared_eq B E input mode hflag
  have hone := hcold.mode.mpr ⟨hmode, hpass⟩
  have hchecked : Checked chip B.base input v (chip.byte mode) ⟨m, []⟩
      (_, _, registerCalibrate E.calls B.base prepared) :=
    hcold.toChecked.after (registerCalibrate_quiet B E prepared)
  rw [register_of_keep hprepared fun h => h.2 hone]
  obtain ⟨hblob, -, hchildren⟩ := registerFinish_spec B E
    (registerCalibrate E.calls B.base prepared)
  refine ⟨fun input' => ?_, (hchildren .recovery trivial).mpr (hchecked.recovery hone), ?_,
    hcold.restored hone, hpass⟩
  · rw [check_again (fun i hi => (hblob i hi).trans (hchecked.blob hone i hi)) input]
    exact hpass
  · rw [hchildren .backup trivial, hchecked.backup]
    exact List.not_mem_nil

theorem register_new (hflag : m (B.base .param + 229) = 0)
    (hreuse : ¬(chip.byte mode = 1 ∧ (check chip 1 (B.base .data) input v m).1 = 0)) :
    let status := (check chip 1 (B.base .data) input v m).1
    let prepared := (registerPrepared chip E.calls B.base input mode ⟨m, []⟩).2.2
    let calibrated := registerCalibrate E.calls B.base prepared
    let compared :=
      checkValue chip E.calls B.base (B.base .scratch) 1 (calibrated.child (.checkValue true))
    let r := register chip E.calls B.base input mode ⟨m, []⟩
    (∀ input', (check chip 1 (B.base .data) input' v r.2.memory).1 = 0) ∧
      .backup ∈ r.2.children ∧ read prepared.memory (B.base .param + 288) 4 = 0 ∧
      (∀ i < chip.paramSize, r.2.memory (B.base .data + (12 + i)) =
        (if status = 0 then compared.2 else calibrated).memory (B.base .param + i)) ∧
      (r.1 ≠ 0 ↔ status ≠ 0 ∨ status = 0 ∧ compared.1 ≠ 0) := by
  intro status prepared calibrated compared
  have hcold : Readied chip B.base input v (chip.byte mode) ⟨m, []⟩ _ :=
    registerPrepared_cold B E mode ⟨m, []⟩ hflag
  obtain ⟨hprepared, hzero⟩ := registerPrepared_eq B E input mode hflag
  have hmode := hcold.mode.not.mpr hreuse
  have hcalibrated : registerCalibrate E.calls B.base prepared = calibrated := rfl
  rw [register_of_store hprepared hcalibrated ⟨hzero, hmode⟩]
  let stored := registerCompare chip E.calls B.base status calibrated
  have hstored : stored.2 = if status = 0 then compared.2 else calibrated :=
    registerCompare_state B E status calibrated
  obtain ⟨hsealed, hbackup, himage⟩ := registerStore_spec B E input stored.2
  obtain ⟨hblob, -, hchildren⟩ := registerFinish_spec B E
    (registerStore chip E.calls B.base input stored.2)
  refine ⟨fun input' => ?_, (hchildren .backup trivial).mpr hbackup, hcold.fresh hmode,
    fun i hi => ?_, registerCompare_status B E status calibrated⟩
  · rw [check_congr hblob input']
    exact (hsealed.check_iff input' v).mpr rfl
  · rw [hblob _ (by omega), himage i hi, hstored]

end Policy

/-- An initialized PHY leaves the blob alone.  Otherwise the blob is valid at the end.  In mode 1
it is reused if it was valid before: RF and baseband start from its parameters, and no new blob
is written.  In every other case they start without a flag of an earlier calibration, and the
blob holds the parameters after the calibration.  The result says that the blob was not valid or
that a new calibration differs from it. -/
theorem register_policy (chip : PhyChip) (B : RegisterBuffers chip) (v : BitVec 32)
    (E : Boundary chip B.base v) (input : Nat) (mode : BitVec 32) (m : ByteMem) :
    let p := B.base .param
    let data := B.base .data
    let status := (check chip 1 data input v m).1
    let prepared := (registerPrepared chip E.calls B.base input mode ⟨m, []⟩).2.2
    let calibrated := registerCalibrate E.calls B.base prepared
    let compared :=
      checkValue chip E.calls B.base (B.base .scratch) 1 (calibrated.child (.checkValue true))
    let r := register chip E.calls B.base input mode ⟨m, []⟩
    (m (p + 229) ≠ 0 →
      (∀ i < chip.paramSize + 16, r.2.memory (data + i) = m (data + i)) ∧
      (∀ c ∈ r.2.children, ¬c.UsesBlob) ∧ r.1 = 0) ∧
    (m (p + 229) = 0 →
      (∀ input', (check chip 1 data input' v r.2.memory).1 = 0) ∧
      (.recovery ∈ r.2.children ∧ .backup ∉ r.2.children ↔ chip.byte mode = 1 ∧ status = 0) ∧
      (chip.byte mode = 1 ∧ status = 0 → Restored chip B.base m prepared.memory) ∧
      (¬(chip.byte mode = 1 ∧ status = 0) → read prepared.memory (p + 288) 4 = 0) ∧
      (¬(chip.byte mode = 1 ∧ status = 0) → ∀ i < chip.paramSize,
        r.2.memory (data + (12 + i)) =
          (if status = 0 then compared.2 else calibrated).memory (p + i)) ∧
      (¬(chip.byte mode = 1 ∧ status = 0) →
        (∀ image : Nat → BitVec 8,
          ComparisonKeeps chip E.calls fun m' => ∀ i < chip.paramSize, m' (p + i) = image i) →
        ∀ i < chip.paramSize, r.2.memory (data + (12 + i)) = calibrated.memory (p + i)) ∧
      (r.1 ≠ 0 ↔ status ≠ 0 ∨ chip.byte mode ≠ 1 ∧ status = 0 ∧ compared.1 ≠ 0)) ∧
    r.2.memory (p + 229) = 1 := by
  intro p data status prepared calibrated compared r
  refine ⟨register_warm B E input mode, fun hflag => ?_, (registerFinish_spec B E _).2.1⟩
  by_cases hreuse : chip.byte mode = 1 ∧ status = 0
  case pos =>
      obtain ⟨hcheck, hrecovery, hbackup, hrestored, hzero⟩ :=
        register_reuse B E input mode hflag hreuse.1 hreuse.2
      refine ⟨hcheck, iff_of_true ⟨hrecovery, hbackup⟩ hreuse, fun _ => hrestored,
        fun h => absurd hreuse h, fun h => absurd hreuse h, fun h => absurd hreuse h,
        iff_of_false (fun h => h hzero) ?_⟩
      rintro (hfail | hdiffer)
      · exact hfail hreuse.2
      · exact hdiffer.1 hreuse.1
  case neg =>
      obtain ⟨hcheck, hbackup, hfresh, himage, hresult⟩ := register_new B E input mode hflag hreuse
      refine ⟨hcheck, iff_of_false (fun h => h.2 hbackup) hreuse, fun h => absurd h hreuse,
        fun _ => hfresh, fun _ => himage, fun _ hcalls i hi => ?_, ?_⟩
      · have hcompared := (checkValue_compare (hcalls fun i => calibrated.memory (p + i)) B.base
          (B.base .scratch) (calibrated.child (.checkValue true)) fun _ _ => rfl).1 i hi
        rw [himage i hi]
        split
        · exact hcompared
        · rfl
      · exact hresult.trans
          (or_congr_right ⟨fun h => ⟨fun hone => hreuse ⟨hone, h.1⟩, h⟩, And.right⟩)

/-- Buffers of S3, one behind the other. -/
def adjacentRegisterBuffers : RegisterBuffers .esp32s3 where
  base
    | .param => 0
    | .data => 740
    | .ctrl => 1496
    | .defaults => 1538
    | .scratch => 1666
    | .initDefaults => 1762
    | .limits => 1782
    | .first => 1810
    | .second => 1812
  separate := by
    intro r s h
    cases r <;> cases s <;> first | exact absurd rfl h | decide
  registers := by
    intro r
    cases r <;> decide

/-- Calls without an effect, and version 5. -/
def idleBoundary : Boundary .esp32s3 adjacentRegisterBuffers.base 5 where
  calls _ m := (5, m)
  calVersion _ := rfl
  kept _ m := Kept.refl m

/-- A sealed blob whose parameters are all 7, and parameters that are all 0. -/
def sealedMemory : ByteMem :=
  (check .esp32s3 0 (adjacentRegisterBuffers.base .data) 0 5 fun a => if a < 740 then 0 else 7).2

/-- In mode 1 the sealed blob is reused: the calibration starts from its parameters, and the blob
stays valid. -/
theorem register_policy_sealed :
    let B := adjacentRegisterBuffers
    let prepared := (registerPrepared .esp32s3 idleBoundary.calls B.base 0 1 ⟨sealedMemory, []⟩).2.2
    let r := register .esp32s3 idleBoundary.calls B.base 0 1 ⟨sealedMemory, []⟩
    prepared.memory (B.base .param + 400) = 7 ∧ r.1 = 0 ∧
      (.recovery ∈ r.2.children ∧ .backup ∉ r.2.children) ∧
      (check .esp32s3 1 (B.base .data) 0 5 r.2.memory).1 = 0 := by
  have hpass : (check .esp32s3 1 (adjacentRegisterBuffers.base .data) 0 5 sealedMemory).1 = 0 :=
    ((sealed_check 0 5 _).check_iff 0 5).mpr rfl
  have hflag : sealedMemory (adjacentRegisterBuffers.base .param + 229) = 0 := by
    have hlow : adjacentRegisterBuffers.base .param + 229 < adjacentRegisterBuffers.base .data := by
      decide
    rw [sealedMemory, check_store]
    dsimp only
    rw [write, write, fill_of_not_mem (.inl (by omega)), fill_of_not_mem (.inl hlow)]
    rfl
  obtain ⟨-, hreuse, -⟩ :=
    register_policy .esp32s3 adjacentRegisterBuffers 5 idleBoundary 0 1 sealedMemory
  obtain ⟨hcheck, hrecovered, hrestored, -, -, -, hresult⟩ := hreuse hflag
  have hmode : PhyChip.esp32s3.byte 1 = 1 := rfl
  have hbyte := (hrestored ⟨hmode, hpass⟩).params 400 (.inr (by decide)) (.inr (by decide))
  have hseven : sealedMemory (adjacentRegisterBuffers.base .data + (12 + 400)) = 7 := by
    rw [sealedMemory, check_image 0 5 _ (by decide)]
    exact if_neg (by decide)
  have hzero : (register .esp32s3 idleBoundary.calls adjacentRegisterBuffers.base 0 1
      ⟨sealedMemory, []⟩).1 = 0 := by
    by_contra hne
    rcases hresult.mp hne with hfail | hdiffer
    · exact hfail hpass
    · exact hdiffer.1 hmode
  exact ⟨hbyte.trans hseven, hzero, hrecovered.mpr ⟨hmode, hpass⟩, hcheck 0⟩

end EspWifiHal
