import EspWifiHal.Lib.Memory

/-!
# PHY parameters

`init_param` copies the power limits of the caller's init data to the PHY parameters and
to the control data.  Each of the 14 target powers is limited by a ceiling of the chip.
On S3 the ceilings depend on the chip version that the parameters hold.

`initParam_stored` says what is stored.
-/

namespace EspWifiHal

open Memory

/-- The chips with their own PHY code. -/
inductive PhyChip where
  | esp32s3
  | esp32c3
deriving DecidableEq, Repr

namespace PhyChip

/-- `PARAM_SIZE`. -/
def paramSize : PhyChip → Nat
  | .esp32s3 => 740
  | .esp32c3 => 848

theorem le_paramSize (chip : PhyChip) : 740 ≤ chip.paramSize := by
  cases chip <;> decide

/-- An argument of type `u8`, which only S3 narrows. -/
def byte (chip : PhyChip) (value : BitVec 32) : BitVec 32 :=
  match chip with
  | .esp32s3 => (value.setWidth 8).setWidth 32
  | .esp32c3 => value

theorem byte_of_lt {chip : PhyChip} {value : BitVec 32} (h : value.toNat < 256) :
    chip.byte value = value := by
  cases chip with
  | esp32s3 =>
      apply BitVec.eq_of_toNat_eq
      simp only [byte, BitVec.toNat_setWidth]
      omega
  | esp32c3 => rfl

end PhyChip

/-- The signed value of the lowest byte. -/
def sb (value : BitVec 32) : Int := (value.setWidth 8).toInt

/-! ## The function -/

/-- `READONLY` of S3, as far as the power limits use it. -/
def readonly (i : Nat) : BitVec 8 :=
  [82, 82, 80, 76, 76, 72, 76, 72, 72, 70, 74, 70, 70, 68,
    80, 80, 76, 74, 74, 70, 74, 70, 70, 68, 72, 68, 68, 66].getD i 0

/-- The values that `seed_defaults` writes. -/
def seedDefault (first : BitVec 32) (i : Nat) : BitVec 32 :=
  [first, 0, 82, 82, 80, 76, 76, 72, 76, 72, 72, 70, 74, 70, 70, 68].getD i 0

def seedDefaults (b : Nat) (first : BitVec 32) (m : ByteMem) : ByteMem :=
  (List.range 16).foldl (fun m i => write m (b + i) 1 (seedDefault first i)) m

/-- The local array of `power_limits`: both tables, in the other order. -/
def limitTables (b : Nat) (m : ByteMem) : ByteMem :=
  let m := fill m (b + 14) 14 fun i => readonly (0 + i)
  fill m b 14 fun i => readonly (14 + i)

/-- `power_limits` with its local array at `b`. -/
def powerLimits (p b input : Nat) (m : ByteMem) : ByteMem :=
  (List.range 14).foldl
    (fun m i =>
      let index := if read m (p + 525) 1 = 1 then 0 else 14
      write m (input + 2 + i) 1 (read m (b + index + i) 1))
    (limitTables b m)

/-- The buffers of `init_param`: the symbols, the argument and the local arrays. -/
inductive InitBuffer where
  | param
  | ctrl
  | input
  | defaults
  | limits
deriving DecidableEq, Repr

def InitBuffer.size (chip : PhyChip) : InitBuffer → Nat
  | .param => chip.paramSize
  | .ctrl => 42
  | .input => 77
  | .defaults => 20
  | .limits => 28

abbrev InitBuffers (chip : PhyChip) := Regions InitBuffer (InitBuffer.size chip)

section InitParam

variable (chip : PhyChip) (base : InitBuffer → Nat)

/-- The ceilings, in the local array of `init_param`. -/
def initCeilings (m : ByteMem) : ByteMem :=
  let b := base .defaults
  match chip with
  | .esp32s3 => seedDefaults b 0 (fill m b 20 fun _ => 0)
  | .esp32c3 => write (seedDefaults b 2 m) (b + 16) 4 0

/-- The first two bytes, which have no ceiling. -/
def initFirst (m : ByteMem) : ByteMem :=
  let p := base .param
  let input := base .input
  let m := write m (p + 242) 1 (read m input 1)
  write m (p + 243) 1 (read m (input + 1) 1)

/-- On S3 the ceilings depend on the chip version. -/
def initVersion (m : ByteMem) : ByteMem :=
  match chip with
  | .esp32s3 => powerLimits (base .param) (base .limits) (base .defaults) m
  | .esp32c3 => m

/-- The power `i`, which is stored and then replaced if the ceiling is lower. -/
def initPower (m : ByteMem) (i : Nat) : ByteMem :=
  let p := base .param
  let v := read m (base .input + i) 1
  let limit := read m (base .defaults + i) 1
  let m := write m (p + 242 + i) 1 v
  if sb v > limit.toInt then write m (p + 242 + i) 1 limit else m

/-- The regulatory limits. -/
def initRegulatory (m : ByteMem) : ByteMem :=
  let p := base .param
  let input := base .input
  let m := write m (p + 260) 1 (read m (input + 18) 1)
  let m :=
    (List.range 3).foldl
      (fun m group =>
        (List.range 14).foldl
          (fun m i =>
            write m (base .ctrl + 14 * group + i) 1 (read m (input + 19 + 14 * group + i) 1))
          m)
      m
  (List.range 9).foldl (fun m i => write m (p + 261 + i) 1 (read m (input + 61 + i) 1)) m

/-- The parameters behind the limits. -/
def initRest (m : ByteMem) : ByteMem :=
  let p := base .param
  let input := base .input
  let high := read m (input + 70) 1
  let low := read m (input + 71) 1
  let m := write m (p + 280) 2 (high <<< 8 ||| low)
  let m := write m (p + 282) 1 (read m (input + 72) 1)
  let high := read m (input + 73) 1
  let low := read m (input + 74) 1
  let m := write m (p + 284) 2 ((high &&& 127) <<< 8 ||| low)
  let m := write m (p + 286) 1 (read m (input + 75) 1)
  write m (p + 287) 1 (read m (input + 76) 1)

def initParam (m : ByteMem) : ByteMem :=
  let m := initVersion chip base (initFirst base (initCeilings chip base m))
  -- `for i in 2..16`
  let m := (List.range 14).foldl (fun m i => initPower base m (2 + i)) m
  initRest base (initRegulatory base m)

end InitParam

/-! ## The ceilings -/

/-- The ceiling of power `i` for the chip version in the parameters. -/
def chipCeiling (chip : PhyChip) (version : BitVec 8) (i : Nat) : BitVec 8 :=
  match chip with
  | .esp32s3 => readonly ((if version = 1 then 14 else 0) + i)
  | .esp32c3 => byteOf (seedDefault 2 (2 + i)) 0

theorem seedDefaults_eq (b : Nat) (first : BitVec 32) (m : ByteMem) :
    seedDefaults b first m = fill m b 16 fun i => (seedDefault first i).setWidth 8 :=
  foldl_fill_bytes _ m b 16 _ fun _ _ => write_one ..

section Ceilings

variable {chip : PhyChip} (B : InitBuffers chip) (m : ByteMem) {i : Nat} {s : InitBuffer}

theorem initCeilings_other (hs : .defaults ≠ s) (hi : i < s.size chip) :
    initCeilings chip B.base m (B.base s + i) = m (B.base s + i) := by
  have hother (x : ByteMem) (k n : Nat) (f : Nat → BitVec 8) (hk : k + n ≤ 20) :
      fill x (B.base .defaults + k) n f (B.base s + i) = x (B.base s + i) :=
    B.fill_other hs hk hi
  cases chip with
  | esp32s3 =>
      rw [initCeilings, seedDefaults_eq]
      exact (hother _ 0 16 _ (by decide)).trans (hother _ 0 20 _ (by decide))
  | esp32c3 =>
      rw [initCeilings, write, hother _ 16 4 _ (by decide), seedDefaults_eq]
      exact hother _ 0 16 _ (by decide)

theorem initCeilings_c3 (B : InitBuffers .esp32c3) (hi : i < 14) :
    initCeilings .esp32c3 B.base m (B.base .defaults + (2 + i)) =
      (seedDefault 2 (2 + i)).setWidth 8 := by
  rw [initCeilings, seedDefaults_eq, write, fill_of_not_mem (by omega), fill_range (by omega)]

theorem setWidth_eq_one_iff {x : BitVec 8} : x.setWidth 32 = 1 ↔ x = 1 := by
  rw [← BitVec.toNat_inj, ← BitVec.toNat_inj]
  simp
  omega

theorem limitTables_other (hs : .limits ≠ s) (hi : i < s.size chip) :
    limitTables (B.base .limits) m (B.base s + i) = m (B.base s + i) := by
  have hother (x : ByteMem) (k : Nat) (f : Nat → BitVec 8) (hk : k + 14 ≤ 28) :
      fill x (B.base .limits + k) 14 f (B.base s + i) = x (B.base s + i) :=
    B.fill_other hs hk hi
  rw [limitTables]
  exact (hother _ 0 _ (by decide)).trans (hother _ 14 _ (by decide))

theorem limitTables_table (b : Nat) (version : BitVec 8) (hi : i < 14) :
    limitTables b m (b + (if version = 1 then 0 else 14) + i) =
      chipCeiling .esp32s3 version i := by
  rw [limitTables, chipCeiling]
  split
  case isTrue => exact fill_range hi
  case isFalse => rw [fill_of_not_mem (by omega), fill_range hi]

/-- The table for the chip version replaces the defaults. -/
theorem powerLimits_eq (B : InitBuffers chip) :
    powerLimits (B.base .param) (B.base .limits) (B.base .defaults) m =
      fill (limitTables (B.base .limits) m) (B.base .defaults + 2) 14
        (chipCeiling .esp32s3 (m (B.base .param + 525))) := by
  have hversion : 525 < chip.paramSize := Nat.lt_of_lt_of_le (by decide) chip.le_paramSize
  refine foldl_fill_bytes _ _ _ 14 _ fun k hk => ?_
  have hother (s : InitBuffer) (j : Nat) (hs : .defaults ≠ s) (hj : j < s.size chip) :
      fill (limitTables (B.base .limits) m) (B.base .defaults + 2) k
        (chipCeiling .esp32s3 (m (B.base .param + 525))) (B.base s + j) =
        limitTables (B.base .limits) m (B.base s + j) :=
    B.fill_other hs (show 2 + k ≤ 20 by omega) hj
  have hlt : (if m (B.base .param + 525) = 1 then 0 else 14) + k < 28 := by
    split <;> omega
  have htable := hother .limits _ (by decide) hlt
  rw [← Nat.add_assoc, limitTables_table m _ _ hk] at htable
  simp only [read_one, write_one, setWidth_byte, hother .param 525 (by decide) hversion,
    limitTables_other B m (s := .param) (by decide) hversion, setWidth_eq_one_iff, htable]

theorem initFirst_other (hs : .param ≠ s) (hi : i < s.size chip) :
    initFirst B.base m (B.base s + i) = m (B.base s + i) := by
  have hother (x : ByteMem) (k : Nat) (v : BitVec 32) (hk : k + 1 ≤ 244) :
      write x (B.base .param + k) 1 v (B.base s + i) = x (B.base s + i) := by
    refine B.fill_other hs ?_ hi
    have hsize := chip.le_paramSize
    change k + 1 ≤ chip.paramSize
    omega
  rw [initFirst, hother _ 243 _ (by decide), hother _ 242 _ (by decide)]

theorem initVersion_input (hi : i < 77) :
    initVersion chip B.base m (B.base .input + i) = m (B.base .input + i) := by
  cases chip with
  | esp32s3 =>
      rw [initVersion, powerLimits_eq, B.fill_other (by decide) (by decide) hi,
        limitTables_other B m (by decide) hi]
  | esp32c3 => rfl

/-- The ceilings before the powers are stored. -/
theorem initVersion_ceiling (hi : i < 14) :
    initVersion chip B.base (initFirst B.base (initCeilings chip B.base m))
        (B.base .defaults + (2 + i)) = chipCeiling chip (m (B.base .param + 525)) i := by
  cases chip with
  | esp32s3 =>
      have hversion : initFirst B.base (initCeilings .esp32s3 B.base m) (B.base .param + 525) =
          m (B.base .param + 525) := by
        rw [initFirst, write, fill_of_not_mem (by omega), write, fill_of_not_mem (by omega),
          initCeilings_other B m (by decide) (by decide)]
      rw [initVersion, powerLimits_eq, hversion, ← Nat.add_assoc, fill_range hi]
  | esp32c3 =>
      rw [initVersion, initFirst_other B _ (by decide) (show 2 + i < 20 by omega),
        initCeilings_c3 m B hi, chipCeiling, byteOf_zero]

end Ceilings

/-! ## What is stored -/

/-- A power as it is stored, with the signed value of `power` and the unsigned one of the
ceiling. -/
def storedPower (power ceiling : BitVec 8) : BitVec 8 :=
  if power.toInt > ceiling.toNat then ceiling else power

section Stored

variable {chip : PhyChip} (B : InitBuffers chip) {m : ByteMem} {i : Nat}

theorem sb_setWidth (x : BitVec 8) : sb (x.setWidth 32) = x.toInt := by
  rw [sb, setWidth_byte]

theorem toInt_setWidth (x : BitVec 8) : (x.setWidth 32).toInt = x.toNat := by
  rw [BitVec.toInt_eq_toNat_of_lt] <;> simp <;> omega

theorem initPower_eq (base : InitBuffer → Nat) (m : ByteMem) (i : Nat) :
    initPower base m i = fill m (base .param + 242 + i) 1 fun _ =>
      storedPower (m (base .input + i)) (m (base .defaults + i)) := by
  simp only [initPower, read_one, sb_setWidth, toInt_setWidth, write_one, setWidth_byte,
    storedPower]
  split
  case isTrue => rw [fill_overwrite]
  case isFalse => rfl

theorem initPowers_eq (m : ByteMem) :
    (List.range 14).foldl (fun m i => initPower B.base m (2 + i)) m =
      fill m (B.base .param + 244) 14 fun i =>
        storedPower (m (B.base .input + (2 + i))) (m (B.base .defaults + (2 + i))) := by
  have hsize := chip.le_paramSize
  refine foldl_fill_bytes _ m _ 14 _ fun k hk => ?_
  have hoffset : B.base .param + 242 + (2 + k) = B.base .param + 244 + k := by omega
  have hother (s : InitBuffer) (j : Nat) (f : Nat → BitVec 8) (hs : .param ≠ s)
      (hj : j < s.size chip) :
      fill m (B.base .param + 244) k f (B.base s + j) = m (B.base s + j) :=
    B.fill_other hs (show 244 + k ≤ chip.paramSize by omega) hj
  rw [initPower_eq, hother .input _ _ (by decide) (show 2 + k < 77 by omega),
    hother .defaults _ _ (by decide) (show 2 + k < 20 by omega), hoffset]

/-- The rest of the function writes behind the limits. -/
theorem initRest_of_not_mem {base : InitBuffer → Nat} {x : Nat}
    (hx : x < base .param + 280 ∨ base .param + 288 ≤ x) : initRest base m x = m x := by
  have hother (y : ByteMem) (k width : Nat) (v : BitVec 32) (hk : 280 ≤ k ∧ k + width ≤ 288) :
      write y (base .param + k) width v x = y x :=
    fill_of_not_mem (by omega)
  rw [initRest, hother _ 287 1 _ (by decide), hother _ 286 1 _ (by decide),
    hother _ 284 2 _ (by decide), hother _ 282 1 _ (by decide), hother _ 280 2 _ (by decide)]

theorem initRegulatory_eq (m : ByteMem) :
    initRegulatory B.base m =
      copy (copy (copy m (B.base .param + 260) (B.base .input + 18) 1) (B.base .ctrl)
        (B.base .input + 19) 42) (B.base .param + 261) (B.base .input + 61) 9 := by
  have hsize := chip.le_paramSize
  have hparam : _ + chip.paramSize ≤ _ ∨ _ + 77 ≤ _ := B.separate .param .input (by decide)
  have hctrl : _ + 42 ≤ _ ∨ _ + 77 ≤ _ := B.separate .ctrl .input (by decide)
  have hgroups (m : ByteMem) : (List.range 3).foldl
      (fun m group =>
        (List.range 14).foldl
          (fun m i => write m (B.base .ctrl + 14 * group + i) 1
            (read m (B.base .input + 19 + 14 * group + i) 1))
          m)
      m = copy m (B.base .ctrl) (B.base .input + 19) 42 := by
    refine foldl_fill _ m _ 14 3 _ fun k hk => ?_
    rw [foldl_copy _ (by omega), copy]
    refine fill_congr fun i hi => ?_
    rw [fill_of_not_mem (by omega), Nat.add_assoc]
  rw [initRegulatory, hgroups, foldl_copy _ (by omega), write_read _ _ _ _ (by decide)]
  rfl

/-- The input up to the stores of the regulatory limits. -/
theorem initVersion_keeps_input (hi : i < 77) :
    initVersion chip B.base (initFirst B.base (initCeilings chip B.base m)) (B.base .input + i) =
      m (B.base .input + i) := by
  rw [initVersion_input B _ hi, initFirst_other B _ (by decide) hi,
    initCeilings_other B _ (by decide) hi]

/-- The limits in `m`, stored from the init data of `init`. -/
structure InitStored (chip : PhyChip) (base : InitBuffer → Nat) (init m : ByteMem) : Prop where
  power : ∀ i < 14, m (base .param + (244 + i)) =
    storedPower (init (base .input + (2 + i))) (chipCeiling chip (init (base .param + 525)) i)
  mode : m (base .param + 260) = init (base .input + 18)
  groups : ∀ i < 42, m (base .ctrl + i) = init (base .input + (19 + i))
  fourth : ∀ i < 9, m (base .param + (261 + i)) = init (base .input + (61 + i))

/-- The three copies do not touch each other's bytes nor the init data. -/
theorem initRegulatory_stored (m : ByteMem) :
    (∀ i < 14, initRegulatory B.base m (B.base .param + (244 + i)) =
        m (B.base .param + (244 + i))) ∧
      initRegulatory B.base m (B.base .param + 260) = m (B.base .input + 18) ∧
      (∀ i < 42, initRegulatory B.base m (B.base .ctrl + i) = m (B.base .input + (19 + i))) ∧
      ∀ i < 9, initRegulatory B.base m (B.base .param + (261 + i)) =
        m (B.base .input + (61 + i)) := by
  have hsize := chip.le_paramSize
  have hctrl : _ + chip.paramSize ≤ _ ∨ _ + 42 ≤ _ := B.separate .param .ctrl (by decide)
  have hparam : _ + chip.paramSize ≤ _ ∨ _ + 77 ≤ _ := B.separate .param .input (by decide)
  have hinput : _ + 42 ≤ _ ∨ _ + 77 ≤ _ := B.separate .ctrl .input (by decide)
  have hother (y : ByteMem) (a k n x : Nat) (hx : x < a ∨ a + n ≤ x) : copy y a k n x = y x :=
    fill_of_not_mem hx
  rw [initRegulatory_eq]
  refine ⟨fun i hi => ?_, ?_, fun i hi => ?_, fun i hi => ?_⟩
  · rw [hother _ _ _ _ _ (by omega), hother _ _ _ _ _ (by omega), hother _ _ _ _ _ (by omega)]
  · rw [hother _ _ _ _ _ (by omega), hother _ _ _ _ _ (by omega)]
    exact fill_range Nat.one_pos
  · rw [hother _ _ _ _ _ (by omega), copy, fill_range hi, hother _ _ _ _ _ (by omega),
      Nat.add_assoc]
  · rw [← Nat.add_assoc, copy, fill_range hi, hother _ _ _ _ _ (by omega),
      hother _ _ _ _ _ (by omega), Nat.add_assoc]

theorem initParam_stored (m : ByteMem) : InitStored chip B.base m (initParam chip B.base m) := by
  have hsize := chip.le_paramSize
  have hctrl : _ + chip.paramSize ≤ _ ∨ _ + 42 ≤ _ := B.separate .param .ctrl (by decide)
  rw [initParam, initPowers_eq]
  generalize hm₂ : fill (initVersion chip B.base (initFirst B.base (initCeilings chip B.base m)))
    (B.base .param + 244) 14 _ = m₂
  have hinput : ∀ i < 77, m₂ (B.base .input + i) = m (B.base .input + i) := by
    intro i hi
    rw [← hm₂, B.fill_other (by decide) (show 244 + 14 ≤ chip.paramSize by omega) hi,
      initVersion_keeps_input B hi]
  have hpower : ∀ i < 14, m₂ (B.base .param + (244 + i)) =
      storedPower (m (B.base .input + (2 + i))) (chipCeiling chip (m (B.base .param + 525)) i) := by
    intro i hi
    rw [← hm₂, ← Nat.add_assoc, fill_range hi, initVersion_keeps_input B (by omega),
      initVersion_ceiling B m hi]
  obtain ⟨hkeep, hmode, hgroups, hfourth⟩ := initRegulatory_stored B m₂
  constructor
  · intro i hi
    rw [initRest_of_not_mem (by omega), hkeep i hi, hpower i hi]
  · rw [initRest_of_not_mem (by omega), hmode, hinput 18 (by decide)]
  · intro i hi
    rw [initRest_of_not_mem (by omega), hgroups i hi, hinput _ (by omega)]
  · intro i hi
    rw [initRest_of_not_mem (by omega), hfourth i hi, hinput _ (by omega)]

end Stored

end EspWifiHal
