import EspWifiHal.Phy.GainLookup

/-!
# The gain tables of the calibration

`calibration_tables` writes the tables that the gains are looked up in: it copies them from
constants and shifts the thresholds so that the reference entry is zero.  On S3 the chip
version selects one of two tables, and neither increases (`calibrationTables_antitone`).
-/

namespace EspWifiHal

open Memory

/-! ## The tables -/

/-- `CONSTANTS` -/
def PhyChip.gainConstants : PhyChip → List (BitVec 8)
  | .esp32c3 =>
      [82, 82, 82, 82, 127, 127, 127, 111, 95, 79, 119, 87, 115, 83, 53, 35, 19, 18, 48, 32, 16, 0,
        0, 0, 32, 0, 24, 0, 16, 0, 12, 0, 6, 0, 0, 0, 249, 255, 240, 255, 226, 255, 215, 255, 203,
        255, 193, 255, 178, 255, 169, 255, 157, 255, 146, 255, 132, 255, 108, 255, 127, 111, 95,
        79, 63, 47, 31, 15, 11, 7, 3, 2, 1, 0, 0, 0, 32, 0, 29, 0, 23, 0, 17, 0, 9, 0, 0, 0, 242,
        255, 219, 255, 209, 255, 194, 255, 170, 255, 161, 255, 148, 255, 124, 255]
  | .esp32s3 =>
      [100, 100, 100, 100, 127, 127, 127, 127, 127, 111, 95, 107, 119, 87, 115, 82, 81, 49, 48, 32,
        16, 0, 160, 0, 32, 0, 0, 1, 128, 0, 0, 0, 0, 0, 0, 0, 0, 0, 0, 0, 0, 0, 0, 0, 0, 0, 0, 0, 0,
        0, 0, 0, 0, 0, 0, 0, 0, 0, 48, 0, 40, 0, 32, 0, 24, 0, 16, 0, 12, 0, 6, 0, 0, 0, 249, 255,
        240, 255, 226, 255, 203, 255, 193, 255, 178, 255, 157, 255, 146, 255, 132, 255, 108, 255,
        127, 0, 127, 0, 127, 0, 127, 0, 111, 0, 95, 0, 79, 0, 75, 0, 71, 0, 55, 0, 54, 0, 67, 0,
        51, 0, 50, 0, 19, 0, 6, 0, 3, 0, 2, 0, 40, 0, 32, 0, 24, 0, 16, 0, 12, 0, 6, 0, 0, 0, 246,
        255, 232, 255, 225, 255, 216, 255, 209, 255, 201, 255, 192, 255, 177, 255, 168, 255, 153,
        255, 144, 255]

/-- `copy` of constants. -/
def PhyChip.copyConstants (chip : PhyChip) (m : ByteMem) (destination offset size : Nat) :
    ByteMem :=
  fill m destination size fun i => chip.gainConstants.getD (offset + i) 0

/-- The parameters and the local array of `calibration_tables`. -/
inductive TablesBuffer where
  | param
  | storage
deriving DecidableEq, Repr

def TablesBuffer.size (chip : PhyChip) : TablesBuffer → Nat
  | .param => chip.paramSize
  | .storage => 224

abbrev TablesBuffers (chip : PhyChip) := Regions TablesBuffer (TablesBuffer.size chip)

/-- The local array. -/
def tablesStorage (chip : PhyChip) (b : Nat) (m : ByteMem) : ByteMem :=
  let m := chip.copyConstants m b 4 18
  match chip with
  | .esp32s3 =>
      let m := chip.copyConstants m (b + 24) 22 36
      let m := chip.copyConstants m (b + 64) 58 36
      let m := chip.copyConstants m (b + 104) 94 36
      let m := (List.range 18).foldl (fun m i => write m (b + 144 + i * 2) 2 0) m
      let m := write m (b + 144) 2 32
      let m := write m (b + 146) 2 256
      let m := write m (b + 148) 2 128
      chip.copyConstants m (b + 184) 130 36
  | .esp32c3 =>
      let m := (List.range 8).foldl (fun m i => write m (b + 28 + i * 4) 4 0) m
      let m := write m (b + 24) 4 0x00800100
      let m := chip.copyConstants m (b + 64) 24 36
      let m := chip.copyConstants m (b + 104) 60 14
      chip.copyConstants m (b + 120) 76 28

/-- An entry of the tables: its code, its value and its threshold. -/
def tablesEntry (chip : PhyChip) (b p : Nat) (alternate : BitVec 32) (m : ByteMem) (i : Nat) :
    ByteMem :=
  let code := read m (if alternate = 1 then b + 104 + i * 2 else b + i) 1
  let m := write m (p + 14 + i) 1 code
  let value := read m (if alternate = 1 then b + 144 + i * 2 else b + 24 + i * 2) 2
  let m := write m (p + 32 + i * 2) 2 value
  let threshold := read m (if alternate = 1 then b + 184 + i * 2 else b + 64 + i * 2) 2
  let m := write m (p + 68 + i * 2) 2 threshold
  match chip with
  | .esp32s3 => m
  | .esp32c3 =>
      let reference := read m (p + 0x4e) 2
      write m (p + 68 + i * 2) 2 (threshold - reference)

/-- S3 shifts the thresholds after all of them are written. -/
def tablesShift (p : Nat) (alternate : BitVec 32) (m : ByteMem) : ByteMem :=
  let index := if alternate = 1 then 6 else 8
  let m := write m (p + 0x20c) 1 (BitVec.ofNat 32 index)
  let reference := sh (read m (p + 68 + index * 2) 2)
  (List.range 18).foldl
    (fun m i =>
      let threshold := read m (p + 68 + i * 2) 2
      write m (p + 68 + i * 2) 2 (threshold - BitVec.ofInt 32 reference))
    m

/-- C3 has a second pair of tables. -/
def tablesSecond (b p : Nat) (m : ByteMem) : ByteMem :=
  let m := write m (p + 0xa3) 1 5
  let m :=
    (List.range 14).foldl
      (fun m i =>
        let code := read m (b + 104 + i) 1
        let m := write m (p + 0x68 + i) 1 code
        let threshold := read m (b + 120 + i * 2) 2
        let m := write m (p + 0x76 + i * 2) 2 threshold
        let reference := read m (p + 0x80) 2
        write m (p + 0x76 + i * 2) 2 (threshold - reference))
      m
  write m (p + 0xa4) 1 5

def calibrationTables (chip : PhyChip) (base : TablesBuffer → Nat) (m : ByteMem) : ByteMem :=
  let b := base .storage
  let p := base .param
  let m := tablesStorage chip b m
  let alternate :=
    match chip with
    | .esp32s3 => read m (p + 0x20d) 1
    | .esp32c3 => 0
  let m := (List.range 18).foldl (tablesEntry chip b p alternate) m
  match chip with
  | .esp32s3 => tablesShift p alternate m
  | .esp32c3 => tablesSecond b p m

/-! ## The thresholds of S3 -/

/-- The constant that a threshold is copied from. -/
def thresholdConstant (alternate : Bool) (i : Nat) : BitVec 32 :=
  read (PhyChip.esp32s3.gainConstants.getD · 0) ((if alternate then 130 else 58) + i * 2) 2

/-- The entry whose threshold becomes zero. -/
def referenceEntry (alternate : Bool) : Nat := if alternate then 6 else 8

/-- The threshold that the calibration writes. -/
def shiftedThreshold (alternate : Bool) (i : Nat) : Int :=
  sh (thresholdConstant alternate i -
    BitVec.ofInt 32 (sh (thresholdConstant alternate (referenceEntry alternate))))

theorem shiftedThreshold_antitone (alternate : Bool) :
    AntitoneOn (shiftedThreshold alternate) (Set.Iio 18) := by
  have htables : ∀ alternate, ∀ j < 18, ∀ i ≤ j,
      shiftedThreshold alternate j ≤ shiftedThreshold alternate i := by
    decide +kernel
  intro i _ j hj hij
  exact htables alternate j (Set.mem_Iio.mp hj) i hij

section Thresholds

variable (b p : Nat) (m : ByteMem) (alternate : BitVec 32)

theorem foldl_write_zero (x : ByteMem) (a n : Nat) :
    (List.range n).foldl (fun m i => write m (a + i * 2) 2 0) x = fill x a (2 * n) fun _ => 0 := by
  refine foldl_fill _ x a 2 n _ fun k _ => ?_
  rw [Nat.mul_comm k, write]
  refine fill_congr fun i _ => ?_
  simp [byteOf]

theorem tablesStorage_outside {x : Nat} (h : x < b ∨ b + 224 ≤ x) :
    tablesStorage .esp32s3 b m x = m x := by
  simp only [tablesStorage, PhyChip.copyConstants, foldl_write_zero]
  simp only [write]
  iterate 9 rw [fill_of_not_mem (by omega)]

/-- Where a threshold is copied from. -/
def storedThreshold (i : Nat) : Nat := if alternate = 1 then b + 184 + i * 2 else b + 64 + i * 2

theorem read_tablesStorage {i : Nat} (hi : i < 18) :
    read (tablesStorage .esp32s3 b m) (storedThreshold b alternate i) 2 =
      thresholdConstant (alternate = 1) i := by
  refine read_congr fun j hj => ?_
  simp only [tablesStorage, PhyChip.copyConstants, foldl_write_zero, storedThreshold,
    decide_eq_true_eq]
  simp only [write]
  split
  · rw [Nat.add_assoc (b + 184), fill_range (by omega), Nat.add_assoc 130]
  · iterate 5 rw [fill_of_not_mem (by omega)]
    rw [fill_of_not_mem (by omega), Nat.add_assoc (b + 64), fill_range (by omega),
      Nat.add_assoc 58]

end Thresholds

/-! ## The loops -/

section Loops

variable (B : TablesBuffers .esp32s3) (m : ByteMem) (alternate : BitVec 32)

theorem read_write_threshold (a k j : Nat) (v : BitVec 32) :
    read (write m (a + k * 2) 2 v) (a + j * 2) 2 =
      if j = k then (v.setWidth 16).setWidth 32 else read m (a + j * 2) 2 := by
  rw [Nat.mul_comm k, Nat.mul_comm j]
  exact read_write_entry m a k j v (by decide)

theorem param_storage :
    B.base .param + 740 ≤ B.base .storage ∨ B.base .storage + 224 ≤ B.base .param :=
  B.separate .param .storage (by decide)

theorem tablesEntry_storage {i k : Nat} (hi : i < 18) (hk : k < 224) :
    tablesEntry .esp32s3 (B.base .storage) (B.base .param) alternate m i (B.base .storage + k) =
      m (B.base .storage + k) := by
  have hseparate := param_storage B
  simp only [tablesEntry, write]
  iterate 3 rw [fill_of_not_mem (by omega)]

theorem storedThreshold_bounds {b i : Nat} (hi : i < 18) :
    b ≤ storedThreshold b alternate i ∧ storedThreshold b alternate i + 2 ≤ b + 224 := by
  rw [storedThreshold]
  split <;> omega

theorem read_tablesEntry {i : Nat} (hi : i < 18) (j : Nat) :
    read (tablesEntry .esp32s3 (B.base .storage) (B.base .param) alternate m i)
        (B.base .param + 68 + j * 2) 2 =
      if j = i then read m (storedThreshold (B.base .storage) alternate i) 2
      else read m (B.base .param + 68 + j * 2) 2 := by
  have hseparate := param_storage B
  have hstored := storedThreshold_bounds alternate (b := B.base .storage) hi
  rw [tablesEntry, ← storedThreshold, read_write_threshold, setWidth_read _ _ 2]
  -- the code and the value lie below the thresholds
  split
  case isTrue =>
      refine read_congr fun k hk => ?_
      simp only [write]
      iterate 2 rw [fill_of_not_mem (by omega)]
  case isFalse =>
      refine read_congr fun k hk => ?_
      simp only [write]
      iterate 2 rw [fill_of_not_mem (by omega)]

theorem foldl_tablesEntry {i : Nat} (hi : i < 18) :
    read ((List.range 18).foldl
        (tablesEntry .esp32s3 (B.base .storage) (B.base .param) alternate) m)
        (B.base .param + 68 + i * 2) 2 =
      read m (storedThreshold (B.base .storage) alternate i) 2 := by
  obtain ⟨_, hdone, _⟩ := Words.foldl_modify
    (fun x : ByteMem => ∀ k < 224, x (B.base .storage + k) = m (B.base .storage + k))
    (fun x j => read x (B.base .param + 68 + j * 2) 2) id
    (fun j _ => read m (storedThreshold (B.base .storage) alternate j) 2)
    (tablesEntry .esp32s3 (B.base .storage) (B.base .param) alternate)
    (fun _ _ _ _ h => h)
    (fun x j hj hx => by
      refine ⟨fun k hk => (tablesEntry_storage B x alternate hj hk).trans (hx k hk), ?_⟩
      funext l
      have hstored := storedThreshold_bounds alternate (b := B.base .storage) hj
      have hread : read x (storedThreshold (B.base .storage) alternate j) 2 =
          read m (storedThreshold (B.base .storage) alternate j) 2 := by
        refine read_congr fun k hk => ?_
        have hbyte := hx (storedThreshold (B.base .storage) alternate j - B.base .storage + k)
          (by omega)
        rwa [← Nat.add_assoc, Nat.add_sub_cancel' hstored.1] at hbyte
      rw [read_tablesEntry B x alternate hj, hread, id, Function.update_apply])
    (s := m) (fun _ _ => rfl)
  exact hdone i hi

theorem tablesShift_threshold (p : Nat) {i : Nat} (hi : i < 18) :
    threshold (p + 68) (tablesShift p alternate m) i =
      sh (read m (p + 68 + i * 2) 2 - BitVec.ofInt 32
        (sh (read m (p + 68 + referenceEntry (alternate = 1) * 2) 2))) := by
  have hindex : (if alternate = 1 then 6 else 8) = referenceEntry (alternate = 1) := by
    simp [referenceEntry]
  have hentry : referenceEntry (alternate = 1) < 18 := by
    rw [← hindex]
    split <;> decide
  have hread (v : BitVec 32) {j : Nat} (hj : j < 18) :
      read (write m (p + 0x20c) 1 v) (p + 68 + j * 2) 2 = read m (p + 68 + j * 2) 2 := by
    refine read_congr fun k hk => ?_
    rw [write, fill_of_not_mem (by omega)]
  simp only [tablesShift, hindex, hread _ hentry]
  -- an iteration changes only its own threshold
  obtain ⟨_, hdone, _⟩ := Words.foldl_modify (fun _ : ByteMem => True)
    (fun x j => read x (p + 68 + j * 2) 2) id
    (fun _ v => ((v - BitVec.ofInt 32
      (sh (read m (p + 68 + referenceEntry (alternate = 1) * 2) 2))).setWidth 16).setWidth 32)
    (fun x j => write x (p + 68 + j * 2) 2 (read x (p + 68 + j * 2) 2 - BitVec.ofInt 32
      (sh (read m (p + 68 + referenceEntry (alternate = 1) * 2) 2))))
    (fun _ _ _ _ h => h)
    (fun x j _ _ => by
      refine ⟨trivial, ?_⟩
      funext l
      rw [read_write_threshold, id, Function.update_apply])
    (s := write m (p + 0x20c) 1 (BitVec.ofNat 32 (referenceEntry (alternate = 1)))) trivial
  rw [threshold]
  refine (congrArg sh (hdone i hi)).trans ?_
  rw [sh_setWidth, id, hread _ hi]

/-- The thresholds that the calibration writes on S3. -/
theorem calibrationTables_threshold {i : Nat} (hi : i < 18) :
    threshold (B.base .param + 68) (calibrationTables .esp32s3 B.base m) i =
      shiftedThreshold (m (B.base .param + 0x20d) = 1) i := by
  have hseparate := param_storage B
  have halternate : read (tablesStorage .esp32s3 (B.base .storage) m) (B.base .param + 0x20d) 1 =
      (m (B.base .param + 0x20d)).setWidth 32 := by
    rw [read_one, tablesStorage_outside _ _ (by omega)]
  have hentry : referenceEntry (m (B.base .param + 0x20d) = 1) < 18 := by
    rw [referenceEntry]
    split <;> decide
  have hthreshold {j : Nat} (hj : j < 18) := (foldl_tablesEntry B
    (tablesStorage .esp32s3 (B.base .storage) m) ((m (B.base .param + 0x20d)).setWidth 32) hj).trans
    (read_tablesStorage (B.base .storage) m _ hj)
  simp only [calibrationTables]
  rw [halternate, tablesShift_threshold _ _ _ hi]
  simp only [setWidth_eq_one_iff] at hthreshold ⊢
  rw [hthreshold hi, hthreshold hentry, shiftedThreshold]

theorem calibrationTables_antitone :
    AntitoneOn (threshold (B.base .param + 68) (calibrationTables .esp32s3 B.base m))
      (Set.Iio 18) := by
  intro i hi j hj hij
  rw [calibrationTables_threshold B m hi, calibrationTables_threshold B m hj]
  exact shiftedThreshold_antitone _ hi hj hij

end Loops

/-! ## The search with a hint -/

/-- The walk of S3 stays in a table of `n` entries and ends after `n` iterations at most.
In a table that does not increase it stops where the scan of C3 does, whatever the hint.
The lookup returns that entry or the one before it, and writes the entry it returns.  So in
such tables, as the calibration writes them, each rate of `wifi_get` and `bt_get` gets the
gain that its own request gives. -/
theorem hinted_lookup {n : Nat} (hpos : 0 < n) (hn : n ≤ 255) :
    (∀ (table hint : Nat) (requested : Int) (m : ByteMem) (fuel : Nat), hint < n → n < fuel →
      (∀ k ≤ n, lookupAfter table hint n requested m k < n) ∧
      lookupIndex table hint n requested m fuel =
        some (lookupAfter table hint n requested m n)) ∧
    (∀ (table hint : Nat) (requested : Int) (m : ByteMem) (fuel : Nat), hint < n → n < fuel →
      AntitoneOn (threshold table m) (Set.Iio n) →
      ∃ i, Search.Stops (threshold table m) requested n i ∧
        lookupIndex table hint n requested m fuel = some i ∧
        scanIndex table n requested m fuel 0 = some i) ∧
    (∀ (L : LookupBuffers n) (m : ByteMem) (hint adjustment requested count limit : BitVec 32)
      (fuel : Nat), count.toNat % 256 = n → hint.toNat % 256 < n → n < fuel →
      ∃ i m', lookupIndex (L.base .thresholds) (hint.toNat % 256) n (sh requested) m fuel = some i ∧
        lookupS3 L.base hint adjustment requested count limit fuel m =
          some (adjustIndex L.base (sh requested) (sh adjustment) (sb limit) m i, m') ∧
        Found L.base (sh requested)
          (adjustIndex L.base (sh requested) (sh adjustment) (sb limit) m i) m m') ∧
    (∀ (B : WifiBuffers) (dig : DigCallbacks) (reference delta : BitVec 32)
      (power : ByteMem → BitVec 32) (fuel : Nat) (m : ByteMem), 18 < fuel →
      AntitoneOn (threshold (B.base .thresholds) m) (Set.Iio 18) →
      ∃ m', wifiGet .esp32s3 dig B.base reference delta power fuel m = some m' ∧
        ∀ i < 14, wifiRateAt B.base m' i =
          wifiRate dig (WifiBuffer.lookup B.base) ((BitVec.ofInt 16 (sb (power m))).setWidth 32)
            (wifiRequest B.base reference delta m i) m) ∧
    (∀ (B : BtBuffers) (limit : LimitCallback) (a : BtArgs) (fuel : Nat) (m : ByteMem), 14 < fuel →
      AntitoneOn (threshold (B.base .thresholds) m) (Set.Iio 14) →
      ∃ m', btGet .esp32s3 limit B.base a fuel m = some m' ∧
        ∀ i < 16, btRateAt B.base m' i = btRate (BtBuffer.lookup B.base) (btInput B.base m)
          (btRequest .esp32s3 limit a (btLevel a i)) m) ∧
    ∀ (B : TablesBuffers .esp32s3) (m : ByteMem),
      AntitoneOn (threshold (B.base .param + 68) (calibrationTables .esp32s3 B.base m))
        (Set.Iio 18) := by
  refine ⟨?walk, ?scan, ?final, ?wifi, ?bt, calibrationTables_antitone⟩
  case walk =>
      intro table hint requested m fuel hhint hfuel
      exact ⟨fun k hk => lookupAfter_lt hn hhint hk, lookupIndex_eq_lookupAfter hn hhint hfuel⟩
  case scan =>
      intro table hint requested m fuel hhint hfuel htable
      exact ⟨_, Search.first_stops hpos, lookupIndex_eq hn hhint hfuel htable,
        scanIndex_eq hn hpos hfuel⟩
  case final =>
      intro L m hint adjustment requested count limit fuel hcount hhint hfuel
      obtain ⟨hindex, _, _, m', hlookup, hfound⟩ :=
        lookupS3_walk L (m := m) hn hint adjustment requested count limit hcount hhint hfuel
      exact ⟨_, m', hindex, hlookup, hfound⟩
  case wifi =>
      intro B dig reference delta power fuel m hfuel htable
      exact wifiGet_spec B dig reference delta power hfuel htable
  case bt =>
      intro B limit a fuel m hfuel htable
      exact btGet_spec B limit a hfuel htable

/-- The thresholds 5, 3 and 1: a request of 4 is found at entry 1 from the last entry. -/
theorem hinted_lookup_of_three :
    let m : ByteMem := fun a => [5, 0, 3, 0, 1, 0].getD a 0
    lookupAfter 0 2 3 4 m 2 < 3 ∧
      ∃ i, i = 1 ∧ lookupIndex 0 2 3 4 m 4 = some i ∧ scanIndex 0 3 4 m 4 0 = some i := by
  intro m
  have htable : AntitoneOn (threshold 0 m) (Set.Iio 3) := by
    have hle : ∀ j < 3, ∀ i ≤ j, threshold 0 m j ≤ threshold 0 m i := by decide
    intro i _ j hj hij
    exact hle j (Set.mem_Iio.mp hj) i hij
  obtain ⟨hwalk, hscan, _⟩ := hinted_lookup (n := 3) (by decide) (by decide)
  obtain ⟨i, _, hlookup, hfirst⟩ := hscan 0 2 4 m 4 (by decide) (by decide) htable
  have hone : lookupIndex 0 2 3 4 m 4 = some 1 := by decide
  exact ⟨(hwalk 0 2 4 m 4 (by decide) (by decide)).1 2 (by decide), i,
    Option.some_inj.mp (hlookup.symm.trans hone), hlookup, hfirst⟩

end EspWifiHal
