import EspWifiHal.Phy.Init
import Mathlib.Algebra.BigOperators.Group.Finset.Basic

/-!
# Calibration data

`backup` writes the PHY parameters to a buffer of the caller behind a header of twelve
bytes, `check` writes the version to the first word of it and a checksum behind the
parameters, or compares the checksum.  `transfer` loads all parameters from the buffer and
`recovery` a part of them.

The table slot `0x98` (`0xa4` on C3) is taken to be a little-endian load of four bytes.
-/

namespace EspWifiHal

open Memory

/-! ## The functions -/

/-- The callback that loads four bytes. -/
def loadBytes (m : ByteMem) (a : Nat) : BitVec 32 := read m a 4

def transfer (chip : PhyChip) (p data : Nat) (save : BitVec 32) (m : ByteMem) : ByteMem :=
  (List.range (chip.paramSize / 4)).foldl
    (fun m k =>
      let i := 4 * k
      if chip.byte save ≠ 0 then
        -- the word is read again for each byte
        (List.range 4).foldl
          (fun m shift => write m (data + 12 + i + shift) 1 (read m (p + i) 4 >>> (shift * 8))) m
      else write m (p + i) 4 (loadBytes m (data + 12 + i)))
    m

def recovery (chip : PhyChip) (p data : Nat) (m : ByteMem) : ByteMem :=
  match chip with
  | .esp32s3 =>
      let m := copy m (p + 288) (data + 300) 236
      let first := read m (data + 230) 2
      let second := read m (data + 232) 2
      let m := write m (p + 218) 2 first
      write m (p + 220) 2 second
  | .esp32c3 =>
      let m := copy m (p + 288) (data + 300) 244
      let first := read m (data + 230) 2
      let m := write m (p + 218) 2 first
      let second := read m (data + 232) 2
      write m (p + 220) 2 second

def backup (chip : PhyChip) (p data : Nat) (m : ByteMem) : ByteMem := transfer chip p data 1 m

def macData (data : Nat) (version : BitVec 32) (m : ByteMem) : ByteMem :=
  (List.range 4).foldl (fun m i => write m (data + i) 1 (version >>> (i * 8))) m

/-- The sum of the words before the checksum. -/
def wordSum (chip : PhyChip) (data : Nat) (m : ByteMem) : BitVec 32 :=
  (List.range ((chip.paramSize + 12) / 4)).foldl (fun sum k => sum + loadBytes m (data + 4 * k)) 0

def check (chip : PhyChip) (checkOnly : BitVec 32) (data _input : Nat) (version : BitVec 32)
    (m : ByteMem) : BitVec 32 × ByteMem :=
  let m := macData data version m
  let expected := ~~~wordSum chip data m
  let actual := loadBytes m (data + chip.paramSize + 12)
  if chip.byte checkOnly ≠ 0 then (if expected ≠ actual then 1 else 0, m)
  else
    (0, (List.range 4).foldl
      (fun m i => write m (data + chip.paramSize + 12 + i) 1 (expected >>> (i * 8))) m)

/-! ## Copying the parameters -/

inductive CalibrationBuffer where
  | param
  | data
deriving DecidableEq, Repr

/-- The buffer of the caller holds a header, the parameters and the checksum. -/
def CalibrationBuffer.size (chip : PhyChip) : CalibrationBuffer → Nat
  | .param => chip.paramSize
  | .data => chip.paramSize + 16

abbrev CalibrationBuffers (chip : PhyChip) :=
  Regions CalibrationBuffer (CalibrationBuffer.size chip)

section Copy

variable {chip : PhyChip} (B : CalibrationBuffers chip) {m : ByteMem} {save : BitVec 32}

theorem paramSize_words (chip : PhyChip) : 4 * (chip.paramSize / 4) = chip.paramSize := by
  cases chip <;> rfl

/-- Changes in the buffer of the caller do not reach the parameters. -/
theorem param_of_fill_data {k n i : Nat} {f : Nat → BitVec 8} (hk : k + n ≤ chip.paramSize + 16)
    (hi : i < chip.paramSize) :
    fill m (B.base .data + k) n f (B.base .param + i) = m (B.base .param + i) :=
  B.fill_other (by decide) hk hi

theorem data_of_fill_param {k n i : Nat} {f : Nat → BitVec 8} (hk : k + n ≤ chip.paramSize)
    (hi : i < chip.paramSize + 16) :
    fill m (B.base .param + k) n f (B.base .data + i) = m (B.base .data + i) :=
  B.fill_other (by decide) hk hi

theorem transfer_save (hsave : chip.byte save ≠ 0) :
    transfer chip (B.base .param) (B.base .data) save m =
      fill m (B.base .data + 12) chip.paramSize fun i => m (B.base .param + i) := by
  have hwords := paramSize_words chip
  rw [← hwords]
  refine foldl_fill _ m _ 4 _ _ fun k hk => ?_
  rw [if_pos hsave]
  refine foldl_fill_bytes _ _ _ 4 _ fun shift hshift => ?_
  -- the bytes written so far are in the buffer, so the word that is read again is the same
  have hsource :
      fill (fill m (B.base .data + 12) (4 * k) fun i => m (B.base .param + i))
        (B.base .data + 12 + 4 * k) shift (fun i => m (B.base .param + (4 * k + i)))
        (B.base .param + 4 * k + shift) = m (B.base .param + (4 * k + shift)) := by
    rw [Nat.add_assoc (B.base .data), Nat.add_assoc (B.base .param),
      param_of_fill_data B (by omega) (by omega), param_of_fill_data B (by omega) (by omega)]
  rw [write_one, setWidth_shiftRight, byteOf_read (Nat.le_refl 4) hshift, hsource]

theorem transfer_load (hload : chip.byte save = 0) :
    transfer chip (B.base .param) (B.base .data) save m =
      fill m (B.base .param) chip.paramSize fun i => m (B.base .data + 12 + i) := by
  have hwords := paramSize_words chip
  rw [← hwords]
  refine foldl_fill _ m _ 4 _ _ fun k hk => ?_
  rw [if_neg (not_not.mpr hload), loadBytes, write_read _ _ _ _ (Nat.le_refl 4)]
  refine fill_congr fun i hi => ?_
  have hsource := data_of_fill_param B (m := m) (k := 0) (n := 4 * k) (i := 12 + 4 * k + i)
    (f := fun i => m (B.base .data + 12 + i)) (by omega) (by omega)
  simpa [Nat.add_assoc] using hsource

/-- The parameters that `recovery` restores. -/
def Recovered (chip : PhyChip) (i : Nat) : Prop :=
  (218 ≤ i ∧ i ≤ 221) ∨
    288 ≤ i ∧ i ≤ match chip with
      | .esp32s3 => 523
      | .esp32c3 => 531

instance (chip : PhyChip) (i : Nat) : Decidable (Recovered chip i) :=
  inferInstanceAs (Decidable (_ ∨ _))

/-- The range from offset 288 on and the two halfwords at offset 218. -/
theorem fill_recovered {p data n i : Nat} {f g : Nat → BitVec 8}
    (hf : ∀ i < 2, f i = m (data + (230 + i))) (hg : ∀ i < 2, g i = m (data + (232 + i))) :
    fill (fill (copy m (p + 288) (data + 300) n) (p + 218) 2 f) (p + 220) 2 g (p + i) =
      if (218 ≤ i ∧ i ≤ 221) ∨ 288 ≤ i ∧ i < 288 + n then m (data + (12 + i)) else m (p + i) := by
  rw [fill_add]
  split
  case isTrue hsecond =>
      have hoffset : 232 + (i - 220) = 12 + i := by omega
      rw [if_pos (by omega), hg _ (by omega), hoffset]
  case isFalse hsecond =>
      rw [fill_add]
      split
      case isTrue hfirst =>
          have hoffset : 230 + (i - 218) = 12 + i := by omega
          rw [if_pos (by omega), hf _ (by omega), hoffset]
      case isFalse hfirst =>
          rw [copy, fill_add]
          split
          case isTrue hrange =>
              have hoffset : 300 + (i - 288) = 12 + i := by omega
              rw [if_pos (by omega), Nat.add_assoc, hoffset]
          case isFalse hrange => rw [if_neg (by omega)]

theorem recovery_param (i : Nat) :
    recovery chip (B.base .param) (B.base .data) m (B.base .param + i) =
      if Recovered chip i then m (B.base .data + (12 + i)) else m (B.base .param + i) := by
  cases chip with
  | esp32s3 =>
      -- both halfwords are read before the first of them is written
      have hdata (j : Nat) (hj : j < 756) : copy m (B.base .param + 288) (B.base .data + 300) 236
          (B.base .data + j) = m (B.base .data + j) :=
        data_of_fill_param B (by decide) hj
      have hrange : Recovered .esp32s3 i ↔
          (218 ≤ i ∧ i ≤ 221) ∨ 288 ≤ i ∧ i < 288 + 236 := by
        simp only [Recovered]
        omega
      rw [recovery, write_read _ _ _ _ (by decide), write_read _ _ _ _ (by decide),
        fill_recovered]
      · simp only [hrange]
      · intro i hi
        rw [Nat.add_assoc, hdata _ (by omega)]
      · intro i hi
        rw [Nat.add_assoc, hdata _ (by omega)]
  | esp32c3 =>
      have hdata (j : Nat) (hj : j < 864) : copy m (B.base .param + 288) (B.base .data + 300) 244
          (B.base .data + j) = m (B.base .data + j) :=
        data_of_fill_param B (by decide) hj
      have hrange : Recovered .esp32c3 i ↔
          (218 ≤ i ∧ i ≤ 221) ∨ 288 ≤ i ∧ i < 288 + 244 := by
        simp only [Recovered]
        omega
      rw [recovery, write_read _ _ _ _ (by decide), write_read _ _ _ _ (by decide),
        fill_recovered]
      · simp only [hrange]
      · intro i hi
        rw [Nat.add_assoc, hdata _ (by omega)]
      · intro i hi
        have hlt : 232 + i < 864 := by omega
        rw [Nat.add_assoc, data_of_fill_param B (by decide) hlt, hdata _ hlt]

end Copy

/-! ## The checksum -/

section Checksum

variable {chip : PhyChip} {data : Nat} {m m' : ByteMem} {v v' w : BitVec 32} {k : Nat}

/-- The word of the checksum. -/
def checksumWord (chip : PhyChip) : Nat := (chip.paramSize + 12) / 4

theorem four_mul_checksumWord (chip : PhyChip) : 4 * checksumWord chip = chip.paramSize + 12 := by
  cases chip <;> rfl

theorem wordSum_eq_sum (m : ByteMem) :
    wordSum chip data m = ∑ k ∈ Finset.range (checksumWord chip), read m (data + 4 * k) 4 := by
  rw [wordSum, checksumWord]
  induction (chip.paramSize + 12) / 4 with
  | zero => rfl
  | succ n ih =>
      rw [List.range_succ, List.foldl_append, ih, Finset.sum_range_succ]
      rfl

/-- Two memories that differ in one word of the blob have the same sum if that word is the
same. -/
theorem wordSum_eq_iff (hk : k < checksumWord chip)
    (h : ∀ j < checksumWord chip, j ≠ k →
      read m' (data + 4 * j) 4 = read m (data + 4 * j) 4) :
    wordSum chip data m' = wordSum chip data m ↔
      read m' (data + 4 * k) 4 = read m (data + 4 * k) 4 := by
  have hmem : k ∈ Finset.range (checksumWord chip) := Finset.mem_range.mpr hk
  have hrest : ∑ j ∈ (Finset.range (checksumWord chip)).erase k, read m' (data + 4 * j) 4 =
      ∑ j ∈ (Finset.range (checksumWord chip)).erase k, read m (data + 4 * j) 4 :=
    Finset.sum_congr rfl fun j hj =>
      h j (Finset.mem_range.mp (Finset.mem_of_mem_erase hj)) (Finset.ne_of_mem_erase hj)
  rw [wordSum_eq_sum, wordSum_eq_sum, ← Finset.add_sum_erase _ _ hmem,
    ← Finset.add_sum_erase _ _ hmem, hrest, add_left_inj]

theorem checksumWord_pos (chip : PhyChip) : 0 < checksumWord chip := by
  cases chip <;> decide

theorem macData_eq (data : Nat) (version : BitVec 32) (m : ByteMem) :
    macData data version m = write m data 4 version :=
  foldl_write_bytes m data version

theorem check_store (input : Nat) (v : BitVec 32) (m : ByteMem) :
    check chip 0 data input v m =
      (0, write (write m data 4 v) (data + 4 * checksumWord chip) 4
        (~~~wordSum chip data (write m data 4 v))) := by
  have hstore : ¬chip.byte 0 ≠ 0 := by cases chip <;> decide
  rw [check, if_neg hstore, macData_eq, foldl_write_bytes, four_mul_checksumWord, Nat.add_assoc]

theorem check_compare (input : Nat) (v : BitVec 32) (m : ByteMem) :
    (check chip 1 data input v m).1 =
      if read (write m data 4 v) (data + 4 * checksumWord chip) 4 =
        ~~~wordSum chip data (write m data 4 v) then 0 else 1 := by
  have hcompare : chip.byte 1 ≠ 0 := by cases chip <;> decide
  rw [check, if_pos hcompare, macData_eq, four_mul_checksumWord, loadBytes, Nat.add_assoc]
  simp only [ne_eq, ite_not, eq_comm]

/-- The blob has the version `v` and its checksum. -/
structure Sealed (chip : PhyChip) (data : Nat) (v : BitVec 32) (m : ByteMem) : Prop where
  version : read m data 4 = v
  checksum : read m (data + 4 * checksumWord chip) 4 = ~~~wordSum chip data m

/-- Writing the version changes the first word only. -/
theorem read_write_version (m : ByteMem) (data j : Nat) (v : BitVec 32) :
    read (write m data 4 v) (data + 4 * j) 4 = if j = 0 then v else read m (data + 4 * j) 4 :=
  read_write_word m data 0 j v

/-- Words that are the same up to the checksum have the same sum. -/
theorem wordSum_congr
    (h : ∀ j < checksumWord chip, read m' (data + 4 * j) 4 = read m (data + 4 * j) 4) :
    wordSum chip data m' = wordSum chip data m :=
  (wordSum_eq_iff (checksumWord_pos chip) fun j hj _ => h j hj).mpr (h 0 (checksumWord_pos chip))

theorem sealed_check (input : Nat) (v : BitVec 32) (m : ByteMem) :
    Sealed chip data v (check chip 0 data input v m).2 := by
  have hpos := checksumWord_pos chip
  rw [check_store]
  constructor
  · have hversion := read_write_word (write m data 4 v) data (checksumWord chip) 0
      (~~~wordSum chip data (write m data 4 v))
    rw [if_neg (Nat.ne_of_lt hpos), read_write_version, if_pos rfl] at hversion
    exact hversion
  · rw [read_write_word, if_pos rfl]
    refine congrArg (~~~·) (wordSum_congr fun j hj => ?_).symm
    rw [read_write_word, if_neg (Nat.ne_of_lt hj)]

theorem Sealed.check_iff (h : Sealed chip data v m) (input : Nat) (v' : BitVec 32) :
    (check chip 1 data input v' m).1 = 0 ↔ v' = v := by
  have hpos := checksumWord_pos chip
  have hsum : wordSum chip data (write m data 4 v') = wordSum chip data m ↔ v' = v := by
    rw [wordSum_eq_iff hpos fun j _ hj => by rw [read_write_version, if_neg hj],
      read_write_version, if_pos rfl]
    exact Eq.congr_right h.version
  rw [check_compare, read_write_version, if_neg (Nat.ne_of_gt hpos), h.checksum, ← hsum]
  split
  case isTrue heq => exact iff_of_true rfl (BitVec.not_inj.mp heq).symm
  case isFalse hne => exact iff_of_false (by decide) fun heq => hne (congrArg (~~~·) heq.symm)

theorem Sealed.check_changed (h : Sealed chip data v m) (hk : k ≠ 0) (hle : k ≤ checksumWord chip)
    (hw : w ≠ read m (data + 4 * k) 4) (input : Nat) :
    (check chip 1 data input v (write m (data + 4 * k) 4 w)).1 = 1 := by
  have hpos := checksumWord_pos chip
  have hword (j : Nat) : read (write (write m (data + 4 * k) 4 w) data 4 v) (data + 4 * j) 4 =
      if j = k then w else read m (data + 4 * j) 4 := by
    rw [read_write_version, read_write_word]
    cases j with
    | zero => rw [if_pos rfl, if_neg (Ne.symm hk), ← h.version]; rfl
    | succ j => rw [if_neg (Nat.succ_ne_zero j)]
  rw [check_compare, if_neg]
  rw [hword]
  split
  case isTrue heq =>
      -- the sum of the words is the one of the checksum that was replaced
      have hsum : wordSum chip data (write (write m (data + 4 * k) 4 w) data 4 v) =
          wordSum chip data m :=
        wordSum_congr fun j hj => by rw [hword, if_neg (by omega)]
      rw [hsum, ← h.checksum, heq]
      exact hw
  case isFalse hne =>
      have hlt : k < checksumWord chip := by omega
      rw [h.checksum, BitVec.not_inj]
      intro hsum
      have hsame := (wordSum_eq_iff hlt fun j _ hj => by rw [hword, if_neg hj]).mp hsum.symm
      rw [hword, if_pos rfl] at hsame
      exact hw hsame

end Checksum

/-! ## The calibration blob -/

theorem backup_image {chip : PhyChip} (B : CalibrationBuffers chip) {m : ByteMem} {i : Nat}
    (hi : i < chip.paramSize) :
    backup chip (B.base .param) (B.base .data) m (B.base .data + (12 + i)) =
      m (B.base .param + i) := by
  have hsave : chip.byte 1 ≠ 0 := by cases chip <;> decide
  rw [backup, transfer_save B hsave, ← Nat.add_assoc, fill_range hi]

/-- The version and the checksum are outside of the image. -/
theorem check_image {chip : PhyChip} {data i : Nat} (input : Nat) (v : BitVec 32) (m : ByteMem)
    (hi : i < chip.paramSize) :
    (check chip 0 data input v m).2 (data + (12 + i)) = m (data + (12 + i)) := by
  have hwords := four_mul_checksumWord chip
  have hversion : write m data 4 v (data + (12 + i)) = m (data + (12 + i)) :=
    fill_of_not_mem (by omega)
  rw [check_store, ← hversion]
  exact fill_of_not_mem (by omega)

/-- After `backup` and `check`, which seals the blob with the version `v`: only that version
passes, a change of any other word is found, and the parameters can be restored from any
memory that still has the blob. -/
theorem calibration_integrity (chip : PhyChip) (B : CalibrationBuffers chip) (input : Nat)
    (m : ByteMem) (v : BitVec 32) :
    let p := B.base .param
    let data := B.base .data
    let m₁ := (check chip 0 data input v (backup chip p data m)).2
    (∀ v', (check chip 1 data input v' m₁).1 = 0 ↔ v' = v) ∧
      (∀ k w, 4 ≤ 4 * k → 4 * k < chip.paramSize + 16 → w ≠ read m₁ (data + 4 * k) 4 →
        (check chip 1 data input v (write m₁ (data + 4 * k) 4 w)).1 = 1) ∧
      ∀ m₂ : ByteMem, (∀ i < chip.paramSize + 16, m₂ (data + i) = m₁ (data + i)) →
        (∀ i < chip.paramSize, transfer chip p data 0 m₂ (p + i) = m (p + i)) ∧
          ∀ i < chip.paramSize, recovery chip p data m₂ (p + i) =
            if Recovered chip i then m (p + i) else m₂ (p + i) := by
  intro p data m₁
  have hsealed : Sealed chip data v m₁ := sealed_check input v _
  have hwords := four_mul_checksumWord chip
  have himage : ∀ i < chip.paramSize, m₁ (data + (12 + i)) = m (p + i) := by
    intro i hi
    exact (check_image input v _ hi).trans (backup_image B hi)
  refine ⟨hsealed.check_iff input, ?_, fun m₂ hblob => ⟨?_, ?_⟩⟩
  · intro k w hfirst hlast hw
    exact hsealed.check_changed (by omega) (by omega) hw input
  · intro i hi
    have hload : chip.byte 0 = 0 := by cases chip <;> rfl
    rw [transfer_load B hload, fill_range hi, Nat.add_assoc, hblob _ (by omega), himage i hi]
  · intro i hi
    rw [recovery_param]
    split
    case isTrue => rw [hblob _ (by omega), himage i hi]
    case isFalse => rfl

/-- The parameters of S3 and a buffer behind them. -/
def adjacentBuffers : CalibrationBuffers .esp32s3 where
  base
    | .param => 0
    | .data => 740
  separate := by
    intro r s h
    cases r <;> cases s <;> first | exact absurd rfl h | decide

theorem calibration_integrity_adjacent :
    let m := (check .esp32s3 0 740 0 5 (backup .esp32s3 0 740 fun _ => 0x5a)).2
    (check .esp32s3 1 740 0 5 m).1 = 0 ∧ (check .esp32s3 1 740 0 6 m).1 ≠ 0 := by
  obtain ⟨hversion, -⟩ := calibration_integrity .esp32s3 adjacentBuffers 0 (fun _ => 0x5a) 5
  exact ⟨(hversion 5).mpr rfl, (hversion 6).not.mpr (by decide)⟩

end EspWifiHal
