import EspWifiHal.Phy.Register
import EspWifiHal.Phy.TxIq
import EspWifiHal.Lib.Loop
import EspWifiHal.Lib.Register

/-!
# Comparing a calibration with the stored one

`check_value` is called twice.  The first call restores the calibration from the blob and copies
a part of it to a scratch buffer.  After a new calibration, the second call compares the
parameters with the copy.  Each call has its own tables of offsets.

`check_value_differences` says that the second call counts the values that have changed by more
than 4 from what the blob has.
-/

namespace EspWifiHal

open Memory

/-! ## What is compared -/

/-- A coordinate of an IQ halfword, as `phy_debug::iq` decodes it. -/
def iqCoordinate (chip : PhyChip) (packed selector : BitVec 32) (second : Bool) : BitVec 8 :=
  if second then (debugIq chip packed selector).2 else (debugIq chip packed selector).1

/-- A value of the calibration, by its offset in the parameters. -/
inductive CalibrationValue where
  | halfword (offset : Nat)
  | iq (offset selector : Nat) (second : Bool)
  | signedByte (offset : Nat)
  | unsignedByte (offset : Nat)
deriving DecidableEq, Repr

namespace CalibrationValue

variable (chip : PhyChip)

/-- The value in an image of the parameters. -/
def value (image : ByteMem) : CalibrationValue → Int
  | .halfword offset => (read image offset 2).toNat
  | .iq offset selector second =>
      (iqCoordinate chip (read image offset 2) (BitVec.ofNat 32 selector) second).toInt
  | .signedByte offset => (image offset).toInt
  | .unsignedByte offset => (image offset).toNat

/-- A difference of more than 4. -/
def Differs (recovered current : ByteMem) (q : CalibrationValue) : Prop :=
  4 < |q.value chip recovered - q.value chip current|

instance (recovered current : ByteMem) : DecidablePred (Differs chip recovered current) :=
  fun _ => Int.decLt _ _

end CalibrationValue

open CalibrationValue in
/-- All values that are compared. -/
def calibrationValues : List CalibrationValue :=
  [292, 300, 308, 316, 324].flatMap (fun group => [halfword group, halfword (group + 2)])
    ++ [386, 394, 402].flatMap (fun group => [halfword group, halfword (group + 2)])
    ++ [332, 334].flatMap (fun offset => [iq offset 0 false, iq offset 0 true])
    ++ [336, 338, 340, 342].flatMap (fun offset => [iq offset 1 false, iq offset 1 true])
    ++ [iq 384 0 false, iq 384 0 true]
    ++ [370, 371, 372, 374, 375, 376].map signedByte
    ++ [344, 345, 346, 347, 348, 349, 350, 351, 352].map unsignedByte

/-- The number of values that differ. -/
def calibrationDifferences (chip : PhyChip) (recovered current : ByteMem) : Nat :=
  calibrationValues.countP fun q => q.Differs chip recovered current

/-! ## Buffers and calls -/

/-- The buffers of `check_value`. -/
inductive CheckBuffer where
  | param
  | data
  | reference
  | first
  | second
deriving DecidableEq, Repr

def CheckBuffer.size (chip : PhyChip) : CheckBuffer → Nat
  | .param => chip.paramSize
  | .data => chip.paramSize + 16
  | .reference => 96
  | .first => 2
  | .second => 2

abbrev CheckBuffers (chip : PhyChip) := Regions CheckBuffer (CheckBuffer.size chip)

/-- The buffers of S3, one behind the other. -/
def adjacentCheckBuffers : CheckBuffers .esp32s3 where
  base
    | .param => 0
    | .data => 740
    | .reference => 1496
    | .first => 1592
    | .second => 1594
  separate := by
    intro r s h
    cases r <;> cases s <;> first | exact absurd rfl h | decide

/-- The buffers of `register`, of which `check_value` does not use the others. -/
def CheckBuffer.register (base : CheckBuffer → Nat) (others : RegisterBuffer → Nat) :
    RegisterBuffer → Nat
  | .param => base .param
  | .data => base .data
  | .first => base .first
  | .second => base .second
  | buffer => others buffer

/-- `phy_debug::iq` with its destination. -/
def getIqValue (chip : PhyChip) (destination : Nat) (packed selector : BitVec 32) (m : ByteMem) :
    ByteMem :=
  let (first, second) := debugIq chip packed selector
  let m := fill m destination 1 fun _ => first
  fill m (destination + 1) 1 fun _ => second

/-- The two calls of a comparison: the callback returns the absolute value of a number of 32 bits,
and `get_iq_value` is `phy_debug::iq`. -/
structure CheckCalls (chip : PhyChip) (calls : PhyCalls) : Prop where
  distance : ∀ (delta : BitVec 32) m, calls (.callback (chip.slot 0xec 0x100) [delta.toNat]) m =
    (BitVec.ofInt 32 |delta.toInt|, m)
  iqValue : ∀ destination packed selector m,
    (calls (.invoke .getIqValue [destination, packed, selector]) m).2 =
      getIqValue chip destination (BitVec.ofNat 32 packed) (BitVec.ofNat 32 selector) m

/-- The two calls of a comparison, with no other effect. -/
def comparisonCalls (chip : PhyChip) : PhyCalls
  | .callback _ [delta], m => (BitVec.ofInt 32 |(BitVec.ofNat 32 delta).toInt|, m)
  | .invoke .getIqValue [destination, packed, selector], m =>
      (0, getIqValue chip destination (BitVec.ofNat 32 packed) (BitVec.ofNat 32 selector) m)
  | _, m => (0, m)

theorem checkCalls_comparisonCalls (chip : PhyChip) : CheckCalls chip (comparisonCalls chip) where
  distance delta m := by
    rw [comparisonCalls, BitVec.ofNat_toNat, BitVec.setWidth_eq]
  iqValue _ _ _ _ := rfl

/-! ## The first call -/

/-- The parameter that a byte of the scratch buffer is copied from. -/
def snapshotSource (k : Nat) : Nat :=
  if k < 40 then 292 + k
  else if k < 64 then 386 + (k - 40)
  else if k < 76 then 332 + (k - 64)
  else if k < 78 then 384 + (k - 76)
  else if k < 81 then 370 + (k - 78)
  else if k < 84 then 374 + (k - 81)
  else 344 + (k - 84)

theorem snapshotSource_range {k : Nat} (h : k < 93) :
    288 ≤ snapshotSource k ∧ snapshotSource k < 410 := by
  rw [snapshotSource]
  split_ifs <;> omega

section Snapshot

variable {m : ByteMem} {p reference : Nat}

/-- Each entry of the table is inside of both buffers, and has its own places. -/
theorem snapshotTable_places : ∀ entry ∈ snapshotTable,
    entry.2.2.2 ≤ 4 ∧ entry.1 + entry.2.2.1 * entry.2.2.2 ≤ 740 ∧
      entry.2.1 + entry.2.2.1 * entry.2.2.2 ≤ 96 ∧
      ∀ k < entry.2.2.1 * entry.2.2.2, snapshotSource (entry.2.1 + k) = entry.1 + k := by
  decide

/-- An entry of the table goes on where the one before has ended. -/
theorem snapshot_entry {source dest count width next : Nat}
    (hseparate : p + 740 ≤ reference ∨ reference + 96 ≤ p)
    (hentry : (source, dest, count, width) ∈ snapshotTable) (hnext : dest + count * width = next) :
    (List.range count).foldl
        (fun m i =>
          let v := read m (p + source + i * width) width
          write m (reference + dest + i * width) width v)
        (fill m reference dest fun k => m (p + snapshotSource k)) =
      fill m reference next fun k => m (p + snapshotSource k) := by
  obtain ⟨hwidth, hsource, hdest, hplaces⟩ := snapshotTable_places _ hentry
  dsimp only at hwidth hsource hdest hplaces
  have hcopy := foldl_copy_words (fill m reference dest fun k => m (p + snapshotSource k))
    (reference + dest) (p + source) hwidth (n := count) (by omega)
  rw [hcopy, copy, ← hnext, ← fill_fill]
  refine fill_congr fun i hi => ?_
  rw [fill_of_not_mem (by omega), hplaces i hi, Nat.add_assoc]

/-- The copy is one range, whose places the table gives. -/
theorem snapshot_eq (base : RegisterBuffer → Nat) (reference : Nat) (m : ByteMem)
    (hseparate : base .param + 740 ≤ reference ∨ reference + 96 ≤ base .param) :
    snapshot base reference m =
      fill m reference 93 fun k => m (base .param + snapshotSource k) := by
  have hentry (source dest count width next : Nat)
      (h : (source, dest, count, width) ∈ snapshotTable) (hnext : dest + count * width = next) :=
    snapshot_entry (m := m) hseparate h hnext
  have hfirst := hentry 292 0 20 2 40 (by decide) rfl
  rw [fill_zero] at hfirst
  simp only [snapshot, snapshotTable, List.foldl_cons, List.foldl_nil]
  rw [hfirst, hentry 386 40 12 2 64 (by decide) rfl, hentry 332 64 6 2 76 (by decide) rfl,
    hentry 384 76 1 2 78 (by decide) rfl, hentry 370 78 3 1 81 (by decide) rfl,
    hentry 374 81 3 1 84 (by decide) rfl, hentry 344 84 9 1 93 (by decide) rfl]

end Snapshot

/-! ## The second call -/

open CalibrationValue in
/-- The values that `compareGroups` goes through. -/
def groupValues : List CalibrationValue :=
  [(292, 0, 5), (386, 40, 3)].flatMap fun (source, _, count) =>
    (List.range count).flatMap fun i =>
      (List.range 2).flatMap fun j => [halfword (source + i * 8 + j * 2)]

open CalibrationValue in
/-- The values that `compareIq` goes through. -/
def iqValues : List CalibrationValue :=
  [(332, 64, 2, 0), (336, 68, 4, 1), (384, 76, 1, 0)].flatMap fun (source, _, count, mode) =>
    (List.range count).flatMap fun i =>
      (List.range 2).flatMap fun j => [iq (source + i * 2) mode (j == 1)]

open CalibrationValue in
/-- The values that `compareBytes` goes through. -/
def byteValues : List CalibrationValue :=
  [(370, 78, 3, true), (374, 81, 3, true), (344, 84, 9, false)].flatMap
    fun (source, _, count, isSigned) => (List.range count).flatMap fun i =>
      [if isSigned then signedByte (source + i) else unsignedByte (source + i)]

/-- The tables of the second call are all values that are compared. -/
theorem values_of_tables : groupValues ++ iqValues ++ byteValues = calibrationValues := by
  decide +kernel

theorem toNat_read_two (m : ByteMem) (a : Nat) : (read m a 2).toNat < 65536 := by
  rw [← setWidth_read, BitVec.toNat_setWidth_of_le (by decide)]
  exact ((read m a 2).setWidth 16).isLt

theorem sb_read_one (m : ByteMem) (a : Nat) : sb (read m a 1) = (m a).toInt := by
  rw [sb, read_one, setWidth_byte]

theorem CalibrationValue.value_bounds (chip : PhyChip) (image : ByteMem) (q : CalibrationValue) :
    -128 ≤ q.value chip image ∧ q.value chip image < 65536 := by
  have hbyte : ∀ x : BitVec 8, -128 ≤ x.toInt ∧ x.toInt < 65536 := fun x =>
    ⟨BitVec.le_toInt x, Int.lt_trans BitVec.toInt_lt (by decide)⟩
  cases q with
  | halfword offset =>
      have hlt := toNat_read_two image offset
      rw [value]
      omega
  | iq offset selector second => exact hbyte _
  | signedByte offset => exact hbyte _
  | unsignedByte offset =>
      have hlt := (image offset).isLt
      rw [value]
      omega

section Comparing

variable {chip : PhyChip} {calls : PhyCalls} {base : RegisterBuffer → Nat} {reference : Nat}
  {recovered current : ByteMem} {qs : List CalibrationValue} {r : BitVec 32 × PhyState}

/-- The state after the values `qs` are compared. -/
structure Comparing (chip : PhyChip) (base : RegisterBuffer → Nat) (reference : Nat)
    (recovered current : ByteMem) (qs : List CalibrationValue) (r : BitVec 32 × PhyState) :
    Prop where
  count : r.1 = BitVec.ofNat 32 (qs.countP (fun q => q.Differs chip recovered current) % 65536)
  stored : ∀ k < 93, r.2.memory (reference + k) = recovered (snapshotSource k)
  param : ∀ i < 740, r.2.memory (base .param + i) = current i

/-- A load from the scratch buffer is one from the parameters that were recovered. -/
theorem Comparing.read_stored (h : Comparing chip base reference recovered current qs r)
    {offset place width a : Nat} (ha : a = reference + place)
    (hplace : ∀ k < width, place + k < 93 ∧ snapshotSource (place + k) = offset + k) :
    read r.2.memory a width = read recovered offset width := by
  refine read_congr fun k hk => ?_
  obtain ⟨hlt, hsource⟩ := hplace k hk
  rw [ha, Nat.add_assoc, h.stored _ hlt, hsource]

theorem Comparing.read_param (h : Comparing chip base reference recovered current qs r)
    {offset width a : Nat} (ha : a = base .param + offset) (hoffset : offset + width ≤ 740) :
    read r.2.memory a width = read current offset width := by
  refine read_congr fun k hk => ?_
  rw [ha, Nat.add_assoc, h.param _ (by omega)]

theorem sub_eq_ofInt (x y : BitVec 32) : x - y = BitVec.ofInt 32 ((x.toNat : Int) - y.toNat) := by
  rw [Int.sub_eq_add_neg, BitVec.ofInt_add, BitVec.ofInt_neg, BitVec.ofInt_natCast,
    BitVec.ofInt_natCast, BitVec.ofNat_toNat, BitVec.ofNat_toNat, BitVec.setWidth_eq,
    BitVec.setWidth_eq, BitVec.sub_eq_add_neg]

/-- The counter of 16 bits. -/
theorem counter_next (n : Nat) :
    (BitVec.ofNat 32 (n % 65536) + 1) &&& 65535 = BitVec.ofNat 32 ((n + 1) % 65536) := by
  apply BitVec.eq_of_toNat_eq
  rw [Register.toNat_and_mask 16 rfl, BitVec.toNat_add, BitVec.toNat_ofNat, BitVec.toNat_ofNat]
  change (n % 65536 % 2 ^ 32 + 1) % 2 ^ 32 % 2 ^ 16 = (n + 1) % 65536 % 2 ^ 32
  omega

/-- A difference is counted if it is more than 4, and the memory stays as it is. -/
theorem countDifference_eq (hcalls : CheckCalls chip calls) {d : Int}
    (hd : -65664 ≤ d ∧ d ≤ 65664) (r : BitVec 32 × PhyState) :
    countDifference chip calls (BitVec.ofInt 32 d) r =
      (if 4 < |d| then (r.1 + 1) &&& 65535 else r.1, r.2) := by
  have habs : 0 ≤ |d| ∧ |d| ≤ 65664 := ⟨abs_nonneg d, abs_le.mpr hd⟩
  have hdelta : (BitVec.ofInt 32 d).toInt = d := by
    rw [BitVec.toInt_ofInt]
    exact Int.bmod_eq_of_le (by omega) (by omega)
  have hdistance : (BitVec.ofInt 32 |d|).toInt = |d| := by
    rw [BitVec.toInt_ofInt]
    exact Int.bmod_eq_of_le (by omega) (by omega)
  obtain ⟨differences, s⟩ := r
  simp only [countDifference, PhyState.call, PhyState.update, hcalls.distance, hdelta, hdistance,
    gt_iff_lt]

theorem countDifference_state (hcalls : CheckCalls chip calls) (delta : BitVec 32)
    (r : BitVec 32 × PhyState) : (countDifference chip calls delta r).2 = r.2 := by
  simp only [countDifference, PhyState.call, PhyState.update, hcalls.distance]

/-- One value is compared. -/
theorem Comparing.next (hcalls : CheckCalls chip calls)
    (h : Comparing chip base reference recovered current qs r) (q : CalibrationValue)
    {delta : BitVec 32}
    (hdelta : delta = BitVec.ofInt 32 (q.value chip recovered - q.value chip current)) :
    Comparing chip base reference recovered current (qs ++ [q])
      (countDifference chip calls delta r) := by
  have hrecovered := q.value_bounds chip recovered
  have hcurrent := q.value_bounds chip current
  rw [hdelta, countDifference_eq hcalls (by omega)]
  refine ⟨?_, h.stored, h.param⟩
  rw [List.countP_append, List.countP_singleton]
  by_cases hdiffers : q.Differs chip recovered current
  · have hfar : 4 < |q.value chip recovered - q.value chip current| := hdiffers
    rw [if_pos hfar, h.count, counter_next, if_pos (decide_eq_true hdiffers)]
  · have hnear : ¬4 < |q.value chip recovered - q.value chip current| := hdiffers
    rw [if_neg hnear, h.count, if_neg (by rwa [decide_eq_true_eq]), Nat.add_zero]

/-- The halfwords of the groups are compared. -/
theorem Comparing.groups (hcalls : CheckCalls chip calls)
    (h : Comparing chip base reference recovered current qs r) :
    Comparing chip base reference recovered current
      (qs ++ groupValues) (compareGroups chip calls base reference r) := by
  have hplaces : ∀ entry ∈ [(292, 0, 5), (386, 40, 3)], ∀ i < entry.2.2, ∀ j < 2,
      entry.1 + i * 8 + j * 2 + 2 ≤ 740 ∧ ∀ k < 2, entry.2.1 + i * 8 + j * 2 + k < 93 ∧
        snapshotSource (entry.2.1 + i * 8 + j * 2 + k) = entry.1 + i * 8 + j * 2 + k := by
    decide
  refine Loop.foldl_flatMap ?_ h
  rintro ⟨source, dest, count⟩ hentry qs r h
  refine Loop.foldl_flatMap (fun i hi qs r h => ?_) h
  refine Loop.foldl_flatMap (fun j hj qs r h => ?_) h
  obtain ⟨hparam, hstored⟩ :=
    hplaces _ hentry i (List.mem_range.mp hi) j (List.mem_range.mp hj)
  dsimp only at hparam hstored
  refine h.next hcalls _ ?_
  rw [h.read_stored (by omega) hstored, h.read_param (by omega) hparam]
  exact sub_eq_ofInt _ _

/-- The single bytes are compared. -/
theorem Comparing.bytes (hcalls : CheckCalls chip calls)
    (h : Comparing chip base reference recovered current qs r) :
    Comparing chip base reference recovered current
      (qs ++ byteValues) (compareBytes chip calls base reference r) := by
  have hplaces : ∀ entry ∈ [(370, 78, 3, true), (374, 81, 3, true), (344, 84, 9, false)],
      ∀ i < entry.2.2.1, entry.1 + i + 1 ≤ 740 ∧ ∀ k < 1, entry.2.1 + i + k < 93 ∧
        snapshotSource (entry.2.1 + i + k) = entry.1 + i + k := by
    decide
  refine Loop.foldl_flatMap ?_ h
  rintro ⟨source, dest, count, isSigned⟩ hentry qs r h
  refine Loop.foldl_flatMap (fun i hi qs r h => ?_) h
  obtain ⟨hparam, hstored⟩ := hplaces _ hentry i (List.mem_range.mp hi)
  dsimp only at hparam hstored
  refine h.next hcalls _ ?_
  rw [h.read_stored (by omega) hstored, h.read_param (by omega) hparam]
  cases isSigned with
  | true => rw [if_pos rfl, if_pos rfl, sb_read_one, sb_read_one]; rfl
  | false =>
      rw [if_neg Bool.false_ne_true, if_neg Bool.false_ne_true, sub_eq_ofInt, read_one, read_one,
        BitVec.toNat_setWidth_of_le (by decide), BitVec.toNat_setWidth_of_le (by decide)]
      rfl

/-- What `phy_debug::iq` writes. -/
theorem getIqValue_eq (destination : Nat) (packed selector : BitVec 32) (m : ByteMem) :
    getIqValue chip destination packed selector m =
      fill m destination 2 fun j => iqCoordinate chip packed selector (j == 1) := by
  have hfirst : fill m destination 1 (fun _ => (debugIq chip packed selector).1) =
      fill m destination 1 fun j => iqCoordinate chip packed selector (j == 1) := by
    refine fill_congr fun j hj => ?_
    obtain rfl := Nat.lt_one_iff.mp hj
    rfl
  have hsecond := fill_fill m destination 1 1 fun j => iqCoordinate chip packed selector (j == 1)
  rw [← hsecond, ← hfirst]
  change fill (fill m destination 1 fun _ => (debugIq chip packed selector).1) (destination + 1) 1
    (fun _ => (debugIq chip packed selector).2) = _
  refine fill_congr fun j hj => ?_
  obtain rfl := Nat.lt_one_iff.mp hj
  rfl

theorem call_getIqValue (hcalls : CheckCalls chip calls) (destination selector : Nat)
    (packed : BitVec 32) (s : PhyState) :
    (s.call calls (.invoke .getIqValue [destination, packed.toNat, selector])).2 =
      s.update fun m => fill m destination 2 fun j =>
        iqCoordinate chip packed (BitVec.ofNat 32 selector) (j == 1) := by
  simp only [PhyState.call, PhyState.update, hcalls.iqValue, getIqValue_eq, BitVec.ofNat_toNat,
    BitVec.setWidth_eq]

/-- The local variables are outside of the scratch buffer, of the parameters and of each other. -/
structure LocalsApart (base : RegisterBuffer → Nat) (reference : Nat) : Prop where
  firstReference : base .first + 2 ≤ reference ∨ reference + 96 ≤ base .first
  firstParam : base .first + 2 ≤ base .param ∨ base .param + 740 ≤ base .first
  secondReference : base .second + 2 ≤ reference ∨ reference + 96 ≤ base .second
  secondParam : base .second + 2 ≤ base .param ∨ base .param + 740 ≤ base .second
  each : base .first + 2 ≤ base .second ∨ base .second + 2 ≤ base .first

/-- A store to a local variable changes nothing that is compared. -/
theorem Comparing.fill_local {n : BitVec 32} {s : PhyState}
    (h : Comparing chip base reference recovered current qs (n, s)) {a : Nat}
    (hreference : a + 2 ≤ reference ∨ reference + 96 ≤ a)
    (hparam : a + 2 ≤ base .param ∨ base .param + 740 ≤ a) (f : Nat → BitVec 8) :
    Comparing chip base reference recovered current qs (n, s.update fun m => fill m a 2 f) where
  count := h.count
  stored k hk := (fill_of_not_mem (by omega)).trans (h.stored k hk)
  param i hi := (fill_of_not_mem (by omega)).trans (h.param i hi)

/-- Both coordinates are compared after the halfwords are decoded. -/
theorem Comparing.coordinates (hcalls : CheckCalls chip calls)
    (h : Comparing chip base reference recovered current qs r) {offset selector : Nat}
    (hfirst : ∀ j < 2, r.2.memory (base .first + j) =
      iqCoordinate chip (read recovered offset 2) (BitVec.ofNat 32 selector) (j == 1))
    (hsecond : ∀ j < 2, r.2.memory (base .second + j) =
      iqCoordinate chip (read current offset 2) (BitVec.ofNat 32 selector) (j == 1)) :
    Comparing chip base reference recovered current
      (qs ++ (List.range 2).flatMap fun j => [CalibrationValue.iq offset selector (j == 1)])
      ((List.range 2).foldl
        (fun r j =>
          let a := read r.2.memory (base .first + j) 1
          let b := read r.2.memory (base .second + j) 1
          countDifference chip calls (BitVec.ofInt 32 (sb a - sb b)) r)
        r) := by
  -- the memory stays as it is, so the second coordinate is still there after the first
  refine And.left (Loop.foldl_flatMap
    (I := fun qs t => Comparing chip base reference recovered current qs t ∧ t.2 = r.2)
    (fun j hj qs t ht => ?_) ⟨h, rfl⟩)
  obtain ⟨ht, hstate⟩ := ht
  have hlt : j < 2 := List.mem_range.mp hj
  refine ⟨ht.next hcalls _ ?_, (countDifference_state hcalls _ t).trans hstate⟩
  rw [hstate, sb_read_one, sb_read_one, hfirst j hlt, hsecond j hlt]
  rfl

/-- The IQ halfwords are compared. -/
theorem Comparing.iq (hcalls : CheckCalls chip calls) (hlocals : LocalsApart base reference)
    (h : Comparing chip base reference recovered current qs r) :
    Comparing chip base reference recovered current
      (qs ++ iqValues) (compareIq chip calls base reference r) := by
  have hplaces : ∀ entry ∈ [(332, 64, 2, 0), (336, 68, 4, 1), (384, 76, 1, 0)],
      ∀ i < entry.2.2.1, entry.1 + i * 2 + 2 ≤ 740 ∧ ∀ k < 2, entry.2.1 + i * 2 + k < 93 ∧
        snapshotSource (entry.2.1 + i * 2 + k) = entry.1 + i * 2 + k := by
    decide
  refine Loop.foldl_flatMap ?_ h
  rintro ⟨source, dest, count, mode⟩ hentry qs r h
  refine Loop.foldl_flatMap (fun i hi qs r h => ?_) h
  obtain ⟨hparam, hstored⟩ := hplaces _ hentry i (List.mem_range.mp hi)
  dsimp only at hparam hstored
  obtain ⟨differences, s⟩ := r
  dsimp only
  rw [h.read_stored (by omega) hstored]
  simp only [call_getIqValue hcalls]
  have hfirst := h.fill_local hlocals.firstReference hlocals.firstParam
    fun j => iqCoordinate chip (read recovered (source + i * 2) 2) (BitVec.ofNat 32 mode) (j == 1)
  rw [hfirst.read_param (by omega) hparam]
  have hsecond := hfirst.fill_local hlocals.secondReference hlocals.secondParam
    fun j => iqCoordinate chip (read current (source + i * 2) 2) (BitVec.ofNat 32 mode) (j == 1)
  have hapart := hlocals.each
  refine hsecond.coordinates hcalls (fun j hj => ?_) fun j hj => ?_
  · simp only [PhyState.update]
    rw [fill_of_not_mem (by omega), fill_range hj]
  · simp only [PhyState.update]
    rw [fill_range hj]

/-- The second call goes through all values. -/
theorem Comparing.all (hcalls : CheckCalls chip calls) (hlocals : LocalsApart base reference)
    {s : PhyState} (h : Comparing chip base reference recovered current [] (0, s)) :
    (checkValue chip calls base reference 1 s).1.toNat =
      calibrationDifferences chip recovered current := by
  have hcompare : ¬chip.byte 1 = 0 := by cases chip <;> decide
  have hall := ((h.groups hcalls).iq hcalls hlocals).bytes hcalls
  rw [List.nil_append, values_of_tables] at hall
  have hle : calibrationDifferences chip recovered current ≤ 45 := List.countP_le_length
  rw [checkValue, if_neg hcompare, hall.count, BitVec.toNat_ofNat]
  change calibrationDifferences chip recovered current % 65536 % 2 ^ 32 = _
  omega

end Comparing

/-! ## Both calls -/

section Calls

variable {chip : PhyChip} (B : CheckBuffers chip) (others : RegisterBuffer → Nat)

/-- The buffers of the calibration. -/
def CheckBuffer.calibration : CalibrationBuffers chip where
  base
    | .param => B.base .param
    | .data => B.base .data
  separate := by
    intro r s hrs
    cases r <;> cases s
    · exact absurd rfl hrs
    · exact B.separate .param .data (by decide)
    · exact B.separate .data .param (by decide)
    · exact absurd rfl hrs

/-- The parameters that are compared come from the blob. -/
theorem recovery_source (m : ByteMem) {k : Nat} (hk : k < 93) :
    recovery chip (B.base .param) (B.base .data) m (B.base .param + snapshotSource k) =
      m (B.base .data + (12 + snapshotSource k)) := by
  have hrange := snapshotSource_range hk
  have hrecovered : Recovered chip (snapshotSource k) := by
    cases chip with
    | esp32s3 => exact Or.inr ⟨hrange.1, Nat.le_trans (Nat.le_of_lt hrange.2) (by decide)⟩
    | esp32c3 => exact Or.inr ⟨hrange.1, Nat.le_trans (Nat.le_of_lt hrange.2) (by decide)⟩
  exact (recovery_param (CheckBuffer.calibration B) (snapshotSource k)).trans (if_pos hrecovered)

/-- The first call restores the calibration and fills the scratch buffer from the blob. -/
theorem checkValue_first (calls : PhyCalls) (s : PhyState) :
    (checkValue chip calls (CheckBuffer.register B.base others) (B.base .reference) 0 s).2.memory =
      fill (recovery chip (B.base .param) (B.base .data) s.memory) (B.base .reference) 93
        fun k => s.memory (B.base .data + (12 + snapshotSource k)) := by
  have hstore : chip.byte 0 = 0 := by cases chip <;> rfl
  have hseparate : B.base .param + chip.paramSize ≤ B.base .reference ∨
      B.base .reference + 96 ≤ B.base .param := B.separate .param .reference (by decide)
  have hsize := chip.le_paramSize
  have hapart : B.base .param + 740 ≤ B.base .reference ∨
      B.base .reference + 96 ≤ B.base .param := by omega
  have hsnapshot := snapshot_eq (CheckBuffer.register B.base others) (B.base .reference)
    (recovery chip (B.base .param) (B.base .data) s.memory) hapart
  rw [checkValue, if_pos hstore]
  refine hsnapshot.trans (fill_congr fun k hk => ?_)
  exact recovery_source B s.memory hk

theorem locals_apart : LocalsApart (CheckBuffer.register B.base others) (B.base .reference) := by
  have hsize := chip.le_paramSize
  have hparam : ∀ a, a + 2 ≤ B.base .param ∨ B.base .param + chip.paramSize ≤ a →
      a + 2 ≤ B.base .param ∨ B.base .param + 740 ≤ a := by
    intro a h
    omega
  constructor
  case firstReference => exact B.separate .first .reference (by decide)
  case firstParam => exact hparam _ (B.separate .first .param (by decide))
  case secondReference => exact B.separate .second .reference (by decide)
  case secondParam => exact hparam _ (B.separate .second .param (by decide))
  case each => exact B.separate .first .second (by decide)

end Calls

/-- The first call writes to the scratch buffer of 96 bytes and otherwise only restores the
calibration.  From then on, whatever becomes of the parameters, the second call returns the number
of values that differ by more than 4 from those in the blob. -/
theorem check_value_differences {chip : PhyChip} (B : CheckBuffers chip)
    (others : RegisterBuffer → Nat) {calls : PhyCalls} (hcalls : CheckCalls chip calls)
    (s₀ : PhyState) :
    let base := CheckBuffer.register B.base others
    let reference := B.base .reference
    let r := checkValue chip calls base reference 0 s₀
    r.1 = 0 ∧
      (∀ x, x < reference ∨ reference + 96 ≤ x →
        r.2.memory x = recovery chip (B.base .param) (B.base .data) s₀.memory x) ∧
      (∀ k < 93, r.2.memory (reference + k) = r.2.memory (B.base .param + snapshotSource k)) ∧
      ∀ s₁ : PhyState, (∀ k < 96, s₁.memory (reference + k) = r.2.memory (reference + k)) →
        (checkValue chip calls base reference 1 s₁).1.toNat =
          calibrationDifferences chip (fun i => s₀.memory (B.base .data + (12 + i)))
            fun i => s₁.memory (B.base .param + i) := by
  intro base reference r
  have hfirst : r.2.memory = _ := checkValue_first B others calls s₀
  refine ⟨?_, ?_, ?_, ?_⟩
  · have hstore : chip.byte 0 = 0 := by cases chip <;> rfl
    change (checkValue chip calls base reference 0 s₀).1 = 0
    rw [checkValue, if_pos hstore]
  · intro x hx
    rw [hfirst]
    exact fill_of_not_mem (by omega)
  · intro k hk
    have hsize := chip.le_paramSize
    have hsource := snapshotSource_range hk
    have hseparate : B.base .param + chip.paramSize ≤ reference ∨
        reference + 96 ≤ B.base .param := B.separate .param .reference (by decide)
    rw [hfirst, fill_range hk, fill_of_not_mem (by omega), recovery_source B s₀.memory hk]
  · intro s₁ hkept
    refine Comparing.all hcalls (locals_apart B others) ⟨rfl, ?_, fun _ _ => rfl⟩
    intro k hk
    rw [hkept k (by omega), hfirst, fill_range hk]

/-- A parameter has changed by 5 and another one by 4, which is not counted. -/
theorem check_value_differences_of_five :
    let base := CheckBuffer.register adjacentCheckBuffers.base fun _ => 0
    let calls := comparisonCalls .esp32s3
    let m := (checkValue .esp32s3 calls base 1496 0 ⟨fun _ => 0, []⟩).2.memory
    (checkValue .esp32s3 calls base 1496 1
      ⟨fun x => if x = 370 then 5 else if x = 344 then 4 else m x, []⟩).1.toNat = 1 := by
  intro base calls m
  obtain ⟨-, -, -, hcount⟩ := check_value_differences adjacentCheckBuffers (fun _ => 0)
    (checkCalls_comparisonCalls .esp32s3) ⟨fun _ => 0, []⟩
  refine (hcount ⟨fun x => if x = 370 then 5 else if x = 344 then 4 else m x, []⟩ ?_).trans ?_
  · intro k hk
    have hreference : 1496 + k ≠ 370 ∧ 1496 + k ≠ 344 := by omega
    exact (if_neg hreference.1).trans (if_neg hreference.2)
  · decide +kernel

end EspWifiHal
