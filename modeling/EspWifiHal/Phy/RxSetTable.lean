import EspWifiHal.Phy.Register
import EspWifiHal.Phy.RxGainTable

/-!
# The receive gain tables of `set_table`

`set_table` copies its rows from a list of constants into a local buffer, lets `generate` build
two tables in the same buffer, and stores the index of the last entry of each in the parameters.
C3 shortens its tables when the parameters ask for it.  After the calibration `write_memory` is
called once for each table.

`set_table_calls` says that the rows of the source are such that both tables come back entry by
entry, and that everything stays inside of the buffer.
-/

namespace EspWifiHal

namespace GainTable

open Memory

/-! ## The function -/

/-- `CONSTANTS`. -/
def constants : PhyChip → List (BitVec 8)
  | .esp32c3 =>
      [9, 12, 11, 8, 9, 12, 4, 4, 0, 0, 0, 0, 0, 0, 0, 0, 0, 2, 1, 3, 6, 3, 12, 11, 10, 0, 0, 0,
        0, 0, 0, 0, 160, 132, 142, 232, 238, 210, 242, 248, 254, 0, 0, 0, 6, 12, 10, 13, 12, 9, 4,
        4, 0, 0, 0, 0, 0, 0, 0, 0, 3, 2, 1, 0, 8, 8, 14, 13, 12, 0, 0, 0, 0, 0, 0]
  | .esp32s3 =>
      [0, 0, 1, 0, 5, 0, 13, 0, 29, 0, 7, 13, 10, 5, 12, 8, 5, 9, 0, 0, 0, 0, 0, 0, 0, 160, 132,
        142, 232, 238, 210, 242, 248, 254, 160, 132, 134, 226, 232, 208, 244, 248, 254, 7, 9, 8,
        5, 8, 12, 11, 7, 0, 0, 0, 0, 0, 0, 0, 0, 0, 0, 0, 0, 0, 4, 4, 8, 0, 0, 0, 0, 0, 0, 0, 0,
        0, 0, 0, 0, 4, 8, 10, 0, 0, 0, 0, 0, 0]

def constant (chip : PhyChip) (offset : Nat) : BitVec 8 := (constants chip).getD offset 0

/-- A copy of a part of the constants: where it goes, its offset and its size. -/
structure TableCopy where
  destination : Nat
  offset : Nat
  size : Nat

/-- The copies into the local buffer: two tables of codes, of steps and of first gains. -/
def tableCopies (chip : PhyChip) (b : Nat) : List TableCopy :=
  [⟨b, chip.slot 25 32, 9⟩, ⟨b + 12, chip.slot 34 32, 9⟩, ⟨b + 24, chip.slot 10 0, 15⟩,
    ⟨b + 40, chip.slot 43 44, 15⟩, ⟨b + 56, chip.slot 58 16, 15⟩, ⟨b + 72, chip.slot 73 60, 15⟩]

def copyTable (chip : PhyChip) (m : ByteMem) (c : TableCopy) : ByteMem :=
  fill m c.destination c.size fun i => constant chip (c.offset + i)

/-- C3 shortens its tables when the parameters ask for it.  The result has the numbers of rows. -/
def shortenTables (chip : PhyChip) (p b : Nat) (m : ByteMem) : ByteMem × BitVec 32 × BitVec 32 :=
  match chip with
  | .esp32s3 => (m, 9, 9)
  | .esp32c3 =>
      let (m, input1) :=
        if read m (p + 0x218) 1 &&& 2#32 ≠ 0 then
          let m := write m (b + 12 + 8) 1 0
          let m := write m (b + 12 + 7) 1 0
          (write m (b + 40 + 6) 2 0, 7)
        else (m, 9)
      (m, input1, if Signed.i8 (read m (p + 0x348) 1).toNat < -6 then 5 else 9)

/-- The start of `set_table`.  The result has the numbers of rows. -/
def layTables (chip : PhyChip) (p b : Nat) (count : BitVec 32) (m : ByteMem) :
    ByteMem × BitVec 32 × BitVec 32 :=
  let m := (tableCopies chip b).foldl (copyTable chip) m
  shortenTables chip p b (write m (p + 0xf1) 1 (read m (b + count.toNat - 1) 1))

/-- Both calls of `generate`, each with the store of its result. -/
def buildTables (chip : PhyChip) (p b : Nat) (input1 input0 : BitVec 32) (m : ByteMem) :
    Option ByteMem := do
  let (m, result) ← generate chip ⟨b + 88, 22, b + 12, b + 40, b + 72, input1⟩ m
  let m := write m (p + 0x1f5) 1 (BitVec.ofNat 32 (min result (chip.slot 76 79)))
  let (m, result) ← generate chip
    ⟨b + 288, BitVec.ofNat 32 (chip.slot 25 22), b, b + 24, b + 56, input0⟩ m
  return write m (p + 0x1f6) 1 (BitVec.ofNat 32 (min result (chip.slot 82 79)))

/-- What the calls of `set_table` that calibrate do to the memory. -/
structure Calibration where
  external : (value frequency : BitVec 32) → ByteMem → ByteMem
  setParam : (mode flags codes : Nat) → (n : BitVec 32) → (packed : Nat) → (count : BitVec 32) →
    ByteMem → ByteMem

/-- The number of entries behind the index of the last one. -/
def entryCount (m : ByteMem) (last : Nat) : BitVec 32 := (read m last 1 + 1#32) &&& 255#32

/-- Both calibrations, with the frequency as the calls get it. -/
def calibrateTables (chip : PhyChip) (cal : Calibration) (p b : Nat) (freq count : BitVec 32)
    (m : ByteMem) : ByteMem :=
  let m := cal.external (read m (p + 0xf3) 1) freq m
  let m := cal.setParam 1 (p + 0x120) (b + 12) (entryCount m (p + 0x1f5)) (b + 88) 9 m
  if chip = .esp32s3 ∨ read m (p + 0xa2) 1 ≠ 17 then
    let m := cal.external (read m (p + 0xf3) 1) freq m
    cal.setParam 0 (p + 0x120) b (entryCount m (p + 0x1f6)) (b + 288) count m
  else m

/-- The arguments of `write_memory` for the first table. -/
def memoryArgs1 (chip : PhyChip) (p b : Nat) (m : ByteMem) : MemoryArgs :=
  ⟨1, 0, b + 12, p + chip.slot 0x248 0x2c4, p + chip.slot 0x290 0x30c, p + chip.slot 0x210 0x21c,
    entryCount m (p + 0x1f5), b + 88⟩

def memoryArgs0 (chip : PhyChip) (p b : Nat) (m : ByteMem) : MemoryArgs :=
  ⟨0, 0, b, p + chip.slot 0x26c 0x2e8, p + chip.slot 0x290 0x30c, p + chip.slot 0x210 0x21c,
    entryCount m (p + 0x1f6), b + 288⟩

def updateWord (m : ByteMem) (address : Nat) (mask value : BitVec 32) : ByteMem :=
  write m address 4 (read m address 4 &&& mask ||| value)

/-- The end of `set_table`: the registers with the last indices, and the thresholds. -/
def finishTable (chip : PhyChip) (p : Nat) (m : ByteMem) : ByteMem :=
  let m := updateWord m 0x6001c02c 0xffff80ff ((read m (p + 0x1f6) 1 &&& 127#32) <<< 8)
  let held0 := read m (p + 0x1f6) 1
  let m := updateWord m 0x6001c13c 0xfe03ffff (BitVec.ofNat 32 (min held0.toNat 76) <<< 18)
  let m := updateWord m 0x6001c0d0 0xfe01ffff (BitVec.ofNat 32 (chip.slot 0xa60000 0xa00000))
  let m := updateWord m 0x60011848 0xff00ffff (BitVec.ofNat 32 (chip.slot 0x530000 0x500000))
  let held1 := read m (p + 0x1f5) 1
  let m := updateWord m 0x6001c0a4 0xffc07fff ((held1 &&& 127#32) <<< 15)
  let m := [0x800, 0x1000, 0x08000000, 0x10000000].foldl
    (fun m value => updateWord m 0x6000607c 0xffffffff value) m
  if read m (p + chip.slot 0x2da 0x34c) 1 ≠ 0 then
    let value := (match chip with | .esp32s3 => held0 | .esp32c3 => read m (p + 0x1f6) 1) - 5#32
    let m := write m (p + 0xd4) 4 (value ||| value <<< 8 ||| value <<< 16 ||| value <<< 24)
    let value := (match chip with | .esp32s3 => read m (p + 0x1f5) 1 | .esp32c3 => held1) - 5#32
    write m (p + chip.slot 0x2dc 0x344) 4 (value ||| value <<< 8 ||| value <<< 16 ||| value <<< 24)
  else m

/-- The number of rows for the calibration, as a byte. -/
def tableCount (chip : PhyChip) (requested : BitVec 32) : BitVec 32 :=
  (9#32 - chip.byte requested) &&& 255#32

/-- The frequency as the calibration gets it. -/
def tableFrequency (chip : PhyChip) (frequency : BitVec 32) : BitVec 32 :=
  match chip with
  | .esp32s3 => frequency &&& 0xffff#32
  | .esp32c3 => frequency

/-- `set_table`, with what each call of `write_memory` hands on.  The index there is a byte, so
256 rounds are enough. -/
def setTable (chip : PhyChip) (cal : Calibration) (p b : Nat) (frequency requested : BitVec 32)
    (m : ByteMem) : Option (ByteMem × List (List MemoryCall)) := do
  let count := tableCount chip requested
  let (m, input1, input0) := layTables chip p b count m
  if read m (p + 0x120) 4 &&& 512#32 = 0 then
    let m ← buildTables chip p b input1 input0 m
    let m := calibrateTables chip cal p b (tableFrequency chip frequency) count m
    let calls1 := writeMemory chip p (memoryArgs1 chip p b m) 256 m
    let calls0 := writeMemory chip p (memoryArgs0 chip p b m) 256 m
    let m := write m (p + 0x120) 4 (read m (p + 0x120) 4 ||| 512#32)
    return (finishTable chip p m, [calls1, calls0])
  else
    return (finishTable chip p m, [])

/-! ## The rows -/

/-- The rows of the first table that is built, which C3 can shorten. -/
def rows1 (chip : PhyChip) (short : Bool) : List GainRow :=
  (List.range (if short then 7 else 9)).map fun i =>
    { code := constant chip (chip.slot 34 32 + i)
      start := constant chip (chip.slot 73 60 + i)
      step := if short ∧ i = 6 then 0 else constant chip (chip.slot 43 44 + i) }

/-- The rows of the second one. -/
def rows0 (chip : PhyChip) (short : Bool) : List GainRow :=
  (List.range (if short then 5 else 9)).map fun i =>
    { code := constant chip (chip.slot 25 32 + i)
      start := constant chip (chip.slot 58 16 + i)
      step := constant chip (chip.slot 10 0 + i) }

/-- What the tables of the source have in common. -/
structure WellFormed (max : Nat) (rows : List GainRow) : Prop where
  plain : Plain rows
  bounded : Bounded max rows
  recoverable : Recoverable rows
  even : ∀ r ∈ rows, r.code.toNat % 2 = 0
  length_pos : 0 < (gainEntries max rows).length
  length_le : (gainEntries max rows).length ≤ 88

theorem rows1_wellFormed (chip : PhyChip) (short : Bool) : WellFormed 22 (rows1 chip short) := by
  cases chip <;> cases short <;>
    exact ⟨⟨by decide, by decide⟩, by decide, by decide, by decide, by decide, by decide⟩

theorem rows0_wellFormed (chip : PhyChip) (short : Bool) :
    WellFormed (chip.slot 25 22) (rows0 chip short) := by
  cases chip <;> cases short <;>
    exact ⟨⟨by decide, by decide⟩, by decide, by decide, by decide, by decide, by decide⟩

theorem rows1_length_le (chip : PhyChip) (short : Bool) : (rows1 chip short).length ≤ 9 := by
  rw [rows1, List.length_map, List.length_range]
  split <;> omega

theorem rows0_length_le (chip : PhyChip) (short : Bool) : (rows0 chip short).length ≤ 9 := by
  rw [rows0, List.length_map, List.length_range]
  split <;> omega

/-! ## The copies -/

theorem copyTable_of_not_mem (chip : PhyChip) (m : ByteMem) (c : TableCopy) {x : Nat}
    (h : x < c.destination ∨ c.destination + c.size ≤ x) : copyTable chip m c x = m x :=
  fill_of_not_mem h

theorem foldl_copyTable_of_not_mem (chip : PhyChip) {cs : List TableCopy} {x : Nat}
    (h : ∀ c ∈ cs, x < c.destination ∨ c.destination + c.size ≤ x) (m : ByteMem) :
    cs.foldl (copyTable chip) m x = m x := by
  induction cs generalizing m with
  | nil => rfl
  | cons c cs ih =>
      obtain ⟨hc, hcs⟩ := List.forall_mem_cons.mp h
      rw [List.foldl_cons, ih hcs, copyTable_of_not_mem chip m c hc]

/-- Copies that do not overlap. -/
theorem foldl_copyTable (chip : PhyChip) {cs : List TableCopy}
    (hcs : cs.Pairwise fun c d =>
      c.destination + c.size ≤ d.destination ∨ d.destination + d.size ≤ c.destination)
    (m : ByteMem) : ∀ c ∈ cs, ∀ i < c.size,
      cs.foldl (copyTable chip) m (c.destination + i) = constant chip (c.offset + i) := by
  induction cs generalizing m with
  | nil => exact fun c hc => absurd hc List.not_mem_nil
  | cons d cs ih =>
      obtain ⟨hd, hcs⟩ := List.pairwise_cons.mp hcs
      intro c hc i hi
      rw [List.foldl_cons]
      rcases List.mem_cons.mp hc with rfl | hc
      · rw [foldl_copyTable_of_not_mem chip fun d hmem => by have := hd d hmem; omega]
        exact fill_range hi
      · exact ih hcs _ c hc i hi

/-- The rows that the parameters of C3 select. -/
def isShort1 (chip : PhyChip) (p : Nat) (m : ByteMem) : Bool :=
  chip = .esp32c3 ∧ read m (p + 0x218) 1 &&& 2#32 ≠ 0

def isShort0 (chip : PhyChip) (p : Nat) (m : ByteMem) : Bool :=
  chip = .esp32c3 ∧ Signed.i8 (read m (p + 0x348) 1).toNat < -6

/-- The arguments of the two calls. -/
def args1 (b : Nat) (short : Bool) : GenerateArgs :=
  ⟨b + 88, 22, b + 12, b + 40, b + 72, if short then 7 else 9⟩

def args0 (chip : PhyChip) (b : Nat) (short : Bool) : GenerateArgs :=
  ⟨b + 288, BitVec.ofNat 32 (chip.slot 25 22), b, b + 24, b + 56, if short then 5 else 9⟩

/-- The parameters are not in the local buffer. -/
def Separate (chip : PhyChip) (p b : Nat) : Prop := p + chip.paramSize ≤ b ∨ b + 512 ≤ p

/-- The bytes that are set to zero when C3 shortens its first table. -/
def shortened (b : Nat) : List Nat := [b + 19, b + 20, b + 46, b + 47]

theorem shortenTables_spec {chip : PhyChip} {p b : Nat} (h : Separate chip p b) (m : ByteMem) :
    ∃ m', shortenTables chip p b m =
        (m', if isShort1 chip p m then 7 else 9, if isShort0 chip p m then 5 else 9) ∧
      (∀ x, isShort1 chip p m = false ∨ x ∉ shortened b → m' x = m x) ∧
      (isShort1 chip p m = true → m' (b + 46) = 0) := by
  cases chip with
  | esp32s3 => exact ⟨m, rfl, fun _ _ => rfl, fun hshort => by simp [isShort1] at hshort⟩
  | esp32c3 =>
      have hsize : PhyChip.paramSize .esp32c3 = 848 := rfl
      rw [Separate, hsize] at h
      by_cases hshort : read m (p + 0x218) 1 &&& 2#32 ≠ 0
      · let m' := write (write (write m (b + 12 + 8) 1 0) (b + 12 + 7) 1 0) (b + 40 + 6) 2 0
        have hkept : ∀ x, x ∉ shortened b → m' x = m x := by
          intro x hx
          simp only [shortened, List.mem_cons, List.not_mem_nil, or_false, not_or] at hx
          simp only [m', write]
          rw [fill_of_not_mem (by omega), fill_of_not_mem (by omega), fill_of_not_mem (by omega)]
        have hread : read m' (p + 0x348) 1 = read m (p + 0x348) 1 := by
          rw [read_one, read_one, hkept _ (by simp [shortened]; omega)]
        have hshort1 : isShort1 .esp32c3 p m = true := decide_eq_true ⟨rfl, hshort⟩
        refine ⟨m', ?_, fun x hx => hkept x (hx.resolve_left (by simp [hshort1])), fun _ => ?_⟩
        · rw [hshort1]
          simp only [shortenTables, if_pos hshort]
          change (m', _, if Signed.i8 (read m' (p + 0x348) 1).toNat < -6 then _ else _) = _
          rw [hread]
          simp [isShort0]
        · exact (fill_range (i := 0) (by decide)).trans (byteOf_zero 0)
      · have hshort1 : isShort1 .esp32c3 p m = false := decide_eq_false fun hc => hshort hc.2
        refine ⟨m, ?_, fun _ _ => rfl, fun hc => absurd (hshort1.symm.trans hc) (by decide)⟩
        rw [hshort1]
        simp only [shortenTables, if_neg hshort]
        simp [isShort0]

/-- The buffer after the copies. -/
structure Copied (chip : PhyChip) (b : Nat) (m : ByteMem) : Prop where
  code0 : ∀ i < 9, m (b + i) = constant chip (chip.slot 25 32 + i)
  code1 : ∀ i < 9, m (b + 12 + i) = constant chip (chip.slot 34 32 + i)
  step0 : ∀ i < 15, m (b + 24 + i) = constant chip (chip.slot 10 0 + i)
  step1 : ∀ i < 15, m (b + 40 + i) = constant chip (chip.slot 43 44 + i)
  start0 : ∀ i < 15, m (b + 56 + i) = constant chip (chip.slot 58 16 + i)
  start1 : ∀ i < 15, m (b + 72 + i) = constant chip (chip.slot 73 60 + i)

theorem copied (chip : PhyChip) (b : Nat) (m : ByteMem) :
    Copied chip b ((tableCopies chip b).foldl (copyTable chip) m) := by
  have hcopy : ∀ c ∈ tableCopies chip b, ∀ i < c.size,
      (tableCopies chip b).foldl (copyTable chip) m (c.destination + i) =
        constant chip (c.offset + i) :=
    foldl_copyTable chip (by simp [tableCopies]) m
  simp only [tableCopies, List.forall_mem_cons] at hcopy
  obtain ⟨h0, h1, h2, h3, h4, h5, -⟩ := hcopy
  exact ⟨h0, h1, h2, h3, h4, h5⟩

theorem Copied.congr {chip : PhyChip} {b : Nat} {m m' : ByteMem} (h : Copied chip b m)
    (hsame : ∀ x, b ≤ x → x < b + 512 → m' x = m x) : Copied chip b m' where
  code0 i hi := (hsame _ (by omega) (by omega)).trans (h.code0 i hi)
  code1 i hi := (hsame _ (by omega) (by omega)).trans (h.code1 i hi)
  step0 i hi := (hsame _ (by omega) (by omega)).trans (h.step0 i hi)
  step1 i hi := (hsame _ (by omega) (by omega)).trans (h.step1 i hi)
  start0 i hi := (hsame _ (by omega) (by omega)).trans (h.start0 i hi)
  start1 i hi := (hsame _ (by omega) (by omega)).trans (h.start1 i hi)

/-- A row of a list of rows. -/
theorem getElem?_rows {n i : Nat} {f : Nat → GainRow} {r : GainRow}
    (h : ((List.range n).map f)[i]? = some r) : i < n ∧ r = f i := by
  rw [List.getElem?_map, Option.map_eq_some_iff] at h
  obtain ⟨j, hj, rfl⟩ := h
  obtain ⟨hi, rfl⟩ := List.getElem?_eq_some_iff.mp hj
  rw [List.length_range] at hi
  exact ⟨hi, by rw [List.getElem_range]⟩

variable {chip : PhyChip} {p b : Nat} {m m' : ByteMem} {short short1 short0 : Bool}

theorem tables0 (h : Copied chip b m) (hsame : ∀ x, x ∉ shortened b → m' x = m x) :
    Tables m' (args0 chip b short) (rows0 chip short) := by
  intro i r hr
  obtain ⟨hi, rfl⟩ := getElem?_rows hr
  have hi9 : i < 9 := by
    split at hi <;> omega
  refine ⟨(hsame _ ?_).trans (h.code0 i hi9), (hsame _ ?_).trans (h.step0 i (by omega)),
    (hsame _ ?_).trans (h.start0 i (by omega))⟩ <;>
  · simp [shortened, args0]
    omega

theorem tables1 (h : Copied chip b m)
    (hsame : ∀ x, short = false ∨ x ∉ shortened b → m' x = m x)
    (hzero : short = true → m' (b + 46) = 0) : Tables m' (args1 b short) (rows1 chip short) := by
  intro i r hr
  obtain ⟨hi, rfl⟩ := getElem?_rows hr
  have hi9 : i < 9 := by
    split at hi <;> omega
  have hshort : short = true → i < 7 := by
    intro hs
    rwa [hs] at hi
  have hkept : ∀ x, (short = true → x ∉ shortened b) → m' x = m x := by
    intro x hx
    cases hs : short with
    | false => exact hsame x (Or.inl hs)
    | true => exact hsame x (Or.inr (hx hs))
  refine ⟨(hkept _ fun hs => ?_).trans (h.code1 i hi9), ?_,
    (hkept _ fun _ => ?_).trans (h.start1 i (by omega))⟩
  · have hlt := hshort hs
    simp [shortened, args1]
    omega
  · -- the step that C3 sets to zero is the one of the last row
    by_cases hlast : short = true ∧ i = 6
    · obtain ⟨hs, rfl⟩ := hlast
      exact (hzero hs).trans (if_pos ⟨hs, rfl⟩).symm
    · refine (hkept _ fun hs => ?_).trans ((h.step1 i (by omega)).trans (if_neg hlast).symm)
      have hlt := hshort hs
      have hne : i ≠ 6 := fun hi6 => hlast ⟨hs, hi6⟩
      simp [shortened, args1]
      omega
  · simp [shortened, args1]
    omega

theorem isShort1_congr (h : chip = .esp32c3 → m' (p + 0x218) = m (p + 0x218)) :
    isShort1 chip p m' = isShort1 chip p m := by
  cases chip with
  | esp32s3 => simp [isShort1]
  | esp32c3 => rw [isShort1, isShort1, read_one, read_one, h rfl]

theorem isShort0_congr (h : chip = .esp32c3 → m' (p + 0x348) = m (p + 0x348)) :
    isShort0 chip p m' = isShort0 chip p m := by
  cases chip with
  | esp32s3 => simp [isShort0]
  | esp32c3 => rw [isShort0, isShort0, read_one, read_one, h rfl]

/-- The tables are laid out for the rows that the parameters select, in the first 88 bytes of the
buffer. -/
theorem layTables_spec (h : Separate chip p b) (count : BitVec 32) (m : ByteMem) :
    ∃ m', layTables chip p b count m =
        (m', (args1 b (isShort1 chip p m)).count, (args0 chip b (isShort0 chip p m)).count) ∧
      Tables m' (args1 b (isShort1 chip p m)) (rows1 chip (isShort1 chip p m)) ∧
      Tables m' (args0 chip b (isShort0 chip p m)) (rows0 chip (isShort0 chip p m)) ∧
      ∀ x, x < b ∨ b + 88 ≤ x → x ≠ p + 0xf1 → m' x = m x := by
  have hsize : 740 ≤ chip.paramSize := by cases chip <;> decide
  have hsep := h
  rw [Separate] at hsep
  let m1 := (tableCopies chip b).foldl (copyTable chip) m
  let m2 := write m1 (p + 0xf1) 1 (read m1 (b + count.toNat - 1) 1)
  have hwrite : ∀ x, x ≠ p + 0xf1 → m2 x = m1 x := fun x hx => fill_of_not_mem (by omega)
  have hkept : ∀ x, x < b ∨ b + 88 ≤ x → x ≠ p + 0xf1 → m2 x = m x := by
    intro x hx hne
    rw [hwrite x hne]
    refine foldl_copyTable_of_not_mem chip ?_ m
    simp only [tableCopies, List.forall_mem_cons]
    refine ⟨?_, ?_, ?_, ?_, ?_, ?_, fun c hc => absurd hc List.not_mem_nil⟩ <;> omega
  have hparam : ∀ i < chip.paramSize, i ≠ 0xf1 → m2 (p + i) = m (p + i) := fun i _ _ =>
    hkept _ (by omega) (by omega)
  have hcopied : Copied chip b m2 :=
    (copied chip b m).congr fun x hlow hhigh => hwrite x (by omega)
  have hshort1 : isShort1 chip p m2 = isShort1 chip p m :=
    isShort1_congr fun _ => hparam 0x218 (by omega) (by decide)
  have hshort0 : isShort0 chip p m2 = isShort0 chip p m :=
    isShort0_congr fun hchip => hparam 0x348 (by rw [hchip]; decide) (by decide)
  obtain ⟨m', hresult, hsame, hzero⟩ := shortenTables_spec h m2
  rw [hshort1] at hresult hsame hzero
  rw [hshort0] at hresult
  refine ⟨m', hresult, tables1 hcopied hsame hzero,
    tables0 hcopied fun x hx => hsame x (Or.inr hx), fun x hx hne => ?_⟩
  rw [hsame _ (Or.inr (by simp [shortened]; omega)), hkept x hx hne]

/-! ## The two tables -/

theorem called1 (h : Tables m (args1 b short) (rows1 chip short)) :
    Called chip (args1 b short) 22 (rows1 chip short) m := by
  have hrows := rows1_wellFormed chip short
  have hlength := hrows.length_le
  refine ⟨hrows.plain, ?_, ?_, by decide, hrows.bounded, by omega, h, ?_⟩
  · cases chip <;> cases short <;> rfl
  · cases chip <;> rfl
  · intro i hi x hx
    have hi9 := rows1_length_le chip short
    simp only [args1, List.mem_cons, List.not_mem_nil, or_false] at hx ⊢
    omega

theorem called0 (h : Tables m (args0 chip b short) (rows0 chip short)) :
    Called chip (args0 chip b short) (chip.slot 25 22) (rows0 chip short) m := by
  have hrows := rows0_wellFormed chip short
  have hlength := hrows.length_le
  refine ⟨hrows.plain, ?_, ?_, by cases chip <;> decide, hrows.bounded, by omega, h, ?_⟩
  · cases chip <;> cases short <;> rfl
  · cases chip <;> rfl
  · intro i hi x hx
    have hi9 := rows0_length_le chip short
    simp only [args0, List.mem_cons, List.not_mem_nil, or_false] at hx ⊢
    omega

/-- The entries of the two tables. -/
abbrev entries1 (chip : PhyChip) (short : Bool) : List (Nat × Nat) :=
  gainEntries 22 (rows1 chip short)

abbrev entries0 (chip : PhyChip) (short : Bool) : List (Nat × Nat) :=
  gainEntries (chip.slot 25 22) (rows0 chip short)

/-- The indices of the last entries that are used. -/
def last1 (chip : PhyChip) (short : Bool) : Nat :=
  min ((entries1 chip short).length - 1) (chip.slot 76 79)

def last0 (chip : PhyChip) (short : Bool) : Nat :=
  min ((entries0 chip short).length - 1) (chip.slot 82 79)

/-- A table and its codes are in the buffer, and the index of its last entry is in the
parameters. -/
structure Built (rows : List GainRow) (es : List (Nat × Nat)) (codes packed last n : Nat)
    (m : ByteMem) : Prop where
  stored : Stored m packed (es.map (packedEntry rows))
  code : ∀ i r, rows[i]? = some r → m (codes + i) = r.code
  last : (m last).toNat = n

theorem toNat_write_last (m : ByteMem) (x : Nat) {n : Nat} (h : n < 256) :
    (write m x 1 (BitVec.ofNat 32 n) x).toNat = n := by
  rw [write, fill_self, toNat_byteOf, BitVec.toNat_ofNat]
  omega

theorem Built.congr {rows : List GainRow} {es : List (Nat × Nat)} {codes packed last n : Nat}
    (h : Built rows es codes packed last n m)
    (hstored : ∀ x, packed ≤ x → x < packed + (es.length + 1) / 2 * 4 → m' x = m x)
    (hcode : ∀ i < rows.length, m' (codes + i) = m (codes + i)) (hlast : m' last = m last) :
    Built rows es codes packed last n m' where
  stored := h.stored.congr (by rwa [List.length_map])
  code i r hr := (hcode i (List.getElem?_eq_some_iff.mp hr).1).trans (h.code i r hr)
  last := by rw [hlast, h.last]

/-- A call of `generate` with the store of the index of the last entry that is used. -/
theorem Called.built {a : GenerateArgs} {max last n : Nat} {rows : List GainRow}
    (h : Called chip a max rows m) (hn : n < 256)
    (hcodes : ∀ i < rows.length, a.codes + i ≠ last)
    (hout : last < a.out ∨ a.out + ((gainEntries max rows).length + 1) / 2 * 4 ≤ last) :
    ∃ m', generate chip a m = some (m', (gainEntries max rows).length - 1) ∧
      Built rows (gainEntries max rows) a.codes a.out last n
        (write m' last 1 (BitVec.ofNat 32 n)) ∧
      ∀ x, x < a.out ∨ a.out + ((gainEntries max rows).length + 1) / 2 * 4 ≤ x → x ≠ last →
        write m' last 1 (BitVec.ofNat 32 n) x = m x := by
  obtain ⟨m', hgenerate, hstored, hframe⟩ := generate_spec h
  have hwrite : ∀ x, x ≠ last → write m' last 1 (BitVec.ofNat 32 n) x = m' x := fun x _ =>
    fill_of_not_mem (by omega)
  refine ⟨m', hgenerate, ⟨hstored.congr fun x _ hhigh => hwrite x ?_, fun i r hr => ?_,
    toNat_write_last m' last hn⟩, fun x hx hne => (hwrite x hne).trans (hframe x hx)⟩
  · rw [List.length_map] at hhigh
    omega
  · have hi := (List.getElem?_eq_some_iff.mp hr).1
    rw [hwrite _ (hcodes i hi), hframe _ (h.apart i hi _ (by simp))]
    exact (h.tables i r hr).1

theorem buildTables_spec (h : Separate chip p b)
    (h1 : Tables m (args1 b short1) (rows1 chip short1))
    (h0 : Tables m (args0 chip b short0) (rows0 chip short0)) :
    ∃ m', buildTables chip p b (args1 b short1).count (args0 chip b short0).count m = some m' ∧
      Built (rows1 chip short1) (entries1 chip short1) (b + 12) (b + 88) (p + 0x1f5)
        (last1 chip short1) m' ∧
      Built (rows0 chip short0) (entries0 chip short0) b (b + 288) (p + 0x1f6)
        (last0 chip short0) m' ∧
      ∀ x, x < b + 88 ∨ b + 512 ≤ x → x ≠ p + 0x1f5 → x ≠ p + 0x1f6 → m' x = m x := by
  have hlength1 : (entries1 chip short1).length ≤ 88 := (rows1_wellFormed chip short1).length_le
  have hlength0 : (entries0 chip short0).length ≤ 88 := (rows0_wellFormed chip short0).length_le
  have hlast1 : last1 chip short1 < 256 := by rw [last1]; omega
  have hlast0 : last0 chip short0 < 256 := by rw [last0]; omega
  have hsize : 740 ≤ chip.paramSize := by cases chip <;> decide
  have hrows1 := rows1_length_le chip short1
  have hrows0 := rows0_length_le chip short0
  rw [Separate] at h
  have hend1 (x : Nat) (hx : x < b + 88 ∨ b + 264 ≤ x) :
      x < (args1 b short1).out ∨
        (args1 b short1).out + ((entries1 chip short1).length + 1) / 2 * 4 ≤ x := by
    simp only [args1]
    omega
  have hend0 (x : Nat) (hx : x < b + 288 ∨ b + 464 ≤ x) :
      x < (args0 chip b short0).out ∨
        (args0 chip b short0).out + ((entries0 chip short0).length + 1) / 2 * 4 ≤ x := by
    simp only [args0]
    omega
  obtain ⟨m1, hgenerate1, hbuilt1, hframe1⟩ := (called1 h1).built hlast1
    (fun i _ => show b + 12 + i ≠ p + 0x1f5 by omega) (hend1 _ (by omega))
  generalize hm2 : write m1 (p + 0x1f5) 1 (BitVec.ofNat 32 (last1 chip short1)) = m2
    at hbuilt1 hframe1
  replace hbuilt1 : Built (rows1 chip short1) (entries1 chip short1) (b + 12) (b + 88)
    (p + 0x1f5) (last1 chip short1) m2 := hbuilt1
  -- the rows of the second table are in front of the first table
  have htables : Tables m2 (args0 chip b short0) (rows0 chip short0) := by
    intro i r hr
    have hi := (List.getElem?_eq_some_iff.mp hr).1
    have hkept : ∀ x, b ≤ x → x < b + 88 → m2 x = m x := fun x _ hhigh =>
      hframe1 x (hend1 x (Or.inl hhigh)) (by omega)
    obtain ⟨hcode, hstep, hstart⟩ := h0 i r hr
    simp only [args0] at hcode hstep hstart ⊢
    exact ⟨(hkept _ (by omega) (by omega)).trans hcode,
      (hkept _ (by omega) (by omega)).trans hstep, (hkept _ (by omega) (by omega)).trans hstart⟩
  obtain ⟨m3, hgenerate0, hbuilt0, hframe0⟩ := (called0 htables).built hlast0
    (fun i _ => show b + i ≠ p + 0x1f6 by omega) (hend0 _ (by omega))
  have hkept : ∀ x, x ≠ p + 0x1f6 → x < b + 288 ∨ b + 512 ≤ x →
      write m3 (p + 0x1f6) 1 (BitVec.ofNat 32 (last0 chip short0)) x = m2 x := fun x hx hout =>
    hframe0 x (hend0 x (by omega)) hx
  refine ⟨_, ?_, hbuilt1.congr (fun x hlow hhigh => hkept x (by omega) (by omega))
    (fun i hi => hkept _ (by omega) (by omega)) (hkept _ (by omega) (by omega)), hbuilt0,
    fun x hx hne1 hne0 => ?_⟩
  · change (generate chip (args1 b short1) m).bind _ = _
    rw [hgenerate1]
    change (generate chip (args0 chip b short0)
      (write m1 _ 1 (BitVec.ofNat 32 (last1 chip short1)))).bind _ = _
    rw [hm2, hgenerate0]
    rfl
  · rw [hkept x hne0 (by omega)]
    exact hframe1 x (hend1 x (by omega)) hne1

/-! ## The calls -/

/-- The calibration changes neither the local buffer nor the last indices. -/
structure Calibration.Keeps (cal : Calibration) (p b : Nat) : Prop where
  external : ∀ value frequency m x, (b ≤ x ∧ x < b + 512) ∨ x = p + 0x1f5 ∨ x = p + 0x1f6 →
    cal.external value frequency m x = m x
  setParam : ∀ mode flags codes n packed count m x,
    (b ≤ x ∧ x < b + 512) ∨ x = p + 0x1f5 ∨ x = p + 0x1f6 →
      cal.setParam mode flags codes n packed count m x = m x

theorem calibrateTables_kept {cal : Calibration} (h : cal.Keeps p b) (freq count : BitVec 32)
    (m : ByteMem) {x : Nat} (hx : (b ≤ x ∧ x < b + 512) ∨ x = p + 0x1f5 ∨ x = p + 0x1f6) :
    calibrateTables chip cal p b freq count m x = m x := by
  unfold calibrateTables
  dsimp only
  split
  case isTrue =>
    rw [h.setParam _ _ _ _ _ _ _ _ hx, h.external _ _ _ _ hx, h.setParam _ _ _ _ _ _ _ _ hx,
      h.external _ _ _ _ hx]
  case isFalse => rw [h.setParam _ _ _ _ _ _ _ _ hx, h.external _ _ _ _ hx]

/-- The number of entries that `write_memory` gets. -/
theorem toNat_entryCount {last n : Nat} (h : (m last).toNat = n) (hn : n < 255) :
    (chip.byte (entryCount m last)).toNat = n + 1 := by
  have hread : (read m last 1).toNat = n := by rw [read_byte, h]
  have hcount : (entryCount m last).toNat = n + 1 := by
    have hone : (1#32).toNat = 1 := rfl
    rw [entryCount, Register.toNat_and_mask 8 rfl, BitVec.toNat_add, hread, hone]
    omega
  cases chip with
  | esp32s3 =>
      rw [PhyChip.byte, BitVec.toNat_setWidth, BitVec.toNat_setWidth, hcount]
      omega
  | esp32c3 => exact hcount

/-- The calls of `write_memory` for a table that ends before `limit`.  The index `n` of the last
entry is in the parameters, and there is one call for every entry up to it. -/
structure Written (chip : PhyChip) (param : Nat) (a : MemoryArgs) (max : Nat) (rows : List GainRow)
    (last n limit : Nat) (m : ByteMem) : Prop where
  inside : a.packed + ((gainEntries max rows).length + 1) / 2 * 4 ≤ limit
  last : (m last).toNat = n
  length : (writeMemory chip param a 256 m).length = n + 1
  call : ∀ k ≤ n, ∀ e, (gainEntries max rows)[k]? = some e →
    ∃ call, (writeMemory chip param a 256 m)[k]? = some call ∧ CallOf chip param a m rows k e call

theorem Built.written (chip : PhyChip) {max : Nat} {rows : List GainRow}
    (hrows : WellFormed max rows) (hmax : max ≤ 28) (param : Nat) (a : MemoryArgs)
    {last n limit : Nat} (h : Built rows (gainEntries max rows) a.codes a.packed last n m)
    (halternate : chip.byte a.alternate = 0) (hcount : a.count = entryCount m last)
    (hn : n + 1 ≤ (gainEntries max rows).length) (hlimit : a.packed + 176 ≤ limit) :
    Written chip param a max rows last n limit m := by
  have hlength := hrows.length_le
  have hbyte : (chip.byte a.count).toNat = n + 1 := by
    rw [hcount]
    exact toNat_entryCount h.last (by omega)
  have hreadable : Readable chip a rows (gainEntries max rows) m :=
    ⟨halternate, h.stored, h.code, hrows.plain.1, by omega⟩
  refine ⟨by omega, h.last, ?_, fun k hk => ?_⟩
  · have hindices : (writeMemory chip param a 256 m).map MemoryCall.index =
        (List.range (n + 1)).map (memoryIndex chip (chip.byte a.mode)) :=
      writeMemory_indices halternate hbyte (by omega) (by omega)
    simpa using congrArg List.length hindices
  · exact writeMemory_spec param hrows.plain hmax hrows.bounded hrows.recoverable hrows.even
      hreadable (by omega) (by omega) k (by omega)

/-- The first `set_table` succeeds.  Before the calibration it changes nothing but the local buffer
and three parameters, with the tables one after the other in the buffer.  After the calibration,
in the memory `m₂`, there is for each table one call for every entry up to the last index in the
parameters, and it hands on the word of the entry, the IQ word for its row and the DC word and
correction of its gain. -/
theorem set_table_calls (chip : PhyChip) (cal : Calibration) (p b : Nat)
    (frequency requested : BitVec 32) (m : ByteMem) (hseparate : Separate chip p b)
    (hcal : cal.Keeps p b) (hflag : read m (p + 0x120) 4 &&& 512#32 = 0) :
    ∃ m₁ m₂,
      buildTables chip p b (layTables chip p b (tableCount chip requested) m).2.1
        (layTables chip p b (tableCount chip requested) m).2.2
        (layTables chip p b (tableCount chip requested) m).1 = some m₁ ∧
      (∀ x, x < b ∨ b + 512 ≤ x → x ∉ [p + 0xf1, p + 0x1f5, p + 0x1f6] → m₁ x = m x) ∧
      m₂ = calibrateTables chip cal p b (tableFrequency chip frequency)
        (tableCount chip requested) m₁ ∧
      setTable chip cal p b frequency requested m =
        some (finishTable chip p (write m₂ (p + 0x120) 4 (read m₂ (p + 0x120) 4 ||| 512#32)),
          [writeMemory chip p (memoryArgs1 chip p b m₂) 256 m₂,
            writeMemory chip p (memoryArgs0 chip p b m₂) 256 m₂]) ∧
      Written chip p (memoryArgs1 chip p b m₂) 22 (rows1 chip (isShort1 chip p m)) (p + 0x1f5)
        (last1 chip (isShort1 chip p m)) (b + 288) m₂ ∧
      Written chip p (memoryArgs0 chip p b m₂) (chip.slot 25 22) (rows0 chip (isShort0 chip p m))
        (p + 0x1f6) (last0 chip (isShort0 chip p m)) (b + 512) m₂ := by
  have hrows1 := rows1_wellFormed chip (isShort1 chip p m)
  have hrows0 := rows0_wellFormed chip (isShort0 chip p m)
  have hsize : 740 ≤ chip.paramSize := by cases chip <;> decide
  obtain ⟨m', hlay, htables1, htables0, hlaid⟩ :=
    layTables_spec hseparate (tableCount chip requested) m
  obtain ⟨m₁, hbuild, hbuilt1, hbuilt0, hbuilt⟩ := buildTables_spec hseparate htables1 htables0
  rw [Separate] at hseparate
  obtain ⟨m₂, hm₂⟩ : ∃ m₂, m₂ = calibrateTables chip cal p b (tableFrequency chip frequency)
    (tableCount chip requested) m₁ := ⟨_, rfl⟩
  have hkept : ∀ x, (b ≤ x ∧ x < b + 512) ∨ x = p + 0x1f5 ∨ x = p + 0x1f6 → m₂ x = m₁ x :=
    fun x hx => hm₂ ▸ calibrateTables_kept hcal _ _ m₁ hx
  have hlength1 : (entries1 chip (isShort1 chip p m)).length ≤ 88 := hrows1.length_le
  have hlength0 : (entries0 chip (isShort0 chip p m)).length ≤ 88 := hrows0.length_le
  have hcodes1 : (rows1 chip (isShort1 chip p m)).length ≤ 9 := rows1_length_le chip _
  have hcodes0 : (rows0 chip (isShort0 chip p m)).length ≤ 9 := rows0_length_le chip _
  have hafter1 : Built (rows1 chip (isShort1 chip p m)) (entries1 chip (isShort1 chip p m))
      (b + 12) (b + 88) (p + 0x1f5) (last1 chip (isShort1 chip p m)) m₂ :=
    hbuilt1.congr (fun x _ _ => hkept x (by omega)) (fun i hi => hkept _ (by omega))
      (hkept _ (by omega))
  have hafter0 : Built (rows0 chip (isShort0 chip p m)) (entries0 chip (isShort0 chip p m))
      b (b + 288) (p + 0x1f6) (last0 chip (isShort0 chip p m)) m₂ :=
    hbuilt0.congr (fun x _ _ => hkept x (by omega)) (fun i hi => hkept _ (by omega))
      (hkept _ (by omega))
  refine ⟨m₁, m₂, ?_, fun x hx hne => ?_, hm₂, ?_, ?_, ?_⟩
  · rw [hlay]
    exact hbuild
  · simp only [List.mem_cons, List.not_mem_nil, or_false, not_or] at hne
    rw [hbuilt x (by omega) hne.2.1 hne.2.2, hlaid x (by omega) hne.1]
  · have hflags : read m' (p + 0x120) 4 = read m (p + 0x120) 4 :=
      read_congr fun i hi => hlaid _ (by omega) (by omega)
    unfold setTable
    dsimp only
    rw [hlay]
    dsimp only
    rw [hflags, if_pos hflag, hbuild, hm₂]
    rfl
  · exact hafter1.written chip hrows1 (by decide) p (memoryArgs1 chip p b m₂)
      (by cases chip <;> rfl) rfl (Nat.add_le_of_le_sub hrows1.length_pos (Nat.min_le_left _ _))
      (show b + 88 + 176 ≤ b + 288 by omega)
  · exact hafter0.written chip hrows0 (by cases chip <;> decide) p (memoryArgs0 chip p b m₂)
      (by cases chip <;> rfl) rfl (Nat.add_le_of_le_sub hrows0.length_pos (Nat.min_le_left _ _))
      (show b + 288 + 176 ≤ b + 512 by omega)

/-- With parameters that are zero C3 uses all rows, and both tables have 80 calls. -/
theorem set_table_calls_c3 :
    ∃ m' calls1 calls0,
      setTable .esp32c3 ⟨fun _ _ m => m, fun _ _ _ _ _ _ m => m⟩ 0 1024 2412 0 (fun _ => 0) =
        some (m', [calls1, calls0]) ∧ calls1.length = 80 ∧ calls0.length = 80 := by
  obtain ⟨_, m₂, -, -, -, hset, hcalls1, hcalls0⟩ := set_table_calls .esp32c3
    ⟨fun _ _ m => m, fun _ _ _ _ _ _ m => m⟩ 0 1024 2412 0 (fun _ => 0)
    (Or.inl (by decide)) ⟨fun _ _ _ _ _ => rfl, fun _ _ _ _ _ _ _ _ _ => rfl⟩ rfl
  exact ⟨_, _, _, hset, hcalls1.length, hcalls0.length⟩

end GainTable

end EspWifiHal
