import EspWifiHal.Phy.Init
import EspWifiHal.Lib.Fields
import EspWifiHal.Lib.Loop

/-!
# The table of the hardware I2C master

On a channel switch the hardware writes up to 20 registers of the analog part itself.
`write_i2c` scatters their description over the registers of the table: for each entry the
host, the block and register, two selectors and an enable bit, and beside the entries 16 bytes
of data, which the selectors choose.

`i2cLayout` lists the fields and proves that they have no bit in common.  `i2c_image` says that
every entry can be read back and that nothing else has changed.
-/

namespace EspWifiHal

open Fields

/-! ## The function -/

/-- The arrays of `write_i2c`, in the order of its arguments. -/
structure I2cEntries where
  host : Nat → BitVec 8
  block : Nat → BitVec 8
  register : Nat → BitVec 8
  first : Nat → BitVec 8
  firstValue : Nat → BitVec 8
  second : Nat → BitVec 8
  secondValue : Nat → BitVec 8
  enabled : Nat → BitVec 8

/-- An access to the arrays, by its place in `p`, or to a register. -/
inductive I2cAccess where
  | byte (array : Fin 8) (i : Nat)
  | read (address : Nat)
  | write (address : Nat)
deriving DecidableEq, Repr

/-- The registers and the accesses that were made, in their order. -/
structure I2cBus where
  registers : Registers
  accesses : List I2cAccess

abbrev I2cM := StateM I2cBus

def I2cEntries.array (e : I2cEntries) : Fin 8 → Nat → BitVec 8
  | 0 => e.host
  | 1 => e.block
  | 2 => e.register
  | 3 => e.first
  | 4 => e.firstValue
  | 5 => e.second
  | 6 => e.secondValue
  | 7 => e.enabled

def readByte (e : I2cEntries) (array : Fin 8) (i : Nat) : I2cM (BitVec 32) := fun bus =>
  ((e.array array i).setWidth 32, { bus with accesses := bus.accesses ++ [.byte array i] })

def readRegister (address : Nat) : I2cM (BitVec 32) := fun bus =>
  (bus.registers address, { bus with accesses := bus.accesses ++ [.read address] })

def writeRegister (address : Nat) (value : BitVec 32) : I2cM Unit := fun bus =>
  ((), { registers := Function.update bus.registers address value
         accesses := bus.accesses ++ [.write address] })

/-- `update` of the source. -/
def updateRegister (address : Nat) (mask value : BitVec 32) : I2cM Unit := do
  let old ← readRegister address
  writeRegister address ((old &&& ~~~mask) ||| value)

/-- `while (i as u8 as u32) < count`.  The counter is tested `fuel` times at most. -/
def whileCount {α : Type} (count : BitVec 32) (fuel : Nat) (body : Nat → α → I2cM α) (a : α)
    (bus : I2cBus) : Option (α × I2cBus) :=
  (Loop.whileBreak (fun s : (α × I2cBus) × Nat => decide (s.2 % 256 < count.toNat))
    (fun s => ((body s.2 s.1.1 s.1.2, s.2 + 1), false)) fuel ((a, bus), 0)).map Prod.fst

def hostAddress (i : Nat) : Nat :=
  match i % 256 / 8 with
  | 0 => 0x6000e100
  | 1 => 0x6000e104
  | _ => 0x6000e108

def entryAddress (i : Nat) : Nat :=
  let bank := i % 256 / 2
  if bank ≤ 7 then 0x6000e0d8 + bank * 4 else if bank = 8 then 0x6000e10c else 0x6000e110

def secondAddress (i : Nat) : Nat :=
  match i % 256 / 8 with
  | 0 => 0x6000e0d0
  | 1 => 0x6000e0d4
  | _ => 0x6000e124

def firstAddress (i : Nat) : Nat :=
  match i % 256 / 8 with
  | 0 => 0x6000e11c
  | 1 => 0x6000e120
  | _ => 0x6000e124

def firstShift (i : Nat) : Nat :=
  if i % 256 / 8 ≥ 2 then (i * 4 % 32 + 16) % 32 else i * 4 % 32

def dataAddress (slot : Nat) : Option Nat :=
  match slot / 4 with
  | 0 => some 0x6000e0c8
  | 1 => some 0x6000e0cc
  | 2 => some 0x6000e114
  | 3 => some 0x6000e118
  | _ => none

def i2cMask (e : I2cEntries) (i : Nat) (mask : BitVec 32) : I2cM (BitVec 32) := do
  let enabled ← readByte e 7 i
  return if enabled = 1 then mask + 1#32 <<< (i % 32) else mask

def i2cHost (chip : PhyChip) (e : I2cEntries) (i : Nat) : I2cM Unit := do
  let address := hostAddress i
  let shift := i * 4 % 32
  if chip = .esp32s3 ∧ i % 256 / 8 = 0 then
    let old ← readRegister address
    let value ← readByte e 0 i
    writeRegister address ((old &&& ~~~(15#32 <<< shift)) ||| ((value &&& 15) <<< shift))
  else
    let value ← readByte e 0 i
    let old ← readRegister address
    writeRegister address ((old &&& ~~~(15#32 <<< shift)) ||| ((value &&& 15) <<< shift))

def i2cEntry (chip : PhyChip) (e : I2cEntries) (i : Nat) : I2cM Unit := do
  let address := entryAddress i
  let shift := i % 2 * 16
  if chip = .esp32s3 ∧ i % 256 / 2 ≥ 7 then
    let block ← readByte e 1 i
    let old ← readRegister address
    let register ← readByte e 2 i
    let value := register <<< 8 ||| block
    writeRegister address ((old &&& ~~~(65535#32 <<< shift)) ||| (value <<< shift))
  else
    let register ← readByte e 2 i
    let block ← readByte e 1 i
    let old ← readRegister address
    let value := register <<< 8 ||| block
    writeRegister address ((old &&& ~~~(65535#32 <<< shift)) ||| (value <<< shift))

def i2cSelectors (chip : PhyChip) (e : I2cEntries) (i : Nat) : I2cM Unit := do
  let second ← readByte e 5 i
  updateRegister 0x6000e128 (1#32 <<< (i % 32)) (((second >>> 4) &&& 1) <<< (i % 32))
  let first ← readByte e 3 i
  updateRegister 0x6000e12c (1#32 <<< (i % 32)) (((first >>> 4) &&& 1) <<< (i % 32))
  let shift := i * 4 % 32
  let second ← readByte e 5 i
  updateRegister (secondAddress i) (15#32 <<< shift) ((second &&& 15) <<< shift)
  let address := firstAddress i
  let shift := firstShift i
  if chip = .esp32s3 ∧ i % 256 / 8 = 0 then
    let old ← readRegister address
    let first ← readByte e 3 i
    writeRegister address ((old &&& ~~~(15#32 <<< shift)) ||| ((first &&& 15) <<< shift))
  else
    let first ← readByte e 3 i
    let old ← readRegister address
    writeRegister address ((old &&& ~~~(15#32 <<< shift)) ||| ((first &&& 15) <<< shift))

/-- One of the two selectors of an entry, with the array of its data. -/
def i2cDatum (e : I2cEntries) (i : Nat) (selector data : Fin 8) : I2cM Unit := do
  let slot ← readByte e selector i
  match dataAddress slot.toNat with
  | some address =>
      let shift := slot.toNat % 4 * 8
      let old ← readRegister address
      let value ← readByte e data i
      writeRegister address ((old &&& ~~~(255#32 <<< shift)) ||| (value <<< shift))
  | none => pure ()

def i2cData (e : I2cEntries) (i : Nat) : I2cM Unit := do
  i2cDatum e i 5 6
  i2cDatum e i 3 4

def writeI2c (chip : PhyChip) (e : I2cEntries) (count : BitVec 32) (fuel : Nat) (bus : I2cBus) :
    Option I2cBus := do
  let count := chip.byte count
  let bus := (updateRegister 0x6000e0c4 0x7c00 ((count <<< 10) &&& 0x7c00) bus).2
  let masked ← whileCount count fuel (i2cMask e) 0 bus
  let bus := (writeRegister 0x6000e164 masked.1 masked.2).2
  let hosts ← whileCount count fuel (fun i _ => i2cHost chip e i) () bus
  let entries ← whileCount count fuel (fun i _ => i2cEntry chip e i) () hosts.2
  let selectors ← whileCount count fuel (fun i _ => i2cSelectors chip e i) () entries.2
  let data ← whileCount count fuel (fun i _ => i2cData e i) () selectors.2
  return data.2

/-! ## What the registers see -/

/-- The effect of `i2cHost` on the registers, without the order of the accesses. -/
def putHost (e : I2cEntries) (i : Nat) (r : Registers) : Registers :=
  let shift := i * 4 % 32
  update (hostAddress i) (15#32 <<< shift) (((e.host i).setWidth 32 &&& 15) <<< shift) r

def putEntry (e : I2cEntries) (i : Nat) (r : Registers) : Registers :=
  let value := (e.register i).setWidth 32 <<< 8 ||| (e.block i).setWidth 32
  let shift := i % 2 * 16
  update (entryAddress i) (65535#32 <<< shift) (value <<< shift) r

def putSelectors (e : I2cEntries) (i : Nat) (r : Registers) : Registers :=
  let second := (e.second i).setWidth 32
  let first := (e.first i).setWidth 32
  let r := update 0x6000e128 (1#32 <<< (i % 32)) (((second >>> 4) &&& 1) <<< (i % 32)) r
  let r := update 0x6000e12c (1#32 <<< (i % 32)) (((first >>> 4) &&& 1) <<< (i % 32)) r
  let shift := i * 4 % 32
  let r := update (secondAddress i) (15#32 <<< shift) ((second &&& 15) <<< shift) r
  update (firstAddress i) (15#32 <<< firstShift i) ((first &&& 15) <<< firstShift i) r

def putDatum (r : Registers) (selected : BitVec 8 × BitVec 8) : Registers :=
  match dataAddress selected.1.toNat with
  | some address =>
      let shift := selected.1.toNat % 4 * 8
      update address (255#32 <<< shift) (selected.2.setWidth 32 <<< shift) r
  | none => r

def putData (e : I2cEntries) (i : Nat) (r : Registers) : Registers :=
  [(e.second i, e.secondValue i), (e.first i, e.firstValue i)].foldl putDatum r

theorem writeRegister_registers (address : Nat) (value : BitVec 32) (bus : I2cBus) :
    (writeRegister address value bus).2.registers =
      Function.update bus.registers address value := rfl

theorem updateRegister_registers (address : Nat) (mask value : BitVec 32) (bus : I2cBus) :
    (updateRegister address mask value bus).2.registers =
      update address mask value bus.registers := rfl

theorem i2cHost_registers (chip : PhyChip) (e : I2cEntries) (i : Nat) (bus : I2cBus) :
    (i2cHost chip e i bus).2.registers = putHost e i bus.registers := by
  rw [i2cHost]
  split
  · rfl
  · rfl

theorem i2cEntry_registers (chip : PhyChip) (e : I2cEntries) (i : Nat) (bus : I2cBus) :
    (i2cEntry chip e i bus).2.registers = putEntry e i bus.registers := by
  rw [i2cEntry]
  split
  · rfl
  · rfl

theorem i2cSelectors_registers (chip : PhyChip) (e : I2cEntries) (i : Nat) (bus : I2cBus) :
    (i2cSelectors chip e i bus).2.registers = putSelectors e i bus.registers := by
  rw [i2cSelectors]
  split
  · rfl
  · rfl

theorem i2cDatum_registers (e : I2cEntries) (i : Nat) (selector data : Fin 8) (bus : I2cBus) :
    (i2cDatum e i selector data bus).2.registers =
      putDatum bus.registers (e.array selector i, e.array data i) := by
  have hslot : ((e.array selector i).setWidth 32).toNat = (e.array selector i).toNat :=
    BitVec.toNat_setWidth_of_le (by decide)
  rw [putDatum, ← hslot]
  change (((match dataAddress ((e.array selector i).setWidth 32).toNat with
    | some address => _
    | none => _) : I2cM Unit) _).2.registers = _
  cases dataAddress ((e.array selector i).setWidth 32).toNat with
  | none => rfl
  | some address => rfl

theorem i2cData_registers (e : I2cEntries) (i : Nat) (bus : I2cBus) :
    (i2cData e i bus).2.registers = putData e i bus.registers := by
  change (i2cDatum e i 3 4 (i2cDatum e i 5 6 bus).2).2.registers = _
  rw [i2cDatum_registers, i2cDatum_registers]
  rfl

/-! ## The layout -/

inductive I2cField where
  | count
  | enable
  | host (i : Fin 20)
  | entry (i : Fin 20)
  | secondHigh (i : Fin 20)
  | firstHigh (i : Fin 20)
  | secondLow (i : Fin 20)
  | firstLow (i : Fin 20)
  | data (slot : Fin 16)
deriving DecidableEq, Repr

namespace I2cField

def field : I2cField → Field
  | .count => ⟨0x6000e0c4, 10, 5⟩
  | .enable => ⟨0x6000e164, 0, 32⟩
  | .host i => ⟨hostAddress i, i * 4 % 32, 4⟩
  | .entry i => ⟨entryAddress i, i % 2 * 16, 16⟩
  | .secondHigh i => ⟨0x6000e128, i % 32, 1⟩
  | .firstHigh i => ⟨0x6000e12c, i % 32, 1⟩
  | .secondLow i => ⟨secondAddress i, i * 4 % 32, 4⟩
  | .firstLow i => ⟨firstAddress i, firstShift i, 4⟩
  | .data slot => ⟨(dataAddress slot).getD 0, slot % 4 * 8, 8⟩

theorem field_fits (f : I2cField) : f.field.Fits := by
  cases f with
  | count => decide
  | enable => decide
  | host i => revert i; decide
  | entry i => revert i; decide
  | secondHigh i => revert i; decide
  | firstHigh i => revert i; decide
  | secondLow i => revert i; decide
  | firstLow i => revert i; decide
  | data slot => revert slot; decide

/-- The field that has a bit of a register of the table. -/
def owner (address bit : Nat) : Option I2cField :=
  match address - 0x6000e000 with
  | 0xc4 => some .count
  | 0x164 => some .enable
  | 0x100 => some (.host (Fin.ofNat 20 (bit / 4)))
  | 0x104 => some (.host (Fin.ofNat 20 (8 + bit / 4)))
  | 0x108 => some (.host (Fin.ofNat 20 (16 + bit / 4)))
  | 0x10c => some (.entry (Fin.ofNat 20 (16 + bit / 16)))
  | 0x110 => some (.entry (Fin.ofNat 20 (18 + bit / 16)))
  | 0x128 => some (.secondHigh (Fin.ofNat 20 bit))
  | 0x12c => some (.firstHigh (Fin.ofNat 20 bit))
  | 0xd0 => some (.secondLow (Fin.ofNat 20 (bit / 4)))
  | 0xd4 => some (.secondLow (Fin.ofNat 20 (8 + bit / 4)))
  | 0x11c => some (.firstLow (Fin.ofNat 20 (bit / 4)))
  | 0x120 => some (.firstLow (Fin.ofNat 20 (8 + bit / 4)))
  -- the selectors of the last four entries share a register
  | 0x124 =>
      if bit < 16 then some (.secondLow (Fin.ofNat 20 (16 + bit / 4)))
      else some (.firstLow (Fin.ofNat 20 (12 + bit / 4)))
  | 0xc8 => some (.data (Fin.ofNat 16 (bit / 8)))
  | 0xcc => some (.data (Fin.ofNat 16 (4 + bit / 8)))
  | 0x114 => some (.data (Fin.ofNat 16 (8 + bit / 8)))
  | 0x118 => some (.data (Fin.ofNat 16 (12 + bit / 8)))
  | offset => some (.entry (Fin.ofNat 20 ((offset - 0xd8) / 2 + bit / 16)))

theorem owner_field (f : I2cField) :
    ∀ b < f.field.width, owner f.field.address (f.field.lsb + b) = some f := by
  cases f with
  | count => decide
  | enable => decide
  | host i => revert i; decide +kernel
  | entry i => revert i; decide +kernel
  | secondHigh i => revert i; decide +kernel
  | firstHigh i => revert i; decide +kernel
  | secondLow i => revert i; decide +kernel
  | firstLow i => revert i; decide +kernel
  | data slot => revert slot; decide +kernel

end I2cField

def i2cLayout : Layout I2cField :=
  .ofOwner I2cField.field I2cField.owner I2cField.field_fits I2cField.owner_field

/-! ## The updates -/

/-- The loop over the first `n` entries. -/
theorem whileCount_eq {α : Type} {count : BitVec 32} {n : Nat} (hcount : count.toNat = n)
    (hn : n ≤ 255) {fuel : Nat} (hfuel : n < fuel) (body : Nat → α → I2cM α) (a : α)
    (bus : I2cBus) : whileCount count fuel body a bus =
      some ((List.range n).foldl (fun s i => body i s.1 s.2) (a, bus)) := by
  rw [whileCount, Loop.whileBreak_range (n := n) (f := fun s i => body i s.1 s.2) _ _ hfuel]
  · rfl
  · intro t c hc
    rw [hcount, Nat.mod_eq_of_lt (by omega)]
  · intro t c hc
    rfl

theorem foldl_registers {body : Nat → I2cM Unit} {put : Nat → Registers → Registers}
    (h : ∀ i bus, (body i bus).2.registers = put i bus.registers) (n : Nat) (bus : I2cBus) :
    ((List.range n).foldl (fun s i => body i s.2) ((), bus)).2.registers =
      (List.range n).foldl (fun r i => put i r) bus.registers :=
  (List.foldl_hom (fun s : Unit × I2cBus => s.2.registers) fun s i => (h i s.2).symm).symm

/-- The enable mask of the first `n` entries. -/
def enableMask (e : I2cEntries) : Nat → BitVec 32
  | 0 => 0
  | n + 1 =>
      if e.enabled n = 1 then enableMask e n + 1#32 <<< (n % 32) else enableMask e n

theorem foldl_mask (e : I2cEntries) (n : Nat) (bus : I2cBus) :
    ((List.range n).foldl (fun s i => i2cMask e i s.1 s.2) (0, bus)).1 = enableMask e n ∧
      ((List.range n).foldl (fun s i => i2cMask e i s.1 s.2) (0, bus)).2.registers =
        bus.registers := by
  induction n with
  | zero => exact ⟨rfl, rfl⟩
  | succ n ih =>
      obtain ⟨hmask, hregisters⟩ := ih
      have hbyte : (e.enabled n).setWidth 32 = 1#32 ↔ e.enabled n = 1 := by
        generalize e.enabled n = b
        revert b
        decide
      rw [List.range_succ, List.foldl_append, enableMask, ← hmask]
      refine ⟨?_, hregisters⟩
      by_cases henabled : e.enabled n = 1
      · rw [if_pos henabled]
        exact if_pos (hbyte.mpr henabled)
      · rw [if_neg henabled]
        exact if_neg (fun h => henabled (hbyte.mp h))

/-- What a field of the table receives. -/
def I2cField.value (e : I2cEntries) (n : Nat) : I2cField → BitVec 32
  | .count => BitVec.ofNat 32 n
  | .enable => enableMask e n
  | .host i => (e.host i).setWidth 32
  | .entry i => (e.register i).setWidth 32 <<< 8 ||| (e.block i).setWidth 32
  | .secondHigh i => (e.second i).setWidth 32 >>> 4
  | .firstHigh i => (e.first i).setWidth 32 >>> 4
  | .secondLow i => (e.second i).setWidth 32
  | .firstLow i => (e.first i).setWidth 32
  | .data _ => 0

def I2cField.selectors (i : Fin 20) : List I2cField :=
  [.secondHigh i, .firstHigh i, .secondLow i, .firstLow i]

/-- One kind of fields, for the first `n` entries. -/
def firstEntries (fields : Fin 20 → List I2cField) (n : Nat) : List I2cField :=
  (List.range n).flatMap fun i => fields (Fin.ofNat 20 i)

/-- The fields that are written before the data, in the order of the source. -/
def writtenFields (n : Nat) : List I2cField :=
  [.count, .enable] ++ firstEntries (fun i => [.host i]) n ++
    firstEntries (fun i => [.entry i]) n ++ firstEntries I2cField.selectors n

/-- The data of the first `n` entries, each with its selector. -/
def dataWrites (e : I2cEntries) (n : Nat) : List (BitVec 8 × BitVec 8) :=
  (List.range n).flatMap fun i => [(e.second i, e.secondValue i), (e.first i, e.firstValue i)]

/-- A selector of 16 and more has no slot. -/
def dataUpdate (w : BitVec 8 × BitVec 8) : List (I2cField × BitVec 32) :=
  if w.1.toNat < 16 then [(.data (Fin.ofNat 16 w.1.toNat), w.2.setWidth 32)] else []

theorem foldl_entries {e : I2cEntries} {body : Nat → Registers → Registers}
    {fields : Fin 20 → List I2cField} {n : Nat} (hn : n ≤ 20)
    (h : ∀ i : Fin 20, ∀ r, body i r =
      i2cLayout.putAll ((fields i).map fun f => (f, f.value e n)) r) (r : Registers) :
    (List.range n).foldl (fun r i => body i r) r =
      i2cLayout.putAll ((firstEntries fields n).map fun f => (f, f.value e n)) r := by
  rw [firstEntries, List.map_flatMap]
  apply i2cLayout.foldl_putAll
  intro i hi r
  have hlt : i < 20 := Nat.lt_of_lt_of_le (List.mem_range.mp hi) hn
  have hindex : Fin.ofNat 20 i = ⟨i, hlt⟩ := Fin.ext (Nat.mod_eq_of_lt hlt)
  rw [hindex]
  exact h ⟨i, hlt⟩ r

theorem putHost_eq (e : I2cEntries) (n : Nat) (i : Fin 20) (r : Registers) :
    putHost e i r = i2cLayout.putAll ([I2cField.host i].map fun f => (f, f.value e n)) r := rfl

/-- The block below the register. -/
theorem toNat_value_entry (e : I2cEntries) (n : Nat) (i : Fin 20) :
    (I2cField.value e n (.entry i)).toNat = (e.block i).toNat + (e.register i).toNat * 2 ^ 8 := by
  have hblock : ((e.block i).setWidth 32).toNat = (e.block i).toNat :=
    BitVec.toNat_setWidth_of_le (by decide)
  have hregister : ((e.register i).setWidth 32).toNat = (e.register i).toNat :=
    BitVec.toNat_setWidth_of_le (by decide)
  have hbyte := (e.register i).isLt
  have hlow : ((e.block i).setWidth 32).toNat < 2 ^ 8 := by
    rw [hblock]
    exact (e.block i).isLt
  have hhigh : ((e.register i).setWidth 32).toNat * 2 ^ 8 < 2 ^ 32 := by
    rw [hregister]
    omega
  rw [I2cField.value, BitVec.or_comm, Register.toNat_or_shiftLeft hlow hhigh, hblock, hregister]

theorem putEntry_eq (e : I2cEntries) (n : Nat) (i : Fin 20) (r : Registers) :
    putEntry e i r = i2cLayout.putAll ([I2cField.entry i].map fun f => (f, f.value e n)) r := by
  have hvalue : (I2cField.value e n (.entry i)).toNat < 2 ^ (I2cField.entry i).field.width := by
    have hblock := (e.block i).isLt
    have hregister := (e.register i).isLt
    rw [toNat_value_entry]
    change _ < 65536
    omega
  exact (Field.put_of_lt _ (I2cField.field_fits _) hvalue r).symm

theorem putSelectors_eq (e : I2cEntries) (n : Nat) (i : Fin 20) (r : Registers) :
    putSelectors e i r =
      i2cLayout.putAll ((I2cField.selectors i).map fun f => (f, f.value e n)) r := rfl

theorem dataAddress_of_lt {slot : Nat} (h : slot < 16) :
    dataAddress slot = some (I2cField.data (Fin.ofNat 16 slot)).field.address := by
  revert h slot
  decide

theorem dataAddress_of_ge {slot : Nat} (h : 16 ≤ slot) : dataAddress slot = none := by
  obtain ⟨bank, hbank⟩ : ∃ bank, slot / 4 = bank + 4 := ⟨slot / 4 - 4, by omega⟩
  rw [dataAddress, hbank]
  rfl

theorem putDatum_eq (r : Registers) (w : BitVec 8 × BitVec 8) :
    putDatum r w = i2cLayout.putAll (dataUpdate w) r := by
  by_cases h : w.1.toNat < 16
  · have hvalue : (w.2.setWidth 32).toNat < 2 ^ 8 := by
      rw [BitVec.toNat_setWidth_of_le (by decide)]
      exact w.2.isLt
    rw [putDatum, dataAddress_of_lt h, dataUpdate, if_pos h]
    have hlsb : (I2cField.data (Fin.ofNat 16 w.1.toNat)).field.lsb = w.1.toNat % 4 * 8 :=
      congrArg (· % 4 * 8) (Nat.mod_eq_of_lt h)
    have hput := Field.put_of_lt _ (I2cField.field_fits (.data (Fin.ofNat 16 w.1.toNat))) hvalue r
    rw [hlsb] at hput
    exact hput.symm
  · rw [putDatum, dataAddress_of_ge (Nat.le_of_not_lt h), dataUpdate, if_neg h]
    rfl

theorem foldl_data (e : I2cEntries) (n : Nat) (r : Registers) :
    (List.range n).foldl (fun r i => putData e i r) r =
      i2cLayout.putAll ((dataWrites e n).flatMap dataUpdate) r := by
  have hdata : (dataWrites e n).foldl putDatum r =
      i2cLayout.putAll ((dataWrites e n).flatMap dataUpdate) r :=
    i2cLayout.foldl_putAll (fun w _ r => putDatum_eq r w) r
  rw [← hdata, dataWrites, List.foldl_flatMap]
  rfl

def i2cUpdates (e : I2cEntries) (n : Nat) : List (I2cField × BitVec 32) :=
  (writtenFields n).map (fun f => (f, f.value e n)) ++ (dataWrites e n).flatMap dataUpdate

theorem update_count (n : BitVec 32) (r : Registers) :
    update 0x6000e0c4 0x7c00 ((n <<< 10) &&& 0x7c00) r = I2cField.count.field.put n r := by
  rw [Field.put, BitVec.shiftLeft_and_distrib]
  rfl

theorem update_enable (mask : BitVec 32) (r : Registers) :
    Function.update r 0x6000e164 mask = I2cField.enable.field.put mask r := by
  have hall : I2cField.enable.field.mask = BitVec.allOnes 32 := by decide
  rw [Field.put, update, hall, BitVec.and_allOnes]
  simp [I2cField.field]

/-- The whole function as a list of updates of fields, the same for both chips. -/
theorem writeI2c_eq (chip : PhyChip) (e : I2cEntries) {n : Nat} (hn : n ≤ 20) {fuel : Nat}
    (hfuel : n < fuel) (bus : I2cBus) :
    (writeI2c chip e (BitVec.ofNat 32 n) fuel bus).map I2cBus.registers =
      some (i2cLayout.putAll (i2cUpdates e n) bus.registers) := by
  have hcount : (BitVec.ofNat 32 n).toNat = n := Nat.mod_eq_of_lt (by omega)
  have hbyte : chip.byte (BitVec.ofNat 32 n) = BitVec.ofNat 32 n :=
    PhyChip.byte_of_lt (by omega)
  rw [writeI2c]
  simp only [hbyte, whileCount_eq hcount (by omega) hfuel, Option.bind_eq_bind, Option.bind_some,
    Option.pure_def, Option.map_some]
  rw [foldl_registers (i2cData_registers e), foldl_registers (i2cSelectors_registers chip e),
    foldl_registers (i2cEntry_registers chip e), foldl_registers (i2cHost_registers chip e)]
  obtain ⟨hmask, hregisters⟩ := foldl_mask e n
    (updateRegister 0x6000e0c4 0x7c00 ((BitVec.ofNat 32 n <<< 10) &&& 0x7c00) bus).2
  rw [writeRegister_registers, hmask, hregisters, updateRegister_registers, update_count,
    update_enable, foldl_entries hn (putHost_eq e n), foldl_entries hn (putEntry_eq e n),
    foldl_entries hn (putSelectors_eq e n), foldl_data, i2cUpdates, writtenFields]
  simp only [List.map_append, Layout.putAll_append]
  rfl

/-! ## Reading the image -/

/-- The entry that a field belongs to. -/
def I2cField.index : I2cField → Option (Fin 20)
  | .count | .enable | .data _ => none
  | .host i | .entry i | .secondHigh i | .firstHigh i | .secondLow i | .firstLow i => some i

theorem mem_firstEntries {fields : Fin 20 → List I2cField} {n : Nat} {f : I2cField} :
    f ∈ firstEntries fields n ↔ ∃ i : Fin 20, i.val < n ∧ f ∈ fields i := by
  rw [firstEntries, List.mem_flatMap]
  constructor
  · rintro ⟨i, hi, hf⟩
    have hlt := List.mem_range.mp hi
    exact ⟨Fin.ofNat 20 i, Nat.lt_of_le_of_lt (Nat.mod_le i 20) hlt, hf⟩
  · rintro ⟨i, hi, hf⟩
    refine ⟨i, List.mem_range.mpr hi, ?_⟩
    rwa [show Fin.ofNat 20 i.val = i from Fin.ext (Nat.mod_eq_of_lt i.isLt)]

/-- The fields of an entry are written if the entry is one of the first `n`. -/
theorem mem_writtenFields {n : Nat} {f : I2cField} {i : Fin 20}
    (hindex : f.index = some i) : f ∈ writtenFields n ↔ i.val < n := by
  cases f <;> cases hindex <;>
    simp [writtenFields, mem_firstEntries, I2cField.selectors]

theorem ne_data_of_index {f : I2cField} {i : Fin 20} (hindex : f.index = some i) (slot : Fin 16) :
    I2cField.data slot ≠ f := by
  rintro rfl
  cases hindex

theorem lastValue_data_none {f : I2cField} (hf : ∀ slot, I2cField.data slot ≠ f)
    (ws : List (BitVec 8 × BitVec 8)) : Layout.lastValue f (ws.flatMap dataUpdate) = none := by
  apply Layout.lastValue_eq_none
  intro u hu
  obtain ⟨w, -, hw⟩ := List.mem_flatMap.mp hu
  rw [dataUpdate] at hw
  split at hw
  · rw [List.mem_singleton.mp hw]
    exact hf _
  · cases hw

/-- The image of the table after the function. -/
def i2cImage (e : I2cEntries) (n : Nat) (r : Registers) : Registers :=
  i2cLayout.putAll (i2cUpdates e n) r

theorem get_written {e : I2cEntries} {n : Nat} {f : I2cField}
    (hf : ∀ slot, I2cField.data slot ≠ f) (hmem : f ∈ writtenFields n) (r : Registers) :
    i2cLayout.get f (i2cImage e n r) = (f.value e n).toNat % 2 ^ f.field.width := by
  have hlast : Layout.lastValue f (i2cUpdates e n) = some (f.value e n) := by
    rw [i2cUpdates, Layout.lastValue_append, lastValue_data_none hf, Layout.lastValue_map,
      if_pos hmem]
    rfl
  rw [i2cImage, Layout.get_putAll, hlast]
  rfl

theorem get_unwritten {e : I2cEntries} {n : Nat} {f : I2cField}
    (hf : ∀ slot, I2cField.data slot ≠ f) (hmem : f ∉ writtenFields n) (r : Registers) :
    i2cLayout.get f (i2cImage e n r) = i2cLayout.get f r := by
  have hlast : Layout.lastValue f (i2cUpdates e n) = none := by
    rw [i2cUpdates, Layout.lastValue_append, lastValue_data_none hf, Layout.lastValue_map,
      if_neg hmem]
    rfl
  rw [i2cImage, Layout.get_putAll, hlast]

/-- The last value that was written to a slot. -/
def lastDatum (slot : Fin 16) (ws : List (BitVec 8 × BitVec 8)) : Option (BitVec 8) :=
  ((ws.filter fun w => w.1.toNat = slot.val).getLast?).map Prod.snd

theorem lastValue_data (slot : Fin 16) (ws : List (BitVec 8 × BitVec 8)) :
    Layout.lastValue (.data slot) (ws.flatMap dataUpdate) =
      (lastDatum slot ws).map (BitVec.setWidth 32) := by
  induction ws using List.reverseRecOn with
  | nil => rfl
  | append_singleton ws w ih =>
      rw [List.flatMap_append, Layout.lastValue_append, ih, List.flatMap_singleton, dataUpdate]
      by_cases hslot : w.1.toNat = slot.val
      · have hfin : Fin.ofNat 16 w.1.toNat = slot := by
          rw [hslot]
          exact Fin.ext (Nat.mod_eq_of_lt slot.isLt)
        have hlt : w.1.toNat < 16 := hslot ▸ slot.isLt
        rw [if_pos hlt, hfin]
        simp [lastDatum, Layout.lastValue, hslot]
      · have hnone : lastDatum slot (ws ++ [w]) = lastDatum slot ws := by
          simp [lastDatum, hslot]
        rw [hnone]
        split
        · rename_i hlt
          have hother : Fin.ofNat 16 w.1.toNat ≠ slot := by
            rintro rfl
            exact hslot (Nat.mod_eq_of_lt hlt).symm
          rw [Layout.lastValue_eq_none, Option.none_or]
          rintro u hu
          rw [List.mem_singleton.mp hu]
          exact fun heq => hother (I2cField.data.inj heq)
        · rfl

/-- The bits of the enable mask.  Each addition sets a bit above those that are set. -/
theorem testBit_enableMask (e : I2cEntries) {n : Nat} (hn : n ≤ 31) :
    (enableMask e n).toNat < 2 ^ n ∧
      ∀ k < n, (enableMask e n).toNat.testBit k = decide (e.enabled k = 1) := by
  induction n with
  | zero => exact ⟨Nat.one_pos, fun k hk => absurd hk (Nat.not_lt_zero k)⟩
  | succ n ih =>
      obtain ⟨hlt, hbits⟩ := ih (by omega)
      have hpow : 2 ^ (n + 1) = 2 * 2 ^ n := Nat.pow_succ'
      rw [enableMask]
      split
      · rename_i henabled
        have hsum : (enableMask e n + 1#32 <<< (n % 32)).toNat =
            2 ^ n + (enableMask e n).toNat := by
          have htop : 2 ^ n + 2 ^ n ≤ 2 ^ 32 := by
            rw [← Nat.two_mul, ← hpow]
            exact Nat.pow_le_pow_right Nat.zero_lt_two (by omega)
          rw [BitVec.toNat_add, BitVec.toNat_shiftLeft, Nat.mod_eq_of_lt (a := n) (by omega),
            Nat.shiftLeft_eq, BitVec.toNat_ofNat, Nat.one_mod_two_pow (by decide), Nat.one_mul,
            Nat.mod_eq_of_lt (a := 2 ^ n) (by omega), Nat.mod_eq_of_lt (by omega), Nat.add_comm]
        rw [hsum]
        refine ⟨by omega, fun k hk => ?_⟩
        rcases Nat.lt_succ_iff_lt_or_eq.mp hk with hk | rfl
        · rw [Nat.testBit_two_pow_add_gt hk, hbits k hk]
        · rw [Nat.testBit_two_pow_add_eq, Nat.testBit_lt_two_pow hlt, decide_eq_true henabled]
          rfl
      · rename_i henabled
        refine ⟨by omega, fun k hk => ?_⟩
        rcases Nat.lt_succ_iff_lt_or_eq.mp hk with hk | rfl
        · exact hbits k hk
        · rw [Nat.testBit_lt_two_pow hlt, decide_eq_false henabled]

/-- What can be read back of an entry. -/
structure I2cStored (e : I2cEntries) (i : Fin 20) (r : Registers) : Prop where
  host : i2cLayout.get (.host i) r = (e.host i).toNat % 16
  block : i2cLayout.get (.entry i) r % 256 = (e.block i).toNat
  register : i2cLayout.get (.entry i) r / 256 = (e.register i).toNat
  first : 16 * i2cLayout.get (.firstHigh i) r + i2cLayout.get (.firstLow i) r =
    (e.first i).toNat % 32
  second : 16 * i2cLayout.get (.secondHigh i) r + i2cLayout.get (.secondLow i) r =
    (e.second i).toNat % 32
  enabled : (i2cLayout.get .enable r).testBit i = true ↔ e.enabled i = 1


theorem get_count {e : I2cEntries} {n : Nat} (hn : n ≤ 20) (r : Registers) :
    i2cLayout.get .count (i2cImage e n r) = n := by
  rw [get_written (fun _ => I2cField.noConfusion) (by simp [writtenFields])]
  change n % 2 ^ 32 % 32 = n
  omega

theorem get_enable (e : I2cEntries) (n : Nat) (r : Registers) :
    i2cLayout.get .enable (i2cImage e n r) = (enableMask e n).toNat := by
  rw [get_written (fun _ => I2cField.noConfusion) (by simp [writtenFields])]
  exact Nat.mod_eq_of_lt (enableMask e n).isLt

theorem get_data (e : I2cEntries) (n : Nat) (slot : Fin 16) (r : Registers) :
    i2cLayout.get (.data slot) (i2cImage e n r) =
      match lastDatum slot (dataWrites e n) with
      | some value => value.toNat
      | none => i2cLayout.get (.data slot) r := by
  have hunwritten : I2cField.data slot ∉ writtenFields n := by
    simp [writtenFields, mem_firstEntries, I2cField.selectors]
  have hlast : Layout.lastValue (.data slot) (i2cUpdates e n) =
      (lastDatum slot (dataWrites e n)).map (BitVec.setWidth 32) := by
    rw [i2cUpdates, Layout.lastValue_append, lastValue_data, Layout.lastValue_map,
      if_neg hunwritten, Option.or_none]
  rw [i2cImage, Layout.get_putAll, hlast]
  cases lastDatum slot (dataWrites e n) with
  | none => rfl
  | some value =>
      change (value.setWidth 32).toNat % 2 ^ 8 = value.toNat
      rw [BitVec.toNat_setWidth_of_le (by decide), Nat.mod_eq_of_lt value.isLt]

theorem i2cImage_stored (e : I2cEntries) {n : Nat} (hn : n ≤ 20) (r : Registers) {i : Fin 20}
    (hi : i.val < n) : I2cStored e i (i2cImage e n r) := by
  have hget (f : I2cField) (hindex : f.index = some i) :
      i2cLayout.get f (i2cImage e n r) = (f.value e n).toNat % 2 ^ f.field.width :=
    get_written (ne_data_of_index hindex) ((mem_writtenFields hindex).mpr hi) r
  have hselector (b : BitVec 8) :
      16 * ((b.setWidth 32 >>> 4).toNat % 2 ^ 1) + (b.setWidth 32).toNat % 2 ^ 4 =
        b.toNat % 32 := by
    rw [BitVec.toNat_ushiftRight, Nat.shiftRight_eq_div_pow,
      BitVec.toNat_setWidth_of_le (by decide)]
    omega
  have hblock := (e.block i).isLt
  have hregister := (e.register i).isLt
  have hentry : i2cLayout.get (.entry i) (i2cImage e n r) =
      (e.block i).toNat + (e.register i).toNat * 2 ^ 8 := by
    rw [hget _ rfl, toNat_value_entry]
    change _ % 65536 = _
    omega
  constructor
  case host =>
    rw [hget _ rfl]
    change ((e.host i).setWidth 32).toNat % 16 = _
    rw [BitVec.toNat_setWidth_of_le (by decide)]
  case block =>
    rw [hentry]
    omega
  case register =>
    rw [hentry]
    omega
  case first =>
    rw [hget _ rfl, hget _ rfl]
    exact hselector (e.first i)
  case second =>
    rw [hget _ rfl, hget _ rfl]
    exact hselector (e.second i)
  case enabled =>
    rw [get_enable, (testBit_enableMask e (by omega)).2 i hi, decide_eq_true_iff]

/-- For every count up to 20, every content of the arrays and of the registers, the two chips
leave the same image.  Each entry can be read back from it, the fields of the other entries and
the slots that no selector names are as before, and no two fields have a bit in common. -/
theorem i2c_image (e : I2cEntries) {n : Nat} (hn : n ≤ 20) {fuel : Nat} (hfuel : n < fuel)
    (bus : I2cBus) :
    ∃ image, (∀ chip, (writeI2c chip e (BitVec.ofNat 32 n) fuel bus).map I2cBus.registers =
        some image) ∧
      (∀ i : Fin 20, i.val < n → I2cStored e i image) ∧
      (∀ (f : I2cField) (i : Fin 20), f.index = some i → n ≤ i.val →
        i2cLayout.get f image = i2cLayout.get f bus.registers) ∧
      i2cLayout.get .count image = n ∧
      (∀ slot : Fin 16, i2cLayout.get (.data slot) image =
        match lastDatum slot (dataWrites e n) with
        | some value => value.toNat
        | none => i2cLayout.get (.data slot) bus.registers) ∧
      ∀ f g : I2cField, f ≠ g → f.field.Apart g.field := by
  refine ⟨i2cImage e n bus.registers, fun chip => writeI2c_eq chip e hn hfuel bus,
    fun i hi => ?_, fun f i hindex hi => ?_, get_count hn _, fun slot => get_data e n slot _,
    i2cLayout.apart⟩
  · exact i2cImage_stored e hn _ hi
  · exact get_unwritten (ne_data_of_index hindex)
      (fun hmem => Nat.not_lt.mpr hi ((mem_writtenFields hindex).mp hmem)) _

/-- Two entries that name the slot 3 with all their selectors. -/
def sameSlot : I2cEntries where
  host := fun _ => 4
  block := fun i => BitVec.ofNat 8 (i + 1)
  register := fun i => BitVec.ofNat 8 (i + 5)
  first := fun _ => 3
  firstValue := fun i => BitVec.ofNat 8 (i + 7)
  second := fun _ => 3
  secondValue := fun _ => 9
  enabled := fun _ => 1

theorem i2c_image_sameSlot : ∃ image,
    (writeI2c .esp32c3 sameSlot 2 3 ⟨fun _ => 0, []⟩).map I2cBus.registers = some image ∧
      I2cStored sameSlot 1 image ∧ i2cLayout.get (.data 3) image = 8 := by
  obtain ⟨image, hrun, hstored, -, -, hdata, -⟩ :=
    i2c_image sameSlot (show 2 ≤ 20 by decide) (show 2 < 3 by decide) ⟨fun _ => 0, []⟩
  exact ⟨image, hrun .esp32c3, hstored 1 (by decide), hdata 3⟩

end EspWifiHal
