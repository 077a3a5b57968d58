import EspWifiHal.Phy.RfPll
import EspWifiHal.Lib.Register
import EspWifiHal.Lib.Words
import Mathlib.Tactic.IntervalCases

/-!
# The channel memory

A memory of 256 words holds three words for each of the frequencies from 2400 to 2484 MHz:
the capacitor code, the digits of the divider and a zero.  It is behind three registers.
The low byte of the control register selects a word, which the port shows, and the strobe
bit of that register stores the data register.

`initializeMemory` programs the memory.  Later `cap_memory` adds to the capacitor codes and
`correct_offset` to the digits, each by reading all words and writing them back.
`channel_memory` says that these corrections do not drift.
-/

namespace EspWifiHal

open Memory

/-! ## The registers -/

structure FreqState where
  /-- `0x6000e0c4`. -/
  control : BitVec 32
  /-- `0x6000e148`. -/
  data : BitVec 32
  words : BitVec 8 → BitVec 32
  /-- The parameters and the local buffer. -/
  ram : ByteMem

/-- What the PLL shows of its capacitor code: a register and one bit of another. -/
structure CapReading where
  low : BitVec 8
  high : BitVec 1

/-- What `initializeMemory` reads from the PLL. -/
structure PllReadings where
  /-- A field of four bits, at 2437 MHz. -/
  saved : BitVec 4
  /-- The codes at 2400 and at 2464 MHz. -/
  low : CapReading
  high : CapReading

def readCap (r : CapReading) : BitVec 32 :=
  ((r.low.setWidth 32 + r.high.setWidth 32 <<< 8).setWidth 16).setWidth 32

/-- The word `old` with `delta` added to its capacitor code. -/
def addCap (delta old : BitVec 32) : BitVec 32 :=
  let cap : BitVec 16 := (((old &&& 255) ||| ((old >>> 4) &&& 256)) + delta).setWidth 16
  (old &&& 0xef00) ||| (cap.setWidth 8).setWidth 32 ||| (cap.signExtend 32).sshiftRight 8 <<< 12

/-- The word `v` with `delta` added to its lower 24 bits. -/
def addOffset (delta v : BitVec 32) : BitVec 32 := ((v &&& 0xffffff) + delta) ||| (v &&& 0xff000000)

namespace FreqState

def writeControl (s : FreqState) (value : BitVec 32) : FreqState :=
  { s with
    control := value
    words :=
      if value &&& 0x200 ≠ 0 then Function.update s.words (value.setWidth 8) s.data else s.words }

/-- The port `0x6000e0c0`. -/
def port (s : FreqState) : BitVec 32 := s.words (s.control.setWidth 8)

def updateControl (s : FreqState) (mask value : BitVec 32) : FreqState :=
  s.writeControl ((s.control &&& ~~~mask) ||| value)

/-! ## The functions -/

/-- Stores the three words at `buffer`. -/
def memory (s : FreqState) (index : BitVec 32) (buffer : Nat) : FreqState :=
  (List.range 3).foldl
    (fun s i =>
      let value := read s.ram (buffer + i * 4) 4
      let s := s.writeControl
        ((s.control &&& ~~~255) ||| ((index * 3 + BitVec.ofNat 32 i) &&& 255))
      let s := { s with data := value }
      let s := s.updateControl 0 0x200
      s.updateControl 0x200 0)
    s

def capMemory (s : FreqState) (delta : BitVec 32) : FreqState :=
  (List.range 85).foldl
    (fun s i =>
      let s := s.updateControl 255 (BitVec.ofNat 32 i * 3)
      let s := { s with data := addCap delta s.port }
      let s := s.updateControl 0 0x200
      s.updateControl 0x200 0)
    s

end FreqState

/-- The offset in units of the divider, rounded down. -/
def scaledOffset (chip : PhyChip) (value mode : BitVec 32) : BitVec 16 :=
  let value := chip.offset value
  let mode := chip.byte mode
  (if mode = 0 then (value * 9).sshiftRight 2 else (value * 27).sshiftRight 3).setWidth 16

def correctOffset (chip : PhyChip) (value mode : BitVec 32) (stored : Nat) (s : FreqState) :
    FreqState :=
  let scaled := scaledOffset chip value mode
  let old : BitVec 16 := (read s.ram stored 2).setWidth 16
  if old = scaled then s
  else
    let delta := scaled.signExtend 32 - old.signExtend 32
    let s := (List.range 85).foldl
      (fun s index =>
        let s := s.writeControl ((s.control &&& 0xffffff00) ||| (BitVec.ofNat 32 index * 3 + 1))
        let s := { s with data := addOffset delta s.port }
        let s := s.writeControl (s.control ||| 0x200)
        s.writeControl (s.control &&& ~~~0x200))
      s
    { s with ram := write s.ram stored 2 (scaled.setWidth 32) }

/-- The callback in table slot `0x28`. -/
abbrev LimitCallback := BitVec 32 → BitVec 32 → BitVec 32 → BitVec 32

inductive FreqBuffer where
  | param
  | buffer
deriving DecidableEq, Repr

def FreqBuffer.size (chip : PhyChip) : FreqBuffer → Nat
  | .param => chip.paramSize
  | .buffer => 80

abbrev FreqBuffers (chip : PhyChip) := Regions FreqBuffer (FreqBuffer.size chip)

/-- `set_rfpll_freq`, of which only the digits reach the memory. -/
def setRfpllFreq (chip : PhyChip) (base : FreqBuffer → Nat) (f : BitVec 32) (m : ByteMem) :
    ByteMem :=
  frequency chip f (read m (base .param + 0xf3) 1) 0 (base .buffer) m

/-- The three words of the frequency `2400 + i` in the local buffer. -/
def channelWords (chip : PhyChip) (limit : LimitCallback) (base : FreqBuffer → Nat)
    (saved low accumulated : BitVec 32) (i : Nat) (m : ByteMem) : ByteMem :=
  let selector := read m (base .param + 0xf3) 1
  let m := frequency chip (2400 + BitVec.ofNat 32 i) selector 0 (base .buffer) m
  let cap := limit (short (low + accumulated.sdiv 64)) 511 0
  let first := (short cap).sshiftRight 8 <<< 4 ||| saved ||| 0xffffff80
  let b0 := read m (base .buffer) 1
  let b1 := read m (base .buffer + 1) 1
  let b2 := read m (base .buffer + 2) 1
  let m := write m (base .buffer + 4) 4 ((first &&& 255) <<< 8 ||| (cap &&& 255))
  let m := write m (base .buffer + 8) 4 (b0 <<< 16 ||| b1 <<< 8 ||| b2)
  write m (base .buffer + 12) 4 0

def initializeStep (chip : PhyChip) (limit : LimitCallback) (base : FreqBuffer → Nat)
    (saved low delta : BitVec 32) (s : BitVec 32 × FreqState) (i : Nat) : BitVec 32 × FreqState :=
  let t := { s.2 with ram := channelWords chip limit base saved low s.1 i s.2.ram }
  (s.1 + delta, t.memory (BitVec.ofNat 32 i) (base .buffer + 4))

/-- The flag and the offset of a memory that has been initialized. -/
def initializeFlags (chip : PhyChip) (param : Nat) (m : ByteMem) : ByteMem :=
  let flags := read m (param + 0x120) 4
  match chip with
  | .esp32s3 => write (write m (param + 0x120) 4 (flags ||| 32)) (param + 0xe2) 2 0
  | .esp32c3 => write (write m (param + 0xe2) 2 0) (param + 0x120) 4 (flags ||| 32)

def initializeMemory (chip : PhyChip) (limit : LimitCallback) (base : FreqBuffer → Nat)
    (readings : PllReadings) (s : FreqState) : FreqState :=
  if read s.ram (base .param + 0x120) 4 &&& 32 ≠ 0 then s
  else
    let ram := setRfpllFreq chip base 2437 s.ram
    let saved := readings.saved.setWidth 32
    let ram := setRfpllFreq chip base 2400 ram
    let low := readCap readings.low
    let ram := setRfpllFreq chip base 2464 ram
    let high := readCap readings.high
    let delta := short high - short low
    let s := ((List.range 85).foldl (initializeStep chip limit base saved low delta)
      (0, { s with ram := ram })).2
    { s with ram := initializeFlags chip (base .param) s.ram }

/-! ## One word -/

namespace FreqState

/-- The strobe is off. -/
def Idle (s : FreqState) : Prop := s.control.getLsbD 9 = false

theorem strobe_eq_zero_iff (value : BitVec 32) : value &&& 0x200 = 0 ↔ value.getLsbD 9 = false := by
  have hbit := Register.hasBit_twoPow value (i := 9) (by decide)
  rw [← hbit, Register.hasBit, bne_eq_false_iff_eq]
  rfl

theorem writeControl_off {s : FreqState} {value : BitVec 32} (h : value.getLsbD 9 = false) :
    s.writeControl value = { s with control := value } := by
  rw [writeControl, if_neg (not_not.mpr ((strobe_eq_zero_iff value).mpr h))]

theorem writeControl_on {s : FreqState} {value : BitVec 32} (h : value.getLsbD 9 = true) :
    s.writeControl value =
      { s with control := value, words := Function.update s.words (value.setWidth 8) s.data } := by
  rw [writeControl, if_pos]
  rw [Ne, strobe_eq_zero_iff, h]
  decide

/-- The strobe goes on and off. -/
def store (s : FreqState) : FreqState := (s.updateControl 0 0x200).updateControl 0x200 0

theorem updateControl_set (s : FreqState) (value : BitVec 32) :
    s.updateControl 0 value = s.writeControl (s.control ||| value) := by
  have hcontrol : s.control &&& ~~~0 = s.control := BitVec.and_allOnes
  rw [updateControl, hcontrol]

theorem updateControl_clear (s : FreqState) (mask : BitVec 32) :
    s.updateControl mask 0 = s.writeControl (s.control &&& ~~~mask) := by
  have hcontrol : (s.control &&& ~~~mask) ||| 0 = s.control &&& ~~~mask := BitVec.or_zero
  rw [updateControl, hcontrol]

theorem store_spec (s : FreqState) :
    s.store.words = Function.update s.words (s.control.setWidth 8) s.data ∧ s.store.ram = s.ram ∧
      s.store.Idle := by
  have hon : (s.control ||| 0x200).getLsbD 9 = true := by simp
  have hindex : (s.control ||| 0x200).setWidth 8 = s.control.setWidth 8 := by
    apply BitVec.eq_of_getLsbD_eq
    intro i hi
    interval_cases i <;> simp
  have hoff : ((s.control ||| 0x200) &&& ~~~0x200).getLsbD 9 = false := by simp
  rw [store, updateControl_set, updateControl_clear, writeControl_on hon, writeControl_off hoff,
    hindex]
  exact ⟨rfl, rfl, hoff⟩

/-- A word is selected and replaced. -/
def modify (s : FreqState) (index : BitVec 32) (f : BitVec 32 → BitVec 32) : FreqState :=
  let s := s.updateControl 255 index
  let s := { s with data := f s.port }
  s.store

theorem setWidth_select (control index : BitVec 32) :
    ((control &&& ~~~255) ||| index).setWidth 8 = index.setWidth 8 := by
  apply BitVec.eq_of_getLsbD_eq
  intro i hi
  interval_cases i <;> simp

theorem select_strobe (control : BitVec 32) {index : BitVec 32} (h : index.toNat < 256) :
    ((control &&& ~~~255) ||| index).getLsbD 9 = control.getLsbD 9 := by
  have hbit : index[9] = false := by
    rw [← BitVec.getLsbD_eq_getElem, ← BitVec.testBit_toNat]
    exact Nat.testBit_lt_two_pow (Nat.lt_trans h (by decide))
  simp [hbit]

theorem modify_spec {s : FreqState} (hs : s.Idle) {index : BitVec 32} (h : index.toNat < 256)
    (f : BitVec 32 → BitVec 32) :
    ((s.modify index f).Idle ∧ (s.modify index f).ram = s.ram) ∧
      (s.modify index f).words =
        Function.update s.words (index.setWidth 8) (f (s.words (index.setWidth 8))) := by
  have hoff : ((s.control &&& ~~~255) ||| index).getLsbD 9 = false := (select_strobe _ h).trans hs
  rw [modify, updateControl, writeControl_off hoff]
  obtain ⟨hwords, hram, hidle⟩ := store_spec
    { s with
      control := (s.control &&& ~~~255) ||| index
      data := f (s.words (((s.control &&& ~~~255) ||| index).setWidth 8)) }
  refine ⟨⟨hidle, hram⟩, hwords.trans ?_⟩
  rw [setWidth_select]

/-- The strobe does not matter if the word is not read: what it stores is replaced. -/
theorem modify_const (s : FreqState) (index value : BitVec 32) :
    ((s.modify index fun _ => value).Idle ∧ (s.modify index fun _ => value).ram = s.ram) ∧
      (s.modify index fun _ => value).words =
        Function.update s.words (index.setWidth 8) value := by
  let control := (s.control &&& ~~~255) ||| index
  have hindex : control.setWidth 8 = index.setWidth 8 := setWidth_select s.control index
  cases hstrobe : control.getLsbD 9 with
  | false =>
      rw [modify, updateControl, writeControl_off hstrobe]
      obtain ⟨hwords, hram, hidle⟩ := store_spec { s with control := control, data := value }
      refine ⟨⟨hidle, hram⟩, hwords.trans ?_⟩
      rw [hindex]
  | true =>
      rw [modify, updateControl, writeControl_on hstrobe]
      obtain ⟨hwords, hram, hidle⟩ := store_spec
        { s with
          control := control
          words := Function.update s.words (control.setWidth 8) s.data
          data := value }
      refine ⟨⟨hidle, hram⟩, hwords.trans ?_⟩
      rw [Function.update_idem, hindex]

end FreqState

/-! ## The loops -/

/-- The index of the word `k` of the frequency `2400 + i`. -/
def slot (i k : Nat) : BitVec 8 := BitVec.ofNat 8 (3 * i + k)

theorem slot_inj {i j k l : Nat} (hi : i < 85) (hj : j < 85) (hk : k < 3) (hl : l < 3)
    (h : slot i k = slot j l) : i = j ∧ k = l := by
  have hnat := congrArg BitVec.toNat h
  rw [slot, slot, BitVec.toNat_ofNat, BitVec.toNat_ofNat, Nat.mod_eq_of_lt (by omega),
    Nat.mod_eq_of_lt (by omega)] at hnat
  omega

theorem toNat_index {i k : Nat} (hi : i < 85) (hk : k < 3) :
    (BitVec.ofNat 32 i * 3 + BitVec.ofNat 32 k).toNat = 3 * i + k := by
  rw [BitVec.toNat_add, BitVec.toNat_mul, BitVec.toNat_ofNat, BitVec.toNat_ofNat]
  show (i % 2 ^ 32 * 3 % 2 ^ 32 + k % 2 ^ 32) % 2 ^ 32 = 3 * i + k
  omega

theorem setWidth_index {i k : Nat} (hi : i < 85) (hk : k < 3) :
    (BitVec.ofNat 32 i * 3 + BitVec.ofNat 32 k).setWidth 8 = slot i k := by
  apply BitVec.eq_of_toNat_eq
  rw [BitVec.toNat_setWidth, toNat_index hi hk]
  rfl

/-- The capacitor code `code` with the field `saved` and bit 15.  The bit 8 of the code is above
the field. -/
def capWord (saved : BitVec 4) (code : BitVec 9) : BitVec 32 :=
  0x8000 ||| (code.setWidth 32 &&& 256) <<< 4 ||| saved.setWidth 32 <<< 8 |||
    (code.setWidth 32 &&& 255)

section CapWord

variable (saved : BitVec 4) (code code' : BitVec 9)

theorem signExtend_code : (code.setWidth 16).signExtend 32 = code.setWidth 32 := by
  have hmsb : (code.setWidth 16).msb = false := by simp [BitVec.msb_setWidth]
  rw [BitVec.signExtend_eq_setWidth_of_msb_false hmsb]
  apply BitVec.eq_of_toNat_eq
  have hlt := code.isLt
  simp only [BitVec.toNat_setWidth]
  omega

theorem sshiftRight_code : (code.setWidth 32).sshiftRight 8 = code.setWidth 32 >>> 8 :=
  BitVec.sshiftRight_eq_of_msb_false (by simp [BitVec.msb_setWidth])

theorem capWord_code :
    (capWord saved code &&& 255) ||| ((capWord saved code >>> 4) &&& 256) = code.setWidth 32 := by
  apply BitVec.eq_of_getLsbD_eq
  intro i hi
  simp only [capWord, BitVec.getLsbD_or, BitVec.getLsbD_and, BitVec.getLsbD_shiftLeft,
    BitVec.getLsbD_ushiftRight, BitVec.getLsbD_setWidth]
  interval_cases i <;> simp

theorem capWord_replace :
    (capWord saved code &&& 0xef00) ||| ((code'.setWidth 16).setWidth 8).setWidth 32 |||
      ((code'.setWidth 16).signExtend 32).sshiftRight 8 <<< 12 = capWord saved code' := by
  rw [signExtend_code, sshiftRight_code]
  apply BitVec.eq_of_getLsbD_eq
  intro i hi
  simp only [capWord, BitVec.getLsbD_or, BitVec.getLsbD_and, BitVec.getLsbD_shiftLeft,
    BitVec.getLsbD_ushiftRight, BitVec.getLsbD_setWidth]
  interval_cases i <;> simp

theorem capWord_first :
    (((short (code.setWidth 32)).sshiftRight 8 <<< 4 ||| saved.setWidth 32 ||| 0xffffff80) &&& 255)
      <<< 8 ||| (code.setWidth 32 &&& 255) = capWord saved code := by
  have hshort : short (code.setWidth 32) = code.setWidth 32 := by
    rw [short, BitVec.setWidth_setWidth_of_le _ (by decide), signExtend_code]
  rw [hshort, sshiftRight_code]
  apply BitVec.eq_of_getLsbD_eq
  intro i hi
  simp only [capWord, BitVec.getLsbD_or, BitVec.getLsbD_and, BitVec.getLsbD_shiftLeft,
    BitVec.getLsbD_ushiftRight, BitVec.getLsbD_setWidth]
  interval_cases i <;> simp

end CapWord

namespace FreqState

/-- A loop that replaces the word `k` of each frequency. -/
theorem foldl_modify_slots {s : FreqState} (hs : s.Idle) {k : Nat} (hk : k < 3)
    (f : BitVec 32 → BitVec 32) {body : FreqState → Nat → FreqState}
    (hbody : ∀ s i, body s i = s.modify (BitVec.ofNat 32 i * 3 + BitVec.ofNat 32 k) f) :
    let t := (List.range 85).foldl body s
    (t.Idle ∧ t.ram = s.ram) ∧ (∀ i < 85, t.words (slot i k) = f (s.words (slot i k))) ∧
      ∀ i < 85, ∀ l < 3, l ≠ k → t.words (slot i l) = s.words (slot i l) := by
  intro t
  have hstep : ∀ t : FreqState, ∀ i < 85, (t.Idle ∧ t.ram = s.ram) →
      ((body t i).Idle ∧ (body t i).ram = s.ram) ∧
        (body t i).words = Function.update t.words (slot i k) (f (t.words (slot i k))) := by
    intro t i hi ht
    have hindex : (BitVec.ofNat 32 i * 3 + BitVec.ofNat 32 k).toNat < 256 := by
      rw [toNat_index hi hk]
      omega
    obtain ⟨⟨hidle, hram⟩, hwords⟩ := modify_spec ht.1 hindex f
    rw [hbody, hwords, setWidth_index hi hk]
    exact ⟨⟨hidle, hram.trans ht.2⟩, rfl⟩
  obtain ⟨hinv, hdone, hrest⟩ := Words.foldl_modify (fun t : FreqState => t.Idle ∧ t.ram = s.ram)
    FreqState.words (slot · k) (fun _ => f) body
    (fun i hi j hj h => (slot_inj hi hj hk hk h).1) hstep ⟨hs, rfl⟩
  refine ⟨hinv, hdone, fun i hi l hl hne => hrest _ fun j hj h => ?_⟩
  exact hne (slot_inj hj hi hk hl h).2.symm

theorem capMemory_spec {s : FreqState} (hs : s.Idle) (delta : BitVec 32) :
    ((s.capMemory delta).Idle ∧ (s.capMemory delta).ram = s.ram) ∧
      (∀ i < 85, (s.capMemory delta).words (slot i 0) = addCap delta (s.words (slot i 0))) ∧
      ∀ i < 85, ∀ l < 3, l ≠ 0 → (s.capMemory delta).words (slot i l) = s.words (slot i l) :=
  foldl_modify_slots hs (by decide) (addCap delta) fun s i => by
    rw [BitVec.add_zero]
    rfl

/-- The three words of a frequency. -/
theorem memory_spec (s : FreqState) {i : Nat} (hi : i < 85) (buffer : Nat) :
    let t := s.memory (BitVec.ofNat 32 i) buffer
    (t.Idle ∧ t.ram = s.ram) ∧
      (∀ k < 3, t.words (slot i k) = read s.ram (buffer + k * 4) 4) ∧
      ∀ j < 85, j ≠ i → ∀ k < 3, t.words (slot j k) = s.words (slot j k) := by
  intro t
  have hindex : ∀ k < 3, (BitVec.ofNat 32 i * 3 + BitVec.ofNat 32 k) &&& 255 =
      BitVec.ofNat 32 i * 3 + BitVec.ofNat 32 k := by
    intro k hk
    apply BitVec.eq_of_toNat_eq
    rw [Register.toNat_and_mask 8 rfl, toNat_index hi hk]
    omega
  let body (t : FreqState) (k : Nat) : FreqState :=
    t.modify ((BitVec.ofNat 32 i * 3 + BitVec.ofNat 32 k) &&& 255) fun _ =>
      read t.ram (buffer + k * 4) 4
  have ht : t = (List.range 3).foldl body s := rfl
  have hstep : ∀ t : FreqState, ∀ k < 3, t.ram = s.ram → (body t k).ram = s.ram ∧
      (body t k).words =
        Function.update t.words (slot i k) (read s.ram (buffer + k * 4) 4) := by
    intro t k hk hram
    obtain ⟨⟨_, hkeep⟩, hwords⟩ := t.modify_const
      ((BitVec.ofNat 32 i * 3 + BitVec.ofNat 32 k) &&& 255) (read t.ram (buffer + k * 4) 4)
    refine ⟨hkeep.trans hram, hwords.trans ?_⟩
    rw [hindex k hk, setWidth_index hi hk, hram]
  have hidle : t.Idle := by
    rw [ht, List.range_succ, List.foldl_append]
    exact (modify_const _ _ _).1.1
  obtain ⟨hram, hdone, hrest⟩ := Words.foldl_modify (fun t : FreqState => t.ram = s.ram)
    FreqState.words (slot i ·) (fun k _ => read s.ram (buffer + k * 4) 4) body
    (fun k hk l hl h => (slot_inj hi hi hk hl h).2) hstep rfl
  refine ⟨⟨hidle, hram⟩, hdone, fun j hj hne k hk => hrest _ fun l hl h => ?_⟩
  exact hne (slot_inj hi hj hl hk h).1.symm

end FreqState

section Offset

variable {chip : PhyChip} {value mode : BitVec 32} {stored : Nat} {s : FreqState}

/-- The offset that the words have. -/
def storedOffset (stored : Nat) (s : FreqState) : BitVec 16 := (read s.ram stored 2).setWidth 16

theorem correctOffset_same (h : storedOffset stored s = scaledOffset chip value mode) :
    correctOffset chip value mode stored s = s :=
  if_pos h

theorem correctOffset_spec (hs : s.Idle)
    (h : storedOffset stored s ≠ scaledOffset chip value mode) :
    let delta :=
      (scaledOffset chip value mode).signExtend 32 - (storedOffset stored s).signExtend 32
    let t := correctOffset chip value mode stored s
    (t.Idle ∧ storedOffset stored t = scaledOffset chip value mode) ∧
      (∀ i < 85, t.words (slot i 1) = addOffset delta (s.words (slot i 1))) ∧
      ∀ i < 85, ∀ l < 3, l ≠ 1 → t.words (slot i l) = s.words (slot i l) := by
  intro delta t
  let body (s : FreqState) (index : Nat) : FreqState :=
    let s := s.writeControl ((s.control &&& 0xffffff00) ||| (BitVec.ofNat 32 index * 3 + 1))
    let s := { s with data := addOffset delta s.port }
    let s := s.writeControl (s.control ||| 0x200)
    s.writeControl (s.control &&& ~~~0x200)
  have hbody : ∀ s i, body s i =
      s.modify (BitVec.ofNat 32 i * 3 + BitVec.ofNat 32 1) (addOffset delta) := by
    intro s i
    rw [FreqState.modify, FreqState.store, FreqState.updateControl_set,
      FreqState.updateControl_clear]
    rfl
  obtain ⟨⟨hidle, _⟩, hdone, hrest⟩ :=
    FreqState.foldl_modify_slots hs (by decide) (addOffset delta) hbody
  have ht : t =
      { (List.range 85).foldl body s with
        ram := write ((List.range 85).foldl body s).ram stored 2
          ((scaledOffset chip value mode).setWidth 32) } := if_neg h
  generalize (List.range 85).foldl body s = u at hidle hdone hrest ht
  rw [ht]
  refine ⟨⟨hidle, ?_⟩, hdone, hrest⟩
  calc
    (read (write u.ram stored 2 ((scaledOffset chip value mode).setWidth 32)) stored 2).setWidth 16
      = ((scaledOffset chip value mode).setWidth 32).setWidth 16 :=
        read_write_setWidth u.ram stored _ (by decide : 2 ≤ 4)
    _ = scaledOffset chip value mode := by
        rw [BitVec.setWidth_setWidth_of_le _ (by decide), BitVec.setWidth_eq]

/-- The difference of two offsets. -/
theorem toInt_signExtend_sub (x y : BitVec 16) :
    (x.signExtend 32 - y.signExtend 32).toInt = x.toInt - y.toInt := by
  have hx := x.toInt_lt
  have hx' := x.le_toInt
  have hy := y.toInt_lt
  have hy' := y.le_toInt
  rw [BitVec.toInt_sub, BitVec.toInt_signExtend_of_le (by decide),
    BitVec.toInt_signExtend_of_le (by decide)]
  exact Int.bmod_eq_of_le (by omega) (by omega)

theorem addOffset_toNat {delta v : BitVec 32} (hv : v.toNat < 2 ^ 24)
    (hlow : 0 ≤ (v.toNat : Int) + delta.toInt) (hhigh : (v.toNat : Int) + delta.toInt < 2 ^ 24) :
    ((addOffset delta v).toNat : Int) = v.toNat + delta.toInt := by
  have hword : v &&& 0xffffff = v := by
    apply BitVec.eq_of_toNat_eq
    rw [Register.toNat_and_mask 24 rfl, Nat.mod_eq_of_lt hv]
  have hrest : v &&& 0xff000000 = 0#32 := by
    rw [← hword, BitVec.and_assoc]
    exact BitVec.and_zero
  rw [addOffset, hword, hrest, BitVec.or_zero, BitVec.toNat_add]
  rw [BitVec.toInt_eq_toNat_cond] at hlow hhigh ⊢
  split_ifs at hlow hhigh ⊢ <;> omega

theorem addCap_capWord {saved : BitVec 4} {code : BitVec 9} {delta : BitVec 32}
    (hlow : 0 ≤ (code.toNat : Int) + delta.toInt) (hhigh : (code.toNat : Int) + delta.toInt ≤ 511) :
    ∃ code' : BitVec 9, (code'.toNat : Int) = code.toNat + delta.toInt ∧
      addCap delta (capWord saved code) = capWord saved code' := by
  let code' : BitVec 9 := BitVec.ofInt 9 (code.toNat + delta.toInt)
  have hcode' : (code'.toNat : Int) = code.toNat + delta.toInt := by
    rw [BitVec.toNat_ofInt]
    omega
  have hsum : code.setWidth 32 + delta = code'.setWidth 32 := by
    have hcode := code.isLt
    apply BitVec.eq_of_toNat_eq
    rw [BitVec.toInt_eq_toNat_cond] at hcode' hlow hhigh
    rw [BitVec.toNat_add, BitVec.toNat_setWidth, BitVec.toNat_setWidth]
    split_ifs at hcode' hlow hhigh <;> omega
  have hcap : (code.setWidth 32 + delta).setWidth 16 = code'.setWidth 16 := by
    rw [hsum, BitVec.setWidth_setWidth_of_le _ (by decide)]
  refine ⟨code', hcode', ?_⟩
  rw [addCap, capWord_code, hcap, capWord_replace]

end Offset

/-! ## Corrections -/

inductive FreqCall where
  | correctOffset (value mode : BitVec 32)
  | capMemory (delta : BitVec 32)
deriving DecidableEq, Repr

namespace FreqCall

def apply (chip : PhyChip) (stored : Nat) (s : FreqState) : FreqCall → FreqState
  | .correctOffset value mode => EspWifiHal.correctOffset chip value mode stored s
  | .capMemory delta => s.capMemory delta

/-- What a call adds to the capacitor codes. -/
def delta : FreqCall → Int
  | .correctOffset .. => 0
  | .capMemory delta => delta.toInt

/-- The offset after a call. -/
def offset (chip : PhyChip) (old : Int) : FreqCall → Int
  | .correctOffset value mode => (scaledOffset chip value mode).toInt
  | .capMemory _ => old

end FreqCall

/-- The sum of all corrections of the capacitor codes. -/
def deltaSum (calls : List FreqCall) : Int := (calls.map FreqCall.delta).sum

/-- The offset of the most recent correction. -/
def latestOffset (chip : PhyChip) (calls : List FreqCall) : Int :=
  calls.foldl (FreqCall.offset chip) 0

theorem deltaSum_concat (calls : List FreqCall) (call : FreqCall) :
    deltaSum (calls ++ [call]) = deltaSum calls + call.delta := by
  simp [deltaSum]

theorem latestOffset_concat (chip : PhyChip) (calls : List FreqCall) (call : FreqCall) :
    latestOffset chip (calls ++ [call]) = call.offset chip (latestOffset chip calls) := by
  rw [latestOffset, List.foldl_append]
  rfl

/-- Corrections after which all codes and words are in their range. -/
structure CorrectionsInRange (chip : PhyChip) (cap word : Nat → Int) (calls : List FreqCall) :
    Prop where
  cap : ∀ before, before <+: calls → ∀ i < 85, 0 ≤ cap i + deltaSum before ∧
    cap i + deltaSum before ≤ 511
  word : ∀ before, before <+: calls → ∀ i < 85, 0 ≤ word i + latestOffset chip before ∧
    word i + latestOffset chip before < 2 ^ 24

/-- The memory for the capacitor codes `cap`, the digits `word` and the offset `offset`. -/
structure Programmed (stored : Nat) (saved : BitVec 4) (cap word : Nat → Int) (offset : Int)
    (s : FreqState) : Prop where
  idle : s.Idle
  cap : ∀ i < 85, ∃ code : BitVec 9, (code.toNat : Int) = cap i ∧
    s.words (slot i 0) = capWord saved code
  word : ∀ i < 85, ((s.words (slot i 1)).toNat : Int) = word i + offset
  zero : ∀ i < 85, s.words (slot i 2) = 0
  stored : (storedOffset stored s).toInt = offset

namespace Programmed

variable {chip : PhyChip} {stored : Nat} {saved : BitVec 4} {cap word : Nat → Int} {offset : Int}
  {s : FreqState}

theorem capMemory (h : Programmed stored saved cap word offset s) {delta : BitVec 32}
    (hrange : ∀ i < 85, 0 ≤ cap i + delta.toInt ∧ cap i + delta.toInt ≤ 511) :
    Programmed stored saved (fun i => cap i + delta.toInt) word offset (s.capMemory delta) := by
  obtain ⟨⟨hidle, hram⟩, hdone, hrest⟩ := FreqState.capMemory_spec h.idle delta
  refine ⟨hidle, fun i hi => ?_, fun i hi => ?_, fun i hi => ?_, ?_⟩
  · obtain ⟨code, hcode, hword⟩ := h.cap i hi
    obtain ⟨hlow, hhigh⟩ := hrange i hi
    rw [← hcode] at hlow hhigh ⊢
    rw [hdone i hi, hword]
    exact addCap_capWord hlow hhigh
  · rw [hrest i hi 1 (by decide) (by decide)]
    exact h.word i hi
  · rw [hrest i hi 2 (by decide) (by decide)]
    exact h.zero i hi
  · rw [storedOffset, hram]
    exact h.stored

theorem correctOffset (h : Programmed stored saved cap word offset s) {value mode : BitVec 32}
    (hold : ∀ i < 85, 0 ≤ word i + offset ∧ word i + offset < 2 ^ 24)
    (hnew : ∀ i < 85, 0 ≤ word i + (scaledOffset chip value mode).toInt ∧
      word i + (scaledOffset chip value mode).toInt < 2 ^ 24) :
    Programmed stored saved cap word (scaledOffset chip value mode).toInt
      (correctOffset chip value mode stored s) := by
  by_cases hsame : storedOffset stored s = scaledOffset chip value mode
  · rw [correctOffset_same hsame, ← hsame, h.stored]
    exact h
  · obtain ⟨⟨hidle, hstored⟩, hdone, hrest⟩ := correctOffset_spec h.idle hsame
    refine ⟨hidle, fun i hi => ?_, fun i hi => ?_, fun i hi => ?_, by rw [hstored]⟩
    · rw [hrest i hi 0 (by decide) (by decide)]
      exact h.cap i hi
    · have hword := h.word i hi
      have hdelta := toInt_signExtend_sub (scaledOffset chip value mode) (storedOffset stored s)
      obtain ⟨_, holdLt⟩ := hold i hi
      obtain ⟨hnewLow, hnewHigh⟩ := hnew i hi
      rw [h.stored] at hdelta
      rw [hdone i hi, addOffset_toNat] <;> omega
    · rw [hrest i hi 2 (by decide) (by decide)]
      exact h.zero i hi

theorem foldl (h : Programmed stored saved cap word 0 s) {calls : List FreqCall}
    (hrange : CorrectionsInRange chip cap word calls) :
    Programmed stored saved (fun i => cap i + deltaSum calls) word (latestOffset chip calls)
      (calls.foldl (FreqCall.apply chip stored) s) := by
  induction calls using List.reverseRecOn with
  | nil =>
      have hcap : (fun i => cap i + deltaSum []) = cap := funext fun i => Int.add_zero _
      rw [hcap]
      exact h
  | append_singleton calls call ih =>
      have hbefore := List.prefix_append calls [call]
      have hlast := List.prefix_refl (calls ++ [call])
      have hcalls : CorrectionsInRange chip cap word calls :=
        ⟨fun before hpre => hrange.cap before (hpre.trans hbefore),
          fun before hpre => hrange.word before (hpre.trans hbefore)⟩
      have hcapRange := hrange.cap _ hlast
      have hwordRange := hrange.word _ hlast
      simp only [deltaSum_concat, latestOffset_concat, ← Int.add_assoc] at hcapRange hwordRange ⊢
      rw [List.foldl_append, List.foldl_cons, List.foldl_nil]
      cases call with
      | correctOffset value mode =>
          simp only [FreqCall.delta, Int.add_zero]
          exact (ih hcalls).correctOffset (hcalls.word _ (List.prefix_refl calls)) hwordRange
      | capMemory delta => exact (ih hcalls).capMemory hcapRange

end Programmed

/-! ## Initialization -/

/-- The callback as `clamp`. -/
def clampCallback : LimitCallback := fun value max min =>
  if value.slt min then min else if max.slt value then max else value

/-- The 24 bits that `frequency` writes. -/
def frequencyWord (chip : PhyChip) (f selector offset : BitVec 32) : Nat :=
  let m := frequency chip f selector offset 0 fun _ => 0
  65536 * (m 0).toNat + 256 * (m 1).toNat + (m 2).toNat

/-- The interpolated capacitor code of the frequency `2400 + i`. -/
def capCode (readings : PllReadings) (i : Nat) : Int :=
  let low : Int := (readCap readings.low).toNat
  let high : Int := (readCap readings.high).toNat
  max 0 (min 511 (low + (i * (high - low)).tdiv 64))

theorem readCap_le (r : CapReading) : (readCap r).toNat ≤ 511 := by
  have hlow := r.low.isLt
  have hhigh := r.high.isLt
  rw [readCap]
  simp only [BitVec.toNat_setWidth, BitVec.toNat_add, BitVec.toNat_shiftLeft, Nat.shiftLeft_eq]
  omega

theorem short_toInt {x : BitVec 32} (hlow : -32768 ≤ x.toInt) (hhigh : x.toInt ≤ 32767) :
    (short x).toInt = x.toInt := by
  rw [short, BitVec.toInt_signExtend_of_le (by decide), BitVec.toInt_setWidth, Int.bmod_def]
  rw [BitVec.toInt_eq_toNat_cond] at hlow hhigh ⊢
  split_ifs at hlow hhigh ⊢ <;> omega

theorem tdiv_step_bounds {p : Int} (hlow : -42924 ≤ p) (hhigh : p ≤ 42924) :
    -671 ≤ p.tdiv 64 ∧ p.tdiv 64 ≤ 671 := by
  have hsign : Int.sign 64 = 1 := rfl
  rw [Int.tdiv_eq_ediv, hsign]
  split_ifs <;> omega

/-- The code of the loop before it is limited, from the accumulated difference. -/
theorem interpolated_toInt {low high : BitVec 32} (hlow : low.toNat ≤ 511)
    (hhigh : high.toNat ≤ 511) {i : Nat} (hi : i < 85) :
    (short (low + (BitVec.ofNat 32 i * (short high - short low)).sdiv 64)).toInt =
      low.toNat + (i * (high.toNat - low.toNat : Int)).tdiv 64 := by
  have hlowInt : low.toInt = low.toNat := BitVec.toInt_eq_toNat_of_lt (by omega)
  have hhighInt : high.toInt = high.toNat := BitVec.toInt_eq_toNat_of_lt (by omega)
  have hindex : (BitVec.ofNat 32 i).toInt = i := by
    rw [BitVec.toInt_eq_toNat_of_lt] <;> rw [BitVec.toNat_ofNat] <;> omega
  have hdelta : (short high - short low).toInt = high.toNat - low.toNat := by
    rw [BitVec.toInt_sub, short_toInt (by omega) (by omega), short_toInt (by omega) (by omega),
      hlowInt, hhighInt]
    exact Int.bmod_eq_of_le (by omega) (by omega)
  -- no product of the loop leaves the range of 32 bits
  have hproductLow : (i : Int) * -511 ≤ i * (high.toNat - low.toNat : Int) :=
    Int.mul_le_mul_of_nonneg_left (by omega) (by omega)
  have hproductHigh : (i : Int) * (high.toNat - low.toNat : Int) ≤ i * 511 :=
    Int.mul_le_mul_of_nonneg_left (by omega) (by omega)
  have hproduct : (BitVec.ofNat 32 i * (short high - short low)).toInt =
      i * (high.toNat - low.toNat : Int) := by
    rw [BitVec.toInt_mul, hindex, hdelta]
    exact Int.bmod_eq_of_le (by omega) (by omega)
  obtain ⟨hdivLow, hdivHigh⟩ :=
    tdiv_step_bounds (p := i * (high.toNat - low.toNat : Int)) (by omega) (by omega)
  have hquotient : ((BitVec.ofNat 32 i * (short high - short low)).sdiv 64).toInt =
      (i * (high.toNat - low.toNat : Int)).tdiv 64 := by
    rw [BitVec.toInt_sdiv, hproduct]
    exact Int.bmod_eq_of_le (by show -_ ≤ Int.tdiv _ 64; omega) (by show Int.tdiv _ 64 < _; omega)
  have hsum : (low + (BitVec.ofNat 32 i * (short high - short low)).sdiv 64).toInt =
      low.toNat + (i * (high.toNat - low.toNat : Int)).tdiv 64 := by
    rw [BitVec.toInt_add, hquotient, hlowInt]
    exact Int.bmod_eq_of_le (by omega) (by omega)
  rw [short_toInt (by omega) (by omega), hsum]

/-- The callback returns a code of nine bits. -/
theorem clampCallback_eq {value : BitVec 32} {code : Int} (h : value.toInt = code) :
    ∃ code' : BitVec 9, (code'.toNat : Int) = max 0 (min 511 code) ∧
      clampCallback value 511 0 = code'.setWidth 32 := by
  let code' : BitVec 9 := BitVec.ofInt 9 (max 0 (min 511 code))
  have hcode' : (code'.toNat : Int) = max 0 (min 511 code) := by
    rw [BitVec.toNat_ofInt]
    omega
  refine ⟨code', hcode', ?_⟩
  apply BitVec.eq_of_toInt_eq
  have hwidth : (code'.setWidth 32).toInt = max 0 (min 511 code) := by
    rw [← hcode', BitVec.toInt_eq_toNat_of_lt] <;> rw [BitVec.toNat_setWidth] <;> omega
  rw [hwidth, clampCallback]
  simp only [BitVec.slt_iff_toInt_lt, h]
  have hzero : (0 : BitVec 32).toInt = 0 := rfl
  have hmax : (511 : BitVec 32).toInt = 511 := rfl
  split_ifs <;> omega

section Initialize

variable {chip : PhyChip} (B : FreqBuffers chip) {m : ByteMem} {f : BitVec 32}

theorem frequencyWord_eq (chip : PhyChip) (f selector offset : BitVec 32) :
    frequencyWord chip f selector offset =
      65536 * (pllDigit chip f selector offset 0).toNat +
        256 * (pllDigit chip f selector offset 1).toNat +
        (pllDigit chip f selector offset 2).toNat := by
  rw [frequencyWord]
  simp [frequency_eq, fill]

/-- Three bytes as a word. -/
theorem digits_toNat (b₀ b₁ b₂ : BitVec 8) :
    (b₀.setWidth 32 <<< 16 ||| b₁.setWidth 32 <<< 8 ||| b₂.setWidth 32).toNat =
      65536 * b₀.toNat + 256 * b₁.toNat + b₂.toNat := by
  have hbyte : ∀ b : BitVec 8, (b.setWidth 32).toNat = b.toNat := fun b =>
    BitVec.toNat_setWidth_of_le (by decide)
  have h₀ := hbyte b₀
  have h₁ := hbyte b₁
  have h₂ := hbyte b₂
  have hjoin : b₀.setWidth 32 <<< 16 ||| b₁.setWidth 32 <<< 8 ||| b₂.setWidth 32 =
      b₂.setWidth 32 ||| (b₁.setWidth 32 ||| b₀.setWidth 32 <<< 8) <<< 8 := by
    rw [BitVec.shiftLeft_or_distrib, ← BitVec.shiftLeft_add, BitVec.or_comm,
      BitVec.or_comm (b₀.setWidth 32 <<< 16)]
  have hupper : (b₁.setWidth 32 ||| b₀.setWidth 32 <<< 8).toNat = b₁.toNat + b₀.toNat * 256 := by
    rw [Register.toNat_or_shiftLeft (by omega) (by omega), h₀, h₁]
    rfl
  rw [hjoin, Register.toNat_or_shiftLeft (by omega) (by omega), hupper, h₂]
  omega

theorem param_of_frequency {selector : BitVec 32} {x : Nat} (hx : x < chip.paramSize) :
    frequency chip f selector 0 (B.base .buffer) m (B.base .param + x) = m (B.base .param + x) := by
  rw [frequency_eq]
  exact B.fill_other (r := .buffer) (s := .param) (k := 0) (by decide)
    (by show 0 + 3 ≤ 80; decide) hx

/-- The words of a frequency in the buffer. -/
theorem channelWords_spec (readings : PllReadings) {i : Nat} (hi : i < 85) :
    let low := readCap readings.low
    let accumulated := BitVec.ofNat 32 i * (short (readCap readings.high) - short low)
    let m' :=
      channelWords chip clampCallback B.base (readings.saved.setWidth 32) low accumulated i m
    (∀ x < chip.paramSize, m' (B.base .param + x) = m (B.base .param + x)) ∧
      (∃ code : BitVec 9, (code.toNat : Int) = capCode readings i ∧
        read m' (B.base .buffer + 4 + 4 * 0) 4 = capWord readings.saved code) ∧
      (read m' (B.base .buffer + 4 + 4 * 1) 4).toNat =
        frequencyWord chip (2400 + BitVec.ofNat 32 i) (read m (B.base .param + 0xf3) 1) 0 ∧
      read m' (B.base .buffer + 4 + 4 * 2) 4 = 0 := by
  intro low accumulated m'
  obtain ⟨code, hcode, hcap⟩ := clampCallback_eq
    (interpolated_toInt (readCap_le readings.low) (readCap_le readings.high) hi)
  let selector := read m (B.base .param + 0xf3) 1
  let m₀ := frequency chip (2400 + BitVec.ofNat 32 i) selector 0 (B.base .buffer) m
  have hdigit : ∀ k < 3, read m₀ (B.base .buffer + k) 1 =
      (pllDigit chip (2400 + BitVec.ofNat 32 i) selector 0 k).setWidth 32 := by
    intro k hk
    have hm₀ : m₀ = fill m (B.base .buffer) 3 _ := frequency_eq ..
    rw [hm₀, read_one, fill_range hk]
  have hm' : m' = write (write (write m₀ (B.base .buffer + 4 + 4 * 0) 4
        (capWord readings.saved code))
      (B.base .buffer + 4 + 4 * 1) 4
        ((pllDigit chip (2400 + BitVec.ofNat 32 i) selector 0 0).setWidth 32 <<< 16 |||
          (pllDigit chip (2400 + BitVec.ofNat 32 i) selector 0 1).setWidth 32 <<< 8 |||
          (pllDigit chip (2400 + BitVec.ofNat 32 i) selector 0 2).setWidth 32))
      (B.base .buffer + 4 + 4 * 2) 4 0 := by
    rw [← capWord_first, ← hcap, ← hdigit 0 (by decide), ← hdigit 1 (by decide),
      ← hdigit 2 (by decide)]
    rfl
  refine ⟨fun x hx => ?_, ⟨code, hcode, ?_⟩, ?_, ?_⟩
  · have hparam : ∀ (m : ByteMem) (k : Nat) (v : BitVec 32), 4 + k + 4 ≤ 80 →
        write m (B.base .buffer + 4 + k) 4 v (B.base .param + x) = m (B.base .param + x) := by
      intro m k v hk
      rw [Nat.add_assoc]
      exact B.fill_other (r := .buffer) (s := .param) (by decide) hk hx
    rw [hm', hparam _ _ _ (by decide), hparam _ _ _ (by decide), hparam _ _ _ (by decide)]
    exact param_of_frequency B hx
  · rw [hm', read_write_word, if_neg (by decide), read_write_word, if_neg (by decide),
      read_write_word, if_pos rfl]
  · rw [hm', read_write_word, if_neg (by decide), read_write_word, if_pos rfl, digits_toNat,
      frequencyWord_eq]
  · rw [hm', read_write_word, if_pos rfl]

/-- The memory after `k` frequencies, with the parameters of `m`. -/
structure Filled (readings : PllReadings) (m : ByteMem) (k : Nat) (s : BitVec 32 × FreqState) :
    Prop where
  accumulated : s.1 =
    BitVec.ofNat 32 k * (short (readCap readings.high) - short (readCap readings.low))
  param : ∀ x < chip.paramSize, s.2.ram (B.base .param + x) = m (B.base .param + x)
  idle : 0 < k → s.2.Idle
  cap : ∀ i < k, ∃ code : BitVec 9, (code.toNat : Int) = capCode readings i ∧
    s.2.words (slot i 0) = capWord readings.saved code
  word : ∀ i < k, (s.2.words (slot i 1)).toNat =
    frequencyWord chip (2400 + BitVec.ofNat 32 i) (read m (B.base .param + 0xf3) 1) 0
  zero : ∀ i < k, s.2.words (slot i 2) = 0

variable {B} {readings : PllReadings} {k : Nat} {s : BitVec 32 × FreqState}

theorem Filled.step (h : Filled B readings m k s) (hk : k < 85) :
    Filled B readings m (k + 1)
      (initializeStep chip clampCallback B.base (readings.saved.setWidth 32)
        (readCap readings.low) (short (readCap readings.high) - short (readCap readings.low)) s
        k) := by
  obtain ⟨hparam, ⟨code, hcode, hcap⟩, hword, hzero⟩ :=
    channelWords_spec B (m := s.2.ram) readings hk
  rw [← h.accumulated] at hparam hcap hword hzero
  let t : FreqState :=
    { s.2 with
      ram := channelWords chip clampCallback B.base (readings.saved.setWidth 32)
        (readCap readings.low) s.1 k s.2.ram }
  obtain ⟨⟨hidle, hram⟩, hdone, hrest⟩ := t.memory_spec hk (B.base .buffer + 4)
  have hselector : read s.2.ram (B.base .param + 0xf3) 1 = read m (B.base .param + 0xf3) 1 := by
    have hle := chip.le_paramSize
    rw [read_one, read_one, h.param _ (by omega)]
  refine ⟨?_, fun x hx => ?_, fun _ => hidle, fun i hi => ?_, fun i hi => ?_, fun i hi => ?_⟩
  · show s.1 + _ = _
    rw [h.accumulated, BitVec.ofNat_add, BitVec.add_mul, BitVec.one_mul]
  · show (t.memory _ _).ram _ = _
    rw [hram, ← h.param x hx]
    exact hparam x hx
  · rcases Nat.lt_succ_iff_lt_or_eq.mp hi with hlt | rfl
    · show ∃ code : BitVec 9, _ ∧ (t.memory _ _).words _ = _
      rw [hrest i (by omega) (by omega) 0 (by decide)]
      exact h.cap i hlt
    · refine ⟨code, hcode, (hdone 0 (by decide)).trans ?_⟩
      exact hcap
  · show ((t.memory _ _).words _).toNat = _
    rcases Nat.lt_succ_iff_lt_or_eq.mp hi with hlt | rfl
    · rw [hrest i (by omega) (by omega) 1 (by decide)]
      exact h.word i hlt
    · rw [hdone 1 (by decide), ← hselector]
      exact hword
  · show (t.memory _ _).words _ = _
    rcases Nat.lt_succ_iff_lt_or_eq.mp hi with hlt | rfl
    · rw [hrest i (by omega) (by omega) 2 (by decide)]
      exact h.zero i hlt
    · rw [hdone 2 (by decide)]
      exact hzero

theorem Filled.foldl {t : FreqState}
    (hparam : ∀ x < chip.paramSize, t.ram (B.base .param + x) = m (B.base .param + x))
    (hk : k ≤ 85) :
    Filled B readings m k
      ((List.range k).foldl (initializeStep chip clampCallback B.base (readings.saved.setWidth 32)
        (readCap readings.low) (short (readCap readings.high) - short (readCap readings.low)))
        (0, t)) := by
  induction k with
  | zero =>
      have hnone : ∀ i, ¬i < 0 := Nat.not_lt_zero
      refine ⟨?_, hparam, fun h => absurd h (hnone 0), fun i hi => absurd hi (hnone i),
        fun i hi => absurd hi (hnone i), fun i hi => absurd hi (hnone i)⟩
      exact BitVec.zero_mul.symm
  | succ k ih =>
      rw [List.range_succ, List.foldl_append, List.foldl_cons, List.foldl_nil]
      exact (ih (Nat.le_of_succ_le hk)).step hk

theorem storedOffset_initializeFlags (param : Nat) (s : FreqState) :
    storedOffset (param + 0xe2) { s with ram := initializeFlags chip param s.ram } = 0 := by
  have hzero : ∀ m : ByteMem, (read (write m (param + 0xe2) 2 0) (param + 0xe2) 2).setWidth 16 =
      (0 : BitVec 32).setWidth 16 := fun m => read_write_setWidth m _ 0 (by decide : 2 ≤ 4)
  cases chip with
  | esp32s3 => exact hzero _
  | esp32c3 =>
      -- the flags are written last, behind the offset
      have hread : ∀ (m : ByteMem) (v : BitVec 32),
          read (write m (param + 0x120) 4 v) (param + 0xe2) 2 = read m (param + 0xe2) 2 :=
        fun m v => read_congr fun i hi => fill_of_not_mem (by omega)
      refine Eq.trans (congrArg (BitVec.setWidth 16) (hread _ _)) (hzero _)

theorem initializeMemory_programmed {s : FreqState}
    (hfirst : read s.ram (B.base .param + 0x120) 4 &&& 32 = 0) :
    Programmed (B.base .param + 0xe2) readings.saved (capCode readings)
      (fun i => frequencyWord chip (2400 + BitVec.ofNat 32 i)
        (read s.ram (B.base .param + 0xf3) 1) 0) 0
      (initializeMemory chip clampCallback B.base readings s) := by
  have hset : ∀ (f : BitVec 32) (m : ByteMem), ∀ x < chip.paramSize,
      setRfpllFreq chip B.base f m (B.base .param + x) = m (B.base .param + x) :=
    fun f m x hx => param_of_frequency B hx
  let ram := setRfpllFreq chip B.base 2464
    (setRfpllFreq chip B.base 2400 (setRfpllFreq chip B.base 2437 s.ram))
  have hparam : ∀ x < chip.paramSize,
      ({ s with ram := ram } : FreqState).ram (B.base .param + x) = s.ram (B.base .param + x) := by
    intro x hx
    exact (hset _ _ x hx).trans ((hset _ _ x hx).trans (hset _ _ x hx))
  have hfilled : Filled B readings s.ram 85 _ := Filled.foldl hparam (Nat.le_refl 85)
  rw [initializeMemory, if_neg (not_not.mpr hfirst)]
  refine ⟨hfilled.idle (by decide), hfilled.cap, fun i hi => ?_, hfilled.zero, ?_⟩
  · rw [Int.add_zero]
    exact congrArg Nat.cast (hfilled.word i hi)
  · rw [storedOffset_initializeFlags]
    rfl

end Initialize

/-- After the initialization and any corrections that keep all codes and words in their
range, the capacitor codes are the interpolated ones plus the sum of the corrections, and
the digits are those of the frequency plus the latest offset.  The other fields are as they
were programmed.  A correction to the offset that the words have changes nothing. -/
theorem channel_memory (chip : PhyChip) (B : FreqBuffers chip) (readings : PllReadings)
    (s : FreqState) (calls : List FreqCall)
    (hfirst : read s.ram (B.base .param + 0x120) 4 &&& 32 = 0) :
    let word i := frequencyWord chip (2400 + BitVec.ofNat 32 i)
      (read s.ram (B.base .param + 0xf3) 1) 0
    let t := calls.foldl (FreqCall.apply chip (B.base .param + 0xe2))
      (initializeMemory chip clampCallback B.base readings s)
    CorrectionsInRange chip (capCode readings) (fun i => word i) calls →
    (∀ i < 85,
      (∃ code : BitVec 9, (code.toNat : Int) = capCode readings i + deltaSum calls ∧
        t.words (slot i 0) = capWord readings.saved code) ∧
      ((t.words (slot i 1)).toNat : Int) = word i + latestOffset chip calls ∧
      t.words (slot i 2) = 0) ∧
    ∀ value mode, (scaledOffset chip value mode).toInt = latestOffset chip calls →
      correctOffset chip value mode (B.base .param + 0xe2) t = t := by
  intro word t hrange
  have hprogrammed : Programmed _ readings.saved _ _ _ t :=
    (initializeMemory_programmed hfirst).foldl hrange
  refine ⟨fun i hi => ⟨hprogrammed.cap i hi, hprogrammed.word i hi, hprogrammed.zero i hi⟩, ?_⟩
  intro value mode hsame
  exact correctOffset_same (BitVec.eq_of_toInt_eq (hprogrammed.stored.trans hsame.symm))

def freqBuffers : FreqBuffers .esp32s3 where
  base
    | .param => 0
    | .buffer => 740
  separate r s h := by
    cases r <;> cases s <;> first | exact absurd rfl h | decide

/-- Codes from 64 to 128, over 64 MHz. -/
def pllReadings : PllReadings := { saved := 5, low := ⟨64, 0⟩, high := ⟨128, 0⟩ }

/-- A correction by -5 and an offset of 100. -/
theorem channel_memory_corrected :
    let t := [FreqCall.capMemory (-5), .correctOffset 100 0].foldl
      (FreqCall.apply .esp32s3 (freqBuffers.base .param + 0xe2))
      (initializeMemory .esp32s3 clampCallback freqBuffers.base pllReadings
        ⟨0, 0, fun _ => 0, fun _ => 0⟩)
    (∃ code : BitVec 9, code.toNat = 64 + 42 - 5 ∧ t.words (slot 42 0) = capWord 5 code) ∧
      (t.words (slot 42 1)).toNat = frequencyWord .esp32s3 2442 0 0 + 225 := by
  intro t
  have hrange : CorrectionsInRange .esp32s3 (capCode pllReadings)
      (fun i => frequencyWord .esp32s3 (2400 + BitVec.ofNat 32 i) 0 0)
      [FreqCall.capMemory (-5), .correctOffset 100 0] := by
    have hcap : ∀ before ∈ [FreqCall.capMemory (-5), .correctOffset 100 0].inits, ∀ i < 85,
        0 ≤ capCode pllReadings i + deltaSum before ∧
          capCode pllReadings i + deltaSum before ≤ 511 := by decide +kernel
    have hword : ∀ before ∈ [FreqCall.capMemory (-5), .correctOffset 100 0].inits, ∀ i < 85,
        0 ≤ frequencyWord .esp32s3 (2400 + BitVec.ofNat 32 i) 0 0 + latestOffset .esp32s3 before ∧
          frequencyWord .esp32s3 (2400 + BitVec.ofNat 32 i) 0 0 + latestOffset .esp32s3 before <
            2 ^ 24 := by decide +kernel
    exact ⟨fun before hpre => hcap before (List.mem_inits before _ |>.mpr hpre),
      fun before hpre => hword before (List.mem_inits before _ |>.mpr hpre)⟩
  obtain ⟨hwords, _⟩ := channel_memory .esp32s3 freqBuffers pllReadings
    ⟨0, 0, fun _ => 0, fun _ => 0⟩ [.capMemory (-5), .correctOffset 100 0] rfl hrange
  obtain ⟨⟨code, hcode, hcap⟩, hword, _⟩ := hwords 42 (by decide)
  have hvalues : capCode pllReadings 42 + deltaSum [.capMemory (-5), .correctOffset 100 0] = 101 ∧
      latestOffset .esp32s3 [.capMemory (-5), .correctOffset 100 0] = 225 := by decide +kernel
  rw [hvalues.1] at hcode
  rw [hvalues.2] at hword
  refine ⟨⟨code, by omega, hcap⟩, ?_⟩
  generalize t.words (slot 42 1) = w at hword ⊢
  exact Int.ofNat.inj hword

end EspWifiHal
