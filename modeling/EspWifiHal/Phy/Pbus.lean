import EspWifiHal.Phy.Init
import EspWifiHal.Lib.Fields
import EspWifiHal.Lib.Memory
import EspWifiHal.Lib.Words

/-!
# The programs of the PBUS

`mem` loads twelve programs into the memory of the PBUS, one behind the other.  A word goes
through the data register and the control register, whose address field has a strobe bit, and
half of a range register tells where each program begins and ends.  The range registers are lost
when the RF sleeps, so `mem` ends with a copy of them in the parameters, from which `pbus` sets
them again.  `bb` calls `mem` only while a flag in the parameters is clear.

`programs_of_run` says that the range registers describe all programs in every run that calls
`bb` once and wakes up after each sleep.
-/

namespace EspWifiHal

open Memory Fields

/-! ## The registers -/

structure Pbus where
  regs : Registers
  /-- The memory behind the data and the control register. -/
  words : BitVec 8 → BitVec 32
  params : ByteMem

namespace Pbus

/-- A register is written.  Bit 17 of the control register `0x600060c8` stores the data register
`0x600060cc` at the address in its bits 8 to 15. -/
def writeRegister (s : Pbus) (address : Nat) (value : BitVec 32) : Pbus :=
  { s with
    regs := Function.update s.regs address value
    words :=
      if address = 0x600060c8 ∧ value.getLsbD 17 then
        Function.update s.words (value.extractLsb' 8 8) (s.regs 0x600060cc)
      else s.words }

theorem writeRegister_regs (address : Nat) (value : BitVec 32) (s : Pbus) :
    (s.writeRegister address value).regs = Function.update s.regs address value := rfl

theorem writeRegister_words_of_ne {address : Nat} (h : address ≠ 0x600060c8) (value : BitVec 32)
    (s : Pbus) : (s.writeRegister address value).words = s.words := if_neg fun hc => h hc.1

theorem writeRegister_words_of_clear (address : Nat) {value : BitVec 32}
    (h : value.getLsbD 17 = false) (s : Pbus) : (s.writeRegister address value).words = s.words :=
  if_neg fun hc => Bool.false_ne_true (h.symm.trans hc.2)

/-! ## The functions -/

def programs : PhyChip → List (List (BitVec 32))
  | .esp32c3 =>
      [[0x0709ff, 0x1713ff, 0xf50000, 0xf60000],
        [0x0401ff, 0x1401ff],
        [0x0403ff, 0x14f9ff, 0x1801ff, 0x4801ff, 0xf00000, 0xf10000, 0xf20000, 0xf40000],
        [0x0401ff, 0x1401ff],
        [0x14f9ff, 0x44ffff, 0xf30000],
        [0x4401ff, 0x5401ff],
        [0x0709ff, 0x1717ff, 0xf50000, 0xf60000],
        [0x0401ff, 0x1401ff],
        [0x0403ff, 0x14fdff, 0x1801ff, 0x4801ff, 0xf00000, 0xf10000, 0xf20000, 0xf40000],
        [0x0401ff, 0x1401ff],
        [0x14fdff, 0x44ffff, 0xf30000],
        [0x4401ff, 0x5401ff]]
  | .esp32s3 =>
      [[0x0709ff, 0x1713ff, 0xf50000, 0xf60000],
        [0x0401ff, 0x1801ff, 0x1401ff],
        [0x0403ff, 0x14f9ff, 0x1801ff, 0x4801ff, 0xf00000, 0xf10000, 0xf20000, 0xf40000],
        [0x0401ff, 0x1801ff, 0x1401ff],
        [0x14f9ff, 0x44ffff, 0xf30000],
        [0x4401ff, 0x5401ff],
        [0x0709ff, 0x1717ff, 0xf50000, 0xf60000],
        [0x0401ff, 0x1801ff, 0x1401ff],
        [0x0403ff, 0x14f9ff, 0x1801ff, 0x4831ff, 0xf00000, 0xf10000, 0xf20000, 0xf40000],
        [0x0401ff, 0x1801ff, 0x1401ff],
        [0x14fdff, 0x44ffff, 0xf30000],
        [0x4401ff, 0x5401ff]]

/-- The half of a range register for the program `k`. -/
def setRange (k : Nat) (start stop : BitVec 32) (s : Pbus) : Pbus :=
  let register := 0x600060e0 + k / 2 * 4
  let shift := k % 2 * 16
  let range := ((stop - 1) <<< 8 ||| start) &&& 0xffff#32
  s.writeRegister register ((s.regs register &&& ~~~(0xffff#32 <<< shift)) ||| range <<< shift)

/-- A word at its address.  The strobe bit is set with the address and then cleared. -/
def storeWord (address word : BitVec 32) (s : Pbus) : Pbus :=
  let s := s.writeRegister 0x600060cc word
  let s := s.writeRegister 0x600060c8
    ((s.regs 0x600060c8 &&& 0xfffc00ff#32) ||| ((address + 0x200#32) &&& 0x3ff#32) <<< 8)
  s.writeRegister 0x600060c8 (s.regs 0x600060c8 &&& 0xfffcffff#32)

/-- The loop over the words of a program. -/
def storeWords (start : Nat) : List (BitVec 32) → Pbus → Pbus
  | [], s => s
  | word :: words, s => storeWords (start + 1) words (s.storeWord (BitVec.ofNat 32 start) word)

/-- The program `k`. -/
def loadProgram (k start : Nat) (words : List (BitVec 32)) (s : Pbus) : Pbus :=
  (s.setRange k (BitVec.ofNat 32 start) (BitVec.ofNat 32 (start + words.length))).storeWords
    start words

/-- The loop over the programs, from the program `k` on. -/
def load (k start : Nat) : List (List (BitVec 32)) → Pbus → Pbus
  | [], s => s
  | words :: rest, s => load (k + 1) (start + words.length) rest (s.loadProgram k start words)

/-- Where the range registers are kept. -/
def saved : PhyChip → Nat
  | .esp32s3 => 0x2ac
  | .esp32c3 => 0x328

def save (chip : PhyChip) (s : Pbus) : Pbus :=
  (List.range 6).foldl
    (fun s i => { s with
      params := write s.params (saved chip + i * 4) 4 (s.regs (0x600060e0 + i * 4)) })
    s

def mem (chip : PhyChip) (s : Pbus) : Pbus := (s.load 0 0 (programs chip)).save chip

/-- `pbus`, which sets the range registers again. -/
def restore (chip : PhyChip) (s : Pbus) : Pbus :=
  (List.range 6).foldl
    (fun s i => s.writeRegister (0x600060e0 + i * 4) (read s.params (saved chip + i * 4) 4))
    s

/-- The part of `bb` that loads the programs, once. -/
def bb (chip : PhyChip) (s : Pbus) : Pbus :=
  if read s.params 0x120 4 &&& 0x10000#32 = 0#32 then
    let s := s.mem chip
    { s with params := write s.params 0x120 4 (read s.params 0x120 4 ||| 0x10000#32) }
  else s

/-! ## The ranges -/

/-- The half of a range register, as a field. -/
def rangeField (k : Nat) : Field := ⟨0x600060e0 + k / 2 * 4, k % 2 * 16, 16⟩

theorem rangeField_fits (k : Nat) : (rangeField k).Fits := by
  simp only [Field.Fits, rangeField]
  omega

theorem rangeField_apart {j k : Nat} (h : j ≠ k) : (rangeField j).Apart (rangeField k) := by
  simp only [Field.Apart, rangeField]
  omega

theorem setRange_regs (k : Nat) (start stop : BitVec 32) (s : Pbus) :
    (s.setRange k start stop).regs = (rangeField k).put ((stop - 1) <<< 8 ||| start) s.regs := rfl

theorem setRange_words (k : Nat) (start stop : BitVec 32) (s : Pbus) :
    (s.setRange k start stop).words = s.words := writeRegister_words_of_ne (by omega) _ s

/-- Two bytes of a range. -/
theorem toNat_range {start stop : Nat} (h : start < stop) (hstop : stop ≤ 256) :
    ((BitVec.ofNat 32 stop - 1) <<< 8 ||| BitVec.ofNat 32 start).toNat =
      start + 256 * (stop - 1) := by
  have hlast : (BitVec.ofNat 32 stop - 1).toNat = stop - 1 := by
    simp
    omega
  have hfirst : (BitVec.ofNat 32 start).toNat = start := by
    simp
    omega
  rw [BitVec.or_comm, Register.toNat_or_shiftLeft (by omega) (by omega), hlast, hfirst]
  omega

theorem get_setRange {k start stop : Nat} (h : start < stop) (hstop : stop ≤ 256) (s : Pbus) :
    (rangeField k).get (s.setRange k (BitVec.ofNat 32 start) (BitVec.ofNat 32 stop)).regs =
      start + 256 * (stop - 1) := by
  have hlt : start + 256 * (stop - 1) < 2 ^ (rangeField k).width := by
    simp only [rangeField]
    omega
  rw [setRange_regs, Field.get_put_self _ (rangeField_fits k), toNat_range h hstop,
    Nat.mod_eq_of_lt hlt]

theorem get_setRange_of_ne {j k : Nat} (h : k ≠ j) (start stop : BitVec 32) (s : Pbus) :
    (rangeField j).get (s.setRange k start stop).regs = (rangeField j).get s.regs := by
  rw [setRange_regs,
    Field.get_put_of_apart (rangeField_fits k) (rangeField_fits j) (rangeField_apart h)]

/-! ## The words -/

/-- The control register that stores at the address `n`. -/
def strobe (control : BitVec 32) (n : Nat) : BitVec 32 :=
  (control &&& 0xfffc00ff#32) ||| ((BitVec.ofNat 32 n + 0x200#32) &&& 0x3ff#32) <<< 8

/-- The address field of the control register is the address with the strobe bit over it. -/
theorem getLsbD_strobe (control : BitVec 32) {n i : Nat} (hn : n < 256) (hi : i < 10) :
    (strobe control n).getLsbD (8 + i) = (2 ^ 9 + n).testBit i := by
  have hmask : ∀ i < 10, (0xfffc00ff#32).getLsbD (8 + i) = false := by decide
  have hfield : ((BitVec.ofNat 32 n + 0x200#32) &&& 0x3ff#32).toNat = 2 ^ 9 + n := by
    rw [Register.toNat_and_mask 10 rfl]
    simp
    omega
  have hkept : (control &&& 0xfffc00ff#32).getLsbD (8 + i) = false := by
    rw [BitVec.getLsbD_and, hmask i hi, Bool.and_false]
  have hlt : 8 + i < 32 := by omega
  have hge : ¬8 + i < 8 := by omega
  rw [strobe, BitVec.getLsbD_or, hkept, Bool.false_or, BitVec.getLsbD_shiftLeft, decide_eq_true hlt,
    decide_eq_false hge, Bool.true_and, Bool.not_false, Bool.true_and, Nat.add_sub_cancel_left,
    ← BitVec.testBit_toNat, hfield]

theorem strobe_set (control : BitVec 32) {n : Nat} (hn : n < 256) :
    (strobe control n).getLsbD 17 = true := by
  have hbit := getLsbD_strobe control hn (show 9 < 10 by decide)
  rw [Nat.testBit_two_pow_add_eq, Nat.testBit_lt_two_pow (by omega)] at hbit
  exact hbit

theorem strobe_address (control : BitVec 32) {n : Nat} (hn : n < 256) :
    (strobe control n).extractLsb' 8 8 = BitVec.ofNat 8 n := by
  apply BitVec.eq_of_getLsbD_eq
  intro i hi
  rw [BitVec.getLsbD_extractLsb', getLsbD_strobe control hn (by omega),
    Nat.testBit_two_pow_add_gt (by omega), BitVec.getLsbD_ofNat]

/-- The strobe bit is cleared again. -/
theorem strobe_clear (control : BitVec 32) : (control &&& 0xfffcffff#32).getLsbD 17 = false := by
  rw [BitVec.getLsbD_and]
  exact Bool.and_false _

/-- Words are stored: what changes in the memory, and that nothing changes but the data and the
control register. -/
structure Stores (s s' : Pbus) (words : BitVec 8 → BitVec 32) : Prop where
  regs : ∀ a, a ≠ 0x600060c8 → a ≠ 0x600060cc → s'.regs a = s.regs a
  words : s'.words = words
  params : s'.params = s.params

theorem storeWord_spec {n : Nat} (hn : n < 256) (word : BitVec 32) (s : Pbus) :
    Stores s (s.storeWord (BitVec.ofNat 32 n) word)
      (Function.update s.words (BitVec.ofNat 8 n) word) where
  regs := by
    intro a hcontrol hdata
    simp only [storeWord, writeRegister]
    rw [Function.update_of_ne hcontrol, Function.update_of_ne hcontrol, Function.update_of_ne hdata]
  words := by
    have hstore : ∀ t : Pbus, (t.writeRegister 0x600060c8 (strobe (t.regs 0x600060c8) n)).words =
        Function.update t.words (BitVec.ofNat 8 n) (t.regs 0x600060cc) := by
      intro t
      rw [← strobe_address (t.regs 0x600060c8) hn]
      exact if_pos ⟨rfl, strobe_set _ hn⟩
    have hword : (s.writeRegister 0x600060cc word).regs 0x600060cc = word := by
      rw [writeRegister_regs, Function.update_self]
    rw [storeWord, writeRegister_words_of_clear _ (strobe_clear _), ← strobe, hstore, hword,
      writeRegister_words_of_ne (by decide)]
  params := rfl

/-- The program is in the memory from `start` on. -/
def Holds (words : BitVec 8 → BitVec 32) (start : Nat) (program : List (BitVec 32)) : Prop :=
  ∀ i (h : i < program.length), words (BitVec.ofNat 8 (start + i)) = program[i]

theorem ofNat_ne {i j : Nat} (hi : i < 256) (hj : j < 256) (h : i ≠ j) :
    BitVec.ofNat 8 i ≠ BitVec.ofNat 8 j := by
  intro heq
  have hnat := congrArg BitVec.toNat heq
  rw [BitVec.toNat_ofNat, BitVec.toNat_ofNat] at hnat
  omega

/-- A program is stored from `start` on, and nothing else. -/
theorem storeWords_spec (start : Nat) (program : List (BitVec 32))
    (h : start + program.length ≤ 256) (s : Pbus) :
    ∃ words, Stores s (s.storeWords start program) words ∧ Holds words start program ∧
      ∀ i < 256, i < start ∨ start + program.length ≤ i →
        words (BitVec.ofNat 8 i) = s.words (BitVec.ofNat 8 i) := by
  induction program generalizing start s with
  | nil => exact ⟨s.words, ⟨fun _ _ _ => rfl, rfl, rfl⟩, fun i hi => absurd hi (by simp), by simp⟩
  | cons word program ih =>
      simp only [List.length_cons] at h
      have hfirst := storeWord_spec (show start < 256 by omega) word s
      obtain ⟨words, hrest, hholds, hframe⟩ := ih (start + 1) (by omega)
        (s.storeWord (BitVec.ofNat 32 start) word)
      have hold : ∀ i < 256, i ≠ start →
          (s.storeWord (BitVec.ofNat 32 start) word).words (BitVec.ofNat 8 i) =
            s.words (BitVec.ofNat 8 i) := by
        intro i hi hne
        rw [hfirst.words, Function.update_of_ne (ofNat_ne hi (by omega) hne)]
      refine ⟨words, ⟨?_, hrest.words, hrest.params.trans hfirst.params⟩, ?_, ?_⟩
      · intro a hcontrol hdata
        exact (hrest.regs a hcontrol hdata).trans (hfirst.regs a hcontrol hdata)
      · intro i hi
        cases i with
        | zero =>
            -- the words behind the first one do not overwrite it
            rw [Nat.add_zero, hframe start (by omega) (by omega), hfirst.words]
            exact Function.update_self ..
        | succ i =>
            have hword := hholds i (by simpa using hi)
            rw [Nat.add_right_comm] at hword
            exact hword
      · intro i hi hout
        simp only [List.length_cons] at hout
        rw [hframe i hi (by omega), hold i hi (by omega)]

/-! ## The programs -/

theorem get_congr {regs regs' : Registers} {k : Nat}
    (h : regs' (rangeField k).address = regs (rangeField k).address) :
    (rangeField k).get regs' = (rangeField k).get regs := by
  rw [Field.get, Field.get, h]

/-- The program `k` begins at `start`: its range tells the first and the last address, and its words
are there. -/
structure Loaded (regs : Registers) (words : BitVec 8 → BitVec 32) (k start : Nat)
    (program : List (BitVec 32)) : Prop where
  range : (rangeField k).get regs = start + 256 * (start + program.length - 1)
  word : Holds words start program

theorem loadProgram_spec (k start : Nat) {program : List (BitVec 32)} (hne : program ≠ [])
    (h : start + program.length ≤ 256) (s : Pbus) :
    Loaded (s.loadProgram k start program).regs (s.loadProgram k start program).words k start
        program ∧
      (∀ j ≠ k, (rangeField j).get (s.loadProgram k start program).regs =
        (rangeField j).get s.regs) ∧
      (∀ i < start, (s.loadProgram k start program).words (BitVec.ofNat 8 i) =
        s.words (BitVec.ofNat 8 i)) ∧
      (s.loadProgram k start program).params = s.params := by
  have hlength := List.length_pos_of_ne_nil hne
  obtain ⟨words, hstores, hholds, hframe⟩ := storeWords_spec start program h
    (s.setRange k (BitVec.ofNat 32 start) (BitVec.ofNat 32 (start + program.length)))
  have hranges : ∀ j, (rangeField j).get (s.loadProgram k start program).regs = (rangeField j).get
      (s.setRange k (BitVec.ofNat 32 start) (BitVec.ofNat 32 (start + program.length))).regs := by
    intro j
    refine get_congr (hstores.regs _ ?_ ?_) <;>
    · simp only [rangeField]
      omega
  refine ⟨⟨?_, ?_⟩, ?_, ?_, hstores.params⟩
  · rw [hranges, get_setRange (by omega) h]
  · rw [loadProgram, hstores.words]
    exact hholds
  · intro j hj
    rw [hranges, get_setRange_of_ne hj.symm]
  · intro i hi
    rw [loadProgram, hstores.words, hframe i (by omega) (Or.inl hi), setRange_words]

/-- The programs from `k` on are loaded one behind the other. -/
def AllLoaded (regs : Registers) (words : BitVec 8 → BitVec 32) (k start : Nat) :
    List (List (BitVec 32)) → Prop
  | [] => True
  | program :: rest =>
      Loaded regs words k start program ∧
        AllLoaded regs words (k + 1) (start + program.length) rest

/-- The length of all programs. -/
def size (programs : List (List (BitVec 32))) : Nat := (programs.map List.length).sum

theorem Loaded.congr {regs regs' : Registers} {words words' : BitVec 8 → BitVec 32} {k start : Nat}
    {program : List (BitVec 32)} (h : Loaded regs words k start program)
    (hrange : (rangeField k).get regs' = (rangeField k).get regs)
    (hwords : ∀ i < program.length,
      words' (BitVec.ofNat 8 (start + i)) = words (BitVec.ofNat 8 (start + i))) :
    Loaded regs' words' k start program :=
  ⟨hrange.trans h.range, fun i hi => (hwords i hi).trans (h.word i hi)⟩

/-- The loop over the programs changes nothing below `start` and before `k`. -/
theorem load_spec {k start : Nat} {programs : List (List (BitVec 32))}
    (hne : ∀ program ∈ programs, program ≠ []) (h : start + size programs ≤ 256) (s : Pbus) :
    AllLoaded (s.load k start programs).regs (s.load k start programs).words k start programs ∧
      (∀ j < k, (rangeField j).get (s.load k start programs).regs = (rangeField j).get s.regs) ∧
      (∀ i < start, (s.load k start programs).words (BitVec.ofNat 8 i) =
        s.words (BitVec.ofNat 8 i)) ∧
      (s.load k start programs).params = s.params := by
  induction programs generalizing k start s with
  | nil => exact ⟨trivial, fun _ _ => rfl, fun _ _ => rfl, rfl⟩
  | cons program rest ih =>
      obtain ⟨hprogram, hrest⟩ := List.forall_mem_cons.mp hne
      rw [size, List.map_cons, List.sum_cons, ← size] at h
      obtain ⟨hloaded, hothers, hbelow, hparams⟩ :=
        loadProgram_spec k start hprogram (by omega) s
      obtain ⟨hall, hbefore, hkept, hparams'⟩ := ih (k := k + 1) hrest
        (show start + program.length + size rest ≤ 256 by omega) (s.loadProgram k start program)
      refine ⟨⟨?_, hall⟩, ?_, ?_, hparams'.trans hparams⟩
      · -- the later programs are behind this one
        exact hloaded.congr (hbefore k (Nat.lt_succ_self k)) fun i hi =>
          hkept (start + i) (by omega)
      · intro j hj
        exact (hbefore j (by omega)).trans (hothers j (by omega))
      · intro i hi
        exact (hkept i (by omega)).trans (hbelow i hi)

theorem AllLoaded.congr {regs regs' : Registers} {words words' : BitVec 8 → BitVec 32}
    {k start : Nat} {programs : List (List (BitVec 32))}
    (h : AllLoaded regs words k start programs)
    (hranges : ∀ j < k + programs.length, (rangeField j).get regs' = (rangeField j).get regs)
    (hwords : words' = words) : AllLoaded regs' words' k start programs := by
  induction programs generalizing k start with
  | nil => exact trivial
  | cons program rest ih =>
      rw [List.length_cons] at hranges
      refine ⟨h.1.congr (hranges k (by omega)) fun i _ => by rw [hwords], ih h.2 fun j hj => ?_⟩
      exact hranges j (by omega)

/-! ## Saving and restoring -/

/-- The saved range registers, as registers. -/
def savedRegs (chip : PhyChip) (params : ByteMem) : Registers := fun address =>
  read params (saved chip + (address - 0x600060e0)) 4

theorem save_eq (chip : PhyChip) (s : Pbus) :
    s.save chip = { s with
      params := (List.range 6).foldl
        (fun m i => write m (saved chip + i * 4) 4 (s.regs (0x600060e0 + i * 4))) s.params } := by
  rw [save]
  generalize List.range 6 = is
  induction is using List.reverseRecOn with
  | nil => rfl
  | append_singleton is i ih => rw [List.foldl_append, List.foldl_append, ih]; rfl

theorem save_spec (chip : PhyChip) (s : Pbus) :
    (s.save chip).regs = s.regs ∧ (s.save chip).words = s.words ∧
      (∀ i < 6, savedRegs chip (s.save chip).params (0x600060e0 + i * 4) =
        s.regs (0x600060e0 + i * 4)) ∧
      ∀ a, a < saved chip ∨ saved chip + 24 ≤ a → (s.save chip).params a = s.params a := by
  obtain ⟨hwords, hframe⟩ := foldl_write_words s.params (saved chip) 6
    fun i => s.regs (0x600060e0 + i * 4)
  rw [save_eq]
  refine ⟨rfl, rfl, fun i hi => ?_, hframe⟩
  rw [savedRegs, Nat.add_sub_cancel_left]
  exact hwords i hi

theorem restore_spec (chip : PhyChip) (s : Pbus) :
    (s.restore chip).params = s.params ∧ (s.restore chip).words = s.words ∧
      ∀ i < 6, (s.restore chip).regs (0x600060e0 + i * 4) =
        savedRegs chip s.params (0x600060e0 + i * 4) := by
  obtain ⟨⟨hparams, hwords⟩, hregs, -⟩ := Words.foldl_modify
    (fun t : Pbus => t.params = s.params ∧ t.words = s.words) Pbus.regs
    (fun i => 0x600060e0 + i * 4) (fun i _ => savedRegs chip s.params (0x600060e0 + i * 4))
    (fun t i => t.writeRegister (0x600060e0 + i * 4) (read t.params (saved chip + i * 4) 4))
    (n := 6) (fun i _ j _ h => by omega)
    (fun t i _ ht => by
      refine ⟨⟨ht.1, (writeRegister_words_of_ne (by omega) _ t).trans ht.2⟩, ?_⟩
      rw [savedRegs, Nat.add_sub_cancel_left, ← ht.1]
      rfl)
    (s := s) ⟨rfl, rfl⟩
  exact ⟨hparams, hwords, hregs⟩

/-! ## Runs -/

/-- The steps of a run: the initialization, the wakeup, a sleep in which the range registers take
any values, stores of other code to registers and parameters that are not of the PBUS, and other
bits in the word with the flag. -/
inductive Event where
  | bb
  | wakeup
  | sleep (ranges : Fin 6 → BitVec 32)
  | register (address : Nat) (value : BitVec 32)
  | param (offset : Nat) (value : BitVec 8)
  | flag (mask : BitVec 32)

def step (chip : PhyChip) (s : Pbus) : Event → Pbus
  | .bb => s.bb chip
  | .wakeup => s.restore chip
  | .sleep ranges =>
      { s with
        regs := fun address =>
          if h : 0x600060e0 ≤ address ∧ address < 0x600060f8 then
            ranges ⟨(address - 0x600060e0) / 4, by omega⟩
          else s.regs address }
  | .register address value => s.writeRegister address value
  | .param offset value => { s with params := fill s.params offset 1 fun _ => value }
  | .flag mask => { s with params := write s.params 0x120 4 (read s.params 0x120 4 ||| mask) }

def Event.Allowed (chip : PhyChip) : Event → Prop
  | .register address _ =>
      address ≠ 0x600060c8 ∧ address ≠ 0x600060cc ∧ (address < 0x600060e0 ∨ 0x600060f8 ≤ address)
  | .param offset _ =>
      (offset < 0x120 ∨ 0x124 ≤ offset) ∧ (offset < saved chip ∨ saved chip + 24 ≤ offset)
  | .flag mask => mask &&& 0x10000#32 = 0#32
  | _ => True

/-- Whether the programs are in the memory and whether the range registers describe them. -/
inductive Phase where
  | blank
  | live
  | asleep
deriving DecidableEq, Repr

def Phase.next : Phase → Event → Phase
  | .blank, .bb => .live
  | .asleep, .wakeup => .live
  | .live, .sleep _ => .asleep
  | phase, _ => phase

/-- All programs of the chip, as the registers describe them. -/
def Described (chip : PhyChip) (regs : Registers) (words : BitVec 8 → BitVec 32) : Prop :=
  AllLoaded regs words 0 0 (programs chip)

def Flagged (s : Pbus) : Prop := read s.params 0x120 4 &&& 0x10000#32 ≠ 0#32

variable {chip : PhyChip} {s : Pbus}

theorem programs_length (chip : PhyChip) : (programs chip).length = 12 := by cases chip <;> rfl

/-- Only the six range registers and the memory matter. -/
theorem Described.congr {regs regs' : Registers} {words words' : BitVec 8 → BitVec 32}
    (h : Described chip regs words)
    (hregs : ∀ i < 6, regs' (0x600060e0 + i * 4) = regs (0x600060e0 + i * 4))
    (hwords : words' = words) : Described chip regs' words' := by
  refine AllLoaded.congr h (fun j hj => get_congr (hregs (j / 2) ?_)) hwords
  rw [programs_length] at hj
  omega

theorem saved_bounds (chip : PhyChip) : 0x124 ≤ saved chip := by cases chip <;> decide

theorem savedRegs_congr {params params' : ByteMem}
    (h : ∀ a, saved chip ≤ a → a < saved chip + 24 → params' a = params a) :
    ∀ i < 6, savedRegs chip params' (0x600060e0 + i * 4) =
      savedRegs chip params (0x600060e0 + i * 4) := by
  intro i hi
  rw [savedRegs, savedRegs]
  refine read_congr fun j hj => h _ ?_ ?_ <;> omega

theorem flagged_congr {s s' : Pbus} (h : ∀ a, 0x120 ≤ a → a < 0x124 → s'.params a = s.params a) :
    s'.Flagged ↔ s.Flagged := by
  have hread : read s'.params 0x120 4 = read s.params 0x120 4 :=
    read_congr fun j hj => h _ (by omega) (by omega)
  rw [Flagged, Flagged, hread]

/-- A store to the word with the flag. -/
theorem read_flags (m : ByteMem) (value : BitVec 32) :
    read (write m 0x120 4 value) 0x120 4 = value := by
  rw [read_write_of_le _ _ _ (Nat.le_refl 4), BitVec.setWidth_eq, BitVec.setWidth_eq]

theorem write_flags_kept (m : ByteMem) (value : BitVec 32) :
    ∀ i < 6, savedRegs chip (write m 0x120 4 value) (0x600060e0 + i * 4) =
      savedRegs chip m (0x600060e0 + i * 4) :=
  savedRegs_congr fun a ha _ => fill_of_not_mem (Or.inr (by have := saved_bounds chip; omega))

/-- After `mem` the registers and the saved registers describe the programs. -/
theorem mem_spec (chip : PhyChip) (s : Pbus) :
    Described chip (s.mem chip).regs (s.mem chip).words ∧
      Described chip (savedRegs chip (s.mem chip).params) (s.mem chip).words := by
  have hne : ∀ program ∈ programs chip, program ≠ [] := by cases chip <;> decide
  have hsize : 0 + size (programs chip) ≤ 256 := by cases chip <;> decide
  obtain ⟨hall, -, -, -⟩ := load_spec (k := 0) hne hsize s
  obtain ⟨hregs, hwords, hsaved, -⟩ := save_spec chip (s.load 0 0 (programs chip))
  rw [mem, hregs, hwords]
  exact ⟨hall, Described.congr hall hsaved rfl⟩

/-- What holds between two steps. -/
structure Sound (chip : PhyChip) (phase : Phase) (s : Pbus) : Prop where
  flag : s.Flagged ↔ phase ≠ .blank
  kept : phase ≠ .blank → Described chip (savedRegs chip s.params) s.words
  live : phase = .live → Described chip s.regs s.words

variable {phase : Phase}

theorem Sound.bb (h : s.Sound chip phase) : (s.bb chip).Sound chip (phase.next .bb) := by
  by_cases hblank : phase = .blank
  · have hclear : read s.params 0x120 4 &&& 0x10000#32 = 0#32 := by
      by_contra hset
      exact h.flag.mp hset hblank
    obtain ⟨hlive, hkept⟩ := mem_spec chip s
    rw [Pbus.bb, if_pos hclear, hblank]
    refine ⟨?_, fun _ => hkept.congr (write_flags_kept _ _) rfl, fun _ => hlive⟩
    refine iff_of_true ?_ (by decide)
    rw [Flagged, read_flags, Register.or_and_mask]
    decide
  · have hset : ¬ read s.params 0x120 4 &&& 0x10000#32 = 0#32 := h.flag.mpr hblank
    have hphase : phase.next .bb = phase := by
      cases phase with
      | blank => exact absurd rfl hblank
      | live => rfl
      | asleep => rfl
    rw [Pbus.bb, if_neg hset, hphase]
    exact h

theorem Sound.wakeup (h : s.Sound chip phase) :
    (s.restore chip).Sound chip (phase.next .wakeup) := by
  obtain ⟨hparams, hwords, hregs⟩ := restore_spec chip s
  have hblank : phase.next .wakeup ≠ .blank ↔ phase ≠ .blank := by
    cases phase <;> simp [Phase.next]
  have hkept : phase ≠ .blank →
      Described chip (savedRegs chip (s.restore chip).params) (s.restore chip).words := by
    rw [hparams, hwords]
    exact h.kept
  refine ⟨?_, fun hne => hkept (hblank.mp hne), fun hlive => ?_⟩
  · rw [hblank, ← h.flag, Flagged, hparams, Flagged]
  · have hne : phase ≠ .blank := hblank.mp (by rw [hlive]; decide)
    refine (hkept hne).congr (fun i hi => ?_) rfl
    rw [hregs i hi, hparams]

theorem Sound.sleep (h : s.Sound chip phase) (ranges : Fin 6 → BitVec 32) :
    (step chip s (.sleep ranges)).Sound chip (phase.next (.sleep ranges)) := by
  cases phase with
  | blank => exact ⟨h.flag, h.kept, nofun⟩
  | live =>
      have hflag : s.Flagged := h.flag.mpr (by decide)
      exact ⟨iff_of_true hflag (by simp [Phase.next]), fun _ => h.kept (by decide), nofun⟩
  | asleep => exact ⟨h.flag, h.kept, nofun⟩

/-- A step of other code. -/
theorem Sound.other (h : s.Sound chip phase) {s' : Pbus} (hflag : s'.Flagged ↔ s.Flagged)
    (hsaved : ∀ i < 6, savedRegs chip s'.params (0x600060e0 + i * 4) =
      savedRegs chip s.params (0x600060e0 + i * 4))
    (hregs : ∀ i < 6, s'.regs (0x600060e0 + i * 4) = s.regs (0x600060e0 + i * 4))
    (hwords : s'.words = s.words) : s'.Sound chip phase :=
  ⟨hflag.trans h.flag, fun hne => (h.kept hne).congr hsaved hwords,
    fun hlive => (h.live hlive).congr hregs hwords⟩

theorem Sound.step (h : s.Sound chip phase) {e : Event} (he : e.Allowed chip) :
    (Pbus.step chip s e).Sound chip (phase.next e) := by
  cases e with
  | bb => exact h.bb
  | wakeup => exact h.wakeup
  | sleep ranges => exact h.sleep ranges
  | register address value =>
      obtain ⟨hcontrol, -, hrange⟩ := he
      have hphase : phase.next (.register address value) = phase := by cases phase <;> rfl
      rw [hphase]
      refine h.other Iff.rfl (fun _ _ => rfl) (fun i hi => ?_)
        (writeRegister_words_of_ne hcontrol value s)
      rw [Pbus.step, writeRegister_regs, Function.update_of_ne (by omega)]
  | param offset value =>
      obtain ⟨hflag, hsaved⟩ := he
      have hphase : phase.next (.param offset value) = phase := by cases phase <;> rfl
      rw [hphase]
      have hfill : ∀ a, a < offset ∨ offset + 1 ≤ a →
          (Pbus.step chip s (.param offset value)).params a = s.params a := by
        intro a ha
        simp only [Pbus.step]
        exact fill_of_not_mem ha
      refine h.other (flagged_congr fun a ha ha' => hfill a ?_)
        (savedRegs_congr fun a ha ha' => hfill a ?_) (fun _ _ => rfl) rfl
      · omega
      · omega
  | flag mask =>
      have hphase : phase.next (.flag mask) = phase := by cases phase <;> rfl
      rw [hphase]
      refine h.other ?_ (write_flags_kept _ _) (fun _ _ => rfl) rfl
      rw [Flagged, Flagged]
      simp only [Pbus.step]
      rw [read_flags, Register.or_and_of_disjoint]
      rw [BitVec.and_comm]
      exact he

theorem Sound.run (h : s.Sound chip phase) {es : List Event} (hes : ∀ e ∈ es, e.Allowed chip) :
    (es.foldl (Pbus.step chip) s).Sound chip (es.foldl Phase.next phase) := by
  induction es generalizing s phase with
  | nil => exact h
  | cons e es ih =>
      obtain ⟨he, hrest⟩ := List.forall_mem_cons.mp hes
      exact ih (h.step he) hrest

/-- Whatever the order of initializations, sleeps and wakeups: once `bb` was called, the memory
holds all programs and the saved registers describe them, and while the RF is awake the range
registers do, each with the first and the last address of its program. -/
theorem programs_of_run (chip : PhyChip) {s : Pbus} (h : ¬s.Flagged) {es : List Event}
    (hes : ∀ e ∈ es, e.Allowed chip) :
    (es.foldl Phase.next .blank ≠ .blank →
      Described chip (savedRegs chip (es.foldl (Pbus.step chip) s).params)
        (es.foldl (Pbus.step chip) s).words) ∧
      (es.foldl Phase.next .blank = .live →
        Described chip (es.foldl (Pbus.step chip) s).regs (es.foldl (Pbus.step chip) s).words) := by
  have hstart : s.Sound chip .blank :=
    ⟨iff_of_false h fun hne => hne rfl, fun hne => absurd rfl hne, nofun⟩
  have hend := hstart.run hes
  exact ⟨hend.kept, hend.live⟩

/-- An initialization, a sleep and a second initialization before the wakeup. -/
def sleepEvents : List Event := [.bb, .sleep fun _ => 0, .bb, .register 0x6000610c 1, .wakeup]

theorem programs_of_run_sleep :
    Described .esp32s3
      (sleepEvents.foldl (Pbus.step .esp32s3) ⟨fun _ => 0, fun _ => 0, fun _ => 0⟩).regs
      (sleepEvents.foldl (Pbus.step .esp32s3) ⟨fun _ => 0, fun _ => 0, fun _ => 0⟩).words := by
  have hflag : ¬ Flagged ⟨fun _ => 0, fun _ => 0, fun _ => 0⟩ := not_not.mpr (by decide)
  have hes : ∀ e ∈ sleepEvents, e.Allowed .esp32s3 := by simp [sleepEvents, Event.Allowed]
  exact (programs_of_run .esp32s3 hflag hes).2 rfl

end Pbus

end EspWifiHal
