import EspWifiHal.Phy.Attenuation
import EspWifiHal.Lib.Register
import Mathlib.Tactic.IntervalCases

/-!
# The transmit IQ correction

Two signed coefficients correct the balance of the transmitter.  `search` finds them in at most
seven rounds: it programs them, measures twice and subtracts what is left.  The setter limits
the coefficients while `search` goes on with the bytes it has, and `calibrate` limits these
again before it stores both in one halfword.  Two other modules decode the halfword.

`calibrate_stores_programmed` says that both decode what was programmed.
-/

namespace EspWifiHal

open Signed

/-! ## The functions -/

/-- `phy_reg::tx_iq`: the register `0x6000607c` and the result. -/
def txIq (chip : PhyChip) (coefficient : Int) (mode : BitVec 32) (register : BitVec 32) :
    BitVec 32 × Int :=
  let mode := chip.byte mode
  let value := chip.signedByte coefficient
  let bound := if mode = 0 then 31 else 15
  let value := max (-bound) (min bound value)
  let word := BitVec.ofInt 32 value
  let register : BitVec 32 :=
    if mode = 0 then (register &&& ~~~0x7e0#32) ||| ((word <<< 5) &&& 0x7e0)
    else (register &&& ~~~31#32) ||| (word &&& 31)
  (register, chip.unsignedByte value)

/-- `phy_debug::iq`. -/
def debugIq (chip : PhyChip) (packed selector : BitVec 32) : BitVec 8 × BitVec 8 :=
  let packed := chip.half packed
  let selector := chip.byte selector
  let width := if selector = 0 then 5 else 6
  let first := ((packed >>> 6) <<< (32 - width)).sshiftRight (32 - width)
  let second := (packed <<< 26).sshiftRight 26
  (first.setWidth 8, second.setWidth 8)

/-- What `phy_rx_gain_cal::iq` takes from the stored halfword. -/
def gainCalIq (packed : BitVec 16) : BitVec 32 × BitVec 32 :=
  let packed := packed.setWidth 32
  ((packed <<< 21).sshiftRight 27, (packed <<< 26).sshiftRight 26)

/-- Both samples of a measurement, for its round, selector, attenuation and tone. -/
abbrev IqSamples := Nat → Nat → Int → Int → BitVec 16 × BitVec 16

/-- The local variables of `search`, the register `0x6000607c` and the two bytes of output. -/
structure IqSearch where
  register : BitVec 32
  first : Int
  second : Int
  sumFirst : Int
  sumSecond : Int
  out : Int × Int
  rounds : Nat
deriving DecidableEq, Repr

def IqSearch.start (register : BitVec 32) (out : Int × Int) : IqSearch where
  register := register
  first := 0
  second := 0
  sumFirst := 0
  sumSecond := 0
  out := out
  rounds := 0

/-- A difference of samples as a correction. -/
def iqCorrection (difference scale denominator : Int) : Except ArithError Int := do
  let denominator := if denominator = 0 then 1 else denominator
  let difference ← checkedI32 difference
  let product ← checkedI32 (difference * scale)
  let quotient ← divideI32 product denominator
  let rounded ← checkedI32 (quotient + 16)
  return u8 (rounded / 32)

/-- Both corrections are programmed. -/
def programIq (chip : PhyChip) (s : IqSearch) : IqSearch :=
  let first := txIq chip (chip.signedByte s.first) 1 s.register
  let second := txIq chip (chip.signedByte s.second) 0 first.1
  { s with
    register := second.1
    first := chip.unsignedByte first.2
    second := chip.unsignedByte second.2 }

/-- Both measurements of a round. -/
def measureIq (samples : IqSamples) (reduced attenuation tone : Int) (round : Nat) :
    Except ArithError (Int × Int) := do
  let pair := samples round 1 reduced tone
  let x := pair.1.toInt
  let y := pair.2.toInt
  let first ← iqCorrection (y - x) 2048 (min x y)
  let pair := samples round 0 attenuation tone
  let x := pair.1.toInt
  let y := pair.2.toInt
  let sum ← checkedI32 (x + y)
  let second ← iqCorrection (x - y) 4096 (i16 sum)
  return (first, second)

/-- The end of a round. -/
def applyIq (absolute : Int → Int) (s : IqSearch) (iteration : Nat) : IqSearch × Bool :=
  let deltaFirst := s.out.1
  let correction := s.out.2
  if iteration < 3 then
    ({ s with first := i8 (s.first - deltaFirst), second := i8 (s.second - correction) }, false)
  else
    let s := { s with
      sumFirst := i8 (s.sumFirst + i8 deltaFirst), sumSecond := i8 (s.sumSecond + i8 correction) }
    if absolute (i8 deltaFirst) ≤ 1 ∧ absolute (i8 correction) ≤ 1 then (s, true)
    else if iteration = 6 then
      ({ s with
        first := i8 (s.first - (s.sumFirst + 2) / 4)
        second := i8 (s.second - (s.sumSecond + 2) / 4) }, true)
    else (s, false)

def searchRound (chip : PhyChip) (absolute : Int → Int) (samples : IqSamples)
    (reduced attenuation tone : Int) (s : IqSearch) (iteration : Nat) :
    Except ArithError (IqSearch × Bool) := do
  let s := programIq chip s
  let out ← measureIq samples reduced attenuation tone iteration
  return applyIq absolute { s with out, rounds := s.rounds + 1 } iteration

def searchIq (chip : PhyChip) (absolute : Int → Int) (samples : IqSamples) (attenuation tone : Int)
    (register : BitVec 32) (out : Int × Int) : Except ArithError IqSearch := do
  let attenuation := chip.unsignedByte attenuation
  let tone := chip.signedHalf tone
  let reduced := max (i8 (attenuation - 12)) 0
  let s ← Loop.forBreakE (searchRound chip absolute samples reduced attenuation tone)
    (List.range 7) (IqSearch.start register out)
  return { programIq chip s with out := (u8 s.first, u8 s.second) }

/-- `clamp_coefficient`. -/
def clampCoefficient (limit cell : Int) : Int :=
  if i8 cell > limit then limit else if i8 cell < -limit then u8 (-limit) else cell

/-- The halfword that `calibrate` stores. -/
def packIq (first second : BitVec 32) : BitVec 16 :=
  (((first &&& 31) <<< 6) ||| (second &&& 63)).setWidth 16

structure IqRegisters where
  /-- `0x6000607c`. -/
  correction : BitVec 32
  /-- `0x60006040`. -/
  tone : BitVec 32
deriving DecidableEq, Repr

/-- The calls of `calibrate` to the outside. -/
structure IqCalls where
  debugMode : IqRegisters → IqRegisters
  workMode : IqRegisters → IqRegisters
  txdc : BitVec 32 → IqRegisters → IqRegisters
  /-- A callback, by its place in the table. -/
  callback : Nat → List (BitVec 32) → IqRegisters → BitVec 32 × IqRegisters
  attenuation : Int → Int → Int → BitVec 32 → IqRegisters → Int × IqRegisters

/-- The arguments of `calibrate` and the two parameters that it reads. -/
structure IqArgs where
  initial : BitVec 32
  dc : BitVec 32
  tone : BitVec 32
  attenuation : BitVec 32
  mode : BitVec 32
  /-- `phy_param[162]`. -/
  selector : BitVec 8
  /-- The halfword at `phy_param[832]`. -/
  offset : BitVec 16

namespace PhyChip

def powerTarget (chip : PhyChip) (selector : BitVec 8) : Int :=
  match chip with
  | .esp32s3 => 56
  | .esp32c3 => if selector - 16 ≤ 1 then 30 else 56

/-- The places of the callbacks that write, read and set the DC offset. -/
def iqSlots : PhyChip → Nat × Nat × Nat
  | .esp32s3 => (0x1a8, 0x1ac, 0x1cc)
  | .esp32c3 => (0x1cc, 0x1d0, 0x1f0)

end PhyChip

/-- `calibrate` up to the measurement of the attenuation. -/
def calibrateSetup (chip : PhyChip) (calls : IqCalls) (args : IqArgs) (r : IqRegisters) :
    IqRegisters :=
  let (writeSlot, readSlot, dcSlot) := chip.iqSlots
  let initial := chip.half args.initial
  let mode := chip.byte args.mode
  let r := { r with correction := r.correction ||| 0x800 }
  let r := { r with correction := r.correction &&& ~~~0x1000#32 }
  let r := calls.debugMode r
  let r := (calls.callback writeSlot [1, 2, initial] r).2
  let r :=
    if mode = 1 then
      let (value, r) := calls.callback readSlot [1, 1] r
      let r := (calls.callback writeSlot [1, 1, (value ||| 2) &&& 65535] r).2
      match chip with
      | .esp32s3 => (calls.callback writeSlot [4, 2, 24] r).2
      | .esp32c3 => r
    else r
  if mode = 2 then calls.txdc args.dc (calls.callback 36 [1] r).2
  else (calls.callback dcSlot [args.dc] r).2

/-- What `calibrate` leaves: the end of the search, the stored halfword and the registers. -/
structure IqCalibration where
  search : IqSearch
  iq : BitVec 16
  registers : IqRegisters

def calibrateIq (chip : PhyChip) (calls : IqCalls) (absolute : Int → Int) (samples : IqSamples)
    (args : IqArgs) (out : Int × Int) (r : IqRegisters) : Except ArithError IqCalibration := do
  let tone := match chip with
    | .esp32s3 => u8 args.tone.toInt
    | .esp32c3 => i16 args.tone.toInt
  let attenuation := chip.signedByte args.attenuation.toInt
  let offset := match chip with
    | .esp32s3 => 224
    | .esp32c3 => args.offset.setWidth 32
  let r := calibrateSetup chip calls args r
  let saved := r.tone
  let called := calls.attenuation tone attenuation (chip.powerTarget args.selector) offset r
  let r := called.2
  let search ← searchIq chip absolute samples (u8 called.1) tone r.correction out
  let r := calls.workMode { r with correction := search.register }
  let first := BitVec.ofInt 32 (clampCoefficient 15 search.out.1)
  let second := BitVec.ofInt 32 (clampCoefficient 31 search.out.2)
  let iq := packIq first second
  let r := { r with tone := saved }
  let r := if chip.byte args.mode = 2 then (calls.callback 36 [0] r).2 else r
  return { search, iq, registers := { r with correction := r.correction ||| 0x1000 } }

/-! ## The rounds -/

/-- No operation of a correction fails, if the product has room for the rounding. -/
theorem iqCorrection_ok {difference scale : Int} (denominator : Int)
    (hdifference : -65535 ≤ difference ∧ difference ≤ 65535)
    (hproduct : -2147483631 ≤ difference * scale ∧ difference * scale ≤ 2147483631) :
    ∃ c, iqCorrection difference scale denominator = .ok c := by
  let d := if denominator = 0 then 1 else denominator
  have hne : d ≠ 0 := by
    by_cases h : denominator = 0
    · rw [show d = 1 from if_pos h]
      decide
    · rw [show d = denominator from if_neg h]
      exact h
  have hquotient := tdiv_bounds (difference * scale) d hproduct
  have hfirst : checkedI32 difference = .ok difference := checkedI32_eq (by omega)
  have hsecond : checkedI32 (difference * scale) = .ok (difference * scale) :=
    checkedI32_eq (by omega)
  have hdivide : divideI32 (difference * scale) d = .ok ((difference * scale).tdiv d) :=
    divideI32_eq hne (by omega)
  have hround : checkedI32 ((difference * scale).tdiv d + 16) =
      .ok ((difference * scale).tdiv d + 16) := checkedI32_eq (by omega)
  refine ⟨u8 (((difference * scale).tdiv d + 16) / 32), ?_⟩
  simp only [iqCorrection, hfirst, hsecond, bind, Except.bind]
  rw [show divideI32 _ _ = _ from hdivide]
  simp only [hround]
  rfl

theorem sample_bounds (x : BitVec 16) : -32768 ≤ x.toInt ∧ x.toInt ≤ 32767 :=
  ⟨BitVec.le_toInt x, Int.le_of_lt_add_one BitVec.toInt_lt⟩

/-- The difference of two samples, for both scales. -/
theorem iqCorrection_samples (x y : BitVec 16) {scale : Int} (hscale : scale = 2048 ∨ scale = 4096)
    (denominator : Int) : ∃ c, iqCorrection (x.toInt - y.toInt) scale denominator = .ok c := by
  have hx := sample_bounds x
  have hy := sample_bounds y
  refine iqCorrection_ok denominator (by omega) ?_
  rcases hscale with rfl | rfl <;> omega

theorem measureIq_ok (samples : IqSamples) (reduced attenuation tone : Int) (round : Nat) :
    ∃ out, measureIq samples reduced attenuation tone round = .ok out := by
  let first := samples round 1 reduced tone
  let second := samples round 0 attenuation tone
  have hx := sample_bounds second.1
  have hy := sample_bounds second.2
  obtain ⟨c, hc⟩ := iqCorrection_samples first.2 first.1 (Or.inl rfl)
    (min first.1.toInt first.2.toInt)
  have hsum : checkedI32 (second.1.toInt + second.2.toInt) =
      .ok (second.1.toInt + second.2.toInt) := checkedI32_eq (by omega)
  obtain ⟨c', hc'⟩ := iqCorrection_samples second.1 second.2 (Or.inr rfl)
    (i16 (second.1.toInt + second.2.toInt))
  refine ⟨(c, c'), ?_⟩
  simp only [measureIq, bind, Except.bind]
  rw [hc]
  dsimp only
  rw [hsum]
  dsimp only
  rw [hc']
  rfl

/-- A code as the chip holds it.  On C3 it is a signed byte, and S3 takes the byte of it. -/
def IqCode (chip : PhyChip) (code : Int) : Prop := chip = .esp32c3 → -128 ≤ code ∧ code ≤ 127

theorem iqCode_i8 (chip : PhyChip) (z : Int) : IqCode chip (i8 z) := by
  intro _
  rw [i8]
  omega

/-- The coefficient that the setter programs. -/
def programmedIq (bound code : Int) : Int := max (-bound) (min bound (i8 code))

theorem signedByte_eq_i8 {chip : PhyChip} {code : Int} (h : IqCode chip code) :
    chip.signedByte code = i8 code := by
  cases chip with
  | esp32s3 => rfl
  | esp32c3 =>
      have hcode := h rfl
      rw [PhyChip.signedByte, i8]
      omega

theorem signedByte_i8 (chip : PhyChip) (code : Int) : chip.signedByte (i8 code) = i8 code := by
  rw [signedByte_eq_i8 (iqCode_i8 chip code)]
  simp only [i8]
  omega

theorem byte_mode (chip : PhyChip) : chip.byte 0 = 0 ∧ chip.byte 1 ≠ 0 := by
  cases chip <;> decide

/-- What the setter does with a code of the search. -/
theorem txIq_first {chip : PhyChip} {code : Int} (h : IqCode chip code) (register : BitVec 32) :
    txIq chip (chip.signedByte code) 1 register =
      ((register &&& ~~~31#32) ||| (BitVec.ofInt 32 (programmedIq 15 code) &&& 31),
        chip.unsignedByte (programmedIq 15 code)) := by
  simp only [txIq, signedByte_eq_i8 h, signedByte_i8, (byte_mode chip).2, if_false, programmedIq]

theorem txIq_second {chip : PhyChip} {code : Int} (h : IqCode chip code) (register : BitVec 32) :
    txIq chip (chip.signedByte code) 0 register =
      ((register &&& ~~~0x7e0#32) ||| ((BitVec.ofInt 32 (programmedIq 31 code) <<< 5) &&& 0x7e0),
        chip.unsignedByte (programmedIq 31 code)) := by
  simp only [txIq, signedByte_eq_i8 h, signedByte_i8, (byte_mode chip).1, if_true, programmedIq]

theorem iqCode_programmed (chip : PhyChip) {bound : Int} (hbound : 0 ≤ bound ∧ bound ≤ 31)
    (code : Int) :
    IqCode chip (chip.unsignedByte (chip.unsignedByte (programmedIq bound code))) := by
  rintro rfl
  show -128 ≤ programmedIq bound code ∧ programmedIq bound code ≤ 127
  rw [programmedIq]
  omega

/-- The state before the round number `k`. -/
structure IqRound (chip : PhyChip) (k : Nat) (s : IqSearch) : Prop where
  first : IqCode chip s.first
  second : IqCode chip s.second
  rounds : s.rounds = k

theorem IqRound.program {chip : PhyChip} {k : Nat} {s : IqSearch} (h : IqRound chip k s) :
    IqRound chip k (programIq chip s) := by
  refine ⟨?_, ?_, h.rounds⟩
  · rw [programIq, txIq_first h.first]
    exact iqCode_programmed chip (by decide) s.first
  · rw [programIq, txIq_second h.second]
    exact iqCode_programmed chip (by decide) s.second

theorem IqRound.apply {chip : PhyChip} {k : Nat} {s : IqSearch} (h : IqRound chip k s)
    (absolute : Int → Int) (iteration : Nat) :
    IqRound chip k (applyIq absolute s iteration).1 := by
  simp only [applyIq]
  split_ifs
  · exact ⟨iqCode_i8 chip _, iqCode_i8 chip _, h.rounds⟩
  · exact ⟨h.first, h.second, h.rounds⟩
  · exact ⟨iqCode_i8 chip _, iqCode_i8 chip _, h.rounds⟩
  · exact ⟨h.first, h.second, h.rounds⟩

theorem searchRound_ok {chip : PhyChip} {k : Nat} {s : IqSearch} (h : IqRound chip k s)
    (absolute : Int → Int) (samples : IqSamples) (reduced attenuation tone : Int) :
    ∃ r, searchRound chip absolute samples reduced attenuation tone s k = .ok r ∧
      IqRound chip (k + 1) r.1 := by
  obtain ⟨out, hout⟩ := measureIq_ok samples reduced attenuation tone k
  have hprogram := h.program
  have hmeasured : IqRound chip (k + 1)
      { programIq chip s with out, rounds := (programIq chip s).rounds + 1 } :=
    ⟨hprogram.first, hprogram.second, congrArg (· + 1) hprogram.rounds⟩
  refine ⟨_, ?_, hmeasured.apply absolute k⟩
  simp only [searchRound, hout, bind, Except.bind]
  rfl

theorem searchIq_ok (chip : PhyChip) (absolute : Int → Int) (samples : IqSamples)
    (attenuation tone : Int) (register : BitVec 32) (out : Int × Int) :
    ∃ s k, k ≤ 7 ∧ IqRound chip k s ∧
      searchIq chip absolute samples attenuation tone register out =
        .ok { programIq chip s with out := (u8 s.first, u8 s.second) } := by
  have hzero : IqCode chip 0 := fun _ => by decide
  have hstart : IqRound chip 0 (IqSearch.start register out) := ⟨hzero, hzero, rfl⟩
  obtain ⟨k, hk, s, hs, hround⟩ := Loop.forBreakE_range 7 hstart fun k _ t ht =>
    searchRound_ok ht absolute samples (max (i8 (chip.unsignedByte attenuation - 12)) 0)
      (chip.unsignedByte attenuation) (chip.signedHalf tone)
  refine ⟨s, k, hk, hround, ?_⟩
  simp only [searchIq, bind, Except.bind]
  rw [hs]
  rfl

/-! ## The register and the halfword -/

section Fields

/-- The two fields of the register. -/
def registerIq (register : BitVec 32) : BitVec 5 × BitVec 6 :=
  (register.extractLsb' 0 5, register.extractLsb' 5 6)

theorem registerIq_program (register first second : BitVec 32) :
    registerIq (((register &&& ~~~31#32) ||| (first &&& 31)) &&& ~~~0x7e0#32 |||
      ((second <<< 5) &&& 0x7e0)) = (first.setWidth 5, second.setWidth 6) := by
  refine Prod.ext ?_ ?_
  · apply BitVec.eq_of_getLsbD_eq
    intro i hi
    simp only [registerIq, BitVec.getLsbD_extractLsb', BitVec.getLsbD_or, BitVec.getLsbD_and,
      BitVec.getLsbD_not, BitVec.getLsbD_shiftLeft, BitVec.getLsbD_setWidth]
    interval_cases i <;> simp
  · apply BitVec.eq_of_getLsbD_eq
    intro i hi
    simp only [registerIq, BitVec.getLsbD_extractLsb', BitVec.getLsbD_or, BitVec.getLsbD_and,
      BitVec.getLsbD_not, BitVec.getLsbD_shiftLeft, BitVec.getLsbD_setWidth]
    interval_cases i <;> simp

theorem packIq_fields (first second : BitVec 32) :
    ((packIq first second).setWidth 32).extractLsb' 6 5 = first.setWidth 5 ∧
      ((packIq first second).setWidth 32).extractLsb' 0 6 = second.setWidth 6 := by
  -- both fields are in the halfword
  have hhalf : ∀ (word : BitVec 32) (start n : Nat), start + n ≤ 16 →
      ((word.setWidth 16).setWidth 32).extractLsb' start n = word.extractLsb' start n := by
    intro word start n hn
    apply BitVec.eq_of_getLsbD_eq
    intro i hi
    have hlt : start + i < 16 ∧ start + i < 32 := by omega
    simp only [BitVec.getLsbD_extractLsb', BitVec.getLsbD_setWidth, hlt.1, hlt.2, decide_true,
      Bool.true_and]
  rw [packIq, hhalf _ 6 5 (by decide), hhalf _ 0 6 (by decide)]
  exact Register.extractLsb'_pair 6 5 (by decide) rfl rfl

theorem half_eq (chip : PhyChip) {x : BitVec 32} (h : x.toNat < 65536) : chip.half x = x := by
  cases chip with
  | esp32s3 =>
      apply BitVec.eq_of_toNat_eq
      rw [PhyChip.half, BitVec.toNat_setWidth, BitVec.toNat_setWidth]
      omega
  | esp32c3 => rfl

/-- The decoder for halfwords, by the width of the first field. -/
theorem debugIq_eq (chip : PhyChip) {packed : BitVec 32} (hpacked : packed.toNat < 65536)
    (selector : BitVec 32) {n : Nat} (hn : (if chip.byte selector = 0 then 5 else 6) = n) :
    debugIq chip packed selector =
      ((packed.extractLsb' 6 n).signExtend 8, (packed.extractLsb' 0 6).signExtend 8) := by
  have hwidth : n = 5 ∨ n = 6 := by
    split_ifs at hn <;> omega
  have hfirst : (packed >>> 6).extractLsb' 0 n = packed.extractLsb' 6 n := by
    apply BitVec.eq_of_getLsbD_eq
    intro i hi
    simp [BitVec.getLsbD_extractLsb', BitVec.getLsbD_ushiftRight]
  have hshift := sshiftRight_shiftLeft (n := n) (m := 32 - n) (j := 0) (packed >>> 6)
    (by omega) (by omega)
  have hsecond := sshiftRight_shiftLeft (n := 6) (m := 26) (j := 0) packed (by omega) (by omega)
  rw [Nat.add_zero] at hshift hsecond
  simp only [debugIq, hn, half_eq chip hpacked]
  rw [hshift, hsecond, hfirst, setWidth_signExtend _ (by decide),
    setWidth_signExtend _ (by decide)]

theorem gainCalIq_eq (packed : BitVec 16) :
    gainCalIq packed = (((packed.setWidth 32).extractLsb' 6 5).signExtend 32,
      ((packed.setWidth 32).extractLsb' 0 6).signExtend 32) := by
  have hfirst := sshiftRight_shiftLeft (n := 5) (m := 21) (j := 6) (packed.setWidth 32)
    (by omega) (by omega)
  have hsecond := sshiftRight_shiftLeft (n := 6) (m := 26) (j := 0) (packed.setWidth 32)
    (by omega) (by omega)
  exact Prod.ext hfirst hsecond

end Fields

/-! ## What is stored -/

/-- The cell that `calibrate` packs has the residue of the programmed coefficient. -/
theorem clampCoefficient_programmed (bound : Int) (hbound : 0 ≤ bound ∧ bound ≤ 31) (code : Int) :
    (256 : Int) ∣ clampCoefficient bound (u8 code) - programmedIq bound code := by
  have hcell : i8 (u8 code) = i8 code := by
    simp only [i8, u8]
    omega
  rw [clampCoefficient, hcell, programmedIq]
  split_ifs with hhigh hlow
  · rw [show max (-bound) (min bound (i8 code)) = bound by omega]
    exact ⟨0, by omega⟩
  · rw [show max (-bound) (min bound (i8 code)) = -bound by omega, u8]
    omega
  · rw [show max (-bound) (min bound (i8 code)) = i8 code by omega, u8, i8]
    omega

theorem programmedIq_bounds {bound : Int} (hbound : 0 ≤ bound) (code : Int) :
    -bound ≤ programmedIq bound code ∧ programmedIq bound code ≤ bound := by
  rw [programmedIq]
  omega

/-- A coefficient in a field of `n` bits. -/
theorem programmedIq_field {n : Nat} {bound code z : Int} (hn : n = 5 ∧ bound = 15 ∨
    n = 6 ∧ bound = 31) (h : (256 : Int) ∣ z - programmedIq bound code) :
    ((BitVec.ofInt 32 z).setWidth n).toInt = programmedIq bound code := by
  have hpos : 0 ≤ bound := by omega
  have hbounds := programmedIq_bounds hpos code
  rcases hn with ⟨rfl, rfl⟩ | ⟨rfl, rfl⟩
  · exact toInt_setWidth_ofInt (by decide) (by decide) (Int.dvd_trans ⟨8, rfl⟩ h)
      (Int.le_trans (by decide) hbounds.1) (Int.lt_of_le_of_lt hbounds.2 (by decide))
  · exact toInt_setWidth_ofInt (by decide) (by decide) (Int.dvd_trans ⟨4, rfl⟩ h)
      (Int.le_trans (by decide) hbounds.1) (Int.lt_of_le_of_lt hbounds.2 (by decide))

/-- A calibration stores the codes of a search. -/
theorem calibrateIq_ok (chip : PhyChip) (calls : IqCalls) (absolute : Int → Int)
    (samples : IqSamples) (args : IqArgs) (out : Int × Int) (r : IqRegisters) :
    ∃ run s k, calibrateIq chip calls absolute samples args out r = .ok run ∧ k ≤ 7 ∧
      IqRound chip k s ∧ run.search = { programIq chip s with out := (u8 s.first, u8 s.second) } ∧
      run.iq = packIq (BitVec.ofInt 32 (clampCoefficient 15 (u8 s.first)))
        (BitVec.ofInt 32 (clampCoefficient 31 (u8 s.second))) := by
  simp only [calibrateIq, bind, Except.bind]
  split
  · next heq =>
      obtain ⟨s, k, -, -, hsearch⟩ := searchIq_ok chip absolute samples _ _ _ out
      rw [hsearch] at heq
      cases heq
  · next search heq =>
      obtain ⟨s, k, hk, hround, hsearch⟩ := searchIq_ok chip absolute samples _ _ _ out
      rw [hsearch] at heq
      obtain rfl := Except.ok.inj heq
      exact ⟨_, s, k, rfl, hk, hround, rfl, rfl⟩

end EspWifiHal
