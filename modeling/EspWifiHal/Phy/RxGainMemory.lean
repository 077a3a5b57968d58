import EspWifiHal.Phy.DcTable
import EspWifiHal.Phy.RxIq
import EspWifiHal.Lib.Memory

/-!
# The receive gain memory

`write_memory` fills the gain memory of the receiver.  For each index it takes a gain word, the
calibration words for IQ and DC, and a stored correction, adds them up in two words of 32 bits
and hands these to a callback of the ROM.  The additions wrap and nothing is masked before, so
that the parts do not run into each other is a matter of their ranges.

`memory_words_decode` says that the two words determine all parts, for every call that a run
makes.
-/

namespace EspWifiHal

open Memory

/-! ## The function -/

def gainCoefficients : List Nat := [0, 1, 5, 13, 29]

def PhyChip.memoryStarts : PhyChip → List Nat
  | .esp32s3 => [0, 0, 0, 0, 0, 4, 4, 8, 0, 0, 0, 0, 0, 0, 0]
  | .esp32c3 => [0, 2, 1, 3, 6, 3, 12, 11, 10, 0, 0, 0, 0, 0, 0]

def PhyChip.memorySteps : PhyChip → List Nat
  | .esp32s3 => [7, 13, 10, 5, 12, 8, 5, 9, 0, 0, 0, 0, 0, 0, 0]
  | .esp32c3 => [9, 12, 11, 8, 9, 12, 4, 4, 0, 0, 0, 0, 0, 0, 0]

def PhyChip.memoryTotal (chip : PhyChip) : Nat :=
  (chip.memorySteps.take (match chip with | .esp32s3 => 8 | .esp32c3 => 6)).foldl
    (fun sum step => (sum + step) % 256) 0

/-- The arguments of `write_memory`, in their order. -/
structure MemoryArgs where
  mode : BitVec 32
  alternate : BitVec 32
  codes : Nat
  iq : Nat
  dc : Nat
  extra : Nat
  count : BitVec 32
  packed : Nat

/-- The variables of the loop. -/
structure MemoryCursor where
  index : Nat
  input : Nat
  gain : Nat
deriving DecidableEq, Repr

/-- What the two words of a call are made of. -/
structure MemoryEntry where
  word : BitVec 32
  iqValue : BitVec 32
  dcValue : BitVec 32
  /-- The halfword of the correction, which only mode 0 reads. -/
  stored : Option (BitVec 32)
deriving DecidableEq, Repr

/-- The arguments of the callback. -/
structure MemoryCall where
  entry : MemoryEntry
  first : BitVec 32
  second : BitVec 32
  index : Nat
deriving DecidableEq, Repr

/-- `count_ones` of the bits 3 to 8. -/
def gainBits (word : BitVec 32) : Nat := ((word >>> 3) &&& 63).cpop.toNat

section Function

variable (chip : PhyChip) (param : Nat) (a : MemoryArgs) (m : ByteMem)

/-- The next part of the tables of C3, when the gain has passed the present one. -/
def alternateInput (c : MemoryCursor) : Option MemoryCursor :=
  match chip with
  | .esp32s3 => some c
  | .esp32c3 => do
      let step ← chip.memorySteps[c.input]?
      let start ← chip.memoryStarts[c.input]?
      if (c.gain : Int) ≥ step + Signed.i8 start ∧ c.input ≤ 7 then
        let input := (c.input + 1) % 256
        let gain ← chip.memoryStarts[input]?
        return { c with input := input, gain := gain }
      else
        return c

/-- The gain word of an index, with the variables after it.  An index that is out of the range
of a table gives `none`. -/
def memoryWord (c : MemoryCursor) : Option (MemoryCursor × BitVec 32) :=
  if chip.byte a.alternate ≠ 0 then do
    let c ← alternateInput chip c
    let coefficient ← gainCoefficients[c.gain / 6]?
    let encoded := (coefficient * 8 + c.gain % 6) % 256
    let code := read m (a.codes + match chip with | .esp32s3 => 0 | .esp32c3 => c.input) 1
    return (c, code <<< 8 ||| BitVec.ofNat 32 encoded)
  else
    match chip with
    | .esp32s3 =>
        let word := read m (a.packed + c.index / 2 * 4 + c.index % 2 * 2) 2
        some ({ c with gain := (gainBits word * 6 + (word &&& 7).toNat) % 256 }, word)
    | .esp32c3 =>
        let value := read m (a.packed + (BitVec.ofNat 32 (c.index * 2) &&& 1020).toNat) 4
        let word := if c.index % 2 ≠ 0 then value >>> 16 else value &&& 65535
        let code := read m (a.codes + c.input) 1
        if word &&& 0xffffff00#32 ≠ code <<< 8 then
          some ({ c with input := (c.input + 1) % 256 }, word)
        else
          some (c, word)

/-- The place in `extra`, a number of 16 bits. -/
def extraOffset (value : Int) (input : Nat) : Nat :=
  match chip with
  | .esp32s3 => (Signed.u16 (value - 1)).toNat
  | .esp32c3 => (Signed.u16 ((value - 1) * 3 - 6 + input)).toNat

def memoryIq (c : MemoryCursor) (word : BitVec 32) : MemoryCursor × BitVec 32 :=
  if chip.byte a.mode = 0 ∧ chip.memoryTotal ≤ c.index then
    let value := Signed.i8 (read m (param + 0x1f2) 1).toNat
    (c, read m (a.extra + extraOffset chip value c.input * 4) 4)
  else
    let c :=
      match chip with
      | .esp32s3 =>
          let code := read m (a.codes + c.input) 1
          if word &&& 0xffffff00#32 ≠ code <<< 8 then { c with input := (c.input + 1) % 256 } else c
      | .esp32c3 => c
    (c, read m (a.iq + c.input * 4) 4)

/-- The DC word, and the halfword of the correction. -/
def memoryDc (word : BitVec 32) : BitVec 32 × Option (BitVec 32) :=
  if chip.byte a.mode ≠ 0 then
    (0x01000100, none)
  else
    let offset := if word &&& 0xf8#32 ≠ 0 then 2 else 0
    (read m (a.dc + min (gainBits word) 3 * 4) 4, some (read m (param + 0x150 + offset) 2))

end Function

namespace MemoryEntry

def correction (e : MemoryEntry) : BitVec 32 :=
  match e.stored with
  | some v => ((v >>> 7) <<< 6) ||| (v &&& 63)
  | none => 0

def hi (e : MemoryEntry) : BitVec 32 := e.dcValue >>> 16

def first (e : MemoryEntry) : BitVec 32 :=
  e.word <<< 17 + (e.iqValue >>> 16) <<< 8 + e.hi.sshiftRight 1

def second (e : MemoryEntry) (mark : BitVec 32) : BitVec 32 :=
  e.hi <<< 31 + (e.iqValue &&& 65535) <<< 22 + (e.dcValue &&& 65535) <<< 13 +
    ((e.correction <<< 2) &&& 0x1ffc) + mark

end MemoryEntry

/-- The lowest bits of the second word. -/
def memoryMark (chip : PhyChip) (mode : BitVec 32) : BitVec 32 :=
  match chip with
  | .esp32s3 => 0
  | .esp32c3 => if mode ≠ 0 then 3 else 0

def memoryIndex (chip : PhyChip) (mode : BitVec 32) (index : Nat) : Nat :=
  (index + if mode ≠ 0 then (match chip with | .esp32s3 => 83 | .esp32c3 => 80) else 0) % 256

/-- The body of the loop. -/
def memoryStep (chip : PhyChip) (param : Nat) (a : MemoryArgs) (m : ByteMem) (c : MemoryCursor) :
    Option (MemoryCursor × MemoryCall) := do
  let mode := chip.byte a.mode
  let word ← memoryWord chip a m c
  let iq := memoryIq chip param a m word.1 word.2
  let dc := memoryDc chip param a m word.2
  let e : MemoryEntry := ⟨word.2, iq.2, dc.1, dc.2⟩
  let call : MemoryCall := ⟨e, e.first, e.second (memoryMark chip mode),
    memoryIndex chip mode c.index⟩
  let gain := if chip.byte a.alternate ≠ 0 then (iq.1.gain + 1) % 256 else iq.1.gain
  return ({ iq.1 with index := (c.index + 1) % 256, gain := gain }, call)

/-- The calls that the loop makes in its first `fuel` rounds. -/
def memoryLoop (chip : PhyChip) (param : Nat) (a : MemoryArgs) (m : ByteMem) :
    Nat → MemoryCursor → List MemoryCall
  | 0, _ => []
  | fuel + 1, c =>
      if c.index < (chip.byte a.count).toNat then
        match memoryStep chip param a m c with
        | some next => next.2 :: memoryLoop chip param a m fuel next.1
        | none => []
      else
        []

def MemoryCursor.start (chip : PhyChip) (a : MemoryArgs) : MemoryCursor :=
  let alternate := chip.byte a.alternate ≠ 0
  let input := match chip with | .esp32s3 => 0 | .esp32c3 => if alternate then 6 else 0
  { index := if alternate then chip.memoryTotal else 0
    input := input
    gain := match chip with
      | .esp32s3 => 8
      | .esp32c3 => chip.memoryStarts.getD input 0 }

def writeMemory (chip : PhyChip) (param : Nat) (a : MemoryArgs) (fuel : Nat) (m : ByteMem) :
    List MemoryCall :=
  memoryLoop chip param a m fuel (.start chip a)

/-! ## The parts of the words -/

/-- The parts of the two words. -/
structure MemoryFields where
  gain : Nat
  iqHigh : Nat
  iqLow : Nat
  dcHigh : Nat
  dcLow : Nat
  magnitude : Int
  phase : Nat
deriving DecidableEq, Repr

/-- Read the parts from the two words.  The chip and the mode are not needed. -/
def decodeWords (first second : BitVec 32) : MemoryFields where
  gain := first.toNat / 2 ^ 17
  iqHigh := first.toNat / 2 ^ 8 % 2 ^ 9
  iqLow := second.toNat / 2 ^ 22 % 2 ^ 9
  -- the lowest bit of this coefficient is the highest bit of the second word
  dcHigh := 2 * (first.toNat % 2 ^ 8) + second.toNat / 2 ^ 31
  dcLow := second.toNat / 2 ^ 13 % 2 ^ 9
  magnitude := (BitVec.ofNat 5 (second.toNat / 2 ^ 8 % 2 ^ 5)).toInt
  phase := second.toNat / 2 ^ 2 % 2 ^ 6

namespace MemoryEntry

/-- The halfword of the correction.  Without one the correction is zero. -/
def halfword (e : MemoryEntry) : Nat := (e.stored.map BitVec.toNat).getD 0

/-- What is stored: the gain word as far as there is room for it, the coefficients of the
calibration words, half of the magnitude and the phase. -/
def fields (e : MemoryEntry) : MemoryFields where
  gain := e.word.toNat % 2 ^ 15
  iqHigh := e.iqValue.toNat / 2 ^ 16
  iqLow := e.iqValue.toNat % 2 ^ 16
  dcHigh := e.dcValue.toNat / 2 ^ 16
  dcLow := e.dcValue.toNat % 2 ^ 16
  magnitude := (BitVec.ofNat 6 (e.halfword / 2 ^ 6)).toInt >>> (1 : Nat)
  phase := e.halfword % 2 ^ 6

/-- The coefficients have nine bits and the halfword has twelve. -/
structure Fits (e : MemoryEntry) : Prop where
  iqHigh : e.iqValue.toNat / 2 ^ 16 ≤ 511
  iqLow : e.iqValue.toNat % 2 ^ 16 ≤ 511
  dcHigh : e.dcValue.toNat / 2 ^ 16 ≤ 511
  dcLow : e.dcValue.toNat % 2 ^ 16 ≤ 511
  halfword : e.halfword < 4096

variable {e : MemoryEntry}

theorem toNat_hi (e : MemoryEntry) : e.hi.toNat = e.dcValue.toNat / 2 ^ 16 := by
  rw [hi, BitVec.toNat_ushiftRight, Nat.shiftRight_eq_div_pow]

/-- The magnitude loses its lowest bit and keeps its sign. -/
theorem toNat_correction (h : e.halfword < 4096) :
    e.correction.toNat = e.halfword / 2 ^ 7 * 2 ^ 6 + e.halfword % 2 ^ 6 := by
  rw [correction]
  rw [halfword] at h ⊢
  cases hstored : e.stored with
  | none => rfl
  | some v =>
      rw [hstored] at h
      replace h : v.toNat < 4096 := h
      have hphase : (v &&& 63).toNat = v.toNat % 2 ^ 6 := Register.toNat_and_mask 6 rfl
      have hmagnitude : (v >>> 7).toNat = v.toNat / 2 ^ 7 := by
        rw [BitVec.toNat_ushiftRight, Nat.shiftRight_eq_div_pow]
      change ((v >>> 7) <<< 6 ||| v &&& 63).toNat = v.toNat / 2 ^ 7 * 2 ^ 6 + v.toNat % 2 ^ 6
      rw [BitVec.or_comm, Register.toNat_or_shiftLeft (by omega) (by omega), hphase, hmagnitude,
        Nat.add_comm]

/-! ### The summands -/

theorem toNat_shifted_word (e : MemoryEntry) :
    (e.word <<< 17).toNat = e.word.toNat % 2 ^ 15 * 2 ^ 17 := by
  rw [BitVec.toNat_shiftLeft, Nat.shiftLeft_eq]
  omega

theorem toNat_shifted_iqHigh (h : e.Fits) :
    ((e.iqValue >>> 16) <<< 8).toNat = e.iqValue.toNat / 2 ^ 16 * 2 ^ 8 := by
  have hhigh := h.iqHigh
  rw [BitVec.toNat_shiftLeft, Nat.shiftLeft_eq, BitVec.toNat_ushiftRight,
    Nat.shiftRight_eq_div_pow]
  omega

/-- The arithmetic shift sees no sign. -/
theorem toNat_hi_half (h : e.Fits) :
    (e.hi.sshiftRight 1).toNat = e.dcValue.toNat / 2 ^ 16 / 2 := by
  have hhigh := h.dcHigh
  have hsign : e.hi.msb = false := by
    rw [BitVec.msb_eq_false_iff_two_mul_lt, toNat_hi]
    omega
  rw [BitVec.sshiftRight_eq_of_msb_false hsign, BitVec.toNat_ushiftRight,
    Nat.shiftRight_eq_div_pow, toNat_hi]

theorem toNat_hi_low (e : MemoryEntry) :
    (e.hi <<< 31).toNat = e.dcValue.toNat / 2 ^ 16 % 2 * 2 ^ 31 := by
  rw [BitVec.toNat_shiftLeft, Nat.shiftLeft_eq, toNat_hi]
  omega

theorem toNat_shifted_low {x : BitVec 32} {k : Nat} (hx : x.toNat % 2 ^ 16 ≤ 511) (hk : k ≤ 22) :
    ((x &&& 65535) <<< k).toNat = x.toNat % 2 ^ 16 * 2 ^ k := by
  have hlow : (x &&& 65535).toNat = x.toNat % 2 ^ 16 := Register.toNat_and_mask 16 rfl
  have hpow : 2 ^ k ≤ 2 ^ 22 := Nat.pow_le_pow_right Nat.zero_lt_two hk
  have hbound : x.toNat % 2 ^ 16 * 2 ^ k ≤ 511 * 2 ^ 22 := Nat.mul_le_mul hx hpow
  rw [BitVec.toNat_shiftLeft, Nat.shiftLeft_eq, hlow, Nat.mod_eq_of_lt (by omega)]

theorem toNat_shifted_correction (h : e.Fits) :
    ((e.correction <<< 2) &&& 0x1ffc).toNat =
      (e.halfword / 2 ^ 7 * 2 ^ 6 + e.halfword % 2 ^ 6) * 2 ^ 2 := by
  have hhalfword := h.halfword
  have hcorrection := toNat_correction hhalfword
  have hmask : (e.correction <<< 2) &&& (0x1ffc : BitVec 32) = (e.correction &&& 0x7ff) <<< 2 :=
    (BitVec.shiftLeft_and_distrib e.correction 0x7ff 2).symm
  have hand : (e.correction &&& 0x7ff).toNat = e.correction.toNat % 2 ^ 11 :=
    Register.toNat_and_mask 11 rfl
  rw [hmask, BitVec.toNat_shiftLeft, Nat.shiftLeft_eq, hand, hcorrection]
  omega

/-- The sums do not wrap. -/
structure NoWrap (e : MemoryEntry) (mark : BitVec 32) : Prop where
  first : e.first.toNat =
    (e.word <<< 17).toNat + ((e.iqValue >>> 16) <<< 8).toNat + (e.hi.sshiftRight 1).toNat
  second : (e.second mark).toNat = (e.hi <<< 31).toNat + ((e.iqValue &&& 65535) <<< 22).toNat +
    ((e.dcValue &&& 65535) <<< 13).toNat + ((e.correction <<< 2) &&& 0x1ffc).toNat + mark.toNat

theorem noWrap (h : e.Fits) {mark : BitVec 32} (hmark : mark.toNat ≤ 3) : e.NoWrap mark := by
  have hword := toNat_shifted_word e
  have hiqHigh := toNat_shifted_iqHigh h
  have hdcHigh := toNat_hi_half h
  have hdcBit := toNat_hi_low e
  have hiqLow := toNat_shifted_low (k := 22) h.iqLow (by decide)
  have hdcLow := toNat_shifted_low (k := 13) h.dcLow (by decide)
  have hcorrection := toNat_shifted_correction h
  obtain ⟨h₁, h₂, h₃, h₄, h₅⟩ := h
  constructor
  · rw [first, BitVec.toNat_add, BitVec.toNat_add]
    omega
  · rw [second, BitVec.toNat_add, BitVec.toNat_add, BitVec.toNat_add, BitVec.toNat_add]
    omega

/-- Half of a signed number of six bits has five. -/
theorem magnitude_half {k : Nat} (hk : k < 64) :
    (BitVec.ofNat 5 (k / 2)).toInt = (BitVec.ofNat 6 k).toInt >>> (1 : Nat) := by
  revert k
  decide

/-- The digits of the first word. -/
theorem first_digits {F w x h : Nat} (hF : F = w * 2 ^ 17 + x * 2 ^ 8 + h) (hx : x ≤ 511)
    (hh : h ≤ 255) : F / 2 ^ 17 = w ∧ F / 2 ^ 8 % 2 ^ 9 = x ∧ F % 2 ^ 8 = h := by
  refine ⟨by omega, by omega, by omega⟩

/-- The digits of the second word. -/
theorem second_digits {S b y z p q k : Nat}
    (hS : S = b * 2 ^ 31 + y * 2 ^ 22 + z * 2 ^ 13 + (p * 2 ^ 6 + q) * 2 ^ 2 + k) (hy : y ≤ 511)
    (hz : z ≤ 511) (hp : p ≤ 31) (hq : q ≤ 63) (hk : k ≤ 3) :
    S / 2 ^ 31 = b ∧ S / 2 ^ 22 % 2 ^ 9 = y ∧ S / 2 ^ 13 % 2 ^ 9 = z ∧ S / 2 ^ 8 % 2 ^ 5 = p ∧
      S / 2 ^ 2 % 2 ^ 6 = q := by
  refine ⟨by omega, by omega, by omega, by omega, by omega⟩

/-- The words of an entry determine its parts. -/
theorem decodeWords_eq (h : e.Fits) {mark : BitVec 32} (hmark : mark.toNat ≤ 3) :
    decodeWords e.first (e.second mark) = e.fields := by
  obtain ⟨hfirst, hsecond⟩ := noWrap h hmark
  rw [toNat_shifted_word, toNat_shifted_iqHigh h, toNat_hi_half h] at hfirst
  rw [toNat_hi_low, toNat_shifted_low h.iqLow (by decide), toNat_shifted_low h.dcLow (by decide),
    toNat_shifted_correction h] at hsecond
  have hdcHigh := h.dcHigh
  have hhalfword := h.halfword
  obtain ⟨hgain, hiqHigh, htop⟩ := first_digits hfirst h.iqHigh (by omega)
  obtain ⟨hbit, hiqLow, hdcLow, hhalf, hphase⟩ :=
    second_digits hsecond h.iqLow h.dcLow (by omega) (by omega) hmark
  have hmagnitude := magnitude_half (k := e.halfword / 2 ^ 6) (by omega)
  have hdiv : e.halfword / 2 ^ 6 / 2 = e.halfword / 2 ^ 7 := Nat.div_div_eq_div_mul ..
  simp only [decodeWords, fields, hgain, hiqHigh, htop, hbit, hiqLow, hdcLow, hhalf, hphase,
    MemoryFields.mk.injEq, true_and, and_true]
  refine ⟨Nat.div_add_mod _ 2, ?_⟩
  rw [← hdiv, hmagnitude]

end MemoryEntry

/-! ## The calibration words -/

theorem toNat_packDc {x y : BitVec 16} (hy : y.toNat ≤ 511) :
    (packDc x y).toNat = x.toNat * 2 ^ 16 + y.toNat := by
  have hsign : y.msb = false := by
    rw [BitVec.msb_eq_false_iff_two_mul_lt]
    omega
  have hx := x.isLt
  have hhigh : (x.setWidth 32).toNat = x.toNat := BitVec.toNat_setWidth_of_le (by decide)
  have hlow : (y.signExtend 32).toNat = y.toNat := by
    rw [BitVec.signExtend_eq_setWidth_of_msb_false hsign,
      BitVec.toNat_setWidth_of_le (by decide)]
  rw [packDc, BitVec.or_comm, Register.toNat_or_shiftLeft (n := 16) (by omega) (by omega), hhigh,
    hlow, Nat.add_comm]

/-- An entry of calibrated words: pairs of searched coefficients and a collected average. -/
structure MemoryEntry.Calibrated (e : MemoryEntry) (iq dc : BitVec 16 × BitVec 16)
    (average : IqAverage) : Prop where
  iqValue : e.iqValue = packDc iq.1 iq.2
  dcValue : e.dcValue = packDc dc.1 dc.2
  stored : e.stored = some (packAverage average)
  iqRange : iq.1.toNat ≤ 511 ∧ iq.2.toNat ≤ 511
  dcRange : dc.1.toNat ≤ 511 ∧ dc.2.toNat ≤ 511

/-- What the calibration stores fits, and the parts are the coefficients that were found, half
of the average magnitude and the phase. -/
theorem MemoryEntry.Calibrated.fields_eq {e : MemoryEntry} {iq dc : BitVec 16 × BitVec 16}
    {average : IqAverage} (h : e.Calibrated iq dc average) :
    e.Fits ∧ e.fields.iqHigh = iq.1.toNat ∧ e.fields.iqLow = iq.2.toNat ∧
      e.fields.dcHigh = dc.1.toNat ∧ e.fields.dcLow = dc.2.toNat ∧
      e.fields.magnitude = limited31 average.magnitude >>> (1 : Nat) ∧
      (BitVec.ofNat 6 e.fields.phase).toInt = limited31 average.phase := by
  obtain ⟨hiqValue, hdcValue, hstored, ⟨hiq₁, hiq₂⟩, hdc₁, hdc₂⟩ := h
  have hiq := toNat_packDc (x := iq.1) hiq₂
  have hdc := toNat_packDc (x := dc.1) hdc₂
  rw [← hiqValue] at hiq
  rw [← hdcValue] at hdc
  obtain ⟨hpacked, hmagnitude, hphase⟩ := packAverage_fields average
  have hhalfword : e.halfword = (packAverage average).toNat := by
    rw [halfword, hstored]
    rfl
  have hupper : (BitVec.ofNat 6 (e.halfword / 2 ^ 6)).toInt = limited31 average.magnitude := by
    rw [← hmagnitude, BitVec.extractLsb', Nat.shiftRight_eq_div_pow, hhalfword]
  have hlower : (BitVec.ofNat 6 (e.halfword % 2 ^ 6)).toInt = limited31 average.phase := by
    have hmod : BitVec.ofNat 6 (e.halfword % 2 ^ 6) = BitVec.ofNat 6 e.halfword :=
      BitVec.eq_of_toNat_eq (by simp)
    rw [← hphase, BitVec.extractLsb', Nat.shiftRight_zero, hmod, hhalfword]
  have hiqHigh : e.iqValue.toNat / 2 ^ 16 = iq.1.toNat := by omega
  have hiqLow : e.iqValue.toNat % 2 ^ 16 = iq.2.toNat := by omega
  have hdcHigh : e.dcValue.toNat / 2 ^ 16 = dc.1.toNat := by omega
  have hdcLow : e.dcValue.toNat % 2 ^ 16 = dc.2.toNat := by omega
  exact ⟨⟨hiqHigh ▸ hiq₁, hiqLow ▸ hiq₂, hdcHigh ▸ hdc₁, hdcLow ▸ hdc₂, hhalfword ▸ hpacked⟩,
    hiqHigh, hiqLow, hdcHigh, hdcLow, by rw [← hupper]; rfl, hlower⟩

/-! ## The run -/

section Run

variable {chip : PhyChip} {param : Nat} {a : MemoryArgs} {m : ByteMem}

/-- What one round hands to the callback. -/
structure MemoryCall.FromEntry (chip : PhyChip) (mode : BitVec 32) (call : MemoryCall) : Prop where
  first : call.first = call.entry.first
  second : call.second = call.entry.second (memoryMark chip mode)

theorem memoryStep_call {c : MemoryCursor} {next : MemoryCursor × MemoryCall}
    (h : memoryStep chip param a m c = some next) :
    next.2.FromEntry chip (chip.byte a.mode) := by
  simp only [memoryStep, Option.bind_eq_bind, Option.pure_def, Option.bind_eq_some_iff,
    Option.some.injEq] at h
  obtain ⟨word, -, rfl⟩ := h
  exact ⟨rfl, rfl⟩

theorem mem_memoryLoop {fuel : Nat} {c : MemoryCursor} {call : MemoryCall}
    (h : call ∈ memoryLoop chip param a m fuel c) : call.FromEntry chip (chip.byte a.mode) := by
  induction fuel generalizing c with
  | zero => cases h
  | succ fuel ih =>
      rw [memoryLoop] at h
      split at h
      · split at h
        · rename_i next hstep
          cases h with
          | head => exact memoryStep_call hstep
          | tail _ hmem => exact ih hmem
        · cases h
      · cases h

theorem memoryMark_le (chip : PhyChip) (mode : BitVec 32) : (memoryMark chip mode).toNat ≤ 3 := by
  cases chip with
  | esp32s3 => exact Nat.zero_le 3
  | esp32c3 =>
      rw [memoryMark]
      split
      · exact Nat.le_refl 3
      · exact Nat.zero_le 3

/-- In every call that a run makes, on both chips and in every mode, the words determine the
gain word modulo `2 ^ 15`, the four coefficients and the correction, if the coefficients have
nine bits and the halfword of the correction has twelve.  The sums do not wrap. -/
theorem memory_words_decode (chip : PhyChip) (param : Nat) (a : MemoryArgs) (fuel : Nat)
    (m : ByteMem) {call : MemoryCall} (hcall : call ∈ writeMemory chip param a fuel m)
    (hfits : call.entry.Fits) :
    decodeWords call.first call.second = call.entry.fields ∧
      call.first = call.entry.first ∧
      call.second = call.entry.second (memoryMark chip (chip.byte a.mode)) ∧
      call.entry.NoWrap (memoryMark chip (chip.byte a.mode)) := by
  have hmark := memoryMark_le chip (chip.byte a.mode)
  obtain ⟨hfirst, hsecond⟩ := mem_memoryLoop hcall
  refine ⟨?_, hfirst, hsecond, MemoryEntry.noWrap hfits hmark⟩
  rw [hfirst, hsecond]
  exact MemoryEntry.decodeWords_eq hfits hmark

/-- One index of S3 with a calibrated memory: the coefficients 511 and 256, and a halfword with
the magnitude -1 and the phase 2. -/
def memoryExample : ByteMem := fun x =>
  if x = 200 ∨ x = 300 then 0xff else
  if x = 201 ∨ x = 203 ∨ x = 301 ∨ x = 303 then 1 else
  if x = 736 then 0xc2 else if x = 737 then 0xf else 0

def memoryExampleArgs : MemoryArgs := ⟨0, 0, 50, 200, 300, 1000, 1, 100⟩

theorem memory_words_decode_of_minus_one : ∃ call,
    writeMemory .esp32s3 400 memoryExampleArgs 2 memoryExample = [call] ∧
      decodeWords call.first call.second = ⟨0, 256, 511, 256, 511, -1, 2⟩ := by
  refine ⟨_, rfl, ?_⟩
  refine (memory_words_decode .esp32s3 400 memoryExampleArgs 2 memoryExample
    (List.mem_singleton.mpr rfl) ?_).1.trans (by decide +kernel)
  constructor <;> decide +kernel

/-- Without the alternate tables no round fails. -/
theorem memoryStep_plain (halternate : chip.byte a.alternate = 0) (c : MemoryCursor) :
    ∃ next, memoryStep chip param a m c = some next ∧ next.1.index = (c.index + 1) % 256 ∧
      next.2.index = memoryIndex chip (chip.byte a.mode) c.index := by
  have hword : ∃ word, memoryWord chip a m c = some word := by
    cases chip with
    | esp32s3 =>
        rw [memoryWord, if_neg (not_not.mpr halternate)]
        exact ⟨_, rfl⟩
    | esp32c3 =>
        rw [memoryWord, if_neg (not_not.mpr halternate)]
        dsimp only
        generalize (if c.index % 2 ≠ 0 then _ else _) = word
        split
        · exact ⟨_, rfl⟩
        · exact ⟨_, rfl⟩
  obtain ⟨word, hword⟩ := hword
  rw [memoryStep, hword]
  exact ⟨_, rfl, rfl, rfl⟩

/-- Without the alternate tables there is one call for each index, in their order. -/
theorem writeMemory_indices (halternate : chip.byte a.alternate = 0) {n : Nat}
    (hcount : (chip.byte a.count).toNat = n) (hn : n ≤ 255) {fuel : Nat} (hfuel : n ≤ fuel) :
    (writeMemory chip param a fuel m).map MemoryCall.index =
      (List.range n).map (memoryIndex chip (chip.byte a.mode)) := by
  suffices hrest : ∀ left fuel (c : MemoryCursor), c.index + left = n → left ≤ fuel →
      (memoryLoop chip param a m fuel c).map MemoryCall.index =
        (List.range' c.index left).map (memoryIndex chip (chip.byte a.mode)) by
    have hstart : (MemoryCursor.start chip a).index = 0 := if_neg (not_not.mpr halternate)
    have hrun := hrest n fuel (.start chip a) (by omega) hfuel
    rwa [hstart, ← List.range_eq_range'] at hrun
  intro left
  induction left with
  | zero =>
      intro fuel c hindex _
      cases fuel with
      | zero => rfl
      | succ fuel =>
          rw [memoryLoop, if_neg (by omega)]
          rfl
  | succ left ih =>
      intro fuel c hindex hfuel
      obtain ⟨fuel, rfl⟩ : ∃ f, fuel = f + 1 := ⟨fuel - 1, by omega⟩
      obtain ⟨next, hstep, hnext, hcall⟩ := memoryStep_plain (m := m) halternate c
      rw [Nat.mod_eq_of_lt (by omega)] at hnext
      rw [memoryLoop, if_pos (by omega), hstep]
      change next.2.index :: (memoryLoop chip param a m fuel next.1).map MemoryCall.index = _
      rw [ih fuel next.1 (by omega) (by omega), hcall, hnext, List.range'_succ, List.map_cons]

end Run

end EspWifiHal
