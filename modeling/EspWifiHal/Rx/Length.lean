import EspWifiHal.Tx.Params

/-!
# Lengths of received frames

The hardware gives two lengths for a frame.  The descriptor has the number of
bytes written, padded to a word.  The header in the buffer has `SIG_LEN`, the
length of the frame with MIC and FCS, which are not written.  `BorrowedBuffer`
computes the length of the MPDU from the two.

A subtraction that underflows, and a slice out of bounds, is `none`.  The check
of the ESP32-S3 and ESP32-C3 excludes both (`s3_lengths`).  That of the other
chips does not compare the two lengths, and `esp32_access_safe_iff` says which
of the frames it accepts are safe.
-/

namespace EspWifiHal

abbrev Ram := Addr → Byte

/-- `slice::from_raw_parts`. -/
def fromRawParts (ram : Ram) (ptr : Addr) (len : Nat) : List Byte :=
  (List.range len).map fun i => ram (ptr + i)

/-- The little-endian word at an address. -/
def Ram.word (ram : Ram) (ptr : Addr) : BitVec 32 :=
  ram (ptr + 3) ++ ram (ptr + 2) ++ ram (ptr + 1) ++ ram ptr

/-- The little-endian word at an index of a slice. -/
def wordAt (buffer : List Byte) (i : Nat) : Option (BitVec 32) := do
  let b₀ ← buffer[i]?
  let b₁ ← buffer[i + 1]?
  let b₂ ← buffer[i + 2]?
  let b₃ ← buffer[i + 3]?
  return b₃ ++ b₂ ++ b₁ ++ b₀

theorem fromRawParts_length (ram : Ram) (ptr : Addr) (len : Nat) :
    (fromRawParts ram ptr len).length = len := by
  rw [fromRawParts, List.length_map, List.length_range]

theorem wordAt_fromRawParts {ram : Ram} {ptr : Addr} {len i : Nat} (h : i + 4 ≤ len) :
    wordAt (fromRawParts ram ptr len) i = some (ram.word (ptr + i)) := by
  have hget : ∀ j, j < len → (fromRawParts ram ptr len)[j]? = some (ram (ptr + j)) := by
    intro j hj
    rw [fromRawParts, List.getElem?_map, List.getElem?_range hj, Option.map_some]
  rw [wordAt, hget i (by omega), hget (i + 1) (by omega), hget (i + 2) (by omega),
    hget (i + 3) (by omega)]
  rfl

/-! ## The borrowed buffer -/

/-- The layout of the header that precedes a frame. -/
structure RxLayout where
  /-- `RX_CONTROL_HEADER_LENGTH`. -/
  headerLength : Nat
  /-- The offset of the word with `sig_len` in its low bits. -/
  sigLenOffset : Nat

/-- The header of the ESP32-S3 and ESP32-C3. -/
def RxLayout.s3 : RxLayout := { headerLength := 48, sigLenOffset := 44 }

/-- The header of the ESP32. -/
def RxLayout.esp32 : RxLayout := { headerLength := 28, sigLenOffset := 24 }

/-- The buffer of a descriptor that was taken out of the queue. -/
structure BorrowedBuffer where
  layout : RxLayout
  ram : Ram
  buffer : Addr
  /-- The length in the descriptor. -/
  len : Nat

/-- A subtraction of `usize` values, unless it underflows. -/
def checkedSub (a b : Nat) : Option Nat := if b ≤ a then some (a - b) else none

/-- The rounding of `trailer_length` to a multiple of four. -/
def roundUp4 (delta : Nat) : Nat := if delta % 4 = 0 then delta else delta / 4 * 4 + 4

namespace BorrowedBuffer

def paddedBuffer (b : BorrowedBuffer) : List Byte := fromRawParts b.ram b.buffer b.len

/-- The field `sig_len` of the header. -/
def sigLen (b : BorrowedBuffer) : Nat :=
  (b.ram.word (b.buffer + b.layout.sigLenOffset) &&& 0xfff).toNat

def trailerLength (b : BorrowedBuffer) : Option Nat := do
  let paddedLen ← checkedSub b.len b.layout.headerLength
  let delta ← checkedSub b.sigLen paddedLen
  return roundUp4 delta

def unpaddedBufferLen (b : BorrowedBuffer) : Option Nat := do
  let trailerLength ← b.trailerLength
  let length ← checkedSub b.sigLen trailerLength
  return length + b.layout.headerLength

/-- A length that does not fit falls back to the padded buffer. -/
def rawBuffer (b : BorrowedBuffer) : Option (List Byte) := do
  let unpaddedLen ← b.unpaddedBufferLen
  return if unpaddedLen ≤ b.len then b.paddedBuffer.take unpaddedLen else b.paddedBuffer

def rawBufferMut (b : BorrowedBuffer) : Option (List Byte) := do
  let unpaddedLen ← b.unpaddedBufferLen
  if unpaddedLen ≤ b.len then some (b.paddedBuffer.take unpaddedLen) else none

/-- `&buffer[RX_CONTROL_HEADER_LENGTH..]`. -/
def skipHeader (b : BorrowedBuffer) (buffer : List Byte) : Option (List Byte) :=
  if b.layout.headerLength ≤ buffer.length then some (buffer.drop b.layout.headerLength) else none

def mpduBuffer (b : BorrowedBuffer) : Option (List Byte) := b.rawBuffer.bind b.skipHeader

def mpduBufferMut (b : BorrowedBuffer) : Option (List Byte) := b.rawBufferMut.bind b.skipHeader

def headerBuffer (b : BorrowedBuffer) : Option (List Byte) :=
  if b.layout.headerLength ≤ b.len then some (b.paddedBuffer.take b.layout.headerLength) else none

end BorrowedBuffer

/-- The buffer that `receive` returns for a descriptor. -/
def DmaDescriptor.borrow (layout : RxLayout) (ram : Ram) (d : DmaDescriptor) :
    Option BorrowedBuffer :=
  d.buffer.map fun buffer => { layout := layout, ram := ram, buffer := buffer, len := d.len }

/-! ## The check of a received descriptor -/

def rxBufferSize : Nat := 1600

/-- `rx::valid_length`. -/
def validLength (buffer : List Byte) : Bool :=
  match wordAt buffer 44 with
  | none => false
  | some word =>
      let payloadLength := buffer.length - 48
      let sigLength := (word &&& 0xfff).toNat
      decide (4 ≤ payloadLength) && decide (payloadLength ≤ sigLength)

/-- The tests of `is_rx_frame_valid` before the contents are read. -/
def validDescriptor (headerLength : Nat) (d : DmaDescriptor) : Bool :=
  decide (d.len ≤ rxBufferSize) && decide (headerLength ≤ d.len)

theorem validDescriptor_iff {headerLength : Nat} {d : DmaDescriptor} :
    validDescriptor headerLength d = true ↔ d.len ≤ 1600 ∧ headerLength ≤ d.len := by
  rw [validDescriptor, Bool.and_eq_true, decide_eq_true_eq, decide_eq_true_eq]
  rfl

/-- `is_rx_frame_valid` on the ESP32-S3 and ESP32-C3. -/
def isRxFrameValid (ram : Ram) (d : DmaDescriptor) : Bool :=
  match d.buffer with
  | none => false
  | some buffer =>
      validDescriptor RxLayout.s3.headerLength d && validLength (fromRawParts ram buffer d.len)

/-- `is_rx_frame_valid` on the other chips.  A missing word is the panic of the
slice, which the test of the length excludes. -/
def Esp32.isRxFrameValid (ram : Ram) (d : DmaDescriptor) : Bool :=
  match d.buffer with
  | none => false
  | some buffer =>
      validDescriptor RxLayout.esp32.headerLength d &&
        match wordAt (fromRawParts ram buffer d.len) 24 with
        | none => false
        | some lengths =>
            decide ((lengths &&& 0xfff).toNat < d.len) &&
              decide (((lengths >>> 12) &&& 0xfff).toNat < d.len)

/-! ## The accessors -/

theorem checkedSub_of_le {a b : Nat} (h : b ≤ a) : checkedSub a b = some (a - b) := if_pos h

theorem checkedSub_of_lt {a b : Nat} (h : a < b) : checkedSub a b = none :=
  if_neg (Nat.not_le.mpr h)

theorem le_roundUp4 (n : Nat) : n ≤ roundUp4 n := by
  unfold roundUp4
  split <;> omega

theorem roundUp4_lt (n : Nat) : roundUp4 n < n + 4 := by
  unfold roundUp4
  split <;> omega

theorem roundUp4_mod (n : Nat) : roundUp4 n % 4 = 0 := by
  unfold roundUp4
  split <;> omega

/-- The rounded number is the only multiple of four in its window. -/
theorem roundUp4_eq {n t : Nat} (hle : n ≤ t) (hlt : t < n + 4) (hmod : t % 4 = 0) :
    roundUp4 n = t := by
  have := le_roundUp4 n
  have := roundUp4_lt n
  have := roundUp4_mod n
  omega

namespace BorrowedBuffer

/-- All accessors agree on the length `t` of the trailer and the length `n` of
the buffer without padding, and none of them leaves the written bytes. -/
structure Access (b : BorrowedBuffer) (t n : Nat) : Prop where
  trailer : b.trailerLength = some t
  unpadded : b.unpaddedBufferLen = some n
  header_le : b.layout.headerLength ≤ n
  le_len : n ≤ b.len
  raw : b.rawBuffer = some (b.paddedBuffer.take n)
  rawMut : b.rawBufferMut = some (b.paddedBuffer.take n)
  mpdu : b.mpduBuffer = some ((b.paddedBuffer.take n).drop b.layout.headerLength)
  mpduMut : b.mpduBufferMut = some ((b.paddedBuffer.take n).drop b.layout.headerLength)
  header : b.headerBuffer = some (b.paddedBuffer.take b.layout.headerLength)

variable {b : BorrowedBuffer}

theorem trailerLength_eq (hheader : b.layout.headerLength ≤ b.len)
    (hsig : b.len - b.layout.headerLength ≤ b.sigLen) :
    b.trailerLength = some (roundUp4 (b.sigLen - (b.len - b.layout.headerLength))) := by
  rw [trailerLength, checkedSub_of_le hheader, Option.bind_eq_bind, Option.bind_some,
    checkedSub_of_le hsig]
  rfl

theorem unpaddedBufferLen_eq {t : Nat} (ht : b.trailerLength = some t) :
    b.unpaddedBufferLen = (checkedSub b.sigLen t).map (· + b.layout.headerLength) := by
  rw [unpaddedBufferLen, ht, Option.bind_eq_bind, Option.bind_some]
  cases checkedSub b.sigLen t <;> rfl

theorem take_length {n : Nat} (h : n ≤ b.len) : (b.paddedBuffer.take n).length = n := by
  rw [List.length_take, paddedBuffer, fromRawParts_length, Nat.min_eq_left h]

/-- The accessors are safe when the payload is not longer than `SIG_LEN` and the
rounding does not exceed it. -/
theorem access (hheader : b.layout.headerLength ≤ b.len)
    (hsig : b.len - b.layout.headerLength ≤ b.sigLen)
    (hround : roundUp4 (b.sigLen - (b.len - b.layout.headerLength)) ≤ b.sigLen) :
    b.Access (roundUp4 (b.sigLen - (b.len - b.layout.headerLength)))
      (b.sigLen - roundUp4 (b.sigLen - (b.len - b.layout.headerLength)) +
        b.layout.headerLength) := by
  have htrailer := trailerLength_eq hheader hsig
  have hle := le_roundUp4 (b.sigLen - (b.len - b.layout.headerLength))
  generalize roundUp4 (b.sigLen - (b.len - b.layout.headerLength)) = t at *
  have hunpadded : b.unpaddedBufferLen = some (b.sigLen - t + b.layout.headerLength) := by
    rw [unpaddedBufferLen_eq htrailer, checkedSub_of_le hround, Option.map_some]
  have hlen : b.sigLen - t + b.layout.headerLength ≤ b.len := by omega
  have hraw : b.rawBuffer = some (b.paddedBuffer.take (b.sigLen - t + b.layout.headerLength)) := by
    rw [rawBuffer, hunpadded, Option.bind_eq_bind, Option.bind_some, if_pos hlen]
    rfl
  have hrawMut :
      b.rawBufferMut = some (b.paddedBuffer.take (b.sigLen - t + b.layout.headerLength)) := by
    rw [rawBufferMut, hunpadded, Option.bind_eq_bind, Option.bind_some, if_pos hlen]
  have hskip : b.skipHeader (b.paddedBuffer.take (b.sigLen - t + b.layout.headerLength)) =
      some ((b.paddedBuffer.take (b.sigLen - t + b.layout.headerLength)).drop
        b.layout.headerLength) := by
    rw [skipHeader, take_length hlen, if_pos (Nat.le_add_left ..)]
  refine ⟨htrailer, hunpadded, Nat.le_add_left .., hlen, hraw, hrawMut, ?_, ?_, if_pos hheader⟩
  · rw [mpduBuffer, hraw, Option.bind_some, hskip]
  · rw [mpduBufferMut, hrawMut, Option.bind_some, hskip]

end BorrowedBuffer

/-! ## The ESP32-S3 and ESP32-C3 -/

theorem validLength_iff {ram : Ram} {buffer : Addr} {len : Nat} (hlen : 48 ≤ len) :
    validLength (fromRawParts ram buffer len) = true ↔
      4 ≤ len - 48 ∧ len - 48 ≤ (ram.word (buffer + 44) &&& 0xfff).toNat := by
  rw [validLength, wordAt_fromRawParts (show 44 + 4 ≤ len from hlen), fromRawParts_length]
  simp only [Bool.and_eq_true, decide_eq_true_eq]

/-- What the check accepts: a buffer whose payload has a word at least and is not
longer than `SIG_LEN`. -/
theorem isRxFrameValid_iff {ram : Ram} {d : DmaDescriptor} {buffer : Addr}
    (hbuffer : d.buffer = some buffer) :
    isRxFrameValid ram d = true ↔ d.len ≤ 1600 ∧ 52 ≤ d.len ∧
      d.len - 48 ≤ (ram.word (buffer + 44) &&& 0xfff).toNat := by
  simp only [isRxFrameValid, hbuffer, Bool.and_eq_true, validDescriptor_iff]
  constructor
  · rintro ⟨⟨hsize, hheader⟩, hlength⟩
    obtain ⟨hpayload, hsig⟩ := (validLength_iff hheader).mp hlength
    exact ⟨hsize, by omega, hsig⟩
  · rintro ⟨hsize, hpayload, hsig⟩
    have hheader : 48 ≤ d.len := by omega
    exact ⟨⟨hsize, hheader⟩, (validLength_iff hheader).mpr ⟨by omega, hsig⟩⟩

/-- The lengths of received frames.  Every accepted frame has a payload and safe
accessors, and a frame with any trailer of whole words is accepted and gets its
MPDU back. -/
theorem s3_lengths :
    (∀ (ram : Ram) (d : DmaDescriptor), isRxFrameValid ram d = true →
      ∃ b t n, d.borrow .s3 ram = some b ∧ b.Access t n ∧ 49 ≤ n ∧ n ≤ d.len) ∧
    (∀ (ram : Ram) (d : DmaDescriptor) (buffer : Addr) (m t : Nat),
      d.buffer = some buffer → 1 ≤ m → 0 < t → t % 4 = 0 → m + t ≤ 4095 →
      48 + roundUp4 m ≤ 1600 → d.len = 48 + roundUp4 m →
      (ram.word (buffer + 44) &&& 0xfff).toNat = m + t →
      isRxFrameValid ram d = true ∧
        ∃ b mpdu, d.borrow .s3 ram = some b ∧ b.trailerLength = some t ∧
          b.mpduBuffer = some mpdu ∧ mpdu.length = m) := by
  constructor
  · intro ram d hvalid
    cases hbuffer : d.buffer with
    | none => simp only [isRxFrameValid, hbuffer, Bool.false_eq_true] at hvalid
    | some buffer =>
        obtain ⟨_, hlen, hsig⟩ := (isRxFrameValid_iff hbuffer).mp hvalid
        let b : BorrowedBuffer := { layout := .s3, ram := ram, buffer := buffer, len := d.len }
        have hborrow : d.borrow .s3 ram = some b := by rw [DmaDescriptor.borrow, hbuffer]; rfl
        have hlt : roundUp4 (b.sigLen - (d.len - 48)) < b.sigLen - (d.len - 48) + 4 :=
          roundUp4_lt _
        have hsig' : d.len - 48 ≤ b.sigLen := hsig
        have hacc : b.Access _ _ := BorrowedBuffer.access (show 48 ≤ d.len by omega) hsig'
          (show roundUp4 (b.sigLen - (d.len - 48)) ≤ b.sigLen by omega)
        refine ⟨b, _, _, hborrow, hacc, ?_, hacc.le_len⟩
        show 49 ≤ b.sigLen - roundUp4 (b.sigLen - (d.len - 48)) + 48
        omega
  · intro ram d buffer m t hbuffer hm ht hmod hmax hsize hlen hsig
    have hle := le_roundUp4 m
    have hlt := roundUp4_lt m
    have hmod' := roundUp4_mod m
    let b : BorrowedBuffer := { layout := .s3, ram := ram, buffer := buffer, len := d.len }
    have hborrow : d.borrow .s3 ram = some b := by rw [DmaDescriptor.borrow, hbuffer]; rfl
    have hsig' : b.sigLen = m + t := hsig
    have hpayload : d.len - 48 = roundUp4 m := by omega
    have htrailer : roundUp4 (b.sigLen - (d.len - 48)) = t :=
      roundUp4_eq (by omega) (by omega) hmod
    have hacc : b.Access _ _ := BorrowedBuffer.access (show 48 ≤ d.len by omega)
      (show d.len - 48 ≤ b.sigLen by omega)
      (show roundUp4 (b.sigLen - (d.len - 48)) ≤ b.sigLen by omega)
    refine ⟨(isRxFrameValid_iff hbuffer).mpr ⟨by omega, by omega, by omega⟩, b, _, hborrow,
      hacc.trailer.trans (congrArg some htrailer), hacc.mpdu, ?_⟩
    rw [List.length_drop, BorrowedBuffer.take_length hacc.le_len]
    show b.sigLen - roundUp4 (b.sigLen - (d.len - 48)) + 48 - 48 = m
    omega

/-- A descriptor of 128 bytes. -/
def receivedDescriptor : DmaDescriptor :=
  { flags := { size := 1600, length := 128, sucEof := true, owner := .cpu }
    buffer := some 0x3ffb2000
    next := none }

/-- The header of a frame of 78 bytes with a MIC of 4 bytes and a FCS. -/
def paddedRam : Ram := fun a => if a = 0x3ffb202c then 86 else 0

theorem s3_lengths_received :
    isRxFrameValid paddedRam receivedDescriptor = true ∧
      ∃ b mpdu, receivedDescriptor.borrow .s3 paddedRam = some b ∧ b.trailerLength = some 8 ∧
        b.mpduBuffer = some mpdu ∧ mpdu.length = 78 :=
  s3_lengths.2 paddedRam receivedDescriptor 0x3ffb2000 78 8 rfl (by decide) (by decide)
    (by decide) (by decide) (by decide) (by decide) (by decide)

/-! ## The other chips -/

/-- No subtraction of the accessors underflows and no slice is out of bounds. -/
def BorrowedBuffer.AccessSafe (b : BorrowedBuffer) : Prop :=
  b.trailerLength.isSome ∧ b.unpaddedBufferLen.isSome ∧ b.rawBufferMut.isSome ∧
    b.mpduBuffer.isSome ∧ b.mpduBufferMut.isSome

theorem BorrowedBuffer.Access.safe {b : BorrowedBuffer} {t n : Nat} (h : b.Access t n) :
    b.AccessSafe := by
  unfold AccessSafe
  rw [h.trailer, h.unpadded, h.rawMut, h.mpdu, h.mpduMut]
  exact ⟨rfl, rfl, rfl, rfl, rfl⟩

/-- Whether the rounding exceeds the length depends on the length modulo four. -/
theorem roundUp4_sub_le_iff {sig payload : Nat} (h : payload ≤ sig) :
    roundUp4 (sig - payload) ≤ sig ↔ sig % 4 ≤ payload := by
  have hle := le_roundUp4 (sig - payload)
  have hlt := roundUp4_lt (sig - payload)
  have hmod := roundUp4_mod (sig - payload)
  omega

theorem BorrowedBuffer.accessSafe_iff {b : BorrowedBuffer}
    (hheader : b.layout.headerLength ≤ b.len) :
    b.AccessSafe ↔ b.len - b.layout.headerLength ≤ b.sigLen ∧
      b.sigLen % 4 ≤ b.len - b.layout.headerLength := by
  constructor
  · rintro ⟨htrailer, hunpadded, _⟩
    have hsig : b.len - b.layout.headerLength ≤ b.sigLen := by
      by_contra hlt
      rw [trailerLength, checkedSub_of_le hheader, Option.bind_eq_bind, Option.bind_some,
        checkedSub_of_lt (Nat.not_le.mp hlt)] at htrailer
      cases htrailer
    refine ⟨hsig, (roundUp4_sub_le_iff hsig).mp ?_⟩
    by_contra hlt
    rw [unpaddedBufferLen_eq (trailerLength_eq hheader hsig),
      checkedSub_of_lt (Nat.not_le.mp hlt)] at hunpadded
    cases hunpadded
  · rintro ⟨hsig, hmod⟩
    exact (access hheader hsig ((roundUp4_sub_le_iff hsig).mpr hmod)).safe

/-- An accepted frame of the ESP32 is safe exactly when its payload is not longer
than `SIG_LEN` and has the bytes that the rounding takes away. -/
theorem esp32_access_safe_iff (ram : Ram) (d : DmaDescriptor)
    (h : Esp32.isRxFrameValid ram d = true) :
    ∃ b, d.borrow .esp32 ram = some b ∧
      (b.AccessSafe ↔ d.len - 28 ≤ b.sigLen ∧ b.sigLen % 4 ≤ d.len - 28) := by
  cases hbuffer : d.buffer with
  | none => simp only [Esp32.isRxFrameValid, hbuffer, Bool.false_eq_true] at h
  | some buffer =>
      simp only [Esp32.isRxFrameValid, hbuffer, Bool.and_eq_true, validDescriptor_iff] at h
      refine ⟨{ layout := .esp32, ram := ram, buffer := buffer, len := d.len }, ?_,
        BorrowedBuffer.accessSafe_iff h.1.2⟩
      rw [DmaDescriptor.borrow, hbuffer]
      rfl

/-- The header of a frame of 100 bytes with a FCS. -/
def headerRam : Ram := fun a => if a = 0x3ffb2018 then 104 else 0

theorem esp32_access_safe_iff_received :
    Esp32.isRxFrameValid headerRam receivedDescriptor = true ∧
      ∃ b, receivedDescriptor.borrow .esp32 headerRam = some b ∧
        (b.AccessSafe ↔ receivedDescriptor.len - 28 ≤ b.sigLen ∧
          b.sigLen % 4 ≤ receivedDescriptor.len - 28) :=
  ⟨by decide, esp32_access_safe_iff headerRam receivedDescriptor (by decide)⟩

/-- A header of zeros is accepted, and the trailer length underflows. -/
theorem esp32_accepts_unsafe_frame :
    Esp32.isRxFrameValid (fun _ => 0) receivedDescriptor = true ∧
      ∃ b, receivedDescriptor.borrow .esp32 (fun _ => 0) = some b ∧
        b.trailerLength = none ∧ b.mpduBuffer = none := by
  refine ⟨by decide, _, rfl, by decide, by decide⟩

end EspWifiHal
