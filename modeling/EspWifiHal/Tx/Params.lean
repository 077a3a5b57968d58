import EspWifiHal.Dma.Descriptor

/-!
# Transmit parameters

The queues, the errors and the parameters of a transmission, and the contention
state of an EDCA queue.  The crate is built with `overflow-checks = false`, so
sums wrap and a shift uses the low five bits of its amount.
-/

namespace EspWifiHal

abbrev Byte := BitVec 8

/-! ## Errors -/

/-- `ll::ChannelAccessError`. -/
inductive ChannelAccessError where
  | timeout
  | collision
deriving DecidableEq, Repr

/-- `ll::MacProtocolError`. -/
inductive MacProtocolError where
  | ackTimeout
  | ctsTimeout
  | rtsChannelAccessError (error : ChannelAccessError)
  | invalidKeyId
  | unknown (error subError : Byte)
deriving DecidableEq, Repr

inductive TxError where
  | channelAccess (error : ChannelAccessError)
  | macProtocol (error : MacProtocolError)
  | bufferTooShort
  | disabledKeySlot
  | outOfBounds
  | invalidEdcaParameters
deriving DecidableEq, Repr

/-! ## Queues -/

inductive EdcaAccessCategory where
  | background
  | bestEffort
  | video
  | voice
deriving DecidableEq, Repr

/-- `RangeInclusive<u8>`.  A range that was iterated to its end is `exhausted`. -/
structure RangeInclusive where
  start : Byte
  stop : Byte
  exhausted : Bool := false
deriving DecidableEq, Repr

def RangeInclusive.isEmpty (range : RangeInclusive) : Bool :=
  range.exhausted || !decide (range.start ≤ range.stop)

namespace EdcaAccessCategory

def defaultCwExponentRange : EdcaAccessCategory → RangeInclusive
  | .background => { start := 4, stop := 10 }
  | .bestEffort => { start := 4, stop := 10 }
  | .video => { start := 3, stop := 10 }
  | .voice => { start := 2, stop := 10 }

end EdcaAccessCategory

inductive HardwareTxQueue where
  | beacon
  | edcaf (category : EdcaAccessCategory)
deriving DecidableEq, Repr

namespace HardwareTxQueue

def defaultAifsn : HardwareTxQueue → Byte
  | .edcaf .background => 7
  | .edcaf .bestEffort => 3
  | .edcaf .video => 2
  | .edcaf .voice => 2
  | .beacon => 1

end HardwareTxQueue

/-! ## Parameters -/

structure EdcaParameters where
  contentionWindowExponentRange : Option RangeInclusive := none
  aifsn : Option Byte := none
deriving DecidableEq, Repr

inductive RtsStrategy where
  | driverControlled
  | forced (enabled : Bool)
deriving DecidableEq, Repr

structure TxMacParameters where
  keySlotIndex : Option Byte := none
  waitForAck : Bool := false
  rtsStrategy : RtsStrategy := .driverControlled
  overrideSeqNum : Bool := false
  edcaParameters : EdcaParameters := {}
deriving DecidableEq, Repr

/-- What a transmission takes from the frame. -/
structure ExtractedParameters where
  duration : BitVec 16
  isUnicast : Bool
deriving DecidableEq, Repr

structure EdcaTxParameters where
  backoffSlots : Nat
  aifsn : Nat
deriving DecidableEq, Repr

/-! ## The contention window -/

/-- `edca::EdcaContentionState`. -/
structure EdcaContentionState where
  contentionWindowExponentRange : RangeInclusive
  currentCw : BitVec 32
  shortRetryCount : Byte
  longRetryCount : Byte
deriving DecidableEq, Repr

/-- `bit!(n)` at the type `u32`. -/
def bit (n : Nat) : BitVec 32 := 1#32 <<< (n % 32)

namespace EdcaContentionState

def new (range : RangeInclusive) : Option EdcaContentionState :=
  if range.isEmpty then none
  else
    some
      { contentionWindowExponentRange := range
        currentCw := bit range.start.toNat - 1
        shortRetryCount := 0
        longRetryCount := 0 }

def advanceContentionWindow (s : EdcaContentionState) : EdcaContentionState :=
  let cw := (s.currentCw <<< 1) + 1
  let limit := bit s.contentionWindowExponentRange.stop.toNat - 1
  { s with currentCw := if cw ≤ limit then cw else limit }

def incrementSrc (s : EdcaContentionState) : EdcaContentionState :=
  { s with shortRetryCount := s.shortRetryCount + 1 }.advanceContentionWindow

def resetSrc (s : EdcaContentionState) : EdcaContentionState :=
  { s with shortRetryCount := 0 }

def incrementLrc (s : EdcaContentionState) : EdcaContentionState :=
  { s with longRetryCount := s.longRetryCount + 1 }.advanceContentionWindow

/-- The generator returned `random`. -/
def randomBackoffSlotCount (random : BitVec 32) (s : EdcaContentionState) : Nat :=
  (random &&& s.currentCw).toNat

end EdcaContentionState

/-- The contention state a call starts with: only an EDCA queue has one. -/
def HardwareTxQueue.contentionState (queue : HardwareTxQueue) (edca : EdcaParameters) :
    Option EdcaContentionState :=
  match queue with
  | .edcaf category =>
      EdcaContentionState.new
        (edca.contentionWindowExponentRange.getD category.defaultCwExponentRange)
  | .beacon => none

end EspWifiHal
