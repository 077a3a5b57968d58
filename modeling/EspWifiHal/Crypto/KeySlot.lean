import EspWifiHal.Crypto.Cipher
import EspWifiHal.Lib.Register
import EspWifiHal.Lib.Trace
import EspWifiHal.Lib.Words

/-!
# The key slots

`set_key` and `delete_key` as the lists of their register writes, so that the
state between two writes can be spoken of.  The hardware uses a key slot as soon
as its enable bit is set.

A slot holds an entry when all its registers are the image of that entry
(`SetKey.image`).  `set_key` does not disable the slot before it writes, and it
writes no word behind the key.  So an enabled slot can hold parts of two entries
while it is overwritten, and a short key leaves the end of a longer one behind.
-/

namespace EspWifiHal

open Words Register

/-! ## Registers -/

/-- `ll::KeySlotParameters`. -/
structure KeySlotParameters where
  address : Vector Byte 6
  keyId : Byte
  interface : Byte
  pairwise : Bool
  group : Bool
  algorithm : Byte
  wep104 : Bool
deriving DecidableEq, Repr

/-- The register `addr_high`, field by field.  The key id is truncated to its two
bits; the interfaces and the algorithms fit their fields. -/
structure AddrHigh where
  keyId : BitVec 2 := 0
  pairwiseKey : Bool := false
  groupKey : Bool := false
  wep104 : Bool := false
  algorithm : Byte := 0
  interfaceId : Byte := 0
  unknown : Bool := false
  addr : BitVec 16 := 0
  /-- The bits that belong to none of the fields. -/
  other : BitVec 32 := 0
deriving DecidableEq, Repr

/-- `crypto_key_slot`. -/
structure KeySlot where
  addrLow : BitVec 32 := 0
  addrHigh : AddrHigh := {}
  keyValue : Fin 8 → BitVec 32 := fun _ => 0

/-- Where the PAC has the bits of `interface_crypto_control` that are written. -/
structure CryptoControlLayout where
  sppEnable : Fin 32
  pmfDisable : Fin 32
  aeadCipher : Fin 32
  sms4 : Fin 32
  nodup : [sppEnable, pmfDisable, aeadCipher, sms4].Nodup

structure CryptoRegs where
  /-- `crypto_key_slot_state`. -/
  keySlotEnable : Fin 25 → Bool := fun _ => false
  keySlot : Fin 25 → KeySlot := fun _ => {}
  interfaceCryptoControl : Fin 4 → BitVec 32 := fun _ => 0x00030000
  generalCryptoControl : BitVec 32 := 0

/-! ## Writes -/

/-- One write to a register of the peripheral. -/
inductive CryptoWrite where
  | keySlotEnable (slot : Fin 25) (enabled : Bool)
  | addrLow (slot : Fin 25) (value : BitVec 32)
  /-- The fields of `addr_high` are set and its other bits are kept. -/
  | addrHigh (slot : Fin 25) (parameters : KeySlotParameters)
  | resetAddrHigh (slot : Fin 25)
  | keyValue (slot : Fin 25) (i : Fin 8) (word : BitVec 32)
  | interfaceCrypto (interface : Fin 4) (mfp spp aead : Bool)
  | sms4Status (enabled : Bool)

/-- `split_address`. -/
def splitAddress (address : Vector Byte 6) : BitVec 32 × BitVec 16 :=
  (leWord address[0] address[1] address[2] address[3], address[5] ++ address[4])

/-- What `set_key_slot_parameters` makes of `addr_high`. -/
def AddrHigh.setParameters (p : KeySlotParameters) (r : AddrHigh) : AddrHigh :=
  { r with
    keyId := p.keyId.setWidth 2
    pairwiseKey := p.pairwise
    groupKey := p.group
    wep104 := p.wep104
    algorithm := p.algorithm
    interfaceId := p.interface
    unknown := true
    addr := (splitAddress p.address).2 }

/-- What `set_interface_crypto_parameters` makes of the register. -/
def CryptoControlLayout.setParameters (layout : CryptoControlLayout) (mfp spp aead : Bool)
    (r : BitVec 32) : BitVec 32 :=
  let r := r ||| 0x10103
  let r := writeBit r layout.sppEnable spp
  let r := writeBit r layout.pmfDisable (!mfp)
  let r := writeBit r layout.aeadCipher aead
  writeBit r layout.sms4 false

namespace CryptoRegs

def modifySlot (r : CryptoRegs) (slot : Fin 25) (f : KeySlot → KeySlot) : CryptoRegs :=
  { r with keySlot := Function.update r.keySlot slot (f (r.keySlot slot)) }

def write (layout : CryptoControlLayout) (r : CryptoRegs) : CryptoWrite → CryptoRegs
  | .keySlotEnable slot enabled =>
      { r with keySlotEnable := Function.update r.keySlotEnable slot enabled }
  | .addrLow slot value => r.modifySlot slot fun k => { k with addrLow := value }
  | .addrHigh slot parameters =>
      r.modifySlot slot fun k => { k with addrHigh := k.addrHigh.setParameters parameters }
  | .resetAddrHigh slot => r.modifySlot slot fun k => { k with addrHigh := {} }
  | .keyValue slot i word =>
      r.modifySlot slot fun k => { k with keyValue := Function.update k.keyValue i word }
  | .interfaceCrypto interface mfp spp aead =>
      { r with
        interfaceCryptoControl :=
          Function.update r.interfaceCryptoControl interface
            (layout.setParameters mfp spp aead (r.interfaceCryptoControl interface)) }
  | .sms4Status enabled =>
      { r with
        generalCryptoControl :=
          if enabled then r.generalCryptoControl ||| 0x00ffff00
          else r.generalCryptoControl &&& 0xff0000ff }

end CryptoRegs

/-! ## Calls -/

/-- `LowLevelDriver::set_key_slot_parameters`. -/
def setKeySlotParameters (slot : Fin 25) (p : KeySlotParameters) : List CryptoWrite :=
  [.addrLow slot (splitAddress p.address).1, .addrHigh slot p]

/-- `LowLevelDriver::set_key`.  The words of the key go to the first registers. -/
def llSetKey (slot : Fin 25) (key : List Byte) : List CryptoWrite :=
  ((wordsOf key).zip (List.finRange 8)).map fun (word, i) => .keyValue slot i word

/-- `LowLevelDriver::clear_key_slot`. -/
def clearKeySlot (slot : Fin 25) : List CryptoWrite :=
  [.addrLow slot 0, .resetAddrHigh slot] ++ (List.finRange 8).map fun i => .keyValue slot i 0

inductive CryptoError where
  | outOfBounds
  | multicastBitSet
deriving DecidableEq, Repr

/-- The arguments of `CryptoControl::set_key`. -/
structure SetKey where
  keySlot : Nat
  interface : Nat
  keyId : Byte
  address : Vector Byte 6
  cipher : CipherParameters
deriving DecidableEq, Repr

namespace SetKey

/-- The checks of `set_key`, in their order. -/
def validate (a : SetKey) : Except CryptoError (Fin 25 × Fin 4) :=
  if hslot : a.keySlot < 25 then
    if hinterface : a.interface < 4 then
      if a.keyId ≥ 4 then .error .outOfBounds
      else if a.address[0].getLsbD 0 then .error .multicastBitSet
      else .ok (⟨a.keySlot, hslot⟩, ⟨a.interface, hinterface⟩)
    else .error .outOfBounds
  else .error .outOfBounds

def parameters (a : SetKey) : KeySlotParameters :=
  { address := a.address
    keyId := a.keyId
    interface := BitVec.ofNat 8 a.interface
    pairwise := a.cipher.isPairwise
    group := a.cipher.isGroup
    algorithm := a.cipher.algorithm
    wep104 := a.cipher.isWep104 }

/-- Management frame protection as in the AES parameters. -/
def mfp (a : SetKey) : Bool := (a.cipher.aesCipherParameters.map (·.mfpEnabled)).getD false

def spp (a : SetKey) : Bool := (a.cipher.aesCipherParameters.map (·.sppEnabled)).getD false

/-- The writes after the checks. -/
def writes (a : SetKey) (slot : Fin 25) (interface : Fin 4) : List CryptoWrite :=
  setKeySlotParameters slot a.parameters ++ llSetKey slot a.cipher.key ++
    [.keySlotEnable slot true, .interfaceCrypto interface a.mfp a.spp a.cipher.isAead,
      .sms4Status false]

end SetKey

inductive CryptoCall where
  | setKey (a : SetKey)
  | deleteKey (keySlot : Nat)
deriving DecidableEq, Repr

/-- The writes of a call.  A call that returns an error has none. -/
def CryptoCall.writes : CryptoCall → List CryptoWrite
  | .setKey a =>
      match a.validate with
      | .ok (slot, interface) => a.writes slot interface
      | .error _ => []
  | .deleteKey keySlot =>
      if hslot : keySlot < 25 then
        .keySlotEnable ⟨keySlot, hslot⟩ false :: clearKeySlot ⟨keySlot, hslot⟩
      else []

/-- The call returns an error. -/
def CryptoCall.fails : CryptoCall → Bool
  | .setKey a => !a.validate.isOk
  | .deleteKey keySlot => !decide (keySlot < 25)

/-! ## What a slot holds -/

/-- The registers of a slot that holds the entry: the key is followed by zeros. -/
def SetKey.image (a : SetKey) : KeySlot :=
  { addrLow := (splitAddress a.parameters.address).1
    addrHigh := AddrHigh.setParameters a.parameters {}
    keyValue := fun i => wordAt a.cipher.key (4 * i) }

/-- The slot a write goes to. -/
def CryptoWrite.slot : CryptoWrite → Option (Fin 25)
  | .keySlotEnable slot _ | .addrLow slot _ | .addrHigh slot _ | .resetAddrHigh slot
  | .keyValue slot _ _ => some slot
  | .interfaceCrypto .. | .sms4Status _ => none

/-- What a write makes of the registers of its slot. -/
def KeySlot.write (k : KeySlot) : CryptoWrite → KeySlot
  | .addrLow _ value => { k with addrLow := value }
  | .addrHigh _ parameters => { k with addrHigh := k.addrHigh.setParameters parameters }
  | .resetAddrHigh _ => { k with addrHigh := {} }
  | .keyValue _ i word => { k with keyValue := Function.update k.keyValue i word }
  | .keySlotEnable .. | .interfaceCrypto .. | .sms4Status _ => k

theorem CryptoRegs.write_keySlot (layout : CryptoControlLayout) (r : CryptoRegs) (w : CryptoWrite)
    (slot : Fin 25) :
    (r.write layout w).keySlot slot =
      if w.slot = some slot then (r.keySlot slot).write w else r.keySlot slot := by
  cases w <;> simp only [CryptoRegs.write, CryptoRegs.modifySlot, CryptoWrite.slot, KeySlot.write,
    Function.update_apply, Option.some.injEq, reduceCtorEq, ite_self] <;>
    split <;> rename_i h <;> simp [h, eq_comm]

theorem CryptoRegs.write_keySlotEnable (layout : CryptoControlLayout) (r : CryptoRegs)
    (w : CryptoWrite) (slot : Fin 25) :
    (r.write layout w).keySlotEnable slot =
      match w with
      | .keySlotEnable slot' enabled => if slot = slot' then enabled else r.keySlotEnable slot
      | _ => r.keySlotEnable slot := by
  cases w <;> simp [CryptoRegs.write, CryptoRegs.modifySlot, Function.update_apply]

namespace KeySlot

theorem foldl_llSetKey (k : KeySlot) (slot : Fin 25) (key : List Byte) :
    (llSetKey slot key).foldl KeySlot.write k =
      { k with keyValue := fillAt (List.finRange 8) (wordsOf key) k.keyValue } := by
  rw [llSetKey, List.foldl_map, fillAt]
  generalize (wordsOf key).zip (List.finRange 8) = words
  induction words generalizing k with
  | nil => rfl
  | cons w words ih =>
      rw [List.foldl_cons, List.foldl_cons, ih]
      rfl

/-- What the data writes of `set_key` leave in the slot.  The words behind the
key are those of before. -/
theorem foldl_setKey (k : KeySlot) (hother : k.addrHigh.other = 0) (slot : Fin 25) (a : SetKey) :
    (setKeySlotParameters slot a.parameters ++ llSetKey slot a.cipher.key).foldl KeySlot.write k =
      { a.image with
        keyValue := fun i =>
          if 4 * i.val < a.cipher.key.length then a.image.keyValue i else k.keyValue i } := by
  have hhigh : k.addrHigh.setParameters a.parameters = a.image.addrHigh := by
    rw [AddrHigh.setParameters, hother]
    rfl
  have hkey : fillAt (List.finRange 8) (wordsOf a.cipher.key) k.keyValue =
      fun i => if 4 * i.val < a.cipher.key.length then a.image.keyValue i else k.keyValue i := by
    funext i
    rw [fillAt_finRange, wordsOf_getElem?]
    split <;> rfl
  calc (setKeySlotParameters slot a.parameters ++ llSetKey slot a.cipher.key).foldl KeySlot.write k
      = (llSetKey slot a.cipher.key).foldl KeySlot.write
          { k with
            addrLow := a.image.addrLow
            addrHigh := k.addrHigh.setParameters a.parameters } := by
        rw [List.foldl_append]
        rfl
    _ = _ := by rw [foldl_llSetKey, hhigh, hkey]

/-- The slot holds the new entry if and only if the words behind its key were zero. -/
theorem foldl_setKey_eq_image_iff (k : KeySlot) (hother : k.addrHigh.other = 0) (slot : Fin 25)
    (a : SetKey) :
    (setKeySlotParameters slot a.parameters ++ llSetKey slot a.cipher.key).foldl KeySlot.write k =
        a.image ↔
      ∀ i : Fin 8, a.cipher.key.length ≤ 4 * i → k.keyValue i = 0 := by
  rw [foldl_setKey k hother]
  constructor
  · intro h i hi
    have hvalue := congrFun (congrArg KeySlot.keyValue h) i
    simp only [if_neg (Nat.not_lt.mpr hi)] at hvalue
    rw [hvalue]
    exact wordAt_of_length_le hi
  · intro h
    have hkey : (fun i : Fin 8 => if 4 * i.val < a.cipher.key.length then a.image.keyValue i
        else k.keyValue i) = a.image.keyValue := by
      funext i
      split
      case isTrue => rfl
      case isFalse hi =>
        rw [h i (Nat.not_lt.mp hi)]
        exact (wordAt_of_length_le (Nat.not_lt.mp hi)).symm
    rw [hkey]

theorem foldl_resetKeyValue (k : KeySlot) (slot : Fin 25) (is : List (Fin 8)) :
    (is.map fun i => CryptoWrite.keyValue slot i 0).foldl KeySlot.write k =
      { k with keyValue := fun i => if i ∈ is then 0 else k.keyValue i } := by
  induction is generalizing k with
  | nil => simp
  | cons j is ih =>
      rw [List.map_cons, List.foldl_cons, ih]
      simp only [KeySlot.write, KeySlot.mk.injEq, true_and, List.mem_cons]
      funext i
      by_cases hi : i = j <;> simp [hi]

theorem foldl_clearKeySlot (k : KeySlot) (slot : Fin 25) :
    (clearKeySlot slot).foldl KeySlot.write k = {} := by
  rw [clearKeySlot, List.foldl_append, foldl_resetKeyValue]
  simp [KeySlot.write]

theorem write_other {k : KeySlot} (h : k.addrHigh.other = 0) (w : CryptoWrite) :
    (k.write w).addrHigh.other = 0 := by
  cases w with
  | resetAddrHigh => rfl
  | _ => exact h

end KeySlot

end EspWifiHal
