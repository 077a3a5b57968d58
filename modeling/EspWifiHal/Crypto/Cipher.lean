import EspWifiHal.Tx.Params

/-!
# Ciphers and their keys

The keys of the supported ciphers have 5, 13, 16 or 32 bytes.  The length is
part of the type of a key, so no cipher has a key of more than 32 bytes
(`CipherParameters.key_length_le`).
-/

namespace EspWifiHal

def wep40KeyLength : Nat := 5

def wep104KeyLength : Nat := 13

def tkipKeyLength : Nat := 16

def aes128KeyLength : Nat := 16

def aes256KeyLength : Nat := 32

/-- A key of one of two lengths. -/
inductive MultiLengthKey (short long : Nat) where
  | short (key : Vector Byte short)
  | long (key : Vector Byte long)
deriving DecidableEq, Repr

namespace MultiLengthKey

variable {short long : Nat}

def keyLength : MultiLengthKey short long → Nat
  | .short _ => short
  | .long _ => long

def key : MultiLengthKey short long → List Byte
  | .short key => key.toList
  | .long key => key.toList

theorem key_length (k : MultiLengthKey short long) : k.key.length = k.keyLength := by
  cases k with
  | short key => exact key.length_toList
  | long key => exact key.length_toList

theorem key_length_le {n : Nat} (hshort : short ≤ n) (hlong : long ≤ n)
    (k : MultiLengthKey short long) : k.key.length ≤ n := by
  rw [k.key_length]
  cases k with
  | short key => exact hshort
  | long key => exact hlong

end MultiLengthKey

inductive KeyType where
  | pairwise
  | group
deriving DecidableEq, Repr

structure AesCipherParameters where
  key : MultiLengthKey aes128KeyLength aes256KeyLength
  keyType : KeyType
  mfpEnabled : Bool
  sppEnabled : Bool
deriving DecidableEq, Repr

inductive CipherParameters where
  | wep (key : MultiLengthKey wep40KeyLength wep104KeyLength)
  | tkip (key : Vector Byte tkipKeyLength) (keyType : KeyType)
  | ccmp (parameters : AesCipherParameters)
deriving DecidableEq, Repr

namespace CipherParameters

def aesCipherParameters : CipherParameters → Option AesCipherParameters
  | .ccmp parameters => some parameters
  | _ => none

def isWep104 : CipherParameters → Bool
  | .wep key => key.keyLength == wep104KeyLength
  | _ => false

/-- The type of the key, which a WEP key does not have. -/
def keyType (cipher : CipherParameters) : Option KeyType :=
  (cipher.aesCipherParameters.map (·.keyType)).or
    (match cipher with
      | .tkip _ keyType => some keyType
      | _ => none)

def key : CipherParameters → List Byte
  | .wep key => key.key
  | .tkip key _ => key.toList
  | .ccmp parameters => parameters.key.key

def isAead : CipherParameters → Bool
  | .wep _ => true
  | _ => false

def isPairwise (cipher : CipherParameters) : Bool :=
  match cipher.keyType with
  | some keyType => keyType == .pairwise
  | none => true

def isGroup (cipher : CipherParameters) : Bool :=
  match cipher.keyType with
  | some keyType => keyType == .group
  | none => true

def algorithm : CipherParameters → Byte
  | .wep _ => 1
  | .tkip _ _ => 2
  | .ccmp _ => 3

theorem key_length_le (cipher : CipherParameters) : cipher.key.length ≤ 32 := by
  cases cipher with
  | wep key => exact key.key_length_le (by decide) (by decide)
  | tkip key keyType =>
      rw [CipherParameters.key, key.length_toList]
      decide
  | ccmp parameters => exact parameters.key.key_length_le (by decide) (by decide)

end CipherParameters

end EspWifiHal
