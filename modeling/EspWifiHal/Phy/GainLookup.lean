import EspWifiHal.Lib.Search
import EspWifiHal.Phy.FreqMemory
import Mathlib.Data.Int.ConditionallyCompleteOrder

/-!
# Looking up transmit gains

`lookup` searches the gain tables for a target power.  C3 scans the thresholds from the
start.  S3 walks from the entry that the last search found, and may step back by one entry
afterwards.

`lookupIndex_eq` says that the walk finds the entry of the scan in every table that does
not increase.  So `wifi_get` and `bt_get` on S3 compute the gain of each rate as if it were
the only one (`wifiGet_spec`, `btGet_spec`).
-/

namespace EspWifiHal

open Memory

/-! ## The lookup -/

/-- A halfword as a signed number. -/
def sh (value : BitVec 32) : Int := (value.setWidth 16).toInt

/-- The tables of a search and where it writes what it finds. -/
inductive LookupBuffer where
  | code
  | value
  | difference
  | codes
  | values
  | thresholds
deriving DecidableEq, Repr

def LookupBuffer.size (n : Nat) : LookupBuffer → Nat
  | .code => 1
  | .value => 2
  | .difference => 2
  | .codes => n
  | .values => 2 * n
  | .thresholds => 2 * n

abbrev LookupBuffers (n : Nat) := Regions LookupBuffer (LookupBuffer.size n)

/-- The places of the results in a scratch buffer. -/
def LookupBuffer.offset : LookupBuffer → Nat
  | .value => 4
  | .difference => 8
  | _ => 0

/-- The scan of C3.  Only the lowest byte of the counter is compared with the number of entries. -/
def scanIndex (table : Nat) (count : Nat) (requested : Int) (m : ByteMem) :
    Nat → Nat → Option Nat
  | 0, _ => none
  | fuel + 1, scan =>
      let i := scan % 256
      if count ≤ i then some ((count + 2 ^ 32 - 1) % 2 ^ 32 % 256)
      else
        let scan := (scan + 1) % 2 ^ 32
        let threshold := sh (read m (table + (scan + 2 ^ 32 - 1) % 2 ^ 32 * 2 % 2 ^ 32) 2)
        if threshold ≤ requested then some i else scanIndex table count requested m fuel scan

/-- The threshold of an entry. -/
def threshold (table : Nat) (m : ByteMem) (i : Nat) : Int := sh (read m (table + i * 2) 2)

/-- An iteration of the walk of S3, on the index and the number of iterations. -/
def lookupStep (table : Nat) (count : Nat) (requested : Int) (m : ByteMem) (s : Nat × Nat) :
    (Nat × Nat) × Bool :=
  let (index, iterations) := s
  if threshold table m index ≤ requested then
    if index = 0 then (s, true)
    else
      let previous := sh (read m (table + index * 2 - 2) 2)
      if requested < previous then (s, true)
      else (((index + 255) % 256, (iterations + 1) % 256), false)
  else if index = (count + 2 ^ 32 - 1) % 2 ^ 32 then (s, true)
  else
    let next := sh (read m (table + index * 2 + 2) 2)
    let index := (index + 1) % 256
    if next ≤ requested then ((index, iterations), true)
    else ((index, (iterations + 1) % 256), false)

def lookupIndex (table : Nat) (hint count : Nat) (requested : Int) (m : ByteMem) (fuel : Nat) :
    Option Nat :=
  (Loop.whileBreak (fun s => s.2 != count) (lookupStep table count requested m) fuel
    (hint, 0)).map Prod.fst

/-- `lookup` of C3. -/
def lookupC3 (base : LookupBuffer → Nat) (requested count : BitVec 32) (fuel : Nat) (m : ByteMem) :
    Option (Nat × ByteMem) := do
  let index ← scanIndex (base .thresholds) count.toNat requested.toInt m fuel 0
  let code := read m (base .codes + index) 1
  let m := write m (base .code) 1 code
  let value := read m (base .values + index * 2) 2
  let m := write m (base .value) 2 value
  let threshold := read m (base .thresholds + index * 2) 2
  let m := write m (base .difference) 2 (requested - threshold)
  return (0, m)

/-- `lookup` of S3 after the walk. -/
def lookupFinish (base : LookupBuffer → Nat) (adjustment requested limit : Int) (index : Nat)
    (m : ByteMem) : Nat × ByteMem :=
  let threshold := read m (base .thresholds + index * 2) 2
  let difference := sh (BitVec.ofInt 32 requested - threshold)
  let m := write m (base .difference) 2 (BitVec.ofInt 32 difference)
  let index :=
    if difference + adjustment > limit ∧ index ≠ 0 then (index + 255) % 256 else index
  let threshold := read m (base .thresholds + index * 2) 2
  let m := write m (base .difference) 2 (BitVec.ofInt 32 requested - threshold)
  let code := read m (base .codes + index) 1
  let m := write m (base .code) 1 code
  let value := read m (base .values + index * 2) 2
  let m := write m (base .value) 2 value
  (index, m)

/-- `lookup` of S3. -/
def lookupS3 (base : LookupBuffer → Nat) (hint adjustment requested count limit : BitVec 32)
    (fuel : Nat) (m : ByteMem) : Option (Nat × ByteMem) := do
  let index ← lookupIndex (base .thresholds) (hint.toNat % 256) (count.toNat % 256) (sh requested) m
    fuel
  return lookupFinish base (sh adjustment) (sh requested) (sb limit) index m

/-! ## The gains of the rates -/

/-- The callbacks in the table slots `0xdc` and `0xe0` of S3. -/
structure DigCallbacks where
  indexOf : BitVec 32 → BitVec 32
  valueOf : BitVec 32 → BitVec 32

/-- The loop of `dig_check`.  It moves part of the gain to the index, which it raises to four at
most. -/
def digLoop (index current : BitVec 32) : BitVec 32 × BitVec 32 :=
  let stop := (index + 4) &&& 255
  Loop.forBreak
    (fun s (_ : Nat) =>
      if s.1 < 4 ∧ (s.2 ||| (s.2 - 1)) &&& 128 = 0 then
        let index := (s.1 + 1) &&& 255
        ((index, (s.2 - 8) &&& 255), index == stop)
      else (s, true))
    (List.range 4) (index, current)

def digCheck (dig : DigCallbacks) (value gain : Nat) (m : ByteMem) : ByteMem :=
  let input := read m value 2
  let current := read m gain 1
  let (index, current) := digLoop (dig.indexOf input) current
  let m := write m value 2 (dig.valueOf index)
  write m gain 2 (BitVec.ofInt 32 (sb current))

inductive WifiBuffer where
  | scratch
  | inputs
  | codes
  | values
  | thresholds
  | gains
  | rateValues
  | rateCodes
deriving DecidableEq, Repr

def WifiBuffer.size : WifiBuffer → Nat
  | .scratch => 16
  | .inputs => 14
  | .codes => 18
  | .values => 36
  | .thresholds => 36
  | .gains => 14
  | .rateValues => 28
  | .rateCodes => 14

abbrev WifiBuffers := Regions WifiBuffer WifiBuffer.size

/-- The buffer that holds a buffer of the search. -/
def WifiBuffer.holder : LookupBuffer → WifiBuffer
  | .codes => .codes
  | .values => .values
  | .thresholds => .thresholds
  | _ => .scratch

/-- The buffers of the search for a rate. -/
def WifiBuffer.lookup (base : WifiBuffer → Nat) : LookupBuffer → Nat
  | .code => base .scratch
  | .value => base .scratch + 4
  | .difference => base .scratch + 8
  | .codes => base .codes
  | .values => base .values
  | .thresholds => base .thresholds

/-- What `wifi_get` does with the result of the search on S3. -/
def wifiFinish (dig : DigCallbacks) (base : WifiBuffer → Nat) (power : BitVec 32) (i : Nat)
    (m : ByteMem) : ByteMem :=
  let b := base .scratch
  let difference := read m (b + 8) 2
  let gain := sh (difference - power)
  let m := write m (b + 12) 2 (BitVec.ofInt 32 gain)
  let m := if gain > 0 then digCheck dig (b + 4) (b + 12) m else m
  let gain := read m (b + 12) 2
  let m := write m (base .gains + i) 1 gain
  let value := read m (b + 4) 2
  let code := read m b 1
  let m := write m (base .rateValues + i * 2) 2 value
  write m (base .rateCodes + i) 1 code

/-- A rate of `wifi_get` on S3. -/
def wifiStepS3 (dig : DigCallbacks) (base : WifiBuffer → Nat) (reference delta power : BitVec 32)
    (fuel : Nat) (s : Nat × ByteMem) (i : Nat) : Option (Nat × ByteMem) := do
  let input := sb (read s.2 (base .inputs + i) 1)
  let requested := input - sb reference + sb delta
  let (index, m) ← lookupS3 (WifiBuffer.lookup base) (BitVec.ofNat 32 s.1)
    (BitVec.ofInt 32 (sh (0 - power))) (BitVec.ofInt 32 requested) 18 0 fuel s.2
  return (index, wifiFinish dig base power i m)

/-- A rate of `wifi_get` on C3. -/
def wifiStepC3 (base : WifiBuffer → Nat) (reference delta : BitVec 32) (power : ByteMem → BitVec 32)
    (fuel : Nat) (s : Nat × ByteMem) (i : Nat) : Option (Nat × ByteMem) := do
  let power := power s.2
  let input := sb (read s.2 (base .inputs + i) 1)
  let requested := sh (BitVec.ofInt 32 input - reference + delta)
  let (_, m) ← lookupC3 (WifiBuffer.lookup base) (BitVec.ofInt 32 requested) 18 fuel s.2
  let b := base .scratch
  let difference := sh (read m (b + 8) 2)
  let value := read m (b + 4) 2
  let m := write m (base .rateValues + i * 2) 2 value
  let code := read m b 1
  let m := write m (base .rateCodes + i) 1 code
  let gain := max (-80) (min 24 (sh (BitVec.ofInt 32 difference - power)))
  let m := write m (base .gains + i) 1 (BitVec.ofInt 32 gain)
  return (s.1, m)

/-- `wifi_get`.  The callback that interpolates the power of the channel is `power`. -/
def wifiGet (chip : PhyChip) (dig : DigCallbacks) (base : WifiBuffer → Nat)
    (reference delta : BitVec 32) (power : ByteMem → BitVec 32) (fuel : Nat) (m : ByteMem) :
    Option ByteMem :=
  let step :=
    match chip with
    | .esp32s3 =>
        let power := (BitVec.ofInt 16 (sb (power m))).setWidth 32
        wifiStepS3 dig base reference delta power fuel
    | .esp32c3 => wifiStepC3 base reference delta power fuel
  ((List.range 14).foldlM step (0, m)).map Prod.snd

inductive BtBuffer where
  | scratch
  | inputs
  | codes
  | values
  | thresholds
  | gains
  | rateCodes
deriving DecidableEq, Repr

def BtBuffer.size : BtBuffer → Nat
  | .scratch => 16
  | .inputs => 2
  | .codes => 14
  | .values => 28
  | .thresholds => 28
  | .gains => 16
  | .rateCodes => 16

abbrev BtBuffers := Regions BtBuffer BtBuffer.size

/-- The buffer that holds a buffer of the search. -/
def BtBuffer.holder : LookupBuffer → BtBuffer
  | .codes => .codes
  | .values => .values
  | .thresholds => .thresholds
  | _ => .scratch

def BtBuffer.lookup (base : BtBuffer → Nat) : LookupBuffer → Nat
  | .code => base .scratch
  | .value => base .scratch + 4
  | .difference => base .scratch + 8
  | .codes => base .codes
  | .values => base .values
  | .thresholds => base .thresholds

/-- What `bt_get` does with the result of the search. -/
def btFinish (chip : PhyChip) (base : BtBuffer → Nat) (input : BitVec 32) (i : Nat) (m : ByteMem) :
    ByteMem :=
  let b := base .scratch
  let difference := read m (b + 8) 2
  let code := read m b 1
  let gain := sh (difference - input)
  let gain :=
    match chip with
    | .esp32s3 => gain
    | .esp32c3 => min gain 24
  let gain := max gain (-64)
  let m := write m (base .rateCodes + i) 1 code
  write m (base .gains + i) 1 (BitVec.ofInt 32 gain)

structure BtArgs where
  gain : BitVec 32
  offset : BitVec 32
  level : BitVec 32
  step : BitVec 32

/-- The request of a rate. -/
def btRequest (chip : PhyChip) (limit : LimitCallback) (a : BtArgs) (level : BitVec 16) : Int :=
  let delta :=
    match chip with
    | .esp32s3 => BitVec.ofInt 32 (sb a.offset - sb a.gain)
    | .esp32c3 => a.offset - a.gain
  let power := limit (level.signExtend 32) 80 (-96)
  sh (delta + power)

def btStep (chip : PhyChip) (limit : LimitCallback) (base : BtBuffer → Nat) (a : BtArgs)
    (fuel : Nat) (s : Nat × BitVec 16 × ByteMem) (i : Nat) :
    Option (Nat × BitVec 16 × ByteMem) := do
  let (index, level, m) := s
  let input := (BitVec.ofInt 16 (sb (read m (base .inputs + 1) 1))).setWidth 32
  let requested := BitVec.ofInt 32 (btRequest chip limit a level)
  let (index, m) ←
    match chip with
    | .esp32s3 =>
        lookupS3 (BtBuffer.lookup base) (BitVec.ofNat 32 index) (BitVec.ofInt 32 (sh (0 - input)))
          requested 14 (-8) fuel m
    | .esp32c3 => lookupC3 (BtBuffer.lookup base) requested 14 fuel m
  return (index, level + BitVec.ofInt 16 (sb a.step * 4), btFinish chip base input i m)

def btGet (chip : PhyChip) (limit : LimitCallback) (base : BtBuffer → Nat) (a : BtArgs)
    (fuel : Nat) (m : ByteMem) : Option ByteMem :=
  ((List.range 16).foldlM (btStep chip limit base a fuel)
    (0, BitVec.ofInt 16 (sb a.level), m)).map fun s => s.2.2

/-! ## The index -/

section Index

variable {table n hint fuel : Nat} {requested : Int} {m : ByteMem}

/-- An iteration is a move of the walk, and counts unless it ends the loop. -/
theorem lookupStep_eq (hn : n ≤ 255) {i c : Nat} (hi : i < n) (hc : c < n) :
    lookupStep table n requested m (i, c) =
      (((Search.walkStep (threshold table m) requested n i).1,
        if (Search.walkStep (threshold table m) requested n i).2 then c else c + 1),
        (Search.walkStep (threshold table m) requested n i).2) := by
  have hcount : (c + 1) % 256 = c + 1 := by omega
  rw [lookupStep, Search.walkStep]
  by_cases hle : threshold table m i ≤ requested
  · rw [if_pos hle, if_pos hle]
    by_cases hzero : i = 0
    · rw [if_pos hzero, if_pos (.inl hzero)]
      rfl
    · have hprevious : sh (read m (table + i * 2 - 2) 2) = threshold table m (i - 1) := by
        rw [threshold]
        congr 2
        omega
      have hdown : (i + 255) % 256 = i - 1 := by omega
      rw [if_neg hzero]
      simp only [hprevious, hdown, hcount, hzero, false_or]
      by_cases habove : requested < threshold table m (i - 1)
      · simp [habove]
      · simp [habove]
  · have hlast : i = (n + 2 ^ 32 - 1) % 2 ^ 32 ↔ i + 1 = n := by omega
    have hnext : sh (read m (table + i * 2 + 2) 2) = threshold table m (i + 1) := by
      rw [threshold]
      congr 2
      omega
    have hup : (i + 1) % 256 = i + 1 := by omega
    rw [if_neg hle, if_neg hle]
    by_cases hend : i + 1 = n
    · rw [if_pos (hlast.mpr hend), if_pos hend]
      rfl
    · rw [if_neg fun h => hend (hlast.mp h), if_neg hend]
      simp only [hnext, hup, hcount]
      by_cases hstop : threshold table m (i + 1) ≤ requested
      · simp [hstop]
      · simp [hstop]

theorem lookupIndex_eq_walk (hn : n ≤ 255) (hhint : hint < n) (hfuel : n < fuel) :
    lookupIndex table hint n requested m fuel =
      some (Search.walk (threshold table m) requested n hint) :=
  Loop.whileBreak_count (f := Search.walkStep (threshold table m) requested n) (P := (· < n))
    (fun _ hi _ hc => lookupStep_eq hn hi hc) (fun _ hi => Search.walkStep_lt hi) (List.range n)
    hhint (by simp) (by simpa using hfuel)

/-- The index after `k` iterations of the walk. -/
def lookupAfter (table hint count : Nat) (requested : Int) (m : ByteMem) (k : Nat) : Nat :=
  (Loop.forBreak (fun s (_ : Nat) => lookupStep table count requested m s) (List.range k)
    (hint, 0)).1

theorem lookupAfter_eq (hn : n ≤ 255) (hhint : hint < n) {k : Nat} (hk : k ≤ n) :
    lookupAfter table hint n requested m k =
      Loop.forBreak (fun i (_ : Nat) => Search.walkStep (threshold table m) requested n i)
        (List.range k) hint :=
  Loop.forBreak_count (P := (· < n)) (fun _ hi _ hc => lookupStep_eq hn hi hc)
    (fun _ hi => Search.walkStep_lt hi) (List.range k) hhint (by simpa using hk)

theorem lookupAfter_lt (hn : n ≤ 255) (hhint : hint < n) {k : Nat} (hk : k ≤ n) :
    lookupAfter table hint n requested m k < n := by
  rw [lookupAfter_eq hn hhint hk]
  exact Loop.forBreak_inv _ (· < n) (fun _ _ hi => Search.walkStep_lt hi) _ hhint

/-- The loop ends after `n` iterations at most. -/
theorem lookupIndex_eq_lookupAfter (hn : n ≤ 255) (hhint : hint < n) (hfuel : n < fuel) :
    lookupIndex table hint n requested m fuel =
      some (lookupAfter table hint n requested m n) := by
  rw [lookupIndex_eq_walk hn hhint hfuel, lookupAfter_eq hn hhint (Nat.le_refl n), Search.walk]

/-- The scan finds the first entry that is at most the request, or the last one. -/
theorem scanIndex_stops (hn : n ≤ 255) {k : Nat} (hk : k ≤ n) (hpos : 0 < n)
    (habove : ∀ j < k, requested < threshold table m j) (hfuel : n - k < fuel) :
    ∃ i, scanIndex table n requested m fuel k = some i ∧
      Search.Stops (threshold table m) requested n i := by
  induction fuel generalizing k with
  | zero => omega
  | succ fuel ih =>
      have hlow : k % 256 = k := by omega
      rw [scanIndex]
      simp only [hlow]
      by_cases hend : n ≤ k
      · have hlast : (n + 2 ^ 32 - 1) % 2 ^ 32 % 256 = n - 1 := by omega
        rw [if_pos hend, hlast]
        refine ⟨n - 1, rfl, by omega, fun j hj => habove j (by omega), .inr (by omega)⟩
      · have haddress : ((k + 1) % 2 ^ 32 + 2 ^ 32 - 1) % 2 ^ 32 * 2 % 2 ^ 32 = k * 2 := by omega
        have hscan : (k + 1) % 2 ^ 32 = k + 1 := by omega
        rw [if_neg hend, haddress, hscan]
        show ∃ i, (if threshold table m k ≤ requested then _ else _) = some i ∧ _
        by_cases hle : threshold table m k ≤ requested
        · rw [if_pos hle]
          exact ⟨k, rfl, by omega, habove, .inl hle⟩
        · rw [if_neg hle]
          refine ih (by omega) (fun j hj => ?_) (by omega)
          rcases Nat.lt_succ_iff_lt_or_eq.mp hj with hlt | rfl
          · exact habove j hlt
          · exact not_le.mp hle

theorem scanIndex_eq (hn : n ≤ 255) (hpos : 0 < n) (hfuel : n < fuel) :
    scanIndex table n requested m fuel 0 =
      some (Search.first (threshold table m) requested n) := by
  obtain ⟨i, hi, hstops⟩ : ∃ i, scanIndex table n requested m fuel 0 = some i ∧
      Search.Stops (threshold table m) requested n i :=
    scanIndex_stops hn (Nat.zero_le n) hpos (fun j hj => absurd hj (Nat.not_lt_zero j)) hfuel
  rw [hi, hstops.unique (Search.first_stops hpos)]

/-- The walk in a table that does not increase. -/
theorem lookupIndex_eq (hn : n ≤ 255) (hhint : hint < n) (hfuel : n < fuel)
    (htable : AntitoneOn (threshold table m) (Set.Iio n)) :
    lookupIndex table hint n requested m fuel =
      some (Search.first (threshold table m) requested n) := by
  have hstops := Search.first_stops (t := threshold table m) (r := requested)
    (Nat.zero_lt_of_lt hhint)
  rw [lookupIndex_eq_walk hn hhint hfuel, Search.walk_eq htable hstops hhint]

end Index

/-! ## What is written -/

/-- The request minus the threshold, as the halfword that is stored. -/
def differenceOf (base : LookupBuffer → Nat) (requested : Int) (m : ByteMem) (i : Nat) :
    BitVec 32 :=
  ((BitVec.ofInt 32 requested - read m (base .thresholds + i * 2) 2).setWidth 16).setWidth 32

/-- The entry before `i`, if the difference there is too large. -/
def adjustIndex (base : LookupBuffer → Nat) (requested adjustment limit : Int) (m : ByteMem)
    (i : Nat) : Nat :=
  if sh (differenceOf base requested m i) + adjustment > limit ∧ i ≠ 0 then i - 1 else i

/-- The entry `i` is written to the result buffers and nothing else changes. -/
structure Found (base : LookupBuffer → Nat) (requested : Int) (i : Nat) (m m' : ByteMem) :
    Prop where
  code : m' (base .code) = m (base .codes + i)
  value : read m' (base .value) 2 = read m (base .values + i * 2) 2
  difference : read m' (base .difference) 2 = differenceOf base requested m i
  kept : ∀ x, x ≠ base .code → (x < base .value ∨ base .value + 2 ≤ x) →
    (x < base .difference ∨ base .difference + 2 ≤ x) → m' x = m x

section Found

variable {n : Nat} (L : LookupBuffers n) {m : ByteMem} {i : Nat}

theorem sh_setWidth (v : BitVec 32) : sh ((v.setWidth 16).setWidth 32) = sh v := by
  rw [sh, sh, BitVec.setWidth_setWidth_of_le _ (by decide), BitVec.setWidth_eq]

/-- A load from a buffer after a store to another one. -/
theorem read_other {r s : LookupBuffer} (hrs : r ≠ s) {width o size : Nat}
    (hwidth : width ≤ r.size n) (ho : o + size ≤ s.size n) (v : BitVec 32) :
    read (write m (L.base r) width v) (L.base s + o) size = read m (L.base s + o) size := by
  have hseparate := L.separate r s hrs
  exact read_congr fun k hk => fill_of_not_mem (by omega)

/-- The stores of `lookup`, with the loads from the tables as they were: the difference of the
entry `i` and everything of the entry `final`. -/
def lookupStores (base : LookupBuffer → Nat) (requested : Int) (i final : Nat) (m : ByteMem) :
    ByteMem :=
  let difference := sh (BitVec.ofInt 32 requested - read m (base .thresholds + i * 2) 2)
  let m₁ := write m (base .difference) 2 (BitVec.ofInt 32 difference)
  let m₂ := write m₁ (base .difference) 2
    (BitVec.ofInt 32 requested - read m (base .thresholds + final * 2) 2)
  let m₃ := write m₂ (base .code) 1 (read m (base .codes + final) 1)
  write m₃ (base .value) 2 (read m (base .values + final * 2) 2)

theorem adjustIndex_lt {base : LookupBuffer → Nat} (hi : i < n) (requested adjustment limit : Int)
    (m : ByteMem) : adjustIndex base requested adjustment limit m i < n := by
  rw [adjustIndex]
  split_ifs <;> omega

theorem lookupFinish_eq (hn : n ≤ 255) (hi : i < n) (adjustment requested limit : Int) :
    let final := adjustIndex L.base requested adjustment limit m i
    lookupFinish L.base adjustment requested limit i m =
      (final, lookupStores L.base requested i final m) := by
  intro final
  have hfinal : final < n := adjustIndex_lt hi requested adjustment limit m
  have hindex : (if sh (BitVec.ofInt 32 requested - read m (L.base .thresholds + i * 2) 2) +
      adjustment > limit ∧ i ≠ 0 then (i + 255) % 256 else i) = final := by
    show _ = adjustIndex ..
    rw [adjustIndex, differenceOf, sh_setWidth]
    split_ifs <;> omega
  have hcode : 1 ≤ LookupBuffer.size n .code := Nat.le_refl 1
  have hdifference : 2 ≤ LookupBuffer.size n .difference := Nat.le_refl 2
  have hcodes : final + 1 ≤ LookupBuffer.size n .codes := hfinal
  have hvalues : final * 2 + 2 ≤ LookupBuffer.size n .values := by
    show _ ≤ 2 * n
    omega
  have hthresholds : final * 2 + 2 ≤ LookupBuffer.size n .thresholds := hvalues
  -- no store changes a table
  rw [lookupFinish]
  simp only [hindex]
  rw [read_other L (by decide) hdifference hthresholds,
    read_other L (by decide) hdifference hcodes, read_other L (by decide) hdifference hcodes,
    read_other L (by decide) hcode hvalues, read_other L (by decide) hdifference hvalues,
    read_other L (by decide) hdifference hvalues]
  rfl

theorem found_lookupStores (requested : Int) (i final : Nat) (m : ByteMem) :
    Found L.base requested final m (lookupStores L.base requested i final m) := by
  have hcode : 1 ≤ LookupBuffer.size n .code := Nat.le_refl 1
  have hvalue : 2 ≤ LookupBuffer.size n .value := Nat.le_refl 2
  have hdifference : 2 ≤ LookupBuffer.size n .difference := Nat.le_refl 2
  have hseparate : L.base .code + 1 ≤ L.base .value ∨ L.base .value + 2 ≤ L.base .code :=
    L.separate .code .value (by decide)
  simp only [lookupStores]
  refine ⟨?_, ?_, ?_, fun x hcodeAt hvalueAt hdifferenceAt => ?_⟩
  · rw [write, fill_of_not_mem (by omega), write_one, fill_self, read_one, setWidth_byte]
  · rw [read_write_of_le _ _ _ (by decide)]
    exact setWidth_read m _ 2
  · refine (read_other L (o := 0) (by decide) hvalue hdifference _).trans ?_
    refine (read_other L (o := 0) (by decide) hcode hdifference _).trans ?_
    exact read_write_of_le _ _ _ (by decide)
  · simp only [write]
    rw [fill_of_not_mem hvalueAt, fill_of_not_mem (by omega), fill_of_not_mem hdifferenceAt,
      fill_of_not_mem hdifferenceAt]

/-- The lookup of S3 in any table: the entry of the walk, or the one before it. -/
theorem lookupS3_walk (hn : n ≤ 255) (hint adjustment requested count limit : BitVec 32)
    {fuel : Nat} (hcount : count.toNat % 256 = n) (hhint : hint.toNat % 256 < n)
    (hfuel : n < fuel) :
    let i := Search.walk (threshold (L.base .thresholds) m) (sh requested) n (hint.toNat % 256)
    let final := adjustIndex L.base (sh requested) (sh adjustment) (sb limit) m i
    lookupIndex (L.base .thresholds) (hint.toNat % 256) n (sh requested) m fuel = some i ∧ i < n ∧
      final < n ∧ ∃ m', lookupS3 L.base hint adjustment requested count limit fuel m =
        some (final, m') ∧ Found L.base (sh requested) final m m' := by
  intro i final
  have hi : i < n := Search.walk_lt hhint
  have hindex : lookupIndex (L.base .thresholds) (hint.toNat % 256) n (sh requested) m fuel =
      some i := lookupIndex_eq_walk hn hhint hfuel
  refine ⟨hindex, hi, adjustIndex_lt hi _ _ _ m, _, ?_,
    found_lookupStores L (sh requested) i final m⟩
  rw [lookupS3, hcount, hindex]
  exact congrArg some (lookupFinish_eq L hn hi (sh adjustment) (sh requested) (sb limit))

/-- The entry that the lookup of S3 returns in a table that does not increase. -/
def finalIndex (base : LookupBuffer → Nat) (n : Nat) (requested adjustment limit : Int)
    (m : ByteMem) : Nat :=
  adjustIndex base requested adjustment limit m
    (Search.first (threshold (base .thresholds) m) requested n)

theorem lookupS3_spec (hn : n ≤ 255) (hint adjustment requested count limit : BitVec 32)
    {fuel : Nat} (hcount : count.toNat % 256 = n) (hhint : hint.toNat % 256 < n) (hfuel : n < fuel)
    (htable : AntitoneOn (threshold (L.base .thresholds) m) (Set.Iio n)) :
    let final := finalIndex L.base n (sh requested) (sh adjustment) (sb limit) m
    final < n ∧ ∃ m', lookupS3 L.base hint adjustment requested count limit fuel m =
      some (final, m') ∧ Found L.base (sh requested) final m m' := by
  obtain ⟨_, _, hlookup⟩ :=
    lookupS3_walk L (m := m) hn hint adjustment requested count limit hcount hhint hfuel
  rw [Search.walk_eq htable (Search.first_stops (Nat.zero_lt_of_lt hhint)) hhint] at hlookup
  exact hlookup

end Found

/-! ## The tables -/

/-- The tables of two memories are the same. -/
structure SameTables (base : LookupBuffer → Nat) (n : Nat) (m m₀ : ByteMem) : Prop where
  codes : ∀ x < n, m (base .codes + x) = m₀ (base .codes + x)
  values : ∀ x < 2 * n, m (base .values + x) = m₀ (base .values + x)
  thresholds : ∀ x < 2 * n, m (base .thresholds + x) = m₀ (base .thresholds + x)

namespace SameTables

variable {base : LookupBuffer → Nat} {n : Nat} {m m₀ : ByteMem}

theorem read_value (h : SameTables base n m m₀) {i : Nat} (hi : i < n) :
    read m (base .values + i * 2) 2 = read m₀ (base .values + i * 2) 2 :=
  read_congr fun k hk => by
    rw [Nat.add_assoc]
    exact h.values _ (by omega)

theorem read_threshold (h : SameTables base n m m₀) {i : Nat} (hi : i < n) :
    read m (base .thresholds + i * 2) 2 = read m₀ (base .thresholds + i * 2) 2 :=
  read_congr fun k hk => by
    rw [Nat.add_assoc]
    exact h.thresholds _ (by omega)

theorem threshold_eq (h : SameTables base n m m₀) {i : Nat} (hi : i < n) :
    threshold (base .thresholds) m i = threshold (base .thresholds) m₀ i := by
  rw [threshold, threshold, h.read_threshold hi]

theorem antitoneOn (h : SameTables base n m m₀)
    (htable : AntitoneOn (threshold (base .thresholds) m₀) (Set.Iio n)) :
    AntitoneOn (threshold (base .thresholds) m) (Set.Iio n) := by
  intro i hi j hj hij
  rw [h.threshold_eq hi, h.threshold_eq hj]
  exact htable hi hj hij

theorem difference_eq (h : SameTables base n m m₀) {i : Nat} (hi : i < n) (requested : Int) :
    differenceOf base requested m i = differenceOf base requested m₀ i := by
  rw [differenceOf, differenceOf, h.read_threshold hi]

theorem finalIndex_eq (h : SameTables base n m m₀) (hn : 0 < n) (requested adjustment limit : Int) :
    finalIndex base n requested adjustment limit m =
      finalIndex base n requested adjustment limit m₀ := by
  have hfirst : Search.first (threshold (base .thresholds) m) requested n =
      Search.first (threshold (base .thresholds) m₀) requested n :=
    Search.first_congr fun i hi => h.threshold_eq hi
  have hlt := (Search.first_stops (t := threshold (base .thresholds) m₀) (r := requested) hn).lt
  rw [finalIndex, finalIndex, hfirst, adjustIndex, adjustIndex, h.difference_eq hlt]

end SameTables

theorem finalIndex_lt (base : LookupBuffer → Nat) {n : Nat} (hn : 0 < n)
    (requested adjustment limit : Int) (m : ByteMem) :
    finalIndex base n requested adjustment limit m < n := by
  have hlt := (Search.first_stops (t := threshold (base .thresholds) m) (r := requested) hn).lt
  exact adjustIndex_lt hlt requested adjustment limit m

theorem sh_ofInt {value : Int} (hlow : -32768 ≤ value) (hhigh : value ≤ 32767) :
    sh (BitVec.ofInt 32 value) = value := by
  rw [sh, BitVec.toInt_setWidth, BitVec.toNat_ofInt, Int.bmod_def]
  omega

theorem sh_bounds (value : BitVec 32) : -32768 ≤ sh value ∧ sh value ≤ 32767 := by
  have hlow := BitVec.le_toInt (value.setWidth 16)
  have hhigh := BitVec.toInt_lt (x := value.setWidth 16)
  rw [sh]
  omega

theorem sb_bounds (value : BitVec 32) : -128 ≤ sb value ∧ sb value ≤ 127 := by
  have hlow := BitVec.le_toInt (value.setWidth 8)
  have hhigh := BitVec.toInt_lt (x := value.setWidth 8)
  rw [sb]
  omega

/-- The lookup as the rates use it: the hint is an entry and the request is a halfword. -/
theorem lookupS3_of_index {n : Nat} (L : LookupBuffers n) {m : ByteMem} (hn : n ≤ 255)
    {index fuel : Nat} (hindex : index < n) {requested adjustment : Int}
    (hrequested : sh (BitVec.ofInt 32 requested) = requested)
    (hadjustment : sh (BitVec.ofInt 32 adjustment) = adjustment) (count limit : BitVec 32)
    (hcount : count.toNat % 256 = n) (hfuel : n < fuel)
    (htable : AntitoneOn (threshold (L.base .thresholds) m) (Set.Iio n)) :
    let final := finalIndex L.base n requested adjustment (sb limit) m
    final < n ∧ ∃ m', lookupS3 L.base (BitVec.ofNat 32 index) (BitVec.ofInt 32 adjustment)
        (BitVec.ofInt 32 requested) count limit fuel m = some (final, m') ∧
      Found L.base requested final m m' := by
  have hhint : (BitVec.ofNat 32 index).toNat % 256 = index := by
    rw [BitVec.toNat_ofNat]
    omega
  have hlookup := lookupS3_spec L (m := m) hn (BitVec.ofNat 32 index)
    (BitVec.ofInt 32 adjustment) (BitVec.ofInt 32 requested) count limit hcount
    (hhint.symm ▸ hindex) hfuel htable
  rwa [hrequested, hadjustment] at hlookup

/-- The results are the first, the fifth and the ninth byte of the scratch buffer `b`. -/
theorem Found.kept_outside {base : LookupBuffer → Nat} {requested : Int} {i : Nat} {m m' : ByteMem}
    (h : Found base requested i m m') {b x : Nat} (hcode : base .code = b)
    (hvalue : base .value = b + 4) (hdifference : base .difference = b + 8)
    (hx : x < b ∨ b + 16 ≤ x) : m' x = m x :=
  h.kept x (by omega) (by omega) (by omega)

/-- The gain of a rate. -/
structure RateGain where
  code : BitVec 8
  value : BitVec 32
  gain : BitVec 8

/-! ## Wi-Fi rates -/

section Wifi

/-- What `wifi_get` makes of an entry. -/
def wifiOutput (dig : DigCallbacks) (power : BitVec 32) (code : BitVec 8)
    (value difference : BitVec 32) : RateGain :=
  let gain := sh (difference - power)
  if gain > 0 then
    let checked := digLoop (dig.indexOf value) ((BitVec.ofInt 8 gain).setWidth 32)
    ⟨code, ((dig.valueOf checked.1).setWidth 16).setWidth 32, checked.2.setWidth 8⟩
  else ⟨code, value, BitVec.ofInt 8 gain⟩

/-- The gain of a rate from its request and the tables. -/
def wifiRate (dig : DigCallbacks) (base : LookupBuffer → Nat) (power : BitVec 32) (requested : Int)
    (m : ByteMem) : RateGain :=
  let i := finalIndex base 18 requested (sh (0 - power)) 0 m
  wifiOutput dig power (m (base .codes + i)) (read m (base .values + i * 2) 2)
    (differenceOf base requested m i)

/-- The gain of a rate in the memory. -/
def wifiRateAt (base : WifiBuffer → Nat) (m : ByteMem) (i : Nat) : RateGain :=
  ⟨m (base .rateCodes + i), read m (base .rateValues + i * 2) 2, m (base .gains + i)⟩

/-- The request of a rate. -/
def wifiRequest (base : WifiBuffer → Nat) (reference delta : BitVec 32) (m : ByteMem) (i : Nat) :
    Int :=
  sb (read m (base .inputs + i) 1) - sb reference + sb delta

variable (B : WifiBuffers)

def WifiBuffers.lookup : LookupBuffers 18 where
  base := WifiBuffer.lookup B.base
  separate := by
    refine B.separate_parts WifiBuffer.holder LookupBuffer.offset ?_ ?_ ?_
    · intro r
      cases r <;> rfl
    · intro r
      cases r <;> decide
    · intro r s
      cases r <;> cases s <;> decide

theorem setWidth_ofInt (value : Int) :
    (BitVec.ofInt 32 value).setWidth 8 = BitVec.ofInt 8 value := by
  apply BitVec.eq_of_toNat_eq
  rw [BitVec.toNat_setWidth, BitVec.toNat_ofInt, BitVec.toNat_ofInt]
  omega

/-- The first byte of a store. -/
theorem write_first (m : ByteMem) (a : Nat) {width : Nat} (hwidth : 0 < width) (v : BitVec 32) :
    write m a width v a = v.setWidth 8 := by
  have hbyte := fill_range (m := m) (a := a) (f := byteOf v) hwidth
  rw [Nat.add_zero, byteOf_zero] at hbyte
  exact hbyte

/-- `dig_check` on the scratch buffer. -/
theorem digCheck_spec (dig : DigCallbacks) (b : Nat) (m : ByteMem) :
    let checked := digLoop (dig.indexOf (read m (b + 4) 2)) (read m (b + 12) 1)
    let m' := digCheck dig (b + 4) (b + 12) m
    m' (b + 12) = checked.2.setWidth 8 ∧
      read m' (b + 4) 2 = ((dig.valueOf checked.1).setWidth 16).setWidth 32 ∧
      ∀ x, (x < b + 4 ∨ b + 16 ≤ x) → m' x = m x := by
  intro checked m'
  let m₁ := write m (b + 4) 2 (dig.valueOf checked.1)
  have hm' : m' = write m₁ (b + 12) 2 (BitVec.ofInt 32 (sb checked.2)) := rfl
  rw [hm']
  refine ⟨?_, ?_, fun x hx => ?_⟩
  · rw [write_first _ _ (by decide), setWidth_ofInt, sb, BitVec.ofInt_toInt]
  · calc
      read (write m₁ (b + 12) 2 _) (b + 4) 2 = read m₁ (b + 4) 2 :=
        read_congr fun k hk => fill_of_not_mem (by omega)
      _ = _ := read_write_of_le _ _ _ (by decide)
  · calc
      write m₁ (b + 12) 2 _ x = m₁ x := fill_of_not_mem (by omega)
      _ = m x := fill_of_not_mem (by omega)

/-- The gain and the value in the scratch buffer before they are copied. -/
theorem wifiChecked_spec (dig : DigCallbacks) (power : BitVec 32) (b : Nat) (m : ByteMem) :
    let gain := sh (read m (b + 8) 2 - power)
    let m₁ := write m (b + 12) 2 (BitVec.ofInt 32 gain)
    let m₂ := if gain > 0 then digCheck dig (b + 4) (b + 12) m₁ else m₁
    let out := wifiOutput dig power (m b) (read m (b + 4) 2) (read m (b + 8) 2)
    m₂ (b + 12) = out.gain ∧ read m₂ (b + 4) 2 = out.value ∧ m₂ b = out.code ∧
      ∀ x, (x < b + 4 ∨ b + 16 ≤ x) → m₂ x = m x := by
  intro gain m₁ m₂ out
  have hgain : m₁ (b + 12) = BitVec.ofInt 8 gain := by
    show write m (b + 12) 2 _ _ = _
    rw [write_first _ _ (by decide), setWidth_ofInt]
  have hvalue : read m₁ (b + 4) 2 = read m (b + 4) 2 :=
    read_congr fun k hk => fill_of_not_mem (by omega)
  have hkept : ∀ x, (x < b + 4 ∨ b + 16 ≤ x) → m₁ x = m x := fun x hx =>
    fill_of_not_mem (by omega)
  by_cases hpos : gain > 0
  · obtain ⟨hdigGain, hdigValue, hdigKept⟩ := digCheck_spec dig b m₁
    have hm₂ : m₂ = digCheck dig (b + 4) (b + 12) m₁ := if_pos hpos
    have hout : out = ⟨m b, _, _⟩ := if_pos hpos
    rw [hvalue, read_one, hgain] at hdigGain hdigValue
    rw [hm₂, hout]
    exact ⟨hdigGain, hdigValue, (hdigKept b (by omega)).trans (hkept b (by omega)),
      fun x hx => (hdigKept x hx).trans (hkept x hx)⟩
  · have hm₂ : m₂ = m₁ := if_neg hpos
    have hout : out = ⟨m b, read m (b + 4) 2, BitVec.ofInt 8 gain⟩ := if_neg hpos
    rw [hm₂, hout]
    exact ⟨hgain, hvalue, hkept b (by omega), hkept⟩

/-- Only the scratch buffer and the places of the rate `k` change. -/
def WifiBuffers.OnlyRate (k : Nat) (m m' : ByteMem) : Prop :=
  ∀ x, (x < B.base .scratch ∨ B.base .scratch + 16 ≤ x) → x ≠ B.base .gains + k →
    (x < B.base .rateValues + k * 2 ∨ B.base .rateValues + k * 2 + 2 ≤ x) →
    x ≠ B.base .rateCodes + k → m' x = m x

/-- The buffers that the rates are written to are separate. -/
theorem WifiBuffers.outputs_separate :
    (B.base .scratch + 16 ≤ B.base .gains ∨ B.base .gains + 14 ≤ B.base .scratch) ∧
    (B.base .scratch + 16 ≤ B.base .rateValues ∨ B.base .rateValues + 28 ≤ B.base .scratch) ∧
    (B.base .scratch + 16 ≤ B.base .rateCodes ∨ B.base .rateCodes + 14 ≤ B.base .scratch) ∧
    (B.base .gains + 14 ≤ B.base .rateValues ∨ B.base .rateValues + 28 ≤ B.base .gains) ∧
    (B.base .gains + 14 ≤ B.base .rateCodes ∨ B.base .rateCodes + 14 ≤ B.base .gains) ∧
    (B.base .rateValues + 28 ≤ B.base .rateCodes ∨
      B.base .rateCodes + 14 ≤ B.base .rateValues) :=
  ⟨B.separate .scratch .gains (by decide), B.separate .scratch .rateValues (by decide),
    B.separate .scratch .rateCodes (by decide), B.separate .gains .rateValues (by decide),
    B.separate .gains .rateCodes (by decide), B.separate .rateValues .rateCodes (by decide)⟩

theorem wifiFinish_spec (dig : DigCallbacks) (power : BitVec 32) {i : Nat} (hi : i < 14)
    (m : ByteMem) :
    let b := B.base .scratch
    let m' := wifiFinish dig B.base power i m
    wifiRateAt B.base m' i =
        wifiOutput dig power (m b) (read m (b + 4) 2) (read m (b + 8) 2) ∧
      B.OnlyRate i m m' := by
  intro b m'
  have hseparate := B.outputs_separate
  obtain ⟨hgain, hvalue, hcode, hkept⟩ := wifiChecked_spec dig power b m
  let gain := sh (read m (b + 8) 2 - power)
  let m₁ := write m (b + 12) 2 (BitVec.ofInt 32 gain)
  let m₂ := if gain > 0 then digCheck dig (b + 4) (b + 12) m₁ else m₁
  let m₃ := write m₂ (B.base .gains + i) 1 (read m₂ (b + 12) 2)
  let m₄ := write m₃ (B.base .rateValues + i * 2) 2 (read m₃ (b + 4) 2)
  have hm' : m' = write m₄ (B.base .rateCodes + i) 1 (read m₃ b 1) := rfl
  have hm₃ : ∀ x, x ≠ B.base .gains + i → m₃ x = m₂ x := fun x hx => fill_of_not_mem (by omega)
  have hm₄ : ∀ x, (x < B.base .rateValues + i * 2 ∨ B.base .rateValues + i * 2 + 2 ≤ x) →
      m₄ x = m₃ x := fun x hx => fill_of_not_mem hx
  have hlast : ∀ x, x ≠ B.base .rateCodes + i → m' x = m₄ x := fun x hx => by
    rw [hm']
    exact fill_of_not_mem (by omega)
  constructor
  · have hgainAt : m' (B.base .gains + i) = m₂ (b + 12) := by
      rw [hlast _ (by omega), hm₄ _ (by omega)]
      show write m₂ _ 1 _ _ = _
      rw [write_first _ _ Nat.one_pos, ← byteOf_zero, byteOf_read (by decide) (by decide),
        Nat.add_zero]
    have hvalueAt : read m' (B.base .rateValues + i * 2) 2 = read m₂ (b + 4) 2 :=
      calc
        _ = read m₄ (B.base .rateValues + i * 2) 2 := read_congr fun k hk => hlast _ (by omega)
        _ = read m₃ (b + 4) 2 :=
          (read_write_of_le _ _ _ (by decide)).trans (setWidth_read m₃ (b + 4) 2)
        _ = read m₂ (b + 4) 2 := read_congr fun k hk => hm₃ _ (by omega)
    have hcodeAt : m' (B.base .rateCodes + i) = m₂ b := by
      rw [hm', write_first _ _ Nat.one_pos, read_one, setWidth_byte]
      exact hm₃ b (by omega)
    rw [wifiRateAt, hgainAt, hvalueAt, hcodeAt]
    exact congr (congrArg₂ RateGain.mk hcode hvalue) hgain
  · intro x hscratch hgains hvalues hcodes
    rw [hlast x hcodes, hm₄ x hvalues, hm₃ x hgains]
    exact hkept x (by omega)

/-- The buffers that the rates are computed from. -/
def WifiBuffer.IsInput (r : WifiBuffer) : Prop :=
  r = .inputs ∨ r = .codes ∨ r = .values ∨ r = .thresholds

/-- They are not written to. -/
theorem WifiBuffers.OnlyRate.input {B : WifiBuffers} {k : Nat} {m m' : ByteMem}
    (h : B.OnlyRate k m m') (hk : k < 14) {r : WifiBuffer} (hr : r.IsInput) {x : Nat}
    (hx : x < r.size) : m' (B.base r + x) = m (B.base r + x) := by
  have hseparate (o : WifiBuffer) (size : Nat) (hsize : o.size = size) (ho : ¬o.IsInput) :
      B.base o + size ≤ B.base r ∨ B.base r + r.size ≤ B.base o := by
    rw [← hsize]
    exact B.separate o r fun heq => ho (heq ▸ hr)
  have hscratch := hseparate .scratch 16 rfl (by simp [WifiBuffer.IsInput])
  have hgains := hseparate .gains 14 rfl (by simp [WifiBuffer.IsInput])
  have hvalues := hseparate .rateValues 28 rfl (by simp [WifiBuffer.IsInput])
  have hcodes := hseparate .rateCodes 14 rfl (by simp [WifiBuffer.IsInput])
  exact h _ (by omega) (by omega) (by omega) (by omega)

/-- The memory after `k` rates, if it was `m₀` at the start. -/
structure WifiDone (dig : DigCallbacks) (reference delta power : BitVec 32) (m₀ : ByteMem) (k : Nat)
    (s : Nat × ByteMem) : Prop where
  index : s.1 < 18
  kept : ∀ r : WifiBuffer, r.IsInput → ∀ x < r.size, s.2 (B.base r + x) = m₀ (B.base r + x)
  rate : ∀ j < k, wifiRateAt B.base s.2 j =
    wifiRate dig (WifiBuffer.lookup B.base) power (wifiRequest B.base reference delta m₀ j) m₀

variable {B} {dig : DigCallbacks} {reference delta power : BitVec 32} {m₀ : ByteMem} {k fuel : Nat}
  {s : Nat × ByteMem}

theorem WifiDone.sameTables (h : WifiDone B dig reference delta power m₀ k s) :
    SameTables (WifiBuffer.lookup B.base) 18 s.2 m₀ :=
  ⟨h.kept .codes (.inr (.inl rfl)), h.kept .values (.inr (.inr (.inl rfl))),
    h.kept .thresholds (.inr (.inr (.inr rfl)))⟩

theorem wifiRate_congr {base : LookupBuffer → Nat} {m : ByteMem} (h : SameTables base 18 m m₀)
    (requested : Int) :
    wifiRate dig base power requested m = wifiRate dig base power requested m₀ := by
  have hlt := finalIndex_lt base (by decide : 0 < 18) requested (sh (0 - power)) 0 m₀
  rw [wifiRate, wifiRate, h.finalIndex_eq (by decide), h.codes _ hlt, h.read_value hlt,
    h.difference_eq hlt]

/-- A rate of S3, in a memory with tables that do not increase. -/
theorem wifiStepS3_spec (dig : DigCallbacks) (reference delta power : BitVec 32)
    (hindex : s.1 < 18) (hk : k < 14) (hfuel : 18 < fuel)
    (htable : AntitoneOn (threshold (B.base .thresholds) s.2) (Set.Iio 18)) :
    ∃ t, wifiStepS3 dig B.base reference delta power fuel s k = some t ∧ t.1 < 18 ∧
      wifiRateAt B.base t.2 k = wifiRate dig (WifiBuffer.lookup B.base) power
        (wifiRequest B.base reference delta s.2 k) s.2 ∧
      B.OnlyRate k s.2 t.2 := by
  let requested := wifiRequest B.base reference delta s.2 k
  have hrequested : sh (BitVec.ofInt 32 requested) = requested := by
    have hinput := sb_bounds (read s.2 (B.base .inputs + k) 1)
    have hreference := sb_bounds reference
    have hdelta := sb_bounds delta
    have hrequest : requested =
        sb (read s.2 (B.base .inputs + k) 1) - sb reference + sb delta := rfl
    exact sh_ofInt (by omega) (by omega)
  have hadjustment : sh (BitVec.ofInt 32 (sh (0 - power))) = sh (0 - power) :=
    sh_ofInt (sh_bounds _).1 (sh_bounds _).2
  obtain ⟨hfinal, m₁, hlookup, hfound⟩ := lookupS3_of_index (WifiBuffers.lookup B) (m := s.2)
    (by decide) hindex hrequested hadjustment 18 0 rfl hfuel htable
  obtain ⟨hrate, hkept⟩ := wifiFinish_spec B dig power hk m₁
  let final := finalIndex (WifiBuffer.lookup B.base) 18 requested (sh (0 - power)) 0 s.2
  refine ⟨(final, wifiFinish dig B.base power k m₁), ?_, hfinal, ?_, ?_⟩
  · exact congrArg (Option.bind · _) hlookup
  · rw [hrate]
    show _ = wifiOutput dig power (s.2 (B.base .codes + final))
      (read s.2 (B.base .values + final * 2) 2)
      (differenceOf (WifiBuffer.lookup B.base) requested s.2 final)
    exact congr (congrArg₂ (wifiOutput dig power) hfound.code hfound.value) hfound.difference
  · intro x hscratch hgains hvalues hcodes
    exact (hkept x hscratch hgains hvalues hcodes).trans
      (hfound.kept_outside rfl rfl rfl hscratch)

/-- A rate is not overwritten by a later one. -/
theorem wifiRateAt_congr {m m' : ByteMem} {j : Nat} (hj : j < k) (hk : k < 14)
    (hkept : B.OnlyRate k m m') : wifiRateAt B.base m' j = wifiRateAt B.base m j := by
  have hseparate := B.outputs_separate
  have hcode : m' (B.base .rateCodes + j) = m (B.base .rateCodes + j) :=
    hkept _ (by omega) (by omega) (by omega) (by omega)
  have hvalue : read m' (B.base .rateValues + j * 2) 2 = read m (B.base .rateValues + j * 2) 2 :=
    read_congr fun x hx => hkept _ (by omega) (by omega) (by omega) (by omega)
  have hgain : m' (B.base .gains + j) = m (B.base .gains + j) :=
    hkept _ (by omega) (by omega) (by omega) (by omega)
  rw [wifiRateAt, wifiRateAt, hcode, hvalue, hgain]

theorem WifiDone.step (h : WifiDone B dig reference delta power m₀ k s) (hk : k < 14)
    (hfuel : 18 < fuel) (htable : AntitoneOn (threshold (B.base .thresholds) m₀) (Set.Iio 18)) :
    ∃ t, wifiStepS3 dig B.base reference delta power fuel s k = some t ∧
      WifiDone B dig reference delta power m₀ (k + 1) t := by
  have hinputs : ∀ x < 14, s.2 (B.base .inputs + x) = m₀ (B.base .inputs + x) :=
    h.kept .inputs (.inl rfl)
  have hrequest : wifiRequest B.base reference delta s.2 k =
      wifiRequest B.base reference delta m₀ k := by
    rw [wifiRequest, wifiRequest, read_one, read_one, hinputs k hk]
  obtain ⟨t, hstep, hindex, hrate, hkept⟩ := wifiStepS3_spec dig reference delta power h.index hk
    hfuel (h.sameTables.antitoneOn htable)
  refine ⟨t, hstep, hindex, fun r hr x hx => ?_, fun j hj => ?_⟩
  · rw [← h.kept r hr x hx]
    exact hkept.input hk hr hx
  · rcases Nat.lt_succ_iff_lt_or_eq.mp hj with hlt | rfl
    · rw [← h.rate j hlt]
      exact wifiRateAt_congr hlt hk hkept
    · rw [hrate, hrequest, wifiRate_congr h.sameTables]

/-- `wifi_get` on S3 gives every rate what its own request gives. -/
theorem wifiGet_spec (B : WifiBuffers) (dig : DigCallbacks) (reference delta : BitVec 32)
    (power : ByteMem → BitVec 32) {fuel : Nat} (hfuel : 18 < fuel) {m : ByteMem}
    (htable : AntitoneOn (threshold (B.base .thresholds) m) (Set.Iio 18)) :
    ∃ m', wifiGet .esp32s3 dig B.base reference delta power fuel m = some m' ∧
      ∀ i < 14, wifiRateAt B.base m' i =
        wifiRate dig (WifiBuffer.lookup B.base) ((BitVec.ofInt 16 (sb (power m))).setWidth 32)
          (wifiRequest B.base reference delta m i) m := by
  have hstart : WifiDone B dig reference delta ((BitVec.ofInt 16 (sb (power m))).setWidth 32) m 0
      (0, m) :=
    ⟨Nat.zero_lt_succ 17, fun _ _ _ _ => rfl, fun j hj => absurd hj (Nat.not_lt_zero j)⟩
  obtain ⟨s, hrun, hdone⟩ := Loop.foldlM_range
    (fun k hk s hs => WifiDone.step hs hk hfuel htable) hstart
  refine ⟨s.2, ?_, hdone.rate⟩
  rw [wifiGet, hrun]
  rfl

end Wifi

/-! ## Bluetooth rates -/

section Bt

/-- The level of a rate: it grows by the same step with each rate. -/
def btLevel (a : BtArgs) (i : Nat) : BitVec 16 :=
  BitVec.ofInt 16 (sb a.level) + BitVec.ofNat 16 i * BitVec.ofInt 16 (sb a.step * 4)

/-- The code and the gain that `bt_get` makes of an entry on S3. -/
def btOutput (input : BitVec 32) (code : BitVec 8) (difference : BitVec 32) : BitVec 8 × BitVec 8 :=
  (code, BitVec.ofInt 8 (max (sh (difference - input)) (-64)))

/-- The code and the gain of a rate from its request and the tables. -/
def btRate (base : LookupBuffer → Nat) (input : BitVec 32) (requested : Int) (m : ByteMem) :
    BitVec 8 × BitVec 8 :=
  let i := finalIndex base 14 requested (sh (0 - input)) (-8) m
  btOutput input (m (base .codes + i)) (differenceOf base requested m i)

/-- The code and the gain of a rate in the memory. -/
def btRateAt (base : BtBuffer → Nat) (m : ByteMem) (i : Nat) : BitVec 8 × BitVec 8 :=
  (m (base .rateCodes + i), m (base .gains + i))

/-- The offset that is taken from all gains. -/
def btInput (base : BtBuffer → Nat) (m : ByteMem) : BitVec 32 :=
  (BitVec.ofInt 16 (sb (read m (base .inputs + 1) 1))).setWidth 32

variable (B : BtBuffers)

def BtBuffers.lookup : LookupBuffers 14 where
  base := BtBuffer.lookup B.base
  separate := by
    refine B.separate_parts BtBuffer.holder LookupBuffer.offset ?_ ?_ ?_
    · intro r
      cases r <;> rfl
    · intro r
      cases r <;> decide
    · intro r s
      cases r <;> cases s <;> decide

/-- Only the scratch buffer and the places of the rate `k` change. -/
def BtBuffers.OnlyRate (k : Nat) (m m' : ByteMem) : Prop :=
  ∀ x, (x < B.base .scratch ∨ B.base .scratch + 16 ≤ x) → x ≠ B.base .gains + k →
    x ≠ B.base .rateCodes + k → m' x = m x

theorem btFinish_spec (input : BitVec 32) {i : Nat} (_ : i < 16) (m : ByteMem) :
    let b := B.base .scratch
    let m' := btFinish .esp32s3 B.base input i m
    btRateAt B.base m' i = btOutput input (m b) (read m (b + 8) 2) ∧ B.OnlyRate i m m' := by
  intro b m'
  have hseparate := B.separate .gains .rateCodes (by decide)
  simp only [BtBuffer.size] at hseparate
  let m₁ := write m (B.base .rateCodes + i) 1 (read m b 1)
  have hm' : m' = write m₁ (B.base .gains + i) 1
      (BitVec.ofInt 32 (max (sh (read m (b + 8) 2 - input)) (-64))) := rfl
  have hlast : ∀ x, x ≠ B.base .gains + i → m' x = m₁ x := fun x hx => by
    rw [hm']
    exact fill_of_not_mem (by omega)
  constructor
  · have hcode : m' (B.base .rateCodes + i) = m b := by
      rw [hlast _ (by omega)]
      show write m _ 1 _ _ = _
      rw [write_first _ _ Nat.one_pos, read_one, setWidth_byte]
    have hgain : m' (B.base .gains + i) =
        BitVec.ofInt 8 (max (sh (read m (b + 8) 2 - input)) (-64)) := by
      rw [hm', write_first _ _ Nat.one_pos, setWidth_ofInt]
    rw [btRateAt, hcode, hgain]
    rfl
  · intro x _ hgains hcodes
    rw [hlast x hgains]
    exact fill_of_not_mem (by omega)

/-- The buffers that the rates are computed from. -/
def BtBuffer.IsInput (r : BtBuffer) : Prop :=
  r = .inputs ∨ r = .codes ∨ r = .values ∨ r = .thresholds

/-- They are not written to. -/
theorem BtBuffers.OnlyRate.input {B : BtBuffers} {k : Nat} {m m' : ByteMem}
    (h : B.OnlyRate k m m') (hk : k < 16) {r : BtBuffer} (hr : r.IsInput) {x : Nat}
    (hx : x < r.size) : m' (B.base r + x) = m (B.base r + x) := by
  have hseparate (o : BtBuffer) (hsize : o.size = 16) (ho : ¬o.IsInput) :
      B.base o + 16 ≤ B.base r ∨ B.base r + r.size ≤ B.base o := by
    rw [← hsize]
    exact B.separate o r fun heq => ho (heq ▸ hr)
  have hscratch := hseparate .scratch rfl (by simp [BtBuffer.IsInput])
  have hgains := hseparate .gains rfl (by simp [BtBuffer.IsInput])
  have hcodes := hseparate .rateCodes rfl (by simp [BtBuffer.IsInput])
  exact h _ (by omega) (by omega) (by omega)

/-- The state after `k` rates, if the memory was `m₀` at the start. -/
structure BtDone (limit : LimitCallback) (a : BtArgs) (m₀ : ByteMem) (k : Nat)
    (s : Nat × BitVec 16 × ByteMem) : Prop where
  index : s.1 < 14
  level : s.2.1 = btLevel a k
  kept : ∀ r : BtBuffer, r.IsInput → ∀ x < r.size, s.2.2 (B.base r + x) = m₀ (B.base r + x)
  rate : ∀ j < k, btRateAt B.base s.2.2 j =
    btRate (BtBuffer.lookup B.base) (btInput B.base m₀)
      (btRequest .esp32s3 limit a (btLevel a j)) m₀

variable {B} {limit : LimitCallback} {a : BtArgs} {m₀ : ByteMem} {k fuel : Nat}
  {s : Nat × BitVec 16 × ByteMem}

theorem BtDone.sameTables (h : BtDone B limit a m₀ k s) :
    SameTables (BtBuffer.lookup B.base) 14 s.2.2 m₀ :=
  ⟨h.kept .codes (.inr (.inl rfl)), h.kept .values (.inr (.inr (.inl rfl))),
    h.kept .thresholds (.inr (.inr (.inr rfl)))⟩

theorem btRate_congr {base : LookupBuffer → Nat} {m : ByteMem} (h : SameTables base 14 m m₀)
    (input : BitVec 32) (requested : Int) :
    btRate base input requested m = btRate base input requested m₀ := by
  have hlt := finalIndex_lt base (by decide : 0 < 14) requested (sh (0 - input)) (-8) m₀
  rw [btRate, btRate, h.finalIndex_eq (by decide), h.codes _ hlt, h.difference_eq hlt]

/-- A rate of S3, in a memory with tables that do not increase. -/
theorem btStep_spec (limit : LimitCallback) (a : BtArgs) (hindex : s.1 < 14) (hk : k < 16)
    (hfuel : 14 < fuel)
    (htable : AntitoneOn (threshold (B.base .thresholds) s.2.2) (Set.Iio 14)) :
    ∃ t, btStep .esp32s3 limit B.base a fuel s k = some t ∧ t.1 < 14 ∧
      t.2.1 = s.2.1 + BitVec.ofInt 16 (sb a.step * 4) ∧
      btRateAt B.base t.2.2 k = btRate (BtBuffer.lookup B.base) (btInput B.base s.2.2)
        (btRequest .esp32s3 limit a s.2.1) s.2.2 ∧
      B.OnlyRate k s.2.2 t.2.2 := by
  let requested := btRequest .esp32s3 limit a s.2.1
  let input := btInput B.base s.2.2
  have hrequested : sh (BitVec.ofInt 32 requested) = requested :=
    sh_ofInt (sh_bounds _).1 (sh_bounds _).2
  have hadjustment : sh (BitVec.ofInt 32 (sh (0 - input))) = sh (0 - input) :=
    sh_ofInt (sh_bounds _).1 (sh_bounds _).2
  obtain ⟨hfinal, m₁, hlookup, hfound⟩ := lookupS3_of_index (BtBuffers.lookup B) (m := s.2.2)
    (by decide) hindex hrequested hadjustment 14 (-8) rfl hfuel htable
  obtain ⟨hrate, hkept⟩ := btFinish_spec B input hk m₁
  let final := finalIndex (BtBuffer.lookup B.base) 14 requested (sh (0 - input)) (-8) s.2.2
  refine ⟨(final, s.2.1 + BitVec.ofInt 16 (sb a.step * 4), btFinish .esp32s3 B.base input k m₁),
    ?_, hfinal, rfl, ?_, ?_⟩
  · exact congrArg (Option.bind · _) hlookup
  · rw [hrate]
    exact congrArg₂ (btOutput input) hfound.code hfound.difference
  · intro x hscratch hgains hcodes
    exact (hkept x hscratch hgains hcodes).trans (hfound.kept_outside rfl rfl rfl hscratch)

/-- A rate is not overwritten by a later one. -/
theorem btRateAt_congr {m m' : ByteMem} {j : Nat} (hj : j < k) (hk : k < 16)
    (hkept : B.OnlyRate k m m') : btRateAt B.base m' j = btRateAt B.base m j := by
  have h₁ := B.separate .scratch .gains (by decide)
  have h₂ := B.separate .scratch .rateCodes (by decide)
  have h₃ := B.separate .gains .rateCodes (by decide)
  simp only [BtBuffer.size] at h₁ h₂ h₃
  exact congrArg₂ Prod.mk (hkept _ (by omega) (by omega) (by omega))
    (hkept _ (by omega) (by omega) (by omega))

theorem btLevel_succ (a : BtArgs) (k : Nat) :
    btLevel a (k + 1) = btLevel a k + BitVec.ofInt 16 (sb a.step * 4) := by
  rw [btLevel, btLevel, BitVec.ofNat_add, BitVec.add_mul, BitVec.one_mul, BitVec.add_assoc]

theorem BtDone.step (h : BtDone B limit a m₀ k s) (hk : k < 16) (hfuel : 14 < fuel)
    (htable : AntitoneOn (threshold (B.base .thresholds) m₀) (Set.Iio 14)) :
    ∃ t, btStep .esp32s3 limit B.base a fuel s k = some t ∧ BtDone B limit a m₀ (k + 1) t := by
  have hinputs : ∀ x < 2, s.2.2 (B.base .inputs + x) = m₀ (B.base .inputs + x) :=
    h.kept .inputs (.inl rfl)
  have hinput : btInput B.base s.2.2 = btInput B.base m₀ := by
    rw [btInput, btInput, read_one, read_one, hinputs 1 (by decide)]
  obtain ⟨t, hstep, hindex, hlevel, hrate, hkept⟩ :=
    btStep_spec limit a h.index hk hfuel (h.sameTables.antitoneOn htable)
  refine ⟨t, hstep, hindex, ?_, fun r hr x hx => ?_, fun j hj => ?_⟩
  · rw [hlevel, h.level, btLevel_succ]
  · rw [← h.kept r hr x hx]
    exact hkept.input hk hr hx
  · rcases Nat.lt_succ_iff_lt_or_eq.mp hj with hlt | rfl
    · rw [← h.rate j hlt]
      exact btRateAt_congr hlt hk hkept
    · rw [hrate, hinput, h.level, btRate_congr h.sameTables]

/-- `bt_get` on S3 gives every rate what its own request gives. -/
theorem btGet_spec (B : BtBuffers) (limit : LimitCallback) (a : BtArgs) {fuel : Nat}
    (hfuel : 14 < fuel) {m : ByteMem}
    (htable : AntitoneOn (threshold (B.base .thresholds) m) (Set.Iio 14)) :
    ∃ m', btGet .esp32s3 limit B.base a fuel m = some m' ∧
      ∀ i < 16, btRateAt B.base m' i = btRate (BtBuffer.lookup B.base) (btInput B.base m)
        (btRequest .esp32s3 limit a (btLevel a i)) m := by
  have hlevel : BitVec.ofInt 16 (sb a.level) = btLevel a 0 := by
    rw [btLevel]
    simp
  have hstart : BtDone B limit a m 0 (0, BitVec.ofInt 16 (sb a.level), m) :=
    ⟨Nat.zero_lt_succ 13, hlevel, fun _ _ _ _ => rfl, fun j hj => absurd hj (Nat.not_lt_zero j)⟩
  obtain ⟨s, hrun, hdone⟩ := Loop.foldlM_range
    (fun k hk s hs => BtDone.step hs hk hfuel htable) hstart
  refine ⟨s.2.2, ?_, hdone.rate⟩
  rw [btGet, hrun]
  rfl

end Bt

end EspWifiHal
