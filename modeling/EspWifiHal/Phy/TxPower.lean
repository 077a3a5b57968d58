import EspWifiHal.Phy.Init
import Mathlib.Tactic.IntervalCases

/-!
# Target powers

`wifi_set` programs the transmit gain of a channel.  First it has `limits` compute the 14
target powers from the parameters that `init_param` stored, the regulatory limits of the
channel, which `fcc` selects, and a cap.  On C3 a backoff lowers the regulatory limits.

`wifiSet_targets` says what the target powers are: no more than the cap, the stored power
and the limit of their group.
-/

namespace EspWifiHal

open Memory

/-! ## The functions -/

/-- The first bytes of `CONSTANTS`: the limit of a group without regulation. -/
def PhyChip.groupConstant : PhyChip → BitVec 32
  | .esp32s3 => 100
  | .esp32c3 => 82

/-- The index of the regulatory limit in the fourth group. -/
def fccIndex (channel : BitVec 32) : Nat :=
  if (channel - 3) &&& 255 ≤ 8 then (channel - 3).toNat else if channel < 3 then 0 else 8

/-- The regulatory limits of the four groups, written to `out`. -/
def fcc (chip : PhyChip) (channel : BitVec 32) (out groups fourth : Nat) (m : ByteMem) : ByteMem :=
  let channel := chip.byte channel
  let p := groups + channel.toNat
  let values :=
    [read m (p - 1) 1, read m (p + 13) 1, read m (p + 27) 1,
      read m (fourth + fccIndex channel) 1]
  (List.range 4).foldl
    (fun m i =>
      let value := values.getD i 0
      write m (out + i) 1 (if value ≤ chip.groupConstant then value else chip.groupConstant))
    m

/-- The group of a target power. -/
def group (i : Nat) : Nat := if i < 2 then 0 else if i < 6 then 1 else if i < 10 then 2 else 3

structure LimitsArgs where
  channel : BitVec 32
  cap : BitVec 32
  out : Nat
  input : Nat
  mode : BitVec 32
  groups : Nat
  fourth : Nat

/-- The target power `i`. -/
def limitStep (chip : PhyChip) (p : Nat) (cap : Int) (out input : Nat) (values : Nat → BitVec 32)
    (m : ByteMem) (i : Nat) : ByteMem :=
  let power := read m (input + i) 1
  let m := write m (out + i) 1 power
  let value := (values (group i)).toInt
  let value :=
    match chip with
    | .esp32s3 => value
    | .esp32c3 => sb (BitVec.ofInt 32 value - read m (p + 0x217) 1)
  let m := if value < sb power then write m (out + i) 1 (BitVec.ofInt 32 value) else m
  let output := sb (read m (out + i) 1)
  match chip with
  | .esp32s3 => write m (out + i) 1 (BitVec.ofInt 32 (min cap output))
  | .esp32c3 => if cap < output then write m (out + i) 1 (BitVec.ofInt 32 (min cap output)) else m

/-- The callback in table slot `0x128` of C3. -/
abbrev RateFccIndex := BitVec 32 → Nat → Nat → Nat → ByteMem → ByteMem

/-- The limits of the groups, in the local array of `limits` at `b`. -/
def groupLimits (chip : PhyChip) (rateFccIndex : RateFccIndex) (b : Nat) (a : LimitsArgs)
    (m : ByteMem) : ByteMem :=
  let m := fill m b 4 fun _ => chip.groupConstant.setWidth 8
  if chip.byte a.mode = 1 then
    match chip with
    | .esp32s3 => fcc .esp32s3 (PhyChip.byte .esp32s3 a.channel) b a.groups a.fourth m
    | .esp32c3 => rateFccIndex (PhyChip.byte .esp32c3 a.channel) b a.groups a.fourth m
  else m

/-- The cap, of which S3 takes the lowest byte. -/
def PhyChip.signedCap (chip : PhyChip) (cap : BitVec 32) : Int :=
  match chip with
  | .esp32s3 => sb cap
  | .esp32c3 => cap.toInt

/-- `limits` with the parameters at `p`. -/
def limits (chip : PhyChip) (rateFccIndex : RateFccIndex) (b p : Nat) (a : LimitsArgs)
    (m : ByteMem) : ByteMem :=
  let m := groupLimits chip rateFccIndex b a m
  let values i := read m (b + i) 1
  (List.range 14).foldl (limitStep chip p (chip.signedCap a.cap) a.out a.input values) m

/-- The symbols and the local arrays of `wifi_set` and `limits`. -/
inductive GainBuffer where
  | param
  | ctrl
  | wifi
  | values
deriving DecidableEq, Repr

def GainBuffer.size (chip : PhyChip) : GainBuffer → Nat
  | .param => chip.paramSize
  | .ctrl => 42
  | .wifi => 48
  | .values => 4

abbrev GainBuffers (chip : PhyChip) := Regions GainBuffer (GainBuffer.size chip)

/-- A signed value as `usize`. -/
def usize (value : Int) : Nat := (BitVec.ofInt 32 value).toNat

/-- The arguments of the function that looks up the gains of the target powers. -/
def wifiGetArgs (chip : PhyChip) (p b : Nat) (channel logging : BitVec 32) (delta : Int)
    (m : ByteMem) : List Nat :=
  let (second, fourth) :=
    match chip with
    | .esp32s3 =>
        if read m (p + 0x2c8) 1 = 1 then (p + 0x2ca, sb (read m (p + 0x2c9) 1))
        else (p + 0x16f, sb (read m (p + 0x175) 1))
    | .esp32c3 => (p + 0x16f, sb (read m (p + 0x175) 1))
  [(chip.byte channel).toNat, second, b + 32, usize fourth, usize delta, p + 14, p + 32, p + 68,
    p + 0x1ba, p + 0x1c8, p + 0x1e4, p, (chip.byte logging).toNat]

/-- The arguments of `limits` in `wifi_set`. -/
def limitsArgs (base : GainBuffer → Nat) (channel : BitVec 32) (cap : Int) (input : Nat)
    (mode : BitVec 32) : LimitsArgs :=
  { channel := channel
    cap := BitVec.ofInt 32 cap
    out := base .wifi + 32
    input := input
    mode := mode
    groups := base .ctrl
    fourth := base .param + 0x105 }

/-- `wifi_set` up to the lookup of the gains.  There is none if the parameter `0x99` is set. -/
def wifiSet (chip : PhyChip) (rateFccIndex : RateFccIndex) (base : GainBuffer → Nat)
    (channel logging : BitVec 32) (m : ByteMem) : ByteMem × Option (List Nat) :=
  let p := base .param
  let b := base .wifi
  match chip with
  | .esp32s3 =>
      if read m (p + 0x99) 1 ≠ 0 then (m, none)
      else
        let first := read m (p + 0x1fb) 1
        let second := read m (p + 0x9a) 1
        let cap := sb (read m (p + 0x98) 1)
        let delta := sb (first - second)
        let mode := read m (p + 0x104) 1
        let m :=
          limits .esp32s3 rateFccIndex (base .values) p
            (limitsArgs base ((channel.setWidth 8).setWidth 32) cap (p + 0xf4) mode) m
        (m, some (wifiGetArgs .esp32s3 p b channel logging delta m))
  | .esp32c3 =>
      let first := sb (read m (p + 0x1fb) 1)
      let second := sb (read m (p + 0x9a) 1)
      let delta := sb (BitVec.ofInt 32 (first - second))
      let m :=
        (List.range 14).foldl (fun m i => write m (b + i) 1 (read m (p + 0xf4 + i) 1)) m
      if read m (p + 0x99) 1 ≠ 0 then (m, none)
      else
        let mode := read m (p + 0x104) 1
        let cap := sb (read m (p + 0x98) 1)
        let m :=
          limits .esp32c3 rateFccIndex (base .values) p
            (limitsArgs base channel cap b mode) m
        (m, some (wifiGetArgs .esp32c3 p b channel logging delta m))

/-! ## One target power -/

theorem toInt_bounds (x : BitVec 8) : -128 ≤ x.toInt ∧ x.toInt ≤ 127 := by
  have hlow := BitVec.le_toInt x
  have hhigh := BitVec.toInt_lt (x := x)
  omega

theorem toInt_setWidth_ofInt {value : Int} (h : -128 ≤ value ∧ value ≤ 127) :
    ((BitVec.ofInt 32 value).setWidth 8).toInt = value := by
  rw [BitVec.toInt_setWidth, BitVec.toNat_ofInt, Int.bmod_def]
  omega

/-- The limit of a group after the backoff. -/
def limitValue (chip : PhyChip) (value : BitVec 32) (backoff : BitVec 8) : Int :=
  match chip with
  | .esp32s3 => value.toInt
  | .esp32c3 => sb (BitVec.ofInt 32 value.toInt - backoff.setWidth 32)

/-- The byte that is left after the stores of one iteration. -/
def limitByte (chip : PhyChip) (cap value : Int) (power : BitVec 8) : BitVec 8 :=
  let output := if value < power.toInt then (BitVec.ofInt 32 value).setWidth 8 else power
  match chip with
  | .esp32s3 => (BitVec.ofInt 32 (min cap output.toInt)).setWidth 8
  | .esp32c3 =>
      if cap < output.toInt then (BitVec.ofInt 32 (min cap output.toInt)).setWidth 8 else output

theorem limitByte_toInt {chip : PhyChip} {cap value : Int} {power : BitVec 8}
    (hcap : -128 ≤ cap ∧ cap ≤ 127) (hvalue : -128 ≤ value ∧ value ≤ 127) :
    (limitByte chip cap value power).toInt = min cap (min power.toInt value) := by
  have hpower := toInt_bounds power
  have houtput : (if value < power.toInt then (BitVec.ofInt 32 value).setWidth 8
      else power).toInt = min power.toInt value := by
    split
    case isTrue hlt => rw [toInt_setWidth_ofInt hvalue, min_eq_right (Int.le_of_lt hlt)]
    case isFalse hge => rw [min_eq_left (Int.not_lt.mp hge)]
  have hmin : -128 ≤ min cap (min power.toInt value) ∧ min cap (min power.toInt value) ≤ 127 := by
    omega
  cases chip with
  | esp32s3 => rw [limitByte, houtput, toInt_setWidth_ofInt hmin]
  | esp32c3 =>
      rw [limitByte, houtput]
      split
      case isTrue => rw [toInt_setWidth_ofInt hmin]
      case isFalse hge => rw [houtput, min_eq_right (Int.not_lt.mp hge)]

/-- The three stores of an iteration are to one byte. -/
theorem limitStep_eq {chip : PhyChip} {p out input i : Nat} {cap : Int}
    {values : Nat → BitVec 32} {m : ByteMem} (hp : p + 0x217 ≠ out + i) :
    limitStep chip p cap out input values m i =
      fill m (out + i) 1 fun _ =>
        limitByte chip cap (limitValue chip (values (group i)) (m (p + 0x217)))
          (m (input + i)) := by
  have hbackoff (f : Nat → BitVec 8) : fill m (out + i) 1 f (p + 0x217) = m (p + 0x217) :=
    fill_of_not_mem (by omega)
  cases chip with
  | esp32s3 =>
      simp only [limitStep, read_one, write_one, setWidth_byte, sb_setWidth, fill_overwrite,
        ite_fill, fill_self, limitByte, limitValue]
      rfl
  | esp32c3 =>
      simp only [limitStep, read_one, write_one, setWidth_byte, sb_setWidth, hbackoff,
        fill_overwrite, ite_fill, fill_self, limitByte, limitValue]
      rfl

/-! ## The limits of the groups -/

/-- The regulatory limit of a channel for a group, in the init data. -/
def regulatoryByte (blob : Nat → BitVec 8) (channel g : Nat) : BitVec 8 :=
  if g < 3 then blob (19 + 14 * g + (channel - 1)) else blob (61 + min (channel - 3) 8)

section Groups

variable {chip : PhyChip} {channel : BitVec 32} {out groups fourth g : Nat} {m : ByteMem}

theorem fccIndex_eq (h : 1 ≤ channel.toNat) (h' : channel.toNat ≤ 14) :
    fccIndex channel = min (channel.toNat - 3) 8 := by
  obtain ⟨n, hn⟩ : ∃ n, channel.toNat = n := ⟨_, rfl⟩
  have hlow : 1 ≤ n := hn ▸ h
  have hhigh : n ≤ 14 := hn ▸ h'
  obtain rfl : channel = BitVec.ofNat 32 n := by rw [← hn, BitVec.ofNat_toNat, BitVec.setWidth_eq]
  rw [hn]
  interval_cases n <;> rfl

/-- A regulatory limit as `fcc` writes it. -/
def fccByte (chip : PhyChip) (value : BitVec 8) : BitVec 8 :=
  (if value.setWidth 32 ≤ chip.groupConstant then value.setWidth 32
    else chip.groupConstant).setWidth 8

theorem fccByte_toNat (chip : PhyChip) (value : BitVec 8) :
    (fccByte chip value).toNat = min value.toNat chip.groupConstant.toNat := by
  have hconstant : chip.groupConstant.toNat ≤ 100 := by cases chip <;> decide
  have hvalue : (value.setWidth 32).toNat = value.toNat := by
    rw [BitVec.toNat_setWidth]
    omega
  rw [fccByte]
  split
  case isTrue hle =>
      rw [BitVec.le_def, hvalue] at hle
      rw [setWidth_byte, min_eq_left hle]
  case isFalse hgt =>
      rw [BitVec.le_def, hvalue] at hgt
      rw [BitVec.toNat_setWidth, min_eq_right (by omega)]
      omega

/-- The bytes that `fcc` selects. -/
def fccSource (channel : BitVec 32) (groups fourth : Nat) (m : ByteMem) (g : Nat) : BitVec 8 :=
  let p := groups + channel.toNat
  [m (p - 1), m (p + 13), m (p + 27), m (fourth + fccIndex channel)].getD g 0

theorem fcc_eq (chip : PhyChip) (channel : BitVec 32) (out groups fourth : Nat) (m : ByteMem) :
    fcc chip channel out groups fourth m =
      fill m out 4 fun g => fccByte chip (fccSource (chip.byte channel) groups fourth m g) := by
  rw [fcc]
  refine foldl_fill_bytes _ m out 4 _ fun k hk => ?_
  simp only [read_one, write_one]
  interval_cases k <;> rfl

theorem fccSource_eq (h : 1 ≤ channel.toNat) (h' : channel.toNat ≤ 14) (hg : g < 4) :
    fccSource channel groups fourth m g =
      if g < 3 then m (groups + (14 * g + (channel.toNat - 1)))
      else m (fourth + min (channel.toNat - 3) 8) := by
  have hfirst : groups + channel.toNat - 1 = groups + (14 * 0 + (channel.toNat - 1)) := by omega
  have hsecond : groups + channel.toNat + 13 = groups + (14 * 1 + (channel.toNat - 1)) := by omega
  have hthird : groups + channel.toNat + 27 = groups + (14 * 2 + (channel.toNat - 1)) := by omega
  rw [fccSource, fccIndex_eq h h']
  interval_cases g
  · exact congrArg m hfirst
  · exact congrArg m hsecond
  · exact congrArg m hthird
  · rfl

end Groups

section Limits

variable {chip : PhyChip} (G : GainBuffers chip) {channel : BitVec 32} {cap : Int} {input g i : Nat}
  {m : ByteMem} {mode : BitVec 8}

theorem byte_setWidth (chip : PhyChip) (x : BitVec 8) :
    chip.byte (x.setWidth 32) = x.setWidth 32 := by
  cases chip with
  | esp32s3 => rw [PhyChip.byte, setWidth_byte]
  | esp32c3 => rfl

/-- The limit of a group in the parameters, before the backoff. -/
def groupByte (chip : PhyChip) (base : GainBuffer → Nat) (channel : Nat) (mode : BitVec 8)
    (m : ByteMem) (g : Nat) : BitVec 8 :=
  if mode = 1 then
    fccByte chip
      (if g < 3 then m (base .ctrl + (14 * g + (channel - 1)))
      else m (base .param + 0x105 + min (channel - 3) 8))
  else chip.groupConstant.setWidth 8

/-- Both chips call `fcc`, if the callback is that function. -/
theorem groupLimits_fcc (b : Nat) (a : LimitsArgs) (m : ByteMem) :
    groupLimits chip (fcc .esp32c3) b a m =
      let m := fill m b 4 fun _ => chip.groupConstant.setWidth 8
      if chip.byte a.mode = 1 then fcc chip (chip.byte a.channel) b a.groups a.fourth m
      else m := by
  cases chip <;> rfl

theorem groupLimits_eq (h : 1 ≤ channel.toNat) (h' : channel.toNat ≤ 14) :
    groupLimits chip (fcc .esp32c3) (G.base .values)
        (limitsArgs G.base channel cap input (mode.setWidth 32)) m =
      fill m (G.base .values) 4 (groupByte chip G.base channel.toNat mode m) := by
  have hsize := chip.le_paramSize
  have hother (s : GainBuffer) (j : Nat) (f : Nat → BitVec 8) (hs : .values ≠ s)
      (hj : j < s.size chip) :
      fill m (G.base .values) 4 f (G.base s + j) = m (G.base s + j) :=
    G.fill_other (k := 0) hs (Nat.le_refl 4) hj
  have hchannel : chip.byte channel = channel :=
    PhyChip.byte_of_lt (Nat.lt_of_le_of_lt h' (by decide))
  simp only [groupLimits_fcc, limitsArgs, byte_setWidth, setWidth_eq_one_iff, hchannel, fcc_eq,
    fill_overwrite, ite_fill]
  refine fill_congr fun g hg => ?_
  rw [groupByte]
  split
  case isTrue =>
      rw [fccSource_eq h h' hg]
      split
      case isTrue hlt => rw [hother .ctrl _ _ (by decide) (show _ < 42 by omega)]
      case isFalse =>
          rw [Nat.add_assoc, hother .param _ _ (by decide) (show _ < chip.paramSize by omega)]
  case isFalse => rfl

/-- The loop over the target powers, which are not among the bytes it reads. -/
theorem foldl_limitStep {p out : Nat} {values : Nat → BitVec 32}
    (hp : p + 0x217 < out ∨ out + 14 ≤ p + 0x217) (hinput : input + 14 ≤ out ∨ out + 14 ≤ input) :
    (List.range 14).foldl (limitStep chip p cap out input values) m =
      fill m out 14 fun i =>
        limitByte chip cap (limitValue chip (values (group i)) (m (p + 0x217)))
          (m (input + i)) := by
  refine foldl_fill_bytes _ m out 14 _ fun k hk => ?_
  rw [limitStep_eq (by omega), fill_of_not_mem (by omega), fill_of_not_mem (by omega)]

theorem group_lt (i : Nat) : group i < 4 := by
  unfold group
  split
  · decide
  · split
    · decide
    · split <;> decide

theorem signedCap_ofInt (hcap : -128 ≤ cap ∧ cap ≤ 127) :
    chip.signedCap (BitVec.ofInt 32 cap) = cap := by
  cases chip with
  | esp32s3 => exact toInt_setWidth_ofInt hcap
  | esp32c3 =>
      rw [PhyChip.signedCap, BitVec.toInt_ofInt, Int.bmod_def]
      omega

theorem limits_target (h : 1 ≤ channel.toNat) (h' : channel.toNat ≤ 14)
    (hcap : -128 ≤ cap ∧ cap ≤ 127)
    (hwifi : input + 14 ≤ G.base .wifi + 32 ∨ G.base .wifi + 46 ≤ input)
    (hvalues : input + 14 ≤ G.base .values ∨ G.base .values + 4 ≤ input) (hi : i < 14) :
    limits chip (fcc .esp32c3) (G.base .values) (G.base .param)
        (limitsArgs G.base channel cap input (mode.setWidth 32)) m (G.base .wifi + 32 + i) =
      limitByte chip cap
        (limitValue chip ((groupByte chip G.base channel.toNat mode m (group i)).setWidth 32)
          (m (G.base .param + 0x217)))
        (m (input + i)) := by
  have hparam : _ + chip.paramSize ≤ _ ∨ _ + 48 ≤ _ := G.separate .param .wifi (by decide)
  have hlocal : _ + chip.paramSize ≤ _ ∨ _ + 4 ≤ _ := G.separate .param .values (by decide)
  have hsize := chip.le_paramSize
  have hvalue : read (fill m (G.base .values) 4 (groupByte chip G.base channel.toNat mode m))
      (G.base .values + group i) 1 =
        (groupByte chip G.base channel.toNat mode m (group i)).setWidth 32 := by
    rw [read_one, fill_range (group_lt i)]
  rw [limits, groupLimits_eq G h h']
  simp only [limitsArgs, signedCap_ofInt hcap]
  rw [foldl_limitStep (by omega) (by omega), fill_range hi, hvalue, fill_of_not_mem (by omega),
    fill_of_not_mem (by omega)]

end Limits

/-! ## The target powers -/

section WifiSet

variable {chip : PhyChip} {m : ByteMem} {channel logging : BitVec 32} {i g : Nat}

/-- The target powers from the parameters. -/
def targetByte (chip : PhyChip) (base : GainBuffer → Nat) (channel : Nat) (m : ByteMem) (i : Nat) :
    BitVec 8 :=
  limitByte chip (m (base .param + 0x98)).toInt
    (limitValue chip
      ((groupByte chip base channel (m (base .param + 0x104)) m (group i)).setWidth 32)
      (m (base .param + 0x217)))
    (m (base .param + (0xf4 + i)))

/-- What `wifi_set` hands to the lookup of the gains. -/
structure HasTargets (chip : PhyChip) (base : GainBuffer → Nat) (channel : Nat) (m : ByteMem)
    (result : ByteMem × Option (List Nat)) : Prop where
  args : ∃ args, result.2 = some args ∧ args[2]? = some (base .wifi + 32)
  targets : ∀ i < 14, result.1 (base .wifi + 32 + i) = targetByte chip base channel m i

theorem wifiSet_s3 (G : GainBuffers .esp32s3) (h : 1 ≤ channel.toNat) (h' : channel.toNat ≤ 14)
    (hset : m (G.base .param + 0x99) = 0) :
    HasTargets .esp32s3 G.base channel.toNat m
      (wifiSet .esp32s3 (fcc .esp32c3) G.base channel logging m) := by
  have hparam : _ + 740 ≤ _ ∨ _ + 48 ≤ _ := G.separate .param .wifi (by decide)
  have hlocal : _ + 740 ≤ _ ∨ _ + 4 ≤ _ := G.separate .param .values (by decide)
  have hchannel : PhyChip.byte .esp32s3 channel = channel :=
    PhyChip.byte_of_lt (Nat.lt_of_le_of_lt h' (by decide))
  rw [PhyChip.byte] at hchannel
  have hread : ¬read m (G.base .param + 0x99) 1 ≠ 0 := by
    rw [read_one, hset]
    decide
  rw [wifiSet, if_neg hread]
  simp only [hchannel, read_one, sb_setWidth]
  constructor
  · exact ⟨_, rfl, rfl⟩
  · intro i hi
    refine (limits_target G h h' (toInt_bounds _) ?_ ?_ hi).trans ?_
    · omega
    · omega
    · rw [Nat.add_assoc]
      rfl

theorem wifiSet_c3 (G : GainBuffers .esp32c3) (h : 1 ≤ channel.toNat) (h' : channel.toNat ≤ 14)
    (hset : m (G.base .param + 0x99) = 0) :
    HasTargets .esp32c3 G.base channel.toNat m
      (wifiSet .esp32c3 (fcc .esp32c3) G.base channel logging m) := by
  have hparam : _ + 848 ≤ _ ∨ _ + 48 ≤ _ := G.separate .param .wifi (by decide)
  have hlocal : _ + 48 ≤ _ ∨ _ + 4 ≤ _ := G.separate .wifi .values (by decide)
  have hcopy : (List.range 14).foldl
      (fun m i => write m (G.base .wifi + i) 1 (read m (G.base .param + 0xf4 + i) 1)) m =
        copy m (G.base .wifi) (G.base .param + 0xf4) 14 :=
    foldl_copy m (by omega)
  -- the copy of the powers in the local array changes nothing else that is read
  have hother (s : GainBuffer) (j : Nat) (hs : .wifi ≠ s) (hj : j < s.size .esp32c3) :
      copy m (G.base .wifi) (G.base .param + 0xf4) 14 (G.base s + j) = m (G.base s + j) :=
    G.fill_other (k := 0) hs (by decide) hj
  have hread : ¬read (copy m (G.base .wifi) (G.base .param + 0xf4) 14) (G.base .param + 0x99) 1 ≠
      0 := by
    rw [read_one, hother .param _ (by decide) (by decide), hset]
    decide
  have hgroup (mode : BitVec 8) (g : Nat) (hg : g < 4) :
      groupByte .esp32c3 G.base channel.toNat mode
          (copy m (G.base .wifi) (G.base .param + 0xf4) 14) g =
        groupByte .esp32c3 G.base channel.toNat mode m g := by
    rw [groupByte, groupByte, Nat.add_assoc]
    split
    case isFalse => rfl
    case isTrue =>
        rw [hother .param _ (by decide) (show _ < 848 by omega)]
        split
        case isFalse => rfl
        case isTrue hlt => rw [hother .ctrl _ (by decide) (show _ < 42 by omega)]
  rw [wifiSet]
  simp only [hcopy]
  rw [if_neg hread]
  simp only [read_one, sb_setWidth]
  constructor
  · exact ⟨_, rfl, rfl⟩
  · intro i hi
    refine (limits_target G h h' (toInt_bounds _) ?_ ?_ hi).trans ?_
    · omega
    · omega
    · rw [targetByte, hgroup _ _ (group_lt i), hother .param _ (by decide) (by decide),
        hother .param _ (by decide) (by decide), hother .param _ (by decide) (by decide),
        copy, fill_range hi, Nat.add_assoc]

end WifiSet

/-- The limit of a group after the backoff of C3, which is subtracted in a signed byte. -/
def PhyChip.backedOff (chip : PhyChip) (limit : Int) (backoff : BitVec 8) : Int :=
  match chip with
  | .esp32s3 => limit
  | .esp32c3 => Int.bmod (limit - backoff.toNat) 256

/-- The limit of a group: the constant of the chip, or what the regulation of the channel
allows if that is less. -/
def groupLimit (chip : PhyChip) (blob : Nat → BitVec 8) (channel : Nat) (backoff : BitVec 8)
    (g : Nat) : Int :=
  let constant : Int := chip.groupConstant.toNat
  chip.backedOff
    (if blob 18 = 1 then min constant (regulatoryByte blob channel g).toNat else constant) backoff

/-- The power of the init data, up to the ceiling of the chip. -/
def powerLimit (chip : PhyChip) (version : BitVec 8) (blob : Nat → BitVec 8) (i : Nat) : Int :=
  min (blob (2 + i)).toInt (chipCeiling chip version i).toNat

theorem chipCeiling_le {chip : PhyChip} {version : BitVec 8} {i : Nat} (hi : i < 14) :
    (chipCeiling chip version i).toNat ≤ 82 := by
  cases chip with
  | esp32s3 =>
      rw [chipCeiling]
      split
      case isTrue => interval_cases i <;> decide
      case isFalse => interval_cases i <;> decide
  | esp32c3 =>
      rw [chipCeiling]
      interval_cases i <;> decide

theorem storedPower_toInt {power ceiling : BitVec 8} (h : ceiling.toNat ≤ 82) :
    (storedPower power ceiling).toInt = min power.toInt ceiling.toNat := by
  have hceiling : ceiling.toInt = ceiling.toNat := BitVec.toInt_eq_toNat_of_lt (by omega)
  rw [storedPower]
  split
  case isTrue hgt => rw [hceiling, min_eq_right (by omega)]
  case isFalse hle => rw [min_eq_left (by omega)]

theorem limitValue_eq (chip : PhyChip) (x backoff : BitVec 8) :
    limitValue chip (x.setWidth 32) backoff = chip.backedOff x.toNat backoff := by
  cases chip with
  | esp32s3 => exact toInt_setWidth x
  | esp32c3 =>
      have hx := x.isLt
      have hbackoff := backoff.isLt
      rw [limitValue, toInt_setWidth, sb, BitVec.toInt_setWidth, BitVec.toNat_sub,
        BitVec.toNat_ofInt, BitVec.toNat_setWidth, PhyChip.backedOff, Int.bmod_def, Int.bmod_def]
      omega

/-- The limits are as `init_param` left them. -/
structure SameLimits (base : InitBuffer → Nat) (m m' : ByteMem) : Prop where
  param : ∀ i, 244 ≤ i → i < 270 → m' (base .param + i) = m (base .param + i)
  ctrl : ∀ i < 42, m' (base .ctrl + i) = m (base .ctrl + i)

section Targets

variable {chip : PhyChip} {B : InitBuffers chip} {G : GainBuffers chip} {init m : ByteMem}
  {channel g : Nat}

/-- The limits in the parameters and in the control data are those of the init data. -/
theorem groupLimit_eq (hstored : InitStored chip B.base init m)
    (hparam : G.base .param = B.base .param) (hctrl : G.base .ctrl = B.base .ctrl)
    (h : 1 ≤ channel) (h' : channel ≤ 14) (hg : g < 4) (backoff : BitVec 8) :
    limitValue chip
        ((groupByte chip G.base channel (m (G.base .param + 0x104)) m g).setWidth 32) backoff =
      groupLimit chip (fun i => init (B.base .input + i)) channel backoff g := by
  have hsource : (if g < 3 then m (B.base .ctrl + (14 * g + (channel - 1)))
      else m (B.base .param + 0x105 + min (channel - 3) 8)) =
        regulatoryByte (fun i => init (B.base .input + i)) channel g := by
    rw [regulatoryByte]
    split
    case isTrue hlt => rw [hstored.groups _ (by omega), Nat.add_assoc 19]
    case isFalse => rw [Nat.add_assoc, hstored.fourth _ (by omega)]
  have hbyte : ((groupByte chip G.base channel (m (G.base .param + 0x104)) m g).toNat : Int) =
      if init (B.base .input + 18) = 1 then
        min (chip.groupConstant.toNat : Int)
          (regulatoryByte (fun i => init (B.base .input + i)) channel g).toNat
      else chip.groupConstant.toNat := by
    rw [groupByte, hparam, hctrl, hstored.mode, hsource]
    split
    case isTrue => rw [fccByte_toNat, Nat.cast_min, min_comm]
    case isFalse => cases chip <;> rfl
  rw [limitValue_eq, groupLimit, hbyte]

theorem InitStored.of_same (h : SameLimits B.base (initParam chip B.base init) m) :
    InitStored chip B.base init m := by
  have hstored := initParam_stored B init
  constructor
  · intro i hi
    rw [h.param _ (by omega) (by omega), hstored.power i hi]
  · rw [h.param _ (by decide) (by decide), hstored.mode]
  · intro i hi
    rw [h.ctrl i hi, hstored.groups i hi]
  · intro i hi
    rw [h.param _ (by omega) (by omega), hstored.fourth i hi]

theorem backedOff_bounds (chip : PhyChip) {limit : Int} (h : 0 ≤ limit ∧ limit ≤ 100)
    (backoff : BitVec 8) :
    -128 ≤ chip.backedOff limit backoff ∧ chip.backedOff limit backoff ≤ 127 := by
  cases chip with
  | esp32s3 =>
      rw [PhyChip.backedOff]
      omega
  | esp32c3 =>
      rw [PhyChip.backedOff, Int.bmod_def]
      omega

/-- A backoff of at most 127 does not wrap, so it lowers the limit. -/
theorem backedOff_le (chip : PhyChip) {limit : Int} {backoff : BitVec 8}
    (h : 0 ≤ limit ∧ limit ≤ 100) (hbackoff : backoff.toNat ≤ 127) :
    chip.backedOff limit backoff ≤ limit := by
  cases chip with
  | esp32s3 => exact Int.le_refl limit
  | esp32c3 =>
      rw [PhyChip.backedOff, Int.bmod_def]
      omega

theorem groupConstant_le (chip : PhyChip) : chip.groupConstant.toNat ≤ 100 := by
  cases chip <;> decide

theorem groupLimit_bounds (chip : PhyChip) (blob : Nat → BitVec 8) (channel : Nat)
    (backoff : BitVec 8) (g : Nat) :
    -128 ≤ groupLimit chip blob channel backoff g ∧
      groupLimit chip blob channel backoff g ≤ 127 := by
  have hconstant := groupConstant_le chip
  refine backedOff_bounds chip ?_ backoff
  split <;> omega

theorem groupLimit_le (chip : PhyChip) (blob : Nat → BitVec 8) (channel g : Nat)
    {backoff : BitVec 8} (hbackoff : backoff.toNat ≤ 127) :
    groupLimit chip blob channel backoff g ≤ chip.groupConstant.toNat ∧
      (blob 18 = 1 →
        groupLimit chip blob channel backoff g ≤ (regulatoryByte blob channel g).toNat) := by
  have hconstant := groupConstant_le chip
  rw [groupLimit]
  split
  case isTrue hmode =>
      have hrange : 0 ≤ min (chip.groupConstant.toNat : Int) (regulatoryByte blob channel g).toNat ∧
          min (chip.groupConstant.toNat : Int) (regulatoryByte blob channel g).toNat ≤ 100 := by
        omega
      have hle := backedOff_le chip hrange hbackoff
      exact ⟨by omega, fun _ => by omega⟩
  case isFalse hmode =>
      have hrange : 0 ≤ (chip.groupConstant.toNat : Int) ∧
          (chip.groupConstant.toNat : Int) ≤ 100 := by
        omega
      exact ⟨backedOff_le chip hrange hbackoff, fun h => absurd h hmode⟩

end Targets

/-- The target powers of a channel, from the init data `blob` that `init_param` got and the
parameters `0x98` and `0x217` at the time of the call. -/
theorem wifiSet_targets (chip : PhyChip) (B : InitBuffers chip) (G : GainBuffers chip)
    (hparam : G.base .param = B.base .param) (hctrl : G.base .ctrl = B.base .ctrl)
    (init m : ByteMem) (hsame : SameLimits B.base (initParam chip B.base init) m)
    (channel logging : BitVec 32) (hchannel : 1 ≤ channel.toNat ∧ channel.toNat ≤ 14)
    (hset : m (G.base .param + 0x99) = 0) :
    let blob := fun i => init (B.base .input + i)
    let version := init (B.base .param + 525)
    let cap := (m (G.base .param + 0x98)).toInt
    let backoff := m (G.base .param + 0x217)
    let result := wifiSet chip (fcc .esp32c3) G.base channel logging m
    (∃ args, result.2 = some args ∧ args[2]? = some (G.base .wifi + 32)) ∧
      ∀ i < 14,
        let target := (result.1 (G.base .wifi + 32 + i)).toInt
        target = min cap (min (powerLimit chip version blob i)
          (groupLimit chip blob channel.toNat backoff (group i))) ∧
        (backoff.toNat ≤ 127 →
          target ≤ cap ∧ target ≤ (chipCeiling chip version i).toNat ∧
            target ≤ chip.groupConstant.toNat ∧
            (blob 18 = 1 → target ≤ (regulatoryByte blob channel.toNat (group i)).toNat)) := by
  intro blob version cap backoff result
  have hstored : InitStored chip B.base init m := .of_same hsame
  have htargets : HasTargets chip G.base channel.toNat m result := by
    cases chip with
    | esp32s3 => exact wifiSet_s3 G hchannel.1 hchannel.2 hset
    | esp32c3 => exact wifiSet_c3 G hchannel.1 hchannel.2 hset
  refine ⟨htargets.args, fun i hi => ?_⟩
  intro target
  have hgroup : limitValue chip ((groupByte chip G.base channel.toNat
      (m (G.base .param + 0x104)) m (group i)).setWidth 32) backoff =
        groupLimit chip blob channel.toNat backoff (group i) :=
    groupLimit_eq hstored hparam hctrl hchannel.1 hchannel.2 (group_lt i) backoff
  have hpower : (m (G.base .param + (0xf4 + i))).toInt = powerLimit chip version blob i := by
    rw [hparam, hstored.power i hi, storedPower_toInt (chipCeiling_le hi)]
    rfl
  have htarget : target = min cap (min (powerLimit chip version blob i)
      (groupLimit chip blob channel.toNat backoff (group i))) := by
    have hbounds := groupLimit_bounds chip blob channel.toNat backoff (group i)
    change (result.1 (G.base .wifi + 32 + i)).toInt = _
    rw [htargets.targets i hi, targetByte, hgroup, limitByte_toInt (toInt_bounds _) hbounds, hpower]
  refine ⟨htarget, fun hbackoff => ?_⟩
  have hlimit := groupLimit_le chip blob channel.toNat (group i) hbackoff
  have hceiling : powerLimit chip version blob i ≤ (chipCeiling chip version i).toNat :=
    min_le_right ..
  refine ⟨by omega, by omega, by omega, fun hmode => ?_⟩
  have hregulatory := hlimit.2 hmode
  omega

/-- Buffers of S3, for example. -/
def initBuffers : InitBuffers .esp32s3 where
  base
    | .param => 0
    | .ctrl => 740
    | .input => 800
    | .defaults => 900
    | .limits => 920
  separate := by
    intro r s h
    cases r <;> cases s <;> first | exact absurd rfl h | decide

def gainBuffers : GainBuffers .esp32s3 where
  base
    | .param => 0
    | .ctrl => 740
    | .wifi => 900
    | .values => 948
  separate := by
    intro r s h
    cases r <;> cases s <;> first | exact absurd rfl h | decide

/-- Init data with the regulatory limits in use, all of them 70, and powers of 78. -/
def initData : ByteMem := fun a => if a < 818 then 78 else if a = 818 then 1 else 70

/-- The parameters after `init_param`, with the cap 76. -/
def cappedParam : ByteMem := fun a =>
  if a = 0x98 then 76 else if a = 0x99 then 0 else initParam .esp32s3 initBuffers.base initData a

theorem wifiSet_targets_regulated :
    ((wifiSet .esp32s3 (fcc .esp32c3) gainBuffers.base 6 0 cappedParam).1 (900 + 32 + 0)).toInt =
      70 := by
  have hsame : SameLimits initBuffers.base (initParam .esp32s3 initBuffers.base initData)
      cappedParam := by
    constructor
    · intro i hlow hhigh
      have hoffset : initBuffers.base .param + i = i := Nat.zero_add i
      rw [hoffset, cappedParam, if_neg (by omega), if_neg (by omega)]
    · intro i hi
      have hoffset : initBuffers.base .ctrl + i = 740 + i := rfl
      rw [hoffset, cappedParam, if_neg (by omega), if_neg (by omega)]
  have htarget := ((wifiSet_targets .esp32s3 initBuffers gainBuffers rfl rfl initData cappedParam
    hsame 6 0 (by decide) rfl).2 0 (by decide)).1
  exact htarget.trans (by decide +kernel)

end EspWifiHal
