import EspWifiHal.Phy.TuningRun

/-!
# The channel

`set_channel` stops the MAC, lets the PHY tune and starts the MAC again.  The PHY in turn
switches the automatic gain control off, forces the transmitter and the receiver off, and undoes
this after the tuning.  `get_channel` returns the number that was stored last.

`channel_of_run` says that the number is the one of the last valid request, that the PLL has the
divider of its frequency, that the radio is on between the calls, and that it is never tuned
while it is on.

The loops of `set_mac_state` end when the hardware has cleared the ready bits.  That the PHY
forces the transmitter and the receiver off and that it is in its critical section are flags
here.  The other registers are those that the driver and the PHY update.
-/

namespace EspWifiHal

namespace Channel

open Memory Trace Tuning

/-! ## The functions -/

inductive Action where
  | setMacState (initialized : Bool)
  | disableWifiAgc
  | enableWifiAgc
  | phy (c : Call)
deriving DecidableEq, Repr

structure Radio where
  /-- The control register of the MAC. -/
  ctrl : BitVec 32
  /-- `0x6001c01c`, with the gain in the third byte. -/
  gain : BitVec 32
  /-- `0x6001c034`, which the PHY sets. -/
  agc34 : BitVec 32
  /-- `0x6001c038`, which the driver sets. -/
  agc38 : BitVec 32
  /-- `0x6001c080`, of which bit 0 stops the gain control. -/
  agc80 : BitVec 32
  txRxOff : Bool
  critical : Bool
deriving DecidableEq, Repr

def macInitMask : BitVec 32 := 0xff00efff

def macReadyMask : BitVec 32 := 0x6000

namespace Radio

/-- The ready bits are clear when the loops end. -/
def setMacState (initialized : Bool) (r : Radio) : Radio :=
  { r with
    ctrl :=
      if initialized then r.ctrl &&& macInitMask
      else (r.ctrl &&& ~~~macReadyMask) ||| ~~~macInitMask }

def stopGain (r : Radio) : Radio :=
  { r with gain := (r.gain &&& 0xff00ffff) ||| 0x007f0000, agc80 := r.agc80 ||| 1 }

def startGain (r : Radio) : Radio :=
  { r with agc80 := r.agc80 &&& ~~~1, gain := (r.gain &&& 0xff00ffff) ||| 0x00200000 }

def apply (r : Radio) : Action → Radio
  | .setMacState initialized => r.setMacState initialized
  | .disableWifiAgc => { r.stopGain with agc38 := r.agc38 ||| 0x80 }
  | .enableWifiAgc => { r.startGain with agc38 := r.agc38 ||| 0x80 }
  | .phy .disableAgc => { r.stopGain with agc34 := r.agc34 ||| 0x80 }
  | .phy .enableAgc => { r.startGain with agc34 := r.agc34 ||| 0x80 }
  | .phy (.forceTxRxOff enabled) => { r with txRxOff := enabled != 0 }
  | .phy .enterCritical => { r with critical := true }
  | .phy (.exitCritical _) => { r with critical := false }
  | .phy _ => r

end Radio

structure Driver where
  tuner : Tuner
  /-- `CURRENT_CHANNEL`. -/
  current : BitVec 8
  actions : List Action

inductive InvalidChannelError where
  | invalidChannel
deriving DecidableEq, Repr

/-- The channels of the band. -/
def validChannel (n : BitVec 8) : Prop := 1 ≤ n ∧ n ≤ 14

instance : DecidablePred validChannel := fun n => inferInstanceAs (Decidable (1 ≤ n ∧ n ≤ 14))

/-- The tracking of the temperature changes the channel memory between the calls. -/
inductive Event where
  | setChannel (channelNumber : BitVec 8) (a : Answers)
  | capMemory (delta : BitVec 32)

section

variable (chip : PhyChip) (base : FreqBuffer → Nat) (toFrequency : BitVec 32 → BitVec 32)

namespace Driver

def llSetChannel (channelNumber : BitVec 8) (a : Answers) (d : Driver) : Driver :=
  let t := d.tuner.channel chip base toFrequency (channelNumber.setWidth 32) 0 a
  { d with
    tuner := t
    actions := d.actions ++ [.setMacState false] ++
      (t.calls.drop d.tuner.calls.length).map .phy ++
      [.disableWifiAgc, .setMacState true, .enableWifiAgc] }

def setChannel (channelNumber : BitVec 8) (a : Answers) (d : Driver) :
    Except InvalidChannelError Unit × Driver :=
  if ¬validChannel channelNumber then (.error .invalidChannel, d)
  else (.ok (), { d.llSetChannel chip base toFrequency channelNumber a with
    current := channelNumber })

def step (d : Driver) : Event → Driver
  | .setChannel channelNumber a => (d.setChannel chip base toFrequency channelNumber a).2
  | .capMemory delta =>
      { d with tuner := { d.tuner with freq := d.tuner.freq.capMemory delta } }

/-- The driver selects channel 1 when it is created. -/
def new (a : Answers) (t : Tuner) : Driver :=
  (Driver.setChannel chip base toFrequency 1 a ⟨t, 1, []⟩).2

end Driver

end

/-! ## The calls of the PHY -/

/-- Calls that do not switch a part of the radio. -/
def neutral : Call → Bool
  | .bandwidth _ | .txGain _ | .misc _ | .getTxcapData | .chan14MicCfg _ | .phy11pSet .. => true
  | .phyFreqCorrect .. | .channelChanged => true
  | .enterCritical | .exitCritical _ | .disableAgc | .enableAgc | .forceTxRxOff _ | .tune _ => false

section Calls

variable (chip : PhyChip) (base : FreqBuffer → Nat) (toFrequency : BitVec 32 → BitVec 32)
  (a : Answers) (t : Tuner)

theorem strobes_calls (takes : Nat → Bool) (channel : BitVec 32) :
    (t.strobes takes channel).calls = t.calls := by
  have hstrobe : ∀ (b : Bool) (u : Tuner), (u.strobe b).calls = u.calls := by
    intro b u
    cases b with
    | false => rfl
    | true => rfl
  exact Loop.forBreak_inv _ (fun u : Tuner => u.calls = t.calls)
    (fun k u hu => (hstrobe (takes k) u).trans hu) _ rfl

theorem setChannel_calls (channel selector offset : BitVec 32) :
    (t.setChannel chip base toFrequency channel selector offset a).calls =
      t.calls ++ [.tune (toFrequency (charArgument chip channel))] := by
  rw [Tuner.setChannel]
  split
  · rfl
  · show (Tuner.strobes _ _ _).calls = _
    rw [strobes_calls]
    rfl

/-- Only neutral calls are added. -/
def AddsNeutral (t t' : Tuner) : Prop :=
  ∃ calls : List Call, (∀ c ∈ calls, neutral c = true) ∧ t'.calls = t.calls ++ calls

variable {t} in
theorem AddsNeutral.refl : AddsNeutral t t := ⟨[], by simp, (List.append_nil _).symm⟩

variable {t} in
theorem AddsNeutral.call {t' : Tuner} (h : AddsNeutral t t') {c : Call} (hc : neutral c = true) :
    AddsNeutral t (t'.call c) := by
  obtain ⟨calls, hneutral, hcalls⟩ := h
  refine ⟨calls ++ [c], ?_, ?_⟩
  · intro c' hc'
    rcases List.mem_append.mp hc' with hc' | hc'
    · exact hneutral c' hc'
    · rw [List.mem_singleton.mp hc']
      exact hc
  · rw [Tuner.call, hcalls, List.append_assoc]

theorem storeChannel_calls (channel mode : BitVec 32) :
    AddsNeutral t (t.storeChannel chip base channel mode) := by
  rw [Tuner.storeChannel.eq_def]
  cases chip with
  | esp32s3 =>
      dsimp only
      split
      · exact AddsNeutral.refl.call (c := .channelChanged) rfl
      · exact .refl
  | esp32c3 => exact .refl

theorem finishChannel_calls (channel mode : BitVec 32) :
    AddsNeutral t (t.finishChannel chip base channel mode) := by
  have hbandwidth : AddsNeutral t (t.call (.bandwidth mode)) := .call .refl rfl
  -- the two optional calls at the end
  have hoptional : ∀ {t'}, AddsNeutral t t' → ∀ (p : Prop) [Decidable p] (c : Call),
      neutral c = true → AddsNeutral t (if p then t'.call c else t') := by
    intro t' h p _ c hc
    split
    · exact h.call hc
    · exact h
  cases chip with
  | esp32s3 => exact hoptional (hoptional (hbandwidth.call rfl) _ _ rfl) _ _ rfl
  | esp32c3 =>
      exact hoptional (hoptional (((hbandwidth.call rfl).call rfl).call rfl) _ _ rfl) _ _ rfl

/-- The calls of `channel`. -/
theorem channel_calls (channel mode : BitVec 32) :
    ∃ before after : List Call, (∀ c ∈ before ++ after, neutral c = true) ∧
      (t.channel chip base toFrequency channel mode a).calls =
        t.calls ++ ([.enterCritical] ++ before ++ [.disableAgc, .forceTxRxOff 1] ++
          [.tune (toFrequency (charArgument chip channel))] ++ after ++
          [.forceTxRxOff 0, .enableAgc, .exitCritical a.token]) := by
  let c := charArgument chip channel
  let u := (((t.call .enterCritical).storeChannel chip base c (charArgument chip mode)).call
    .disableAgc).call (.forceTxRxOff 1)
  let v := u.setChannel chip base toFrequency c (u.param base 0xf3 1)
    (short (u.param base 0xe0 2)) a
  obtain ⟨before, hbefore, hu⟩ :=
    storeChannel_calls chip base (t.call .enterCritical) c (charArgument chip mode)
  obtain ⟨after, hafter, hv⟩ := finishChannel_calls chip base v c (charArgument chip mode)
  have htune : v.calls = u.calls ++ [.tune (toFrequency (charArgument chip c))] :=
    setChannel_calls ..
  refine ⟨before, after, ?_, ?_⟩
  · intro c hc
    exact (List.mem_append.mp hc).elim (hbefore c) (hafter c)
  · show (v.finishChannel chip base c (charArgument chip mode)).calls ++ [.forceTxRxOff 0] ++
      [.enableAgc] ++ [.exitCritical a.token] = _
    rw [hv, htune, charArgument_idem]
    show (Tuner.storeChannel ..).calls ++ [.disableAgc] ++ [.forceTxRxOff 1] ++ _ ++ _ ++ _ ++ _ ++
      _ = _
    rw [hu]
    simp [Tuner.call]

end Calls

/-! ## The radio -/

/-- Nothing is received or sent. -/
structure Quiet (r : Radio) : Prop where
  mac : r.ctrl &&& ~~~macInitMask = ~~~macInitMask
  ready : r.ctrl &&& macReadyMask = 0
  agc : r.agc80 &&& 1 = 1
  gain : r.gain &&& 0x00ff0000 = 0x007f0000
  txRxOff : r.txRxOff = true
  critical : r.critical = true

/-- The radio is in use. -/
structure Active (r : Radio) : Prop where
  mac : r.ctrl &&& ~~~macInitMask = 0
  agc : r.agc80 &&& 1 = 0
  gain : r.gain &&& 0x00ff0000 = 0x00200000
  txRxOff : r.txRxOff = false
  critical : r.critical = false

/-- A tuning is allowed while the radio is quiet. -/
def tuneQuiet (r : Radio) : Action → Prop
  | .phy (.tune _) => Quiet r
  | _ => True

theorem apply_neutral {c : Call} (hc : neutral c = true) (r : Radio) : r.apply (.phy c) = r := by
  cases c <;> first | rfl | cases hc

theorem foldl_neutral {calls : List Call} (hcalls : ∀ c ∈ calls, neutral c = true) (r : Radio) :
    (calls.map Action.phy).foldl Radio.apply r = r := by
  induction calls with
  | nil => rfl
  | cons c calls ih =>
      rw [List.map_cons, List.foldl_cons, apply_neutral (hcalls c List.mem_cons_self)]
      exact ih fun c' hc' => hcalls c' (List.mem_cons_of_mem c hc')

theorem allowed_neutral {calls : List Call} (hcalls : ∀ c ∈ calls, neutral c = true) (r : Radio) :
    Allowed Radio.apply tuneQuiet r (calls.map .phy) := by
  refine allowed_of_forall (fun w hw s => ?_) r
  obtain ⟨c, hc, rfl⟩ := List.mem_map.mp hw
  have hneutral := hcalls c hc
  cases c <;> first | exact trivial | cases hneutral

/-- What a channel change does until it tunes. -/
def prepareActions (before : List Call) : List Action :=
  [.setMacState false, .phy .enterCritical] ++ before.map .phy ++
    [.phy .disableAgc, .phy (.forceTxRxOff 1)]

/-- What it does after the tuning. -/
def finishActions (after : List Call) (token : BitVec 32) : List Action :=
  after.map .phy ++ [.phy (.forceTxRxOff 0), .phy .enableAgc, .phy (.exitCritical token),
    .disableWifiAgc, .setMacState true, .enableWifiAgc]

section Switch

variable {before after : List Call}

theorem quiet_of_prepare (hbefore : ∀ c ∈ before, neutral c = true) (r : Radio) :
    Quiet ((prepareActions before).foldl Radio.apply r) := by
  rw [prepareActions, List.foldl_append, List.foldl_append, foldl_neutral hbefore]
  refine ⟨Register.or_and_mask _ _, ?_, Register.or_and_mask _ _, ?_, rfl, rfl⟩
  · have hdisjoint : macReadyMask &&& ~~~macInitMask = 0#32 := by decide
    exact (Register.or_and_of_disjoint _ _ hdisjoint).trans (Register.and_not_and_mask _ _)
  · exact Register.masked_and_mask _ 0x007f0000#32 0x00ff0000#32

theorem active_of_finish (hafter : ∀ c ∈ after, neutral c = true) (token : BitVec 32) (r : Radio) :
    Active ((finishActions after token).foldl Radio.apply r) := by
  rw [finishActions, List.foldl_append, foldl_neutral hafter]
  refine ⟨?_, Register.and_not_and_mask _ _, ?_, rfl, rfl⟩
  · have hmask : macInitMask &&& ~~~macInitMask = 0#32 := by decide
    show (_ &&& macInitMask) &&& ~~~macInitMask = 0
    rw [BitVec.and_assoc, hmask]
    exact BitVec.and_zero
  · exact Register.masked_and_mask _ 0x00200000#32 0x00ff0000#32

theorem switch_allowed (hbefore : ∀ c ∈ before, neutral c = true)
    (hafter : ∀ c ∈ after, neutral c = true) (f token : BitVec 32) (r : Radio) :
    Allowed Radio.apply tuneQuiet r
      (prepareActions before ++ [.phy (.tune f)] ++ finishActions after token) := by
  have hprepare : Allowed Radio.apply tuneQuiet r (prepareActions before) := by
    refine .append (.append ?_ (allowed_neutral hbefore _)) ?_
    · exact allowed_of_forall (by simp [tuneQuiet]) r
    · exact allowed_of_forall (by simp [tuneQuiet]) _
  have htune : Allowed Radio.apply tuneQuiet ((prepareActions before).foldl Radio.apply r)
      [.phy (.tune f)] := allowed_singleton (quiet_of_prepare hbefore r)
  refine .append (hprepare.append htune) (.append (allowed_neutral hafter _) ?_)
  exact allowed_of_forall (by simp [tuneQuiet]) _

end Switch

/-! ## Runs -/

/-- The frequency of a channel, as the distance from 2400 MHz. -/
def bandIndex (n : BitVec 8) : Nat := if n = 14 then 84 else 7 + 5 * n.toNat

/-- The last channel that was asked for. -/
def requested (n : BitVec 8) : Event → BitVec 8
  | .setChannel m _ => if validChannel m then m else n
  | .capMemory _ => n

/-- The hardware follows the first strobe. -/
def followsFirst : Event → Prop
  | .setChannel _ a => a.takes 0 = true
  | .capMemory _ => True

theorem bandIndex_lt {n : BitVec 8} (hn : validChannel n) : bandIndex n < 85 := by
  have hle : n.toNat ≤ 14 := hn.2
  rw [bandIndex]
  split <;> omega

theorem charArgument_channel (chip : PhyChip) {n : BitVec 8} (hn : validChannel n) :
    charArgument chip (n.setWidth 32) = n.setWidth 32 := by
  cases chip with
  | esp32s3 =>
      have hle : n.toNat ≤ 14 := hn.2
      have hmsb : n.msb = false := by
        rw [BitVec.msb_eq_decide, decide_eq_false_iff_not]
        omega
      show ((n.setWidth 32).setWidth 8).signExtend 32 = _
      rw [setWidth_byte, BitVec.signExtend_eq_setWidth_of_msb_false hmsb]
  | esp32c3 => rfl

section Run

variable {chip : PhyChip} (B : FreqBuffers chip) (toFrequency : BitVec 32 → BitVec 32)

/-- What holds between the calls.  `m` are the parameters at the start, and `asked` is the
offset. -/
structure Holds (m : ByteMem) (asked : Int) (r : Radio) (d : Driver) : Prop where
  ready : Ready B m asked d.tuner
  valid : validChannel d.current
  divider : (d.tuner.divider -
      idealDivider chip (read m (B.base .param + 0xf3) 1) (bandIndex d.current) asked).natAbs ≤
    asked.natAbs / 15 + 10
  active : Active (d.actions.foldl Radio.apply r)
  allowed : Allowed Radio.apply tuneQuiet r d.actions

variable {B toFrequency} {m : ByteMem} {asked : Int} {r : Radio} {d : Driver}
  (hselector : read m (B.base .param + 0xf3) 1 = 0 ∨ read m (B.base .param + 0xf3) 1 = 1)
  (hband : ∀ n, validChannel n →
    toFrequency (n.setWidth 32) = 2400 + BitVec.ofNat 32 (bandIndex n))

include hselector hband

/-- A change to a valid channel, from any state in which the PHY is ready. -/
theorem setChannel_holds (hready : Ready B m asked d.tuner)
    (hallowed : Allowed Radio.apply tuneQuiet r d.actions) {n : BitVec 8} (hn : validChannel n)
    {a : Answers} (ha : a.takes 0 = true) :
    Holds B m asked r (d.setChannel chip B.base toFrequency n a).2 := by
  obtain ⟨before, after, hneutral, hcalls⟩ := channel_calls chip B.base toFrequency a d.tuner
    (n.setWidth 32) 0
  have hbefore : ∀ c ∈ before, neutral c = true := fun c hc =>
    hneutral c (List.mem_append_left _ hc)
  have hafter : ∀ c ∈ after, neutral c = true := fun c hc =>
    hneutral c (List.mem_append_right _ hc)
  have hset : (d.setChannel chip B.base toFrequency n a).2 =
      { tuner := d.tuner.channel chip B.base toFrequency (n.setWidth 32) 0 a
        current := n
        actions := d.actions ++ (prepareActions before ++
          [.phy (.tune (toFrequency (charArgument chip (n.setWidth 32))))] ++
          finishActions after a.token) } := by
    rw [Driver.setChannel, if_neg (not_not.mpr hn)]
    simp only [Driver.llSetChannel, hcalls, List.drop_left]
    simp [prepareActions, finishActions]
  obtain ⟨hready', htunes⟩ := channel_tunes hselector toFrequency a hready (n.setWidth 32) 0
  rw [hset]
  refine ⟨hready', hn, ?_, ?_, hallowed.append (switch_allowed hbefore hafter _ _ _)⟩
  · refine htunes (bandIndex n) (bandIndex_lt hn) ?_ fun _ => .inl ha
    rw [charArgument_channel chip hn]
    exact hband n hn
  · show Active (List.foldl _ _ (_ ++ (_ ++ _)))
    rw [List.foldl_append, List.foldl_append]
    exact active_of_finish hafter a.token _

theorem Holds.step (h : Holds B m asked r d) {e : Event} (he : followsFirst e) :
    Holds B m asked r (d.step chip B.base toFrequency e) ∧
      (d.step chip B.base toFrequency e).current = requested d.current e := by
  cases e with
  | setChannel n a =>
      rw [requested]
      by_cases hn : validChannel n
      · rw [if_pos hn]
        refine ⟨setChannel_holds hselector hband h.ready h.allowed hn he, ?_⟩
        rw [Driver.step, Driver.setChannel, if_neg (not_not.mpr hn)]
      · have hsame : d.step chip B.base toFrequency (.setChannel n a) = d := by
          rw [Driver.step, Driver.setChannel, if_pos hn]
        rw [if_neg hn, hsame]
        exact ⟨h, rfl⟩
  | capMemory delta =>
      exact ⟨⟨h.ready.capMemory delta, h.valid, h.divider, h.active, h.allowed⟩, rfl⟩

theorem Holds.run {events : List Event} (hevents : ∀ e ∈ events, followsFirst e)
    (h : Holds B m asked r d) :
    Holds B m asked r (events.foldl (Driver.step chip B.base toFrequency) d) ∧
      (events.foldl (Driver.step chip B.base toFrequency) d).current =
        events.foldl requested d.current := by
  induction events generalizing d with
  | nil => exact ⟨h, rfl⟩
  | cons e events ih =>
      obtain ⟨hstep, hcurrent⟩ := h.step hselector hband (hevents e List.mem_cons_self)
      rw [List.foldl_cons, List.foldl_cons, ← hcurrent]
      exact ih (fun e' he' => hevents e' (List.mem_cons_of_mem e he')) hstep

end Run

/-- The selector of the PLL is 0 or 1, the offset is at most 8000 and the calls of the PHY before
the driver are in range.  Then after the creation of the driver and any requests for a channel,
the stored channel is the last valid one, the PLL has its divider, up to what the tuning allows,
and the radio is active.  The driver only tuned the PHY while the radio was quiet. -/
theorem channel_of_run (chip : PhyChip) (B : FreqBuffers chip)
    (toFrequency : BitVec 32 → BitVec 32) (t : Tuner) (phyEvents : List Tuning.Event)
    (a : Answers) (events : List Event) (r : Radio)
    (hfresh : ¬t.programmed B.base)
    (hselector : t.param B.base 0xf3 1 = 0 ∨ t.param B.base 0xf3 1 = 1)
    (hoffset : (short (t.param B.base 0xe0 2)).toInt.natAbs ≤ 8000)
    (hphy : ∀ e ∈ phyEvents, e.InRange)
    (hband : ∀ n, validChannel n →
      toFrequency (n.setWidth 32) = 2400 + BitVec.ofNat 32 (bandIndex n))
    (ha : a.takes 0 = true) (hevents : ∀ e ∈ events, followsFirst e) :
    let offset := (phyEvents.foldl (Request.next B.base t.freq.ram)
      ⟨(short (t.param B.base 0xe0 2)).toInt, 0⟩).offset
    let d := events.foldl (Driver.step chip B.base toFrequency)
      (Driver.new chip B.base toFrequency a
        (phyEvents.foldl (Tuning.step chip B.base toFrequency) t))
    (d.current = events.foldl requested 1 ∧ validChannel d.current) ∧
      (d.tuner.divider - idealDivider chip (t.param B.base 0xf3 1) (bandIndex d.current)
        offset).natAbs ≤ offset.natAbs / 15 + 10 ∧
      Active (d.actions.foldl Radio.apply r) ∧
      ∀ before f after, d.actions = before ++ .phy (.tune f) :: after →
        Quiet (before.foldl Radio.apply r) := by
  intro offset d
  have hstart : Ready B t.freq.ram (short (t.param B.base 0xe0 2)).toInt t :=
    ⟨fun h => absurd h hfresh, .refl _ _ _ _, by rw [Int.sub_self]; decide, by omega⟩
  have hready := ready_of_run hselector toFrequency hphy (r := ⟨_, 0⟩) hstart
  have hone : validChannel 1 := by decide
  have hnew : Holds B t.freq.ram offset r (Driver.new chip B.base toFrequency a
      (phyEvents.foldl (Tuning.step chip B.base toFrequency) t)) :=
    setChannel_holds hselector hband hready (allowed_of_forall (by simp) r) hone ha
  obtain ⟨hholds, hcurrent⟩ := hnew.run hselector hband hevents
  refine ⟨⟨hcurrent, hholds.valid⟩, hholds.divider, hholds.active, fun before f after h => ?_⟩
  exact hholds.allowed before (.phy (.tune f)) after h

/-- Channel 6 by the hardware, with an offset of 100 kHz, and a request that is refused. -/
theorem channel_of_run_channel_6 :
    let d := [Event.setChannel 6 prompt, .capMemory (-5), .setChannel 15 prompt].foldl
      (Driver.step .esp32s3 freqBuffers.base bandFrequency)
      (Driver.new .esp32s3 freqBuffers.base bandFrequency prompt
        ([Tuning.Event.hwInit pllReadings, .channelOffset 100 prompt].foldl
          (Tuning.step .esp32s3 freqBuffers.base bandFrequency)
          ⟨⟨0, 0, fun _ => 0, fun _ => 0⟩, 0, 0, fun _ => 0, []⟩))
    d.current = 6 ∧ (d.tuner.divider - idealDivider .esp32s3 0 37 100).natAbs ≤ 16 ∧
      Active (d.actions.foldl Radio.apply ⟨0, 0, 0, 0, 0, false, false⟩) := by
  intro d
  let t : Tuner := ⟨⟨0, 0, fun _ => 0, fun _ => 0⟩, 0, 0, fun _ => 0, []⟩
  have hband : ∀ n, validChannel n →
      bandFrequency (n.setWidth 32) = 2400 + BitVec.ofNat 32 (bandIndex n) := by decide
  have hphy : ∀ e ∈ [Tuning.Event.hwInit pllReadings, .channelOffset 100 prompt], e.InRange := by
    decide
  have hevents : ∀ e ∈ [Event.setChannel 6 prompt, .capMemory (-5), .setChannel 15 prompt],
      followsFirst e := by
    simp [followsFirst, prompt]
  have hselector : t.param freqBuffers.base 0xf3 1 = 0 := by decide
  have hoffset : ([Tuning.Event.hwInit pllReadings, .channelOffset 100 prompt].foldl
      (Request.next freqBuffers.base t.freq.ram)
        ⟨(short (t.param freqBuffers.base 0xe0 2)).toInt, 0⟩).offset = 100 := by decide
  obtain ⟨⟨hcurrent, -⟩, hdivider, hactive, -⟩ := channel_of_run .esp32s3 freqBuffers
    bandFrequency t [.hwInit pllReadings, .channelOffset 100 prompt] prompt
    [.setChannel 6 prompt, .capMemory (-5), .setChannel 15 prompt] ⟨0, 0, 0, 0, 0, false, false⟩
    (fun h => h (by decide)) (.inl hselector) (by decide) hphy hband rfl hevents
  have hsix : [Event.setChannel 6 prompt, .capMemory (-5), .setChannel 15 prompt].foldl
      requested 1 = 6 := by decide
  rw [hoffset, hselector, hcurrent, hsix] at hdivider
  exact ⟨hcurrent.trans hsix, hdivider, hactive⟩

end Channel

end EspWifiHal
