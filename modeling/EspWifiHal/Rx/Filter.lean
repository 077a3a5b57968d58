import EspWifiHal.Crypto.KeySlot
import EspWifiHal.Lib.Interleave
import EspWifiHal.Tx.Prepare

/-!
# The receive filters

Each interface has two filter banks, one for the BSSID and one for the receiver address, and two
registers that say what is filtered.  `split` hands out one controller for each interface, and the
controllers can be used from different tasks.  Their calls update registers with a load and a
store, so an update can be interrupted by the update of another controller.

`FilterConfig` is what has been asked for.  `filters_of_run` says that in every interleaving each
interface gets the configuration of its own controller.
-/

namespace EspWifiHal

namespace RxFilter

open Interleave Words

/-! ## Registers -/

/-- `ll::RxFilterBank`. -/
inductive RxFilterBank where
  | bssid
  | receiverAddress
deriving DecidableEq, Repr

abbrev Interface := Fin interfaceCount

inductive Reg where
  | addrLow (bank : RxFilterBank) (interface : Interface)
  | addrHigh (bank : RxFilterBank) (interface : Interface)
  | maskLow (bank : RxFilterBank) (interface : Interface)
  | maskHigh (bank : RxFilterBank) (interface : Interface)
  | filterControl (interface : Interface)
  | rxCtrlFilter (interface : Interface)
deriving DecidableEq, Repr

def Reg.interface : Reg → Interface
  | addrLow _ i => i
  | addrHigh _ i => i
  | maskLow _ i => i
  | maskHigh _ i => i
  | filterControl i => i
  | rxCtrlFilter i => i

/-- The register `mask_high`. -/
structure MaskHigh where
  mask : BitVec 16 := 0
  enabled : Bool := false
  /-- The bits that belong to none of the fields. -/
  other : BitVec 32 := 0
deriving DecidableEq, Repr

/-- The register `filter_control`. -/
structure FilterControl where
  blockUnicast : Bool
  blockMulticast : Bool
  bssidCheck : Bool
  scanMode : Bool
  dataAndMgmtMode : Bool
  other : BitVec 32
deriving DecidableEq, Repr

/-- `ll::ControlFrameFilterConfig`. -/
structure ControlFrameFilterConfig where
  controlWrapper : Bool := false
  blockAckRequest : Bool := false
  blockAck : Bool := false
  psPoll : Bool := false
  rts : Bool := false
  cts : Bool := false
  ack : Bool := false
  cfEnd : Bool := false
  cfEndCfAck : Bool := false
deriving DecidableEq, Repr

/-- The register `rx_ctrl_filter`, whose fields are those of the configuration. -/
structure RxCtrlFilter where
  config : ControlFrameFilterConfig
  other : BitVec 32
deriving DecidableEq, Repr

/-- What a register holds.  The reset values are zero. -/
abbrev Value : Reg → Type
  | .addrLow .. => BitVec 32
  | .addrHigh .. => BitVec 16
  | .maskLow .. => BitVec 32
  | .maskHigh .. => MaskHigh
  | .filterControl _ => FilterControl
  | .rxCtrlFilter _ => RxCtrlFilter

abbrev Registers := (r : Reg) → Value r

/-! ## The functions -/

section Functions

variable (interface : Interface)

def setFilterEnable (bank : RxFilterBank) (enabled : Bool) : List (Op Value) :=
  [.modify (.maskHigh bank interface) fun (w : MaskHigh) => { w with enabled := enabled }]

def setFilterAddress (bank : RxFilterBank) (address : Vector Byte 6) : List (Op Value) :=
  [.write (.addrLow bank interface) (splitAddress address).1,
    .write (.addrHigh bank interface) (splitAddress address).2]

/-- The enable bit is kept. -/
def setFilterMask (bank : RxFilterBank) (mask : Vector Byte 6) : List (Op Value) :=
  [.write (.maskLow bank interface) (splitAddress mask).1,
    .modify (.maskHigh bank interface) fun (w : MaskHigh) =>
      { w with mask := (splitAddress mask).2 }]

/-- As a side effect, this also disables the filter. -/
def clearFilter (bank : RxFilterBank) : List (Op Value) :=
  [.write (.addrLow bank interface) 0#32, .write (.addrHigh bank interface) 0#16,
    .write (.maskLow bank interface) 0#32, .write (.maskHigh bank interface) ({} : MaskHigh)]

def setFilteredAddressTypes (unicast multicast : Bool) : List (Op Value) :=
  [.modify (.filterControl interface) fun (w : FilterControl) =>
    { w with blockUnicast := unicast, blockMulticast := multicast }]

def setBssidCheckEnable (enabled : Bool) : List (Op Value) :=
  [.modify (.filterControl interface) fun (w : FilterControl) => { w with bssidCheck := enabled }]

def setControlFrameFilter (config : ControlFrameFilterConfig) : List (Op Value) :=
  [.modify (.rxCtrlFilter interface) fun (w : RxCtrlFilter) => { w with config := config }]

def setScanningModeParameters (beacons otherFrames : Bool) : List (Op Value) :=
  [.modify (.filterControl interface) fun (w : FilterControl) =>
    { w with scanMode := beacons, dataAndMgmtMode := otherFrames }]

end Functions

def setupFiltering : List (Op Value) :=
  (List.finRange interfaceCount).flatMap fun interface =>
    setFilteredAddressTypes interface true true ++ setControlFrameFilter interface {} ++
      setBssidCheckEnable interface true

inductive ScanningMode where
  | disabled
  | beaconsOnly
  | managementAndData
deriving DecidableEq, Repr

/-- A call of a `RxInterfaceController`. -/
inductive Call where
  | setFilterBssidCheck (enabled : Bool)
  | setFilter (bank : RxFilterBank) (address : Vector Byte 6)
  | overrideFilterMask (bank : RxFilterBank) (mask : Vector Byte 6)
  | clearFilter (bank : RxFilterBank)
  | setScanningMode (mode : ScanningMode)
  | setFilteredAddressTypes (unicast multicast : Bool)
  | setControlFrameFilter (config : ControlFrameFilterConfig)

/-- The register accesses of a call. -/
def Call.ops (interface : Interface) : Call → List (Op Value)
  | setFilterBssidCheck enabled => setBssidCheckEnable interface enabled
  | setFilter bank address =>
      setFilterAddress interface bank address ++
        setFilterMask interface bank (.replicate 6 0xff) ++ setFilterEnable interface bank true
  | overrideFilterMask bank mask => setFilterMask interface bank mask
  | clearFilter bank => RxFilter.clearFilter interface bank
  | setScanningMode mode =>
      setScanningModeParameters interface (mode = .beaconsOnly) (mode = .managementAndData)
  | setFilteredAddressTypes unicast multicast =>
      RxFilter.setFilteredAddressTypes interface unicast multicast
  | setControlFrameFilter config => RxFilter.setControlFrameFilter interface config

/-- The same call of `WiFi`, which gets a number for the interface.  The result is `Err` for a
number that is out of bounds. -/
def wifiCall (m : Registers) (interface : Nat) (call : Call) : Registers × Except TxError Unit :=
  if h : interface < interfaceCount then (applyAll (call.ops ⟨interface, h⟩) m, .ok ())
  else (m, .error .outOfBounds)

/-! ## Configurations -/

structure BankConfig where
  address : Vector Byte 6
  mask : Vector Byte 6
  enabled : Bool
deriving DecidableEq

/-- Which frames are filtered. -/
structure Filtering where
  bssidCheck : Bool
  unicast : Bool
  multicast : Bool
  scanning : ScanningMode
deriving DecidableEq

/-- What is configured for an interface. -/
structure FilterConfig where
  bank : RxFilterBank → BankConfig
  filtering : Filtering
  control : ControlFrameFilterConfig

/-- What a call asks for. -/
def Call.effect (c : FilterConfig) : Call → FilterConfig
  | setFilterBssidCheck enabled => { c with filtering.bssidCheck := enabled }
  | setFilter bank address =>
      { c with bank := Function.update c.bank bank ⟨address, .replicate 6 0xff, true⟩ }
  | overrideFilterMask bank mask =>
      { c with bank := Function.update c.bank bank { c.bank bank with mask := mask } }
  | clearFilter bank =>
      { c with bank := Function.update c.bank bank ⟨.replicate 6 0, .replicate 6 0, false⟩ }
  | setScanningMode mode => { c with filtering.scanning := mode }
  | setFilteredAddressTypes unicast multicast =>
      { c with filtering.unicast := unicast, filtering.multicast := multicast }
  | setControlFrameFilter config => { c with control := config }

/-- The registers of a bank are the image of its configuration. -/
structure BankShows (m : Registers) (i : Interface) (bank : RxFilterBank) (c : BankConfig) :
    Prop where
  address : (m (.addrLow bank i), m (.addrHigh bank i)) = splitAddress c.address
  mask : (m (.maskLow bank i), MaskHigh.mask (m (.maskHigh bank i))) = splitAddress c.mask
  enabled : MaskHigh.enabled (m (.maskHigh bank i)) = c.enabled

/-- The register `filter_control` is the image of the configuration. -/
structure ControlShows (w : FilterControl) (c : Filtering) : Prop where
  bssidCheck : w.bssidCheck = c.bssidCheck
  unicast : w.blockUnicast = c.unicast
  multicast : w.blockMulticast = c.multicast
  beacons : w.scanMode = decide (c.scanning = .beaconsOnly)
  otherFrames : w.dataAndMgmtMode = decide (c.scanning = .managementAndData)

/-- The registers of an interface are the image of its configuration. -/
structure Shows (m : Registers) (i : Interface) (c : FilterConfig) : Prop where
  bank : ∀ bank, BankShows m i bank (c.bank bank)
  filterControl : ControlShows (m (.filterControl i)) c.filtering
  control : RxCtrlFilter.config (m (.rxCtrlFilter i)) = c.control

section

variable {m m' : Registers} {i : Interface} {bank : RxFilterBank} {b : BankConfig}
  {c : FilterConfig}

theorem BankShows.congr (h : BankShows m i bank b) (h1 : m' (.addrLow bank i) = m (.addrLow bank i))
    (h2 : m' (.addrHigh bank i) = m (.addrHigh bank i))
    (h3 : m' (.maskLow bank i) = m (.maskLow bank i))
    (h4 : m' (.maskHigh bank i) = m (.maskHigh bank i)) : BankShows m' i bank b where
  address := by rw [h1, h2, h.address]
  mask := by rw [h3, h4, h.mask]
  enabled := by rw [h4, h.enabled]

theorem Shows.congr (h : Shows m i c) (hsame : ∀ r : Reg, r.interface = i → m' r = m r) :
    Shows m' i c where
  bank bank := (h.bank bank).congr (hsame (.addrLow bank i) rfl) (hsame (.addrHigh bank i) rfl)
    (hsame (.maskLow bank i) rfl) (hsame (.maskHigh bank i) rfl)
  filterControl := by
    rw [hsame (.filterControl i) rfl]
    exact h.filterControl
  control := by rw [hsame (.rxCtrlFilter i) rfl, h.control]

/-- A bank after an access to another register. -/
theorem BankShows.apply (h : BankShows m i bank b) {op : Op Value} (h1 : op.reg ≠ .addrLow bank i)
    (h2 : op.reg ≠ .addrHigh bank i) (h3 : op.reg ≠ .maskLow bank i)
    (h4 : op.reg ≠ .maskHigh bank i) : BankShows (op.apply m) i bank b :=
  h.congr (op.apply_of_ne m h1.symm) (op.apply_of_ne m h2.symm) (op.apply_of_ne m h3.symm)
    (op.apply_of_ne m h4.symm)

theorem Shows.modify_filterControl (h : Shows m i c) {f : FilterControl → FilterControl}
    {c' : Filtering} (hf : ∀ w, ControlShows w c.filtering → ControlShows (f w) c') :
    Shows (Op.apply m (.modify (.filterControl i) f)) i { c with filtering := c' } where
  bank bank := (h.bank bank).apply (by simp [Op.reg]) (by simp [Op.reg]) (by simp [Op.reg])
    (by simp [Op.reg])
  filterControl := by
    rw [Op.apply, Function.update_self]
    exact hf _ h.filterControl
  control := by
    rw [Op.apply_of_ne m (by simp [Op.reg]), h.control]

/-- A call for one of the banks. -/
theorem Shows.of_bank (h : Shows m i c) {b : BankConfig} (hbank : BankShows m' i bank b)
    (hother : ∀ r : Reg, r ≠ .addrLow bank i → r ≠ .addrHigh bank i → r ≠ .maskLow bank i →
      r ≠ .maskHigh bank i → m' r = m r) :
    Shows m' i { c with bank := Function.update c.bank bank b } where
  bank bank' := by
    by_cases heq : bank' = bank
    · subst heq
      simpa only [Function.update_self] using hbank
    · simp only [Function.update_of_ne heq]
      refine (h.bank bank').congr ?_ ?_ ?_ ?_ <;> exact hother _ (by simp [heq]) (by simp [heq])
        (by simp [heq]) (by simp [heq])
  filterControl := by
    rw [hother _ (by simp) (by simp) (by simp) (by simp)]
    exact h.filterControl
  control := by
    rw [hother _ (by simp) (by simp) (by simp) (by simp), h.control]

theorem splitAddress_zero : splitAddress (.replicate 6 0#8) = (0#32, 0#16) := by decide

/-- A call leaves the registers as the image of what was asked for. -/
theorem Shows.call (h : Shows m i c) (call : Call) :
    Shows (applyAll (call.ops i) m) i (call.effect c) := by
  cases call with
  | setFilterBssidCheck enabled =>
      rw [Call.ops, setBssidCheckEnable, applyAll_cons, applyAll_nil, Call.effect]
      exact h.modify_filterControl fun w hw =>
        ⟨rfl, hw.unicast, hw.multicast, hw.beacons, hw.otherFrames⟩
  | setScanningMode mode =>
      rw [Call.ops, setScanningModeParameters, applyAll_cons, applyAll_nil, Call.effect]
      exact h.modify_filterControl fun w hw =>
        ⟨hw.bssidCheck, hw.unicast, hw.multicast, rfl, rfl⟩
  | setFilteredAddressTypes unicast multicast =>
      rw [Call.ops, RxFilter.setFilteredAddressTypes, applyAll_cons, applyAll_nil, Call.effect]
      exact h.modify_filterControl fun w hw =>
        ⟨hw.bssidCheck, rfl, rfl, hw.beacons, hw.otherFrames⟩
  | setControlFrameFilter config =>
      rw [Call.ops, RxFilter.setControlFrameFilter, applyAll_cons, applyAll_nil, Call.effect]
      refine ⟨fun bank => (h.bank bank).apply (by simp [Op.reg]) (by simp [Op.reg])
        (by simp [Op.reg]) (by simp [Op.reg]), ?_, ?_⟩
      · rw [Op.apply_of_ne m (by simp [Op.reg])]
        exact h.filterControl
      · rw [Op.apply, Function.update_self]
  | setFilter bank address =>
      refine h.of_bank ⟨?_, ?_, ?_⟩ fun r h1 h2 h3 h4 => ?_
      · simp [Call.ops, setFilterAddress, setFilterMask, setFilterEnable, Op.apply]
      · simp [Call.ops, setFilterAddress, setFilterMask, setFilterEnable, Op.apply]
      · simp [Call.ops, setFilterAddress, setFilterMask, setFilterEnable, Op.apply]
      · simp [Call.ops, setFilterAddress, setFilterMask, setFilterEnable, Op.apply, h1, h2, h3, h4]
  | overrideFilterMask bank mask =>
      refine h.of_bank ⟨?_, ?_, ?_⟩ fun r h1 h2 h3 h4 => ?_
      · simp [Call.ops, setFilterMask, Op.apply, (h.bank bank).address]
      · simp [Call.ops, setFilterMask, Op.apply]
      · simp [Call.ops, setFilterMask, Op.apply, (h.bank bank).enabled]
      · simp [Call.ops, setFilterMask, Op.apply, h3, h4]
  | clearFilter bank =>
      refine h.of_bank ⟨?_, ?_, ?_⟩ fun r h1 h2 h3 h4 => ?_
      · simp [Call.ops, RxFilter.clearFilter, Op.apply, splitAddress_zero]
      · simp [Call.ops, RxFilter.clearFilter, Op.apply, splitAddress_zero]
      · simp [Call.ops, RxFilter.clearFilter, Op.apply]
      · simp [Call.ops, RxFilter.clearFilter, Op.apply, h1, h2, h3, h4]

theorem Shows.calls (h : Shows m i c) (calls : List Call) :
    Shows (applyAll (calls.flatMap (Call.ops i)) m) i (calls.foldl Call.effect c) := by
  induction calls generalizing m c with
  | nil => exact h
  | cons call calls ih =>
      rw [List.flatMap_cons, applyAll_append, List.foldl_cons]
      exact ih (h.call call)

end

/-- A call accesses only the registers of its interface. -/
theorem Call.interface_of_mem_ops (i : Interface) (call : Call) :
    ∀ op ∈ call.ops i, op.reg.interface = i := by
  cases call <;>
    simp [Call.ops, setBssidCheckEnable, setFilterAddress, setFilterMask, setFilterEnable,
      RxFilter.clearFilter, setScanningModeParameters, RxFilter.setFilteredAddressTypes,
      RxFilter.setControlFrameFilter, Op.reg, Reg.interface]

theorem owned (calls : Interface → List Call) :
    Owned Reg.interface fun i => (calls i).flatMap (Call.ops i) := by
  intro i op hop
  obtain ⟨call, -, hmem⟩ := List.mem_flatMap.mp hop
  exact call.interface_of_mem_ops i op hmem

theorem splitAddress_inj {a b : Vector Byte 6} (h : splitAddress a = splitAddress b) : a = b := by
  obtain ⟨hlow, hhigh⟩ := Prod.mk.inj h
  obtain ⟨h0, h1, h2, h3⟩ := leWord_inj hlow
  obtain ⟨h5, h4⟩ := append_inj hhigh
  apply Vector.ext
  intro i hi
  match i, hi with
  | 0, _ => exact h0
  | 1, _ => exact h1
  | 2, _ => exact h2
  | 3, _ => exact h3
  | 4, _ => exact h4
  | 5, _ => exact h5

theorem BankShows.unique {m : Registers} {i : Interface} {bank : RxFilterBank} {b b' : BankConfig}
    (h : BankShows m i bank b) (h' : BankShows m i bank b') : b = b' := by
  have haddress := splitAddress_inj (h.address.symm.trans h'.address)
  have hmask := splitAddress_inj (h.mask.symm.trans h'.mask)
  have henabled := h.enabled.symm.trans h'.enabled
  cases b
  cases b'
  simp_all

/-- The two bits of a scanning mode tell it from the others. -/
theorem ScanningMode.eq_of_bits {a b : ScanningMode}
    (hbeacons : decide (a = .beaconsOnly) = decide (b = .beaconsOnly))
    (hother : decide (a = .managementAndData) = decide (b = .managementAndData)) : a = b := by
  cases a <;> cases b <;> simp_all

theorem ControlShows.unique {w : FilterControl} {c c' : Filtering} (h : ControlShows w c)
    (h' : ControlShows w c') : c = c' := by
  have hscanning := ScanningMode.eq_of_bits (h.beacons.symm.trans h'.beacons)
    (h.otherFrames.symm.trans h'.otherFrames)
  have hbssid := h.bssidCheck.symm.trans h'.bssidCheck
  have hunicast := h.unicast.symm.trans h'.unicast
  have hmulticast := h.multicast.symm.trans h'.multicast
  cases c
  cases c'
  simp_all

/-- The registers determine the configuration. -/
theorem Shows.unique {m : Registers} {i : Interface} {c c' : FilterConfig} (h : Shows m i c)
    (h' : Shows m i c') : c = c' := by
  have hbank : c.bank = c'.bank := funext fun bank => (h.bank bank).unique (h'.bank bank)
  have hfiltering := h.filterControl.unique h'.filterControl
  have hcontrol := h.control.symm.trans h'.control
  cases c
  cases c'
  simp_all

/-! ## Runs -/

/-- Calls of `WiFi` one after the other. -/
def wifiCalls (m : Registers) (calls : List (Nat × Call)) : Registers :=
  calls.foldl (fun m e => (wifiCall m e.1 e.2).1) m

/-- The calls for an interface. -/
def callsOf (i : Interface) : List (Nat × Call) → List Call
  | [] => []
  | e :: calls => if e.1 = i.val then e.2 :: callsOf i calls else callsOf i calls

/-- `setup_filtering` as a list of calls. -/
def setupCalls : List (Nat × Call) :=
  (List.range interfaceCount).flatMap fun i =>
    [(i, .setFilteredAddressTypes true true), (i, .setControlFrameFilter {}),
      (i, .setFilterBssidCheck true)]

/-- What `setup_filtering` asks for. -/
def FilterConfig.setup (c : FilterConfig) : FilterConfig :=
  { c with
    filtering := { c.filtering with bssidCheck := true, unicast := true, multicast := true }
    control := {} }

section

variable {m : Registers} {i : Interface} {c : FilterConfig}

/-- Accesses to the registers of another interface. -/
theorem Shows.applyAll_of_ne (h : Shows m i c) {j : Interface} (hne : i ≠ j) {ops : List (Op Value)}
    (hops : ∀ op ∈ ops, op.reg.interface = j) : Shows (applyAll ops m) i c := by
  refine h.congr fun r hr => Interleave.applyAll_of_ne (fun op hop heq => hne ?_) m
  rw [← hr, ← hops op hop, heq]

theorem Shows.wifiCall (h : Shows m i c) (interface : Nat) (call : Call) :
    Shows (wifiCall m interface call).1 i (if interface = i.val then call.effect c else c) := by
  rw [RxFilter.wifiCall]
  split
  case isTrue hlt =>
    split
    case isTrue heq =>
      obtain rfl : (⟨interface, hlt⟩ : Interface) = i := Fin.ext heq
      exact h.call call
    case isFalse hne =>
      exact h.applyAll_of_ne (fun heq => hne (congrArg Fin.val heq).symm)
        (call.interface_of_mem_ops ⟨interface, hlt⟩)
  case isFalse hlt =>
    have hne : interface ≠ i.val := fun heq => hlt (heq.trans_lt i.isLt)
    rw [if_neg hne]
    exact h

theorem Shows.wifiCalls (h : Shows m i c) (calls : List (Nat × Call)) :
    Shows (wifiCalls m calls) i ((callsOf i calls).foldl Call.effect c) := by
  induction calls generalizing m c with
  | nil => exact h
  | cons e calls ih =>
      have hrest := ih (h.wifiCall e.1 e.2)
      rw [callsOf]
      by_cases heq : e.1 = i.val
      · rw [if_pos heq] at hrest ⊢
        exact hrest
      · rw [if_neg heq] at hrest ⊢
        exact hrest

theorem Shows.setupFiltering (h : Shows m i c) : Shows (applyAll setupFiltering m) i c.setup := by
  have hcalls : callsOf i setupCalls = [.setFilteredAddressTypes true true,
      .setControlFrameFilter {}, .setFilterBssidCheck true] := by
    match i with
    | ⟨0, _⟩ => rfl
    | ⟨1, _⟩ => rfl
    | ⟨2, _⟩ => rfl
    | ⟨3, _⟩ => rfl
  have hsetup := h.wifiCalls setupCalls
  rw [hcalls] at hsetup
  exact hsetup

end

/-- The state of the device while the controllers make their calls. -/
abbrev during (m : Registers) (calls : Interface → List Call) (schedule : List Interface) :
    State Interface Value :=
  schedule.foldl State.step ⟨m, fun i => (calls i).flatMap (Call.ops i)⟩

/-- The driver is set up, gets some calls and is then split.  In every interleaving of the register
accesses of all controllers, the registers of an interface are at every moment what its own
controller alone would have made of them, and when its calls are done they are the image of
exactly the configuration that the calls for this interface ask for.  Calls with an interface
that is out of bounds have no effect. -/
theorem filters_of_run {m : Registers} {c : Interface → FilterConfig}
    (h : ∀ i, Shows m i (c i)) (before : List (Nat × Call)) (calls : Interface → List Call)
    (schedule : List Interface) (i : Interface) :
    let start := wifiCalls (applyAll setupFiltering m) before
    let now := during start calls schedule
    (∃ done rest, (calls i).flatMap (Call.ops i) = done ++ rest ∧
      ∀ r : Reg, r.interface = i → now.mem r = applyAll done start r) ∧
    (now.todo i = [] → ∀ c', Shows now.mem i c' ↔
      c' = (callsOf i before ++ calls i).foldl Call.effect (c i).setup) := by
  intro start now
  constructor
  · obtain ⟨done, rest, hprogress⟩ := progress_of_run (owned calls) start schedule i
    exact ⟨done, rest, hprogress.program_eq, hprogress.mem_eq⟩
  · intro hdone c'
    have hshows : Shows now.mem i
        ((callsOf i before ++ calls i).foldl Call.effect (c i).setup) := by
      rw [List.foldl_append]
      exact (((h i).setupFiltering.wifiCalls before).calls (calls i)).congr fun r hr =>
        mem_of_run (owned calls) start schedule hdone hr
    exact ⟨fun hc' => hc'.unique hshows, fun hc' => hc' ▸ hshows⟩

/-- Registers that are all zero, and what they are the image of. -/
def zeroRegisters : Registers
  | .addrLow .. => 0#32
  | .addrHigh .. => 0#16
  | .maskLow .. => 0#32
  | .maskHigh .. => {}
  | .filterControl _ => ⟨false, false, false, false, false, 0⟩
  | .rxCtrlFilter _ => ⟨{}, 0⟩

def zeroConfig : FilterConfig where
  bank _ := ⟨.replicate 6 0, .replicate 6 0, false⟩
  filtering := ⟨false, false, false, .disabled⟩
  control := {}

theorem zeroRegisters_shows (i : Interface) : Shows zeroRegisters i zeroConfig :=
  ⟨fun _ => ⟨splitAddress_zero.symm, splitAddress_zero.symm, rfl⟩, ⟨rfl, rfl, rfl, rfl, rfl⟩, rfl⟩

theorem zero_lt_interfaceCount : 0 < interfaceCount := by decide

theorem one_lt_interfaceCount : 1 < interfaceCount := by decide

/-- Two controllers that both load before one of them stores. -/
def loadsFirst : List Interface :=
  [⟨0, zero_lt_interfaceCount⟩, ⟨1, one_lt_interfaceCount⟩, ⟨0, zero_lt_interfaceCount⟩,
    ⟨1, one_lt_interfaceCount⟩]

theorem filters_of_run_loads :
    Shows (during (wifiCalls (applyAll setupFiltering zeroRegisters) [(4, .clearFilter .bssid)])
        (fun _ => [.setFilterBssidCheck false]) loadsFirst).mem ⟨0, zero_lt_interfaceCount⟩
      { zeroConfig.setup with filtering.bssidCheck := false } :=
  ((filters_of_run zeroRegisters_shows [(4, .clearFilter .bssid)]
    (fun _ => [.setFilterBssidCheck false]) loadsFirst ⟨0, zero_lt_interfaceCount⟩).2 rfl _).mpr rfl

end RxFilter

end EspWifiHal
