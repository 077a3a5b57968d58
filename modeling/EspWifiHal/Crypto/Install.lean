import EspWifiHal.Crypto.KeySlot

/-!
# Installing and overwriting keys

The state between two register writes of `set_key` and `delete_key`.  Beside the
registers it notes the entry each slot was last enabled for.

`delete_key` disables the slot before it clears it, so a disabled slot is empty
(`SlotView.Inv`).  `set_key` on a disabled slot is safe: the slot is enabled when
all of the entry is there.  On an enabled slot the old entry is mixed with the new
one, unless they are the same (`CryptoState.unmixed_iff_undisturbed`).  What
`set_key` leaves in the slot in the end depends on the words behind the new key
(`CryptoState.setKey_image_iff`).
-/

namespace EspWifiHal

open Words Trace

/-! ## States between writes -/

structure CryptoState where
  regs : CryptoRegs := {}
  /-- The entry a slot was last enabled for, until the slot is disabled. -/
  installed : Fin 25 → Option SetKey := fun _ => none

/-- The entry that the slot of a call has after it. -/
def CryptoCall.entry : CryptoCall → Option SetKey
  | .setKey a => some a
  | .deleteKey _ => none

/-- One write of a call.  The enable bit is the last that `set_key` writes of the
slot, so the entry counts as installed from there on. -/
def CryptoCall.perform (layout : CryptoControlLayout) (c : CryptoCall) (s : CryptoState)
    (w : CryptoWrite) : CryptoState :=
  { regs := s.regs.write layout w
    installed :=
      match w with
      | .keySlotEnable slot _ => Function.update s.installed slot c.entry
      | _ => s.installed }

def CryptoState.call (layout : CryptoControlLayout) (s : CryptoState) (c : CryptoCall) :
    CryptoState :=
  c.writes.foldl (c.perform layout) s

/-- Each enabled slot holds the entry it was enabled for, and nothing else. -/
def CryptoState.Sound (s : CryptoState) : Prop :=
  ∀ slot, s.regs.keySlotEnable slot = true →
    ∃ a, s.installed slot = some a ∧ s.regs.keySlot slot = a.image

/-- A `set_key` that passes the checks finds its slot disabled, or with the very
entry that it installs. -/
def CryptoCall.Undisturbed (s : CryptoState) (c : CryptoCall) : Prop :=
  ∀ a slot interface, c = .setKey a → a.validate = .ok (slot, interface) →
    s.regs.keySlotEnable slot = true → s.regs.keySlot slot = a.image

/-! ## One slot -/

structure SlotView where
  enabled : Bool
  regs : KeySlot
  installed : Option SetKey

def CryptoState.view (s : CryptoState) (slot : Fin 25) : SlotView :=
  ⟨s.regs.keySlotEnable slot, s.regs.keySlot slot, s.installed slot⟩

namespace SlotView

/-- A write to this slot. -/
def write (entry : Option SetKey) (v : SlotView) : CryptoWrite → SlotView
  | .keySlotEnable _ enabled => { v with enabled := enabled, installed := entry }
  | w => { v with regs := v.regs.write w }

def perform (slot : Fin 25) (entry : Option SetKey) (v : SlotView) (w : CryptoWrite) : SlotView :=
  if w.slot = some slot then v.write entry w else v

def Sound (v : SlotView) : Prop :=
  v.enabled = true → ∃ a, v.installed = some a ∧ v.regs = a.image

structure Inv (v : SlotView) : Prop where
  sound : v.Sound
  cleared : v.enabled = false → v.regs = {}

end SlotView

theorem CryptoCall.perform_view (layout : CryptoControlLayout) (c : CryptoCall) (slot : Fin 25)
    (s : CryptoState) (w : CryptoWrite) :
    (c.perform layout s w).view slot = (s.view slot).perform slot c.entry w := by
  simp only [CryptoState.view, CryptoCall.perform, CryptoRegs.write_keySlot,
    CryptoRegs.write_keySlotEnable, SlotView.perform]
  by_cases h : w.slot = some slot
  · rw [if_pos h, if_pos h]
    cases w with
    | keySlotEnable slot' enabled =>
        obtain rfl : slot' = slot := Option.some.inj h
        simp [SlotView.write, KeySlot.write]
    | _ => rfl
  · rw [if_neg h, if_neg h]
    cases w with
    | keySlotEnable slot' enabled =>
        have hne : slot ≠ slot' := fun heq => h (congrArg some heq.symm)
        simp [hne]
    | _ => rfl

theorem CryptoState.call_view (layout : CryptoControlLayout) (s : CryptoState) (c : CryptoCall)
    (slot : Fin 25) :
    (s.call layout c).view slot = c.writes.foldl (SlotView.perform slot c.entry) (s.view slot) :=
  foldl_view (CryptoState.view · slot) (c.perform_view layout slot) s c.writes

/-! ## Writes of data -/

/-- A write to the slot other than to its enable bit. -/
def CryptoWrite.IsData (slot : Fin 25) (w : CryptoWrite) : Prop :=
  w.slot = some slot ∧ ∀ enabled, w ≠ .keySlotEnable slot enabled

/-- The writes of `set_key` before it enables the slot. -/
def SetKey.dataWrites (a : SetKey) (slot : Fin 25) : List CryptoWrite :=
  setKeySlotParameters slot a.parameters ++ llSetKey slot a.cipher.key

theorem SetKey.isData_of_mem {a : SetKey} {slot : Fin 25} {w : CryptoWrite}
    (hw : w ∈ a.dataWrites slot) : w.IsData slot := by
  rcases List.mem_append.mp hw with hw | hw
  · rcases List.mem_pair.mp hw with rfl | rfl <;> exact ⟨rfl, nofun⟩
  · obtain ⟨_, _, rfl⟩ := List.mem_map.mp hw
    exact ⟨rfl, nofun⟩

theorem isData_of_mem_clearKeySlot {slot : Fin 25} {w : CryptoWrite} (hw : w ∈ clearKeySlot slot) :
    w.IsData slot := by
  rcases List.mem_append.mp hw with hw | hw
  · rcases List.mem_pair.mp hw with rfl | rfl <;> exact ⟨rfl, nofun⟩
  · obtain ⟨_, _, rfl⟩ := List.mem_map.mp hw
    exact ⟨rfl, nofun⟩

/-- Every data write of `set_key` writes what the image has there. -/
theorem SetKey.image_write {a : SetKey} {slot : Fin 25} {w : CryptoWrite}
    (hw : w ∈ a.dataWrites slot) : a.image.write w = a.image := by
  rcases List.mem_append.mp hw with hw | hw
  · rcases List.mem_pair.mp hw with rfl | rfl <;> rfl
  · obtain ⟨⟨word, i⟩, hzip, rfl⟩ := List.mem_map.mp hw
    obtain ⟨k, hk⟩ := List.mem_iff_getElem?.mp hzip
    have ⟨(hword : _ = some word), (hi : _ = some i)⟩ := List.getElem?_zip_eq_some.mp hk
    have hki : k = i.val := by
      obtain ⟨hlt, hget⟩ := List.getElem?_eq_some_iff.mp hi
      rw [← hget, List.getElem_finRange]
      rfl
    rw [wordsOf_getElem?, hki] at hword
    split at hword
    · have hvalue : Function.update a.image.keyValue i word = a.image.keyValue := by
        rw [← Option.some.inj hword]
        exact Function.update_eq_self i _
      exact congrArg (fun keyValue => { a.image with keyValue }) hvalue
    · cases hword

namespace SlotView

variable {slot : Fin 25} {entry : Option SetKey} {v : SlotView}

theorem perform_of_isData {w : CryptoWrite} (hw : w.IsData slot) :
    v.perform slot entry w = { v with regs := v.regs.write w } := by
  rw [perform, if_pos hw.1]
  cases w with
  | keySlotEnable slot' enabled =>
      obtain rfl : slot' = slot := Option.some.inj hw.1
      exact absurd rfl (hw.2 enabled)
  | _ => rfl

theorem foldl_perform_of_isData {ws : List CryptoWrite} (hws : ∀ w ∈ ws, w.IsData slot) :
    ws.foldl (perform slot entry) v = { v with regs := ws.foldl KeySlot.write v.regs } := by
  induction ws generalizing v with
  | nil => rfl
  | cons w ws ih =>
      obtain ⟨hw, hws⟩ := List.forall_mem_cons.mp hws
      rw [List.foldl_cons, ih hws, perform_of_isData hw]
      rfl

theorem foldl_perform_enable (ws : List CryptoWrite) (enabled : Bool) :
    (CryptoWrite.keySlotEnable slot enabled :: ws).foldl (perform slot entry) v =
      ws.foldl (perform slot entry) ⟨enabled, v.regs, entry⟩ := by
  have henable : v.perform slot entry (.keySlotEnable slot enabled) =
      ⟨enabled, v.regs, entry⟩ := if_pos rfl
  rw [List.foldl_cons, henable]

/-- Data may be written to a disabled slot at any time. -/
theorem throughout_of_disabled {ws : List CryptoWrite} (hws : ∀ w ∈ ws, w.IsData slot)
    (hv : v.enabled = false) : Throughout (perform slot entry) Sound v ws := by
  have hdisabled : Throughout (perform slot entry) (·.enabled = false) v ws := by
    refine throughout_of_inv (fun w hw v hv => ?_) hv
    rw [perform_of_isData (hws w hw)]
    exact hv
  refine hdisabled.mono fun v hv henabled => ?_
  rw [hv] at henabled
  cases henabled

/-! ## The calls on their slot -/

theorem writes_eq (a : SetKey) (slot : Fin 25) (interface : Fin 4) :
    a.writes slot interface =
      a.dataWrites slot ++ (.keySlotEnable slot true ::
        [.interfaceCrypto interface a.mfp a.spp a.cipher.isAead, .sms4Status false]) := rfl

/-- The slot after a `set_key` that passed the checks. -/
theorem foldl_setKey (a : SetKey) (interface : Fin 4) :
    (a.writes slot interface).foldl (perform slot (some a)) v =
      ⟨true, (a.dataWrites slot).foldl KeySlot.write v.regs, some a⟩ := by
  rw [writes_eq, List.foldl_append, foldl_perform_of_isData fun _ => a.isData_of_mem,
    foldl_perform_enable]
  rfl

theorem foldl_deleteKey :
    (.keySlotEnable slot false :: clearKeySlot slot).foldl (perform slot none) v =
      ⟨false, {}, none⟩ := by
  rw [foldl_perform_enable, foldl_perform_of_isData fun _ => isData_of_mem_clearKeySlot,
    KeySlot.foldl_clearKeySlot]

theorem throughout_deleteKey (hv : v.Sound) :
    Throughout (perform slot none) Sound v (.keySlotEnable slot false :: clearKeySlot slot) := by
  have hdisabled : v.perform slot none (.keySlotEnable slot false) = ⟨false, v.regs, none⟩ :=
    if_pos rfl
  refine throughout_cons.mpr ⟨hv, ?_⟩
  rw [hdisabled]
  exact throughout_of_disabled (fun _ => isData_of_mem_clearKeySlot) rfl

/-- The data writes make the image of the entry of an empty slot, and of one that
is the image already. -/
theorem Inv.foldl_dataWrites (hv : v.Inv) (slot : Fin 25) {a : SetKey}
    (h : v.enabled = true → v.regs = a.image) :
    (a.dataWrites slot).foldl KeySlot.write v.regs = a.image := by
  have himage : v.regs = {} ∨ v.regs = a.image := by
    cases henabled : v.enabled with
    | false => exact .inl (hv.cleared henabled)
    | true => exact .inr (h henabled)
  rcases himage with hregs | hregs <;> rw [hregs]
  · exact (KeySlot.foldl_setKey_eq_image_iff {} rfl slot a).mpr fun _ _ => rfl
  · exact (KeySlot.foldl_setKey_eq_image_iff a.image rfl slot a).mpr
      fun _ hi => wordAt_of_length_le hi

/-- `set_key` never leaves the slot enabled with a mixture if and only if the slot
was disabled or held the new entry before. -/
theorem Inv.throughout_setKey_iff (hv : v.Inv) (a : SetKey) (interface : Fin 4) :
    Throughout (perform slot (some a)) Sound v (a.writes slot interface) ↔
      (v.enabled = true → v.regs = a.image) := by
  have hdata : (a.dataWrites slot).foldl (perform slot (some a)) v =
      { v with regs := (a.dataWrites slot).foldl KeySlot.write v.regs } :=
    foldl_perform_of_isData fun _ => a.isData_of_mem
  have henable : ∀ regs installed enabled,
      perform slot (some a) ⟨enabled, regs, installed⟩ (.keySlotEnable slot true) =
        ⟨true, regs, some a⟩ := fun _ _ _ => if_pos rfl
  rw [writes_eq, throughout_append, hdata, throughout_cons, henable]
  constructor
  · rintro ⟨-, hbefore, hafter⟩ henabled
    -- the registers are those of the old entry just before the slot is enabled,
    -- and those of the new one just after
    obtain ⟨old, hold, hregs⟩ := hv.sound henabled
    obtain ⟨old', hold', hregs'⟩ := hbefore henabled
    obtain ⟨new, hnew, hregs''⟩ := hafter 0 rfl
    obtain rfl : old = old' := Option.some.inj (hold.symm.trans hold')
    obtain rfl : a = new := Option.some.inj hnew
    exact hregs.trans (hregs'.symm.trans hregs'')
  · intro h
    have himage := hv.foldl_dataWrites slot h
    have hnew : Sound ⟨true, a.image, some a⟩ := fun _ => ⟨a, rfl, rfl⟩
    rw [himage]
    refine ⟨?_, ?_, throughout_of_inv (fun w hw v hv => ?_) hnew⟩
    · cases henabled : v.enabled with
      | false => exact throughout_of_disabled (fun _ => a.isData_of_mem) henabled
      | true =>
          have hsame : Throughout (perform slot (some a)) (· = v) v (a.dataWrites slot) := by
            refine throughout_of_inv (fun w hw v' hv' => ?_) rfl
            rw [hv', perform_of_isData (a.isData_of_mem hw), h henabled, a.image_write hw,
              ← h henabled]
          exact hsame.mono fun v' hv' => hv' ▸ hv.sound
    · intro henabled
      obtain ⟨old, hold, hregs⟩ := hv.sound henabled
      exact ⟨old, hold, (h henabled).symm.trans hregs⟩
    · rcases List.mem_pair.mp hw with rfl | rfl <;> exact hv

/-- Writes to other slots. -/
theorem foldl_perform_of_ne {ws : List CryptoWrite} (hws : ∀ w ∈ ws, w.slot ≠ some slot) :
    ws.foldl (perform slot entry) v = v := by
  induction ws with
  | nil => rfl
  | cons w ws ih =>
      obtain ⟨hw, hws⟩ := List.forall_mem_cons.mp hws
      rw [List.foldl_cons, perform, if_neg hw, ih hws]

theorem throughout_of_ne {ws : List CryptoWrite} (hws : ∀ w ∈ ws, w.slot ≠ some slot)
    (hv : v.Sound) : Throughout (perform slot entry) Sound v ws := by
  refine throughout_of_inv (fun w hw v hv => ?_) hv
  rw [perform, if_neg (hws w hw)]
  exact hv

end SlotView

/-! ## All slots -/

/-- What a call does: nothing, an installation or a deletion. -/
theorem CryptoCall.writes_cases (c : CryptoCall) :
    (c.fails = true ∧ c.writes = []) ∨
      (∃ a slot interface, c = .setKey a ∧ a.validate = .ok (slot, interface) ∧ c.fails = false ∧
        c.writes = a.writes slot interface) ∨
      ∃ slot : Fin 25, c = .deleteKey slot ∧ c.fails = false ∧
        c.writes = .keySlotEnable slot false :: clearKeySlot slot := by
  cases c with
  | setKey a =>
      cases h : a.validate with
      | error e => exact .inl ⟨by simp [CryptoCall.fails, h, Except.isOk, Except.toBool],
          by simp [CryptoCall.writes, h]⟩
      | ok target =>
          exact .inr (.inl ⟨a, target.1, target.2, rfl, h,
            by simp [CryptoCall.fails, h, Except.isOk, Except.toBool],
            by simp [CryptoCall.writes, h]⟩)
  | deleteKey keySlot =>
      by_cases h : keySlot < 25
      · exact .inr (.inr ⟨⟨keySlot, h⟩, rfl, by simp [CryptoCall.fails, h],
          by simp [CryptoCall.writes, h]⟩)
      · exact .inl ⟨by simpa [CryptoCall.fails] using h, by simp [CryptoCall.writes, h]⟩

theorem SetKey.slot_of_mem_writes {a : SetKey} {slot slot' : Fin 25} {interface : Fin 4}
    (hne : slot' ≠ slot) : ∀ w ∈ a.writes slot interface, w.slot ≠ some slot' := by
  intro w hw
  rw [SlotView.writes_eq] at hw
  rcases List.mem_append.mp hw with hw | hw
  · rw [(a.isData_of_mem hw).1]
    exact fun h => hne (Option.some.inj h).symm
  · simp only [List.mem_cons, List.not_mem_nil, or_false] at hw
    rcases hw with rfl | rfl | rfl
    · exact fun h => hne (Option.some.inj h).symm
    · exact nofun
    · exact nofun

theorem slot_of_mem_deleteKey {slot slot' : Fin 25} (hne : slot' ≠ slot) :
    ∀ w ∈ CryptoWrite.keySlotEnable slot false :: clearKeySlot slot, w.slot ≠ some slot' := by
  intro w hw
  have hslot : w.slot = some slot := by
    rcases List.mem_cons.mp hw with rfl | hw
    · rfl
    · exact (isData_of_mem_clearKeySlot hw).1
  rw [hslot]
  exact fun h => hne (Option.some.inj h).symm

namespace CryptoState

variable {layout : CryptoControlLayout} {s : CryptoState} {c : CryptoCall}

def Inv (s : CryptoState) : Prop := ∀ slot, (s.view slot).Inv

theorem inv_start : Inv {} := fun _ => ⟨nofun, fun _ => rfl⟩

theorem throughout_iff_slots :
    Throughout (c.perform layout) Sound s c.writes ↔
      ∀ slot, Throughout (SlotView.perform slot c.entry) SlotView.Sound (s.view slot) c.writes := by
  constructor
  · intro h slot
    refine (throughout_view (CryptoState.view · slot) (c.perform_view layout slot)).mp ?_
    exact h.mono fun s hs => hs slot
  · intro h k slot
    exact (throughout_view (CryptoState.view · slot) (c.perform_view layout slot)).mpr (h slot) k

/-- No write of the call makes a mixture if and only if the call is undisturbed. -/
theorem Inv.throughout_iff (hs : s.Inv) :
    Throughout (c.perform layout) Sound s c.writes ↔ c.Undisturbed s := by
  rw [throughout_iff_slots]
  rcases c.writes_cases with ⟨hfails, hw⟩ | ⟨a, slot, interface, rfl, hok, -, hw⟩ |
    ⟨slot, rfl, -, hw⟩ <;> rw [hw]
  · refine iff_of_true (fun slot => throughout_nil.mpr (hs slot).sound) ?_
    rintro a slot interface rfl hok
    simp [CryptoCall.fails, hok, Except.isOk, Except.toBool] at hfails
  · constructor
    · rintro h a' slot' interface' ⟨⟩ hok'
      obtain ⟨rfl, rfl⟩ := Prod.mk.inj (Except.ok.inj (hok.symm.trans hok'))
      exact ((hs slot).throughout_setKey_iff a interface).mp (h slot)
    · intro h slot'
      by_cases hslot : slot' = slot
      · subst hslot
        exact ((hs slot').throughout_setKey_iff a interface).mpr (h a slot' interface rfl hok)
      · exact SlotView.throughout_of_ne (SetKey.slot_of_mem_writes hslot) (hs slot').sound
  · refine iff_of_true (fun slot' => ?_) nofun
    by_cases hslot : slot' = slot
    · subst hslot
      exact SlotView.throughout_deleteKey (hs slot').sound
    · exact SlotView.throughout_of_ne (slot_of_mem_deleteKey hslot) (hs slot').sound

theorem Inv.call (hs : s.Inv) (h : c.Undisturbed s) : (s.call layout c).Inv := by
  intro slot'
  rw [call_view]
  rcases c.writes_cases with
    ⟨-, hw⟩ | ⟨a, slot, interface, rfl, hok, -, hw⟩ | ⟨slot, rfl, -, hw⟩ <;> rw [hw]
  · exact hs slot'
  · by_cases hslot : slot' = slot
    · subst hslot
      rw [CryptoCall.entry, SlotView.foldl_setKey,
        (hs slot').foldl_dataWrites slot' (h a slot' interface rfl hok)]
      exact ⟨fun _ => ⟨a, rfl, rfl⟩, nofun⟩
    · rw [SlotView.foldl_perform_of_ne (SetKey.slot_of_mem_writes hslot)]
      exact hs slot'
  · by_cases hslot : slot' = slot
    · subst hslot
      rw [CryptoCall.entry, SlotView.foldl_deleteKey]
      exact ⟨nofun, fun _ => rfl⟩
    · rw [SlotView.foldl_perform_of_ne (slot_of_mem_deleteKey hslot)]
      exact hs slot'

theorem call_of_fails (h : c.fails = true) : s.call layout c = s := by
  rcases c.writes_cases with ⟨-, hw⟩ | ⟨_, _, _, _, _, hok, _⟩ | ⟨_, _, hok, _⟩
  · rw [CryptoState.call, hw]
    rfl
  · rw [h] at hok
    cases hok
  · rw [h] at hok
    cases hok

/-- A pairwise CCMP key in the first slot. -/
def ccmpEntry (address : Vector Byte 6) (key : MultiLengthKey aes128KeyLength aes256KeyLength) :
    SetKey :=
  { keySlot := 0
    interface := 0
    keyId := 0
    address
    cipher := .ccmp { key, keyType := .pairwise, mfpEnabled := true, sppEnabled := false } }

/-- One of the possible layouts. -/
def zeroLayout : CryptoControlLayout := ⟨0, 1, 2, 3, by decide⟩

/-- From reset, in every state between two writes each enabled slot holds exactly
the entry last installed in it, and calls that fail change no register, if and
only if every `set_key` is undisturbed. -/
theorem unmixed_iff_undisturbed (layout : CryptoControlLayout) (calls : List CryptoCall) :
    Meets (fun s c => some (s.call layout c))
        (fun s c => Throughout (c.perform layout) Sound s c.writes ∧
          (c.fails = true → (s.call layout c).regs = s.regs)) {} calls ↔
      Meets (fun s c => some (s.call layout c)) (fun s c => c.Undisturbed s) {} calls := by
  refine meets_iff_meets (I := Inv) (fun s c hs => ?_) (fun s c s' hs hok hstep => ?_) inv_start
  · rw [hs.throughout_iff]
    exact and_iff_left fun hfails => by rw [call_of_fails hfails]
  · obtain rfl : s.call layout c = s' := Option.some.inj hstep
    exact hs.call hok

/-- A re-key in place.  After the two address writes of the second call the slot is
enabled with the address of the new entry and the key of the old one. -/
theorem rekey_mixes_entries :
    let old := ccmpEntry #v[2, 0, 0, 0, 0, 1] (.short (.replicate 16 0x11))
    let new := ccmpEntry #v[2, 0, 0, 0, 0x22, 2] (.short (.replicate 16 0x22))
    let s := ({} : CryptoState).call zeroLayout (.setKey old)
    let mixed := ((CryptoCall.setKey new).writes.take 2).foldl
      ((CryptoCall.setKey new).perform zeroLayout) s
    mixed.regs.keySlotEnable 0 = true ∧ mixed.installed 0 = some old ∧
      (mixed.regs.keySlot 0).addrHigh = new.image.addrHigh ∧
      (mixed.regs.keySlot 0).addrHigh ≠ old.image.addrHigh ∧
      (mixed.regs.keySlot 0).keyValue 0 = old.image.keyValue 0 ∧
      (mixed.regs.keySlot 0).keyValue 0 ≠ new.image.keyValue 0 := by
  decide +kernel

/-! ## What an installation leaves -/

theorem other_call {slot : Fin 25} (h : (s.regs.keySlot slot).addrHigh.other = 0) :
    ((s.call layout c).regs.keySlot slot).addrHigh.other = 0 := by
  have hview : ∀ (ws : List CryptoWrite) (v : SlotView), v.regs.addrHigh.other = 0 →
      (ws.foldl (SlotView.perform slot c.entry) v).regs.addrHigh.other = 0 := by
    intro ws v hv
    refine (throughout_of_inv (P := fun v : SlotView => v.regs.addrHigh.other = 0)
      (fun w _ v hv => ?_) hv).last
    rw [SlotView.perform]
    split
    · cases w with
      | keySlotEnable => exact hv
      | _ => exact KeySlot.write_other hv _
    · exact hv
  have hcall := hview c.writes (s.view slot) h
  rw [← call_view layout] at hcall
  exact hcall

theorem other_run (layout : CryptoControlLayout) (calls : List CryptoCall) (slot : Fin 25) :
    ((calls.foldl (call layout) {}).regs.keySlot slot).addrHigh.other = 0 :=
  (throughout_of_inv (P := fun s : CryptoState => (s.regs.keySlot slot).addrHigh.other = 0)
    (fun _ _ _ hs => other_call hs) rfl).last

/-- After any calls from reset, a `set_key` that succeeds leaves exactly its entry in
the slot, with zeros behind the key, if and only if the words behind the key were
zero before. -/
theorem setKey_image_iff (layout : CryptoControlLayout) (calls : List CryptoCall) (a : SetKey)
    (slot : Fin 25) (interface : Fin 4) (hok : a.validate = .ok (slot, interface)) :
    ((calls.foldl (call layout) {}).call layout (.setKey a)).regs.keySlot slot = a.image ↔
      ∀ i : Fin 8, a.cipher.key.length ≤ 4 * i →
        ((calls.foldl (call layout) {}).regs.keySlot slot).keyValue i = 0 := by
  have hwrites : (CryptoCall.setKey a).writes = a.writes slot interface := by
    simp [CryptoCall.writes, hok]
  have hregs : ((calls.foldl (call layout) {}).call layout (.setKey a)).regs.keySlot slot =
      (a.dataWrites slot).foldl KeySlot.write
        ((calls.foldl (call layout) {}).regs.keySlot slot) := by
    have hview := call_view layout (calls.foldl (call layout) {}) (.setKey a) slot
    rw [hwrites, CryptoCall.entry, SlotView.foldl_setKey] at hview
    exact congrArg SlotView.regs hview
  rw [hregs]
  exact KeySlot.foldl_setKey_eq_image_iff _ (other_run layout calls slot) slot a

/-- An empty slot takes every key. -/
theorem setKey_image_iff_reset :
    let a := ccmpEntry #v[2, 0, 0, 0, 0, 1] (.short (.replicate 16 0x11))
    a.validate = .ok (0, 0) ∧
      (CryptoState.call zeroLayout {} (.setKey a)).regs.keySlot 0 = a.image := by
  intro a
  have hok : a.validate = .ok (0, 0) := by decide
  exact ⟨hok, (setKey_image_iff zeroLayout [] a 0 0 hok).mpr fun _ _ => rfl⟩

/-- A key of 16 bytes over one of 32 bytes.  The second half of the old key stays. -/
theorem short_key_leaves_long_key :
    let long := ccmpEntry #v[2, 0, 0, 0, 0, 1] (.long (.replicate 32 0x11))
    let short := ccmpEntry #v[2, 0, 0, 0, 0, 1] (.short (.replicate 16 0x22))
    let s := [CryptoCall.setKey long, .setKey short].foldl (call zeroLayout) {}
    short.validate = .ok (0, 0) ∧ (s.regs.keySlot 0).keyValue 4 = long.image.keyValue 4 ∧
      (s.regs.keySlot 0).keyValue 4 ≠ short.image.keyValue 4 := by
  decide +kernel

end CryptoState

end EspWifiHal
