import EspWifiHal.Crypto.Install

/-!
# The crypto policy of an interface

Every successful `set_key` writes the policy bits of its interface.  Management
frame protection and signaling and payload protection always are those of the last
key (`policy_of_calls`).  The AEAD bit is written from `is_aead`, which is true for
WEP and false for the other ciphers: it is the wrong way round after every
successful `set_key`.
-/

namespace EspWifiHal

open Trace Register

/-- The three policy bits after `set_interface_crypto_parameters`. -/
theorem CryptoControlLayout.setParameters_bits (layout : CryptoControlLayout) (mfp spp aead : Bool)
    (r : BitVec 32) :
    (layout.setParameters mfp spp aead r).getLsbD layout.sppEnable = spp ∧
      (layout.setParameters mfp spp aead r).getLsbD layout.pmfDisable = !mfp ∧
      (layout.setParameters mfp spp aead r).getLsbD layout.aeadCipher = aead := by
  have hnodup := layout.nodup
  simp only [List.nodup_cons, List.mem_cons, List.not_mem_nil, or_false, not_or] at hnodup
  simp only [setParameters, getLsbD_writeBit, hnodup, if_true, if_false, and_self]

/-! ## The last key of an interface -/

/-- The key that a call installs for the interface. -/
def CryptoCall.keyFor (interface : Fin 4) : CryptoCall → Option SetKey
  | .setKey a =>
      match a.validate with
      | .ok (_, interface') => if interface' = interface then some a else none
      | .error _ => none
  | .deleteKey _ => none

/-- The key of the most recent successful `set_key` on the interface. -/
def lastKey (calls : List CryptoCall) (interface : Fin 4) : Option SetKey :=
  calls.reverse.findSome? (CryptoCall.keyFor interface)

theorem lastKey_snoc (calls : List CryptoCall) (c : CryptoCall) (interface : Fin 4) :
    lastKey (calls ++ [c]) interface = (c.keyFor interface).or (lastKey calls interface) := by
  rw [lastKey, List.reverse_append, List.findSome?_append]
  simp [lastKey]

theorem CryptoCall.keyFor_eq_none_iff (a : SetKey) :
    (∀ interface, (CryptoCall.setKey a).keyFor interface = none) ↔
      (CryptoCall.setKey a).fails = true := by
  cases h : a.validate with
  | error e => simp [CryptoCall.keyFor, CryptoCall.fails, h, Except.isOk, Except.toBool]
  | ok target => simp [CryptoCall.keyFor, CryptoCall.fails, h, Except.isOk, Except.toBool]

/-- No interface has a key if and only if no `set_key` succeeds. -/
theorem lastKey_eq_none_iff {calls : List CryptoCall} :
    (∀ interface, lastKey calls interface = none) ↔
      ∀ a, .setKey a ∈ calls → (CryptoCall.setKey a).fails = true := by
  simp only [lastKey, List.findSome?_eq_none_iff, List.mem_reverse]
  constructor
  · intro h a ha
    exact (CryptoCall.keyFor_eq_none_iff a).mp fun interface => h interface _ ha
  · intro h interface c hc
    cases c with
    | setKey a => exact (CryptoCall.keyFor_eq_none_iff a).mpr (h a hc) interface
    | deleteKey => rfl

/-- WEP is the cipher without AEAD. -/
def CipherParameters.isWep : CipherParameters → Bool
  | .wep _ => true
  | _ => false

/-- The code's `is_aead` holds of WEP alone. -/
theorem CipherParameters.isAead_eq_isWep (cipher : CipherParameters) :
    cipher.isAead = cipher.isWep := by
  cases cipher <;> rfl

/-! ## The registers after any calls -/

/-- What a write makes of the control register of the interface. -/
def CryptoWrite.control (layout : CryptoControlLayout) (interface : Fin 4) (r : BitVec 32) :
    CryptoWrite → BitVec 32
  | .interfaceCrypto interface' mfp spp aead =>
      if interface' = interface then layout.setParameters mfp spp aead r else r
  | _ => r

theorem CryptoCall.perform_control (layout : CryptoControlLayout) (c : CryptoCall)
    (interface : Fin 4) (s : CryptoState) (w : CryptoWrite) :
    (c.perform layout s w).regs.interfaceCryptoControl interface =
      w.control layout interface (s.regs.interfaceCryptoControl interface) := by
  cases w with
  | interfaceCrypto interface' mfp spp aead =>
      by_cases h : interface' = interface
      · subst h
        simp [CryptoCall.perform, CryptoRegs.write, CryptoWrite.control]
      · simp [CryptoCall.perform, CryptoRegs.write, CryptoWrite.control, h, Ne.symm h]
  | _ => rfl

theorem foldl_control_of_isData {layout : CryptoControlLayout} {interface : Fin 4} {slot : Fin 25}
    {ws : List CryptoWrite} (hws : ∀ w ∈ ws, w.IsData slot) (r : BitVec 32) :
    ws.foldl (CryptoWrite.control layout interface) r = r := by
  induction ws with
  | nil => rfl
  | cons w ws ih =>
      obtain ⟨hw, hws⟩ := List.forall_mem_cons.mp hws
      have hkeep : w.control layout interface r = r := by
        cases w with
        | interfaceCrypto => cases hw.1
        | _ => rfl
      rw [List.foldl_cons, hkeep, ih hws]

/-- The control register after a call. -/
theorem CryptoState.call_control (layout : CryptoControlLayout) (s : CryptoState) (c : CryptoCall)
    (interface : Fin 4) :
    (s.call layout c).regs.interfaceCryptoControl interface =
      match c.keyFor interface with
      | some a =>
          layout.setParameters a.mfp a.spp a.cipher.isAead
            (s.regs.interfaceCryptoControl interface)
      | none => s.regs.interfaceCryptoControl interface := by
  rw [CryptoState.call, foldl_view (fun s : CryptoState => s.regs.interfaceCryptoControl interface)
    (c.perform_control layout interface)]
  rcases c.writes_cases with ⟨hfails, hw⟩ | ⟨a, slot, interface', rfl, hok, -, hw⟩ |
    ⟨slot, rfl, -, hw⟩ <;> rw [hw]
  · have hnone : c.keyFor interface = none := by
      cases c with
      | setKey a =>
          cases h : a.validate with
          | error e => simp [CryptoCall.keyFor, h]
          | ok target => simp [CryptoCall.fails, h, Except.isOk, Except.toBool] at hfails
      | deleteKey => rfl
    rw [hnone]
    rfl
  · rw [SlotView.writes_eq, List.foldl_append, foldl_control_of_isData fun _ => a.isData_of_mem]
    simp only [CryptoCall.keyFor, hok, List.foldl_cons, List.foldl_nil, CryptoWrite.control]
    split <;> rfl
  · rw [List.foldl_cons, foldl_control_of_isData fun _ => isData_of_mem_clearKeySlot]
    rfl

/-- What the interface should have: the bits of its last key, or its old value. -/
def CryptoControlLayout.Follows (layout : CryptoControlLayout) (aead : CipherParameters → Bool)
    (last : Option SetKey) (before after : BitVec 32) : Prop :=
  match last with
  | some a => after.getLsbD layout.sppEnable = a.spp ∧ after.getLsbD layout.pmfDisable = !a.mfp ∧
      after.getLsbD layout.aeadCipher = aead a.cipher
  | none => after = before

/-- The policy bits are those of the last key, with the AEAD bit from `is_aead`. -/
theorem policy_of_calls (layout : CryptoControlLayout) (s : CryptoState) (calls : List CryptoCall)
    (interface : Fin 4) :
    layout.Follows CipherParameters.isAead (lastKey calls interface)
      (s.regs.interfaceCryptoControl interface)
      ((calls.foldl (CryptoState.call layout) s).regs.interfaceCryptoControl interface) := by
  induction calls using List.reverseRecOn with
  | nil => exact rfl
  | append_singleton calls c ih =>
      rw [List.foldl_append, lastKey_snoc]
      simp only [List.foldl_cons, List.foldl_nil, CryptoState.call_control]
      cases c.keyFor interface with
      | some a => exact layout.setParameters_bits a.mfp a.spp a.cipher.isAead _
      | none => exact ih

/-- The policy of every interface follows its last key, with the AEAD bit set for
the ciphers other than WEP, if and only if no `set_key` succeeds. -/
theorem policy_follows_iff (layout : CryptoControlLayout) (s : CryptoState)
    (calls : List CryptoCall) :
    (∀ interface, layout.Follows (fun cipher => !cipher.isWep) (lastKey calls interface)
        (s.regs.interfaceCryptoControl interface)
        ((calls.foldl (CryptoState.call layout) s).regs.interfaceCryptoControl interface)) ↔
      ∀ a, .setKey a ∈ calls → (CryptoCall.setKey a).fails = true := by
  rw [← lastKey_eq_none_iff]
  refine forall_congr' fun interface => ?_
  have hpolicy := policy_of_calls layout s calls interface
  cases hlast : lastKey calls interface with
  | none =>
      rw [hlast] at hpolicy
      exact iff_of_true hpolicy rfl
  | some a =>
      rw [hlast] at hpolicy
      refine iff_of_false (fun h => ?_) nofun
      have haead : (!a.cipher.isWep) = a.cipher.isAead := h.2.2.symm.trans hpolicy.2.2
      rw [a.cipher.isAead_eq_isWep] at haead
      cases hwep : a.cipher.isWep <;> rw [hwep] at haead <;> cases haead

/-- A CCMP key leaves the AEAD bit of its interface clear. -/
theorem ccmp_key_clears_aead :
    let a := CryptoState.ccmpEntry #v[2, 0, 0, 0, 0, 1] (.short (.replicate 16 0x11))
    let s := [CryptoCall.setKey a].foldl (CryptoState.call CryptoState.zeroLayout) {}
    lastKey [.setKey a] 0 = some a ∧ a.cipher.isWep = false ∧
      (s.regs.interfaceCryptoControl 0).getLsbD CryptoState.zeroLayout.aeadCipher = false := by
  decide +kernel

end EspWifiHal
