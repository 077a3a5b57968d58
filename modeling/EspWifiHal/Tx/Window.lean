import EspWifiHal.Lib.Register
import EspWifiHal.Tx.Contention
import Mathlib.Data.List.TakeWhile

/-!
# The contention window

Every retry doubles the window and sets its lowest bit, up to the end of the range.  So the
window is a mask of ones and the `and` with a random number is a number of slots between
zero and the window.  Resetting the short retry count does not shrink the window.

`window_closed_form` says what the window is after any calls.
-/

namespace EspWifiHal

open Register

inductive WindowCall where
  | incrementSrc
  | incrementLrc
  | resetSrc
deriving DecidableEq, Repr

namespace WindowCall

def apply (s : EdcaContentionState) : WindowCall → EdcaContentionState
  | .incrementSrc => s.incrementSrc
  | .incrementLrc => s.incrementLrc
  | .resetSrc => s.resetSrc

def applyChecked (s : EdcaContentionState) : WindowCall → Except ArithFault EdcaContentionState
  | .incrementSrc => s.incrementSrcChecked
  | .incrementLrc => s.incrementLrcChecked
  | .resetSrc => .ok s.resetSrc

end WindowCall

/-- The retries of both kinds. -/
def increments (calls : List WindowCall) : Nat := calls.countP (· ≠ .resetSrc)

/-- Fewer than 256 increments of each counter between its resets.  The long retry count has
none. -/
structure FewIncrements (calls : List WindowCall) : Prop where
  short : ∀ before between after, calls = before ++ between ++ after → .resetSrc ∉ between →
    between.count .incrementSrc < 256
  long : calls.count .incrementLrc < 256

/-! ## The window -/

theorem toNat_bit_sub_one {n : Nat} (h : n ≤ 31) : (bit n - 1).toNat = 2 ^ n - 1 := by
  have hlt : 2 ^ n < 2 ^ 32 := Nat.pow_lt_pow_right (by decide) (by omega)
  have hpos : 0 < 2 ^ n := Nat.two_pow_pos n
  have hbit : (bit n).toNat = 2 ^ n := by
    rw [bit, Nat.mod_eq_of_lt (by omega), BitVec.toNat_shiftLeft, Nat.shiftLeft_eq]
    exact (congrArg (· % 2 ^ 32) (Nat.one_mul _)).trans (Nat.mod_eq_of_lt hlt)
  rw [BitVec.toNat_sub_of_le, hbit]
  · rfl
  · rw [BitVec.le_def, hbit]
    exact hpos

theorem two_pow_sub_one_le_iff {m n : Nat} : 2 ^ m - 1 ≤ 2 ^ n - 1 ↔ m ≤ n := by
  have hm := Nat.two_pow_pos m
  have hn := Nat.two_pow_pos n
  have hpow : 2 ^ m ≤ 2 ^ n ↔ m ≤ n := Nat.pow_le_pow_iff_right (by decide)
  omega

/-- A mask of `n` ones is doubled to one of `n + 1`. -/
theorem toNat_shiftLeft_add_one {cw : BitVec 32} {n : Nat} (h : n ≤ 31)
    (hcw : cw.toNat = 2 ^ n - 1) : ((cw <<< 1) + 1).toNat = 2 ^ (n + 1) - 1 := by
  have hle : 2 ^ (n + 1) ≤ 2 ^ 32 := Nat.pow_le_pow_right (by decide) (by omega)
  have hpos : 0 < 2 ^ n := Nat.two_pow_pos n
  rw [Nat.pow_succ] at hle ⊢
  rw [BitVec.toNat_add, BitVec.toNat_shiftLeft, hcw, Nat.shiftLeft_eq]
  show ((2 ^ n - 1) * 2 ^ 1 % 2 ^ 32 + 1) % 2 ^ 32 = _
  omega

namespace EdcaContentionState

variable {s : EdcaContentionState} {n : Nat}

/-- The window after `n` retries. -/
def HasWindow (s : EdcaContentionState) (n : Nat) : Prop :=
  s.currentCw.toNat = 2 ^ min (s.contentionWindowExponentRange.start.toNat + n)
    s.contentionWindowExponentRange.stop.toNat - 1

theorem hasWindow_advance (hstop : s.contentionWindowExponentRange.stop.toNat ≤ 31)
    (h : s.HasWindow n) : s.advanceContentionWindow.HasWindow (n + 1) := by
  have hcw := toNat_shiftLeft_add_one (Nat.le_trans (Nat.min_le_right ..) hstop) h
  have hlimit := toNat_bit_sub_one hstop
  rw [HasWindow, advanceContentionWindow]
  simp only [BitVec.le_def, hcw, hlimit, two_pow_sub_one_le_iff]
  split
  case isTrue hle =>
      rw [hcw]
      congr 2
      omega
  case isFalse hgt =>
      rw [hlimit]
      congr 2
      omega

/-- The range is never changed. -/
theorem range_apply (s : EdcaContentionState) (call : WindowCall) :
    (call.apply s).contentionWindowExponentRange = s.contentionWindowExponentRange := by
  cases call <;> rfl

theorem hasWindow_apply (hstop : s.contentionWindowExponentRange.stop.toNat ≤ 31)
    (h : s.HasWindow n) (call : WindowCall) : (call.apply s).HasWindow (n + increments [call]) := by
  cases call with
  | incrementSrc => exact hasWindow_advance (s := { s with shortRetryCount := _ }) hstop h
  | incrementLrc => exact hasWindow_advance (s := { s with longRetryCount := _ }) hstop h
  | resetSrc => exact h

theorem hasWindow_foldl (hstop : s.contentionWindowExponentRange.stop.toNat ≤ 31)
    (h : s.HasWindow n) (calls : List WindowCall) :
    (calls.foldl WindowCall.apply s).HasWindow (n + increments calls) := by
  induction calls generalizing s n with
  | nil => exact h
  | cons call calls ih =>
      have hcount : increments (call :: calls) = increments [call] + increments calls := by
        rw [← List.singleton_append]
        exact List.countP_append
      rw [hcount, ← Nat.add_assoc]
      refine ih ?_ (hasWindow_apply hstop h call)
      rw [range_apply]
      exact hstop

theorem range_foldl (s : EdcaContentionState) (calls : List WindowCall) :
    (calls.foldl WindowCall.apply s).contentionWindowExponentRange =
      s.contentionWindowExponentRange := by
  induction calls generalizing s with
  | nil => rfl
  | cons call calls ih => rw [List.foldl_cons, ih, range_apply]

/-! ## The backoff -/

theorem randomBackoffSlotCount_le (random : BitVec 32) :
    s.randomBackoffSlotCount random ≤ s.currentCw.toNat := by
  rw [randomBackoffSlotCount, BitVec.toNat_and]
  exact Nat.and_le_right

theorem exists_randomBackoffSlotCount {m v : Nat} (hcw : s.currentCw.toNat = 2 ^ m - 1)
    (hv : v ≤ s.currentCw.toNat) : ∃ random, s.randomBackoffSlotCount random = v := by
  have hpos : 0 < 2 ^ m := Nat.two_pow_pos m
  have hlt : v < 2 ^ 32 := Nat.lt_of_le_of_lt hv s.currentCw.isLt
  refine ⟨BitVec.ofNat 32 v, ?_⟩
  rw [randomBackoffSlotCount, toNat_and_mask m hcw, BitVec.toNat_ofNat, Nat.mod_eq_of_lt hlt]
  exact Nat.mod_eq_of_lt (by omega)

end EdcaContentionState

/-! ## The counters -/

/-- The increments of the short retry count since it was reset. -/
def sinceReset (calls : List WindowCall) : Nat :=
  (calls.reverse.takeWhile (· ≠ .resetSrc)).count .incrementSrc

theorem sinceReset_concat (calls : List WindowCall) (call : WindowCall) :
    sinceReset (calls ++ [call]) =
      match call with
      | .incrementSrc => sinceReset calls + 1
      | .incrementLrc => sinceReset calls
      | .resetSrc => 0 := by
  cases call <;> simp [sinceReset]

theorem sinceReset_lt {calls : List WindowCall} (h : FewIncrements calls) :
    sinceReset calls < 256 := by
  let recent := calls.reverse.takeWhile (· ≠ .resetSrc)
  let older := calls.reverse.dropWhile (· ≠ .resetSrc)
  have hsplit : calls = older.reverse ++ recent.reverse ++ [] := by
    rw [List.append_nil, ← List.reverse_append, List.takeWhile_append_dropWhile,
      List.reverse_reverse]
  have hreset : .resetSrc ∉ recent.reverse := by
    intro hmem
    have hne := List.mem_takeWhile_imp (List.mem_reverse.mp hmem)
    simp at hne
  have hcount := h.short _ _ _ hsplit hreset
  rwa [List.count_reverse] at hcount

theorem FewIncrements.of_concat {calls : List WindowCall} {call : WindowCall}
    (h : FewIncrements (calls ++ [call])) : FewIncrements calls := by
  refine ⟨fun before between after hsplit hreset => ?_, ?_⟩
  · refine h.short before between (after ++ [call]) ?_ hreset
    rw [hsplit, List.append_assoc]
  · exact Nat.lt_of_le_of_lt (List.Sublist.count_le _ (List.sublist_append_left ..)) h.long

theorem ne_allOnes_of_lt {b : Byte} {n : Nat} (hb : b.toNat = n) (hn : n + 1 < 256) :
    b ≠ BitVec.allOnes 8 := by
  rintro rfl
  rw [← hb] at hn
  exact absurd hn (by decide)

theorem toNat_add_one {b : Byte} {n : Nat} (hb : b.toNat = n) (hn : n + 1 < 256) :
    (b + 1).toNat = n + 1 := by
  rw [BitVec.toNat_add, hb]
  exact Nat.mod_eq_of_lt hn

namespace EdcaContentionState

variable {s : EdcaContentionState}

/-- With few increments the counters count, and no call has a fault. -/
theorem foldlM_applyChecked (hstop : s.contentionWindowExponentRange.stop.toNat < 32)
    (hshort : s.shortRetryCount = 0) (hlong : s.longRetryCount = 0) {calls : List WindowCall}
    (hfew : FewIncrements calls) :
    calls.foldlM WindowCall.applyChecked s = .ok (calls.foldl WindowCall.apply s) ∧
      (calls.foldl WindowCall.apply s).shortRetryCount.toNat = sinceReset calls ∧
      (calls.foldl WindowCall.apply s).longRetryCount.toNat = calls.count .incrementLrc := by
  induction calls using List.reverseRecOn with
  | nil => exact ⟨rfl, congrArg BitVec.toNat hshort, congrArg BitVec.toNat hlong⟩
  | append_singleton calls call ih =>
      obtain ⟨hrun, hsrc, hlrc⟩ := ih hfew.of_concat
      have hlt := sinceReset_lt hfew
      have hltLong := hfew.long
      rw [sinceReset_concat] at hlt
      rw [List.count_append] at hltLong
      rw [List.foldlM_append, hrun, List.foldl_append, sinceReset_concat, List.count_append]
      have hrange := range_foldl s calls
      generalize calls.foldl WindowCall.apply s = t at hsrc hlrc hrange ⊢
      rw [← hrange] at hstop
      cases call with
      | incrementSrc =>
          refine ⟨?_, toNat_add_one hsrc hlt, hlrc⟩
          have hok : t.incrementSrcChecked = .ok t.incrementSrc :=
            incrementSrcChecked_ok_iff.mpr ⟨ne_allOnes_of_lt hsrc hlt, hstop, rfl⟩
          show t.incrementSrcChecked.bind _ = _
          rw [hok]
          rfl
      | incrementLrc =>
          refine ⟨?_, hsrc, toNat_add_one hlrc hltLong⟩
          have hok : t.incrementLrcChecked = .ok t.incrementLrc :=
            incrementLrcChecked_ok_iff.mpr ⟨ne_allOnes_of_lt hlrc hltLong, hstop, rfl⟩
          show t.incrementLrcChecked.bind _ = _
          rw [hok]
          rfl
      | resetSrc => exact ⟨rfl, rfl, hlrc⟩

end EdcaContentionState

/-- The window after any calls, for a range `start..=stop` up to 31: `2 ^ n - 1` for the
exponent `n` that the retries have reached.  The backoff takes all values from zero to the
window.  With few increments no operation overflows. -/
theorem window_closed_form (start stop : Byte) (hle : start ≤ stop) (hstop : stop.toNat ≤ 31)
    (calls : List WindowCall) :
    ∃ s, EdcaContentionState.new { start := start, stop := stop } = some s ∧
      let t := calls.foldl WindowCall.apply s
      t.currentCw.toNat = 2 ^ min (start.toNat + increments calls) stop.toNat - 1 ∧
        (∀ random, t.randomBackoffSlotCount random ≤ t.currentCw.toNat) ∧
        (∀ v ≤ t.currentCw.toNat, ∃ random, t.randomBackoffSlotCount random = v) ∧
        (FewIncrements calls → calls.foldlM WindowCall.applyChecked s = .ok t) := by
  have hnonempty : RangeInclusive.isEmpty { start := start, stop := stop } = false := by
    simp [RangeInclusive.isEmpty, hle]
  refine ⟨_, by rw [EdcaContentionState.new, hnonempty]; rfl, ?_⟩
  intro t
  have hstart : start.toNat ≤ stop.toNat := hle
  have hcw : t.currentCw.toNat = 2 ^ min (start.toNat + increments calls) stop.toNat - 1 := by
    have hwindow := EdcaContentionState.hasWindow_foldl (n := 0)
      (s := ⟨{ start := start, stop := stop }, bit start.toNat - 1, 0, 0⟩) hstop ?_ calls
    · rw [EdcaContentionState.HasWindow, EdcaContentionState.range_foldl, Nat.zero_add] at hwindow
      exact hwindow
    · rw [EdcaContentionState.HasWindow, toNat_bit_sub_one (by omega), Nat.add_zero,
        Nat.min_eq_left hstart]
  refine ⟨hcw, t.randomBackoffSlotCount_le, fun v hv => t.exists_randomBackoffSlotCount hcw hv, ?_⟩
  intro hfew
  exact (EdcaContentionState.foldlM_applyChecked (Nat.lt_succ_of_le hstop) rfl rfl hfew).1

/-- The window of best effort after three retries and a reset. -/
theorem window_closed_form_best_effort :
    ∃ s, EdcaContentionState.new { start := 4, stop := 10 } = some s ∧
      ([.incrementLrc, .resetSrc, .incrementSrc, .incrementSrc].foldl
        WindowCall.apply s).currentCw.toNat = 127 := by
  obtain ⟨s, hs, hcw, _⟩ := window_closed_form 4 10 (by decide) (by decide)
    [.incrementLrc, .resetSrc, .incrementSrc, .incrementSrc]
  exact ⟨s, hs, hcw⟩

end EspWifiHal
