import EspWifiHal.Lib.Loop
import Mathlib.Data.List.Range
import Mathlib.Order.Interval.Set.Defs
import Mathlib.Order.Lattice
import Mathlib.Order.Monotone.Defs

/-!
# Searching a table

A scan of a table with `n` entries stops at the first entry that is at most the key, or at
the last one.  A walk starts anywhere and moves by one entry, up or down, until it finds
the place.  In a table that does not increase both find the same entry (`walk_eq`).

The nearest entry with a property is the one that a scan with a strict comparison ends with.
-/

namespace Search

variable {α : Type*} [LinearOrder α] {t : Nat → α} {r : α} {n i j s : Nat}

/-- The entry at which a scan for `r` stops. -/
structure Stops (t : Nat → α) (r : α) (n i : Nat) : Prop where
  lt : i < n
  above : ∀ j < i, r < t j
  found : t i ≤ r ∨ i + 1 = n

theorem Stops.unique (hi : Stops t r n i) (hj : Stops t r n j) : i = j := by
  have hle : ∀ {i j}, Stops t r n i → Stops t r n j → i ≤ j := by
    intro i j hi hj
    by_contra hlt
    rw [Nat.not_le] at hlt
    rcases hj.found with hfound | hlast
    · exact absurd hfound (not_le.mpr (hi.above j hlt))
    · have hbound := hi.lt
      omega
  exact Nat.le_antisymm (hle hi hj) (hle hj hi)

/-- The scan as a function. -/
def first (t : Nat → α) (r : α) (n : Nat) : Nat :=
  ((List.range n).find? fun i => t i ≤ r).getD (n - 1)

theorem first_stops (hn : 0 < n) : Stops t r n (first t r n) := by
  rw [first]
  cases hfind : (List.range n).find? fun i => t i ≤ r with
  | none =>
      rw [List.find?_eq_none] at hfind
      refine ⟨Nat.sub_lt hn Nat.one_pos, fun j hj => ?_, .inr (Nat.sub_add_cancel hn)⟩
      have hne := hfind j (List.mem_range.mpr (Nat.lt_of_lt_of_le hj (Nat.sub_le n 1)))
      exact not_le.mp fun hle => hne (decide_eq_true hle)
  | some i =>
      rw [List.find?_range_eq_some] at hfind
      obtain ⟨hfound, hlt, habove⟩ := hfind
      refine ⟨List.mem_range.mp hlt, fun j hj => ?_, .inl (of_decide_eq_true hfound)⟩
      have hne := habove j hj
      simpa using hne

theorem Stops.congr {t' : Nat → α} (h : ∀ i < n, t i = t' i) (hi : Stops t r n i) :
    Stops t' r n i := by
  refine ⟨hi.lt, fun j hj => ?_, ?_⟩
  · rw [← h j (Nat.lt_trans hj hi.lt)]
    exact hi.above j hj
  · rw [← h i hi.lt]
    exact hi.found

theorem first_congr {t' : Nat → α} (h : ∀ i < n, t i = t' i) : first t r n = first t' r n := by
  rcases Nat.eq_zero_or_pos n with rfl | hn
  · rfl
  · exact ((first_stops hn).congr h).unique (first_stops hn)

/-- One move of a walk, and whether it ends the walk. -/
def walkStep (t : Nat → α) (r : α) (n i : Nat) : Nat × Bool :=
  if t i ≤ r then if i = 0 ∨ r < t (i - 1) then (i, true) else (i - 1, false)
  else if i + 1 = n then (i, true)
  else (i + 1, decide (t (i + 1) ≤ r))

def walk (t : Nat → α) (r : α) (n hint : Nat) : Nat :=
  Loop.forBreak (fun i (_ : Nat) => walkStep t r n i) (List.range n) hint

theorem walkStep_lt (hi : i < n) : (walkStep t r n i).1 < n := by
  rw [walkStep]
  split_ifs <;> simp only <;> omega

theorem walk_lt {hint : Nat} (hhint : hint < n) : walk t r n hint < n :=
  Loop.forBreak_inv _ (· < n) (fun _ _ hi => walkStep_lt hi) _ hhint

/-- A move ends at the place where the scan stops or comes closer to it. -/
theorem walkStep_towards (ht : AntitoneOn t (Set.Iio n)) (hs : Stops t r n s) (hi : i < n) :
    (walkStep t r n i).2 = true ∧ (walkStep t r n i).1 = s ∨
      (walkStep t r n i).2 = false ∧
        ((walkStep t r n i).1 - s) + (s - (walkStep t r n i).1) + 1 = (i - s) + (s - i) := by
  rw [walkStep]
  rcases Nat.lt_trichotomy i s with hlt | rfl | hgt
  · -- the entry is above the key, so the walk goes up
    have hslt := hs.lt
    rw [if_neg (not_le.mpr (hs.above i hlt)), if_neg (by omega)]
    by_cases hnext : t (i + 1) ≤ r
    · have hnext' : i + 1 = s := by
        by_contra hne
        exact absurd hnext (not_le.mpr (hs.above (i + 1) (by omega)))
      exact .inl ⟨decide_eq_true hnext, hnext'⟩
    · exact .inr ⟨decide_eq_false hnext, by simp only; omega⟩
  · -- the place itself
    by_cases hle : t i ≤ r
    · have hstop : i = 0 ∨ r < t (i - 1) := by
        rcases Nat.eq_zero_or_pos i with hzero | hpos
        · exact .inl hzero
        · exact .inr (hs.above (i - 1) (by omega))
      rw [if_pos hle, if_pos hstop]
      exact .inl ⟨rfl, rfl⟩
    · rw [if_neg hle, if_pos (hs.found.resolve_left hle)]
      exact .inl ⟨rfl, rfl⟩
  · -- the place is below, and all entries from it on are at most the key
    have hfound : t s ≤ r := hs.found.resolve_right (by omega)
    have hle : ∀ j, s ≤ j → j < n → t j ≤ r := fun j hsj hj =>
      le_trans (ht (Set.mem_Iio.mpr hs.lt) (Set.mem_Iio.mpr hj) hsj) hfound
    have hprevious : ¬(i = 0 ∨ r < t (i - 1)) := by
      rintro (hzero | habove)
      · omega
      · exact absurd (hle (i - 1) (by omega) (by omega)) (not_le.mpr habove)
    rw [if_pos (hle i (Nat.le_of_lt hgt) hi), if_neg hprevious]
    exact .inr ⟨rfl, by simp only; omega⟩

/-- The walk from any entry ends at the place where the scan stops. -/
theorem walk_eq (ht : AntitoneOn t (Set.Iio n)) (hs : Stops t r n s) {hint : Nat}
    (hhint : hint < n) : walk t r n hint = s := by
  -- after `k` moves the distance is `k` less
  have hend := Loop.forBreak_spec (fun i (_ : Nat) => walkStep t r n i)
    (fun k i => i < n ∧ (i - s) + (s - i) + k = (hint - s) + (s - hint)) (List.range n)
    ⟨hhint, by omega⟩ (fun k a i _ hi hstep => by
      rcases walkStep_towards ht hs hi.1 with ⟨hstop, _⟩ | ⟨_, hcloser⟩
      · rw [hstop] at hstep
        cases hstep
      · exact ⟨walkStep_lt hi.1, by omega⟩)
  rcases hend with ⟨hlt, hdistance⟩ | ⟨k, a, i, _, ⟨hi, _⟩, hbreak, heq⟩
  · -- all moves are used up only if the start was too far away
    have hslt := hs.lt
    rw [List.length_range] at hdistance
    omega
  · rw [walk, heq]
    rcases walkStep_towards ht hs hi with ⟨_, hplace⟩ | ⟨hstep, _⟩
    · exact hplace
    · rw [hstep] at hbreak
      cases hbreak

/-! ## The nearest entry -/

section Nearest

variable {p : Nat → Prop} {d : Nat → α}

/-- The entry with the property that has the smallest distance, the first one of those. -/
structure Nearest (p : Nat → Prop) (d : Nat → α) (n i : Nat) : Prop where
  lt : i < n
  found : p i
  least : ∀ j < n, p j → d i < d j ∨ (d i = d j ∧ i ≤ j)

theorem Nearest.le (h : Nearest p d n i) (hj : j < n) (hp : p j) : d i ≤ d j := by
  rcases h.least j hj hp with hlt | ⟨heq, -⟩
  · exact hlt.le
  · exact heq.le

theorem Nearest.unique (hi : Nearest p d n i) (hj : Nearest p d n j) : i = j := by
  have hd : d i = d j := le_antisymm (hi.le hj.lt hj.found) (hj.le hi.lt hi.found)
  rcases hi.least j hj.lt hj.found with hlt | ⟨-, hij⟩
  · exact absurd hd hlt.ne
  · rcases hj.least i hi.lt hi.found with hlt | ⟨-, hji⟩
    · exact absurd hd.symm hlt.ne
    · exact Nat.le_antisymm hij hji

theorem Nearest.congr {q : Nat → Prop} (hpq : ∀ j < n, p j ↔ q j) (h : Nearest p d n i) :
    Nearest q d n i :=
  ⟨h.lt, (hpq i h.lt).mp h.found, fun j hj hq => h.least j hj ((hpq j hj).mpr hq)⟩

/-- The next entry is passed over. -/
theorem Nearest.keep (h : Nearest p d n i) (hn : p n → d i ≤ d n) : Nearest p d (n + 1) i := by
  refine ⟨Nat.lt_succ_of_lt h.lt, h.found, fun j hj hp => ?_⟩
  rcases Nat.lt_succ_iff_lt_or_eq.mp hj with hj | rfl
  · exact h.least j hj hp
  · rcases (hn hp).lt_or_eq with hlt | heq
    · exact Or.inl hlt
    · exact Or.inr ⟨heq, h.lt.le⟩

/-- The next entry is nearer than all before it. -/
theorem Nearest.take (hn : p n) (h : ∀ j < n, p j → d n < d j) : Nearest p d (n + 1) n := by
  refine ⟨Nat.lt_succ_self n, hn, fun j hj hp => ?_⟩
  rcases Nat.lt_succ_iff_lt_or_eq.mp hj with hj | rfl
  · exact Or.inl (h j hj hp)
  · exact Or.inr ⟨rfl, Nat.le_refl j⟩

end Nearest

end Search
