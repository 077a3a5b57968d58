import EspWifiHal.Phy.Init
import EspWifiHal.Lib.Cells
import EspWifiHal.Lib.Loop
import EspWifiHal.Lib.Search
import EspWifiHal.Lib.Signed
import Mathlib.Algebra.Order.Group.Abs
import Mathlib.Algebra.Order.Group.Int

/-!
# The table of DC coefficients

The calibration of the receiver searches the DC coefficients of every second channel, one column
of the table for each gain (`gainCalDc`).  The result of a search goes to two channels, with the
status of the search beside it.  Then `dcSort` replaces each entry whose search has failed by the
entry of the nearest channel whose search has not, in place.

`dc_table_reference` says that this is what a copy of the table would give, that the sort reads
what was written, and that both stay inside of their buffers.
-/

namespace EspWifiHal

open Signed

def PhyChip.dcColumns : PhyChip → Nat
  | .esp32s3 => 1
  | .esp32c3 => 3

/-! ## `sort` -/

/-- The candidate that was selected, and its distance. -/
structure SortPick where
  selected : Nat
  distance : Int
deriving DecidableEq, Repr

section Sorting

variable (difference : Int → Int) (columns : Nat) (status : Cells (BitVec 8)) (column : Nat)

def sortCount (preference : BitVec 8) (channel : Nat) : Option (BitVec 8) := do
  let value ← status.read (channel * columns + column)
  return if value = 1 then preference + 1 else preference

def sortCandidate (preference : BitVec 8) (channel : Nat) (pick : SortPick) (candidate : Nat) :
    Option SortPick := do
  let value ← status.read (candidate * columns + column)
  if value ≠ preference then
    return pick
  else
    let value := i8 (difference ((channel : Int) - candidate))
    return if value < pick.distance then ⟨candidate, value⟩ else pick

def sortChannel (preference : BitVec 8) (data : Cells (BitVec 32)) (channel : Nat) :
    Option (Cells (BitVec 32)) := do
  let value ← status.read (channel * columns + column)
  if value = 1 then
    return data
  else
    let pick ← (List.range 14).foldlM
      (sortCandidate difference columns status column preference channel) ⟨channel, 20⟩
    let value ← data.read (pick.selected * columns + column)
    data.write (channel * columns + column) (value &&& 0xffff01ff)

/-- One column.  The preference is the one of the column before. -/
def sortColumn (s : BitVec 8 × Cells (BitVec 32)) (column : Nat) :
    Option (BitVec 8 × Cells (BitVec 32)) := do
  let count ← (List.range 14).foldlM (sortCount columns status column) s.1
  let preference := if count = 0 then 2 else 1
  let data ← (List.range 14).foldlM
    (sortChannel difference columns status column preference) s.2
  return (preference, data)

end Sorting

def dcSort (difference : Int → Int) (chip : PhyChip) (data : Cells (BitVec 32))
    (status : Cells (BitVec 8)) : Option (Cells (BitVec 32)) := do
  let s ← (List.range chip.dcColumns).foldlM (sortColumn difference chip.dcColumns status) (0, data)
  return s.2

/-! ## `dc` -/

/-- The result of a search. -/
structure DcOutcome where
  status : BitVec 8
  first : BitVec 16
  second : BitVec 16
deriving DecidableEq, Repr

/-- A pair of coefficients in a word. -/
def packDc (x y : BitVec 16) : BitVec 32 := x.setWidth 32 <<< 16 ||| y.signExtend 32

/-- The calls of `dc`, without those that only set up the receiver. -/
inductive DcCall where
  | channel (value : Nat)
  | i2c (value : Nat)
  | gain (value : BitVec 32)
  | force (block bank : Nat) (value : BitVec 32)
  | search (mode : Nat)
  | sort
deriving DecidableEq, Repr

structure DcArgs where
  policy : BitVec 32
  mode : BitVec 32
  stop : BitVec 32
  codes : Nat → BitVec 8
  count : BitVec 32
  middle : BitVec 32
  /-- The register of the synthesizer, which a policy other than 0 saves and clears. -/
  saved : Nat

/-- The tables, the buffers on the stack and the variables of `dc`. -/
structure DcTable where
  iq : Nat → BitVec 32
  dc : Nat → BitVec 32
  channels : Cells (BitVec 32)
  status : Cells (BitVec 8)
  coefficients : Option (BitVec 16 × BitVec 16)
  iqIndex : Nat
  dcIndex : Nat
  channelIndex : Nat
  calls : List DcCall

section Dc

variable (chip : PhyChip) (a : DcArgs) (search : Nat → Nat → Nat → DcOutcome)

def DcArgs.middleCount : Nat :=
  match chip with
  | .esp32s3 => (a.middle.setWidth 8).toNat
  | .esp32c3 => 4

/-- The gain word of a column.  A subtraction below zero and an index outside of the table have
no result. -/
def dcGain (mode column : Nat) : Option (BitVec 32) :=
  let count := (chip.byte a.count).toNat
  if mode = 0 then
    some ((a.codes column).setWidth 32 <<< 8)
  else if mode = 1 then do
    let coefficient ← [0, 1, 5, 13, 29][column]?
    return ((BitVec.ofNat 32 (coefficient * 8)) ||| (a.codes 2).setWidth 32 <<< 8) &&& 65535
  else
    match chip with
    | .esp32s3 => if 1 ≤ count then some ((a.codes (count - 1)).setWidth 32 <<< 8) else none
    | .esp32c3 =>
        if 3 ≤ count + column then some ((a.codes (count + column - 3)).setWidth 32 <<< 8) else none

/-- What is set before a search, and the coefficients that it starts with. -/
def dcPrepare (mode : Nat) (gain : BitVec 32) (s : DcTable) : DcTable :=
  let pair (bank : Nat) (word : BitVec 32) : List DcCall :=
    [.gain gain, .force 2 bank (word >>> 16), .force 3 bank (word &&& 65535)]
  if mode = 1 then
    { s with calls := s.calls ++ pair 1 (s.iq 11) }
  else if mode = 2 then
    { s with
      calls := s.calls ++ pair 2 (s.dc 1)
      coefficients := some ((s.iq 11 >>> 16).setWidth 16, (s.iq 11).setWidth 16) }
  else
    { s with calls := s.calls ++ [.gain gain, .force 2 2 256, .force 3 2 256] }

def dcOffset (s : DcTable) (columns channel column : Nat) : Nat :=
  match chip with
  | .esp32s3 => s.channelIndex * 2
  | .esp32c3 => channel * columns * 2 + column

/-- A search, which needs coefficients to start with. -/
def dcSearch (mode channel column offset : Nat) (s : DcTable) : Option DcTable := do
  let _ ← s.coefficients
  let outcome := search mode channel column
  let status ← s.status.write offset outcome.status
  return { s with
    status := status
    coefficients := some (outcome.first, outcome.second)
    calls := s.calls ++ [.search mode] }

/-- The distance of the two channels that a search is for. -/
def PhyChip.dcNext (columns : Nat) : Nat :=
  match chip with
  | .esp32s3 => 1
  | .esp32c3 => columns

def PhyChip.dcNextIndex (channelIndex : Nat) : Nat :=
  match chip with
  | .esp32s3 => (channelIndex + 1) % 256
  | .esp32c3 => channelIndex

/-- Where the result goes. -/
def dcStore (mode columns offset : Nat) (s : DcTable) : Option DcTable := do
  let pair ← s.coefficients
  let packed := packDc pair.1 pair.2
  if mode = 1 then
    return { s with
      dc := Function.update s.dc s.dcIndex packed, dcIndex := (s.dcIndex + 1) % 256 }
  else if mode = 0 then
    return { s with
      iq := Function.update s.iq s.iqIndex packed, iqIndex := (s.iqIndex + 1) % 256 }
  else
    let channels ← s.channels.write offset packed
    let channels ← channels.write (offset + chip.dcNext columns) packed
    let value ← s.status.read offset
    let status ← s.status.write (offset + chip.dcNext columns) value
    return { s with
      channels := channels, status := status, channelIndex := chip.dcNextIndex s.channelIndex }

def dcColumn (mode columns channel : Nat) (s : DcTable) (column : Nat) : Option DcTable := do
  let gain ← dcGain chip a mode column
  let s := dcPrepare mode gain s
  let offset := dcOffset chip s columns channel column
  let s ← dcSearch search mode channel column offset s
  dcStore chip mode columns offset s

def dcChannel (mode columns : Nat) (s : DcTable) (channel : Nat) : Option DcTable :=
  let calls : List DcCall :=
    if mode = 2 then
      [.channel (2 * (channel + 1))] ++ if chip.byte a.policy ≠ 0 then [.i2c 0] else []
    else
      []
  (List.range columns).foldlM (dcColumn chip a search mode columns channel)
    { s with calls := s.calls ++ calls }

def dcModeColumns (mode : Nat) : Nat :=
  if mode = 0 then (chip.byte a.count).toNat
  else if mode = 1 then a.middleCount chip
  else chip.dcColumns

def dcMode (mode : Nat) (s : DcTable) : Option DcTable :=
  let iterations := if mode = 2 then 7 else 1
  let s := { s with
    coefficients := if mode = 0 ∨ mode = 1 then some (256, 256) else s.coefficients
    iqIndex := if chip.byte a.policy ≠ 0 then 0 else 9
    dcIndex := 0
    channelIndex := 0 }
  (List.range iterations).foldlM (dcChannel chip a search mode (dcModeColumns chip a mode)) s

/-- `while mode < end`, at most `fuel` times. -/
def dcModes : Nat → Nat → DcTable → Option DcTable
  | 0, _, _ => none
  | fuel + 1, mode, s =>
      if mode < (chip.byte a.stop).toNat then do
        let s ← dcMode chip a search mode s
        dcModes fuel ((mode + 1) % 256) s
      else
        some s

/-- The state before the first mode. -/
def dcStart (iq dc : Nat → BitVec 32) : DcTable :=
  let size := 14 * chip.dcColumns
  let calls : List DcCall :=
    [.channel 14] ++ if chip.byte a.policy ≠ 0 then [.i2c 0] else []
  ⟨iq, dc, .fresh size, .fresh size, none, 0, 0, 0, calls⟩

/-- The whole function, with the sort at its end. -/
def gainCalDc (difference : Int → Int) (fuel : Nat) (iq dc : Nat → BitVec 32) :
    Option DcTable := do
  let s ← dcModes chip a search fuel (chip.byte a.mode).toNat (dcStart chip a iq dc)
  if chip.byte a.policy ≠ 0 then
    return { s with calls := s.calls ++ [.i2c a.saved] }
  else
    let channels ← dcSort difference chip s.channels s.status
    return { s with channels := channels, calls := s.calls ++ [.sort] }

end Dc

/-! ## The sort and its reference -/

section Reference

variable {columns column channel : Nat} {status : Cells (BitVec 8)} {st : Nat → BitVec 8}

/-- The distance of a channel, which the callback of the ROM computes. -/
def channelDistance (channel candidate : Nat) : Int := |(channel : Int) - candidate|

theorem i8_distance {candidate : Nat} (hchannel : channel < 14) (hcandidate : candidate < 14) :
    i8 |(channel : Int) - candidate| = channelDistance channel candidate ∧
      channelDistance channel candidate < 20 := by
  have hbound : channelDistance channel candidate ≤ 13 := by
    rw [channelDistance, abs_le]
    omega
  have hnonneg : 0 ≤ channelDistance channel candidate := abs_nonneg _
  refine ⟨?_, by omega⟩
  change i8 (channelDistance channel candidate) = _
  rw [i8]
  omega

/-- A channel of the column has the preferred status. -/
def Preferred (columns column : Nat) (st : Nat → BitVec 8) (preference : BitVec 8)
    (candidate : Nat) : Prop :=
  st (candidate * columns + column) = preference

/-- The nearest channel with the preferred status, the lower one of two. -/
abbrev NearestChannel (columns column : Nat) (st : Nat → BitVec 8) (preference : BitVec 8)
    (channel : Nat) : Nat → Prop :=
  Search.Nearest (Preferred columns column st preference) (channelDistance channel) 14

/-- What the scan of the candidates has found so far. -/
def Picked (columns column : Nat) (st : Nat → BitVec 8) (preference : BitVec 8)
    (channel n : Nat) (pick : SortPick) : Prop :=
  (pick = ⟨channel, 20⟩ ∧ ∀ c < n, ¬Preferred columns column st preference c) ∨
    (pick.distance = channelDistance channel pick.selected ∧
      Search.Nearest (Preferred columns column st preference) (channelDistance channel) n
        pick.selected)

theorem sortCandidate_picked {preference : BitVec 8} {n : Nat} {pick : SortPick}
    (hstatus : status.Holds st) (hsize : status.size = 14 * columns) (hcolumn : column < columns)
    (hchannel : channel < 14) (hn : n < 14)
    (h : Picked columns column st preference channel n pick) :
    ∃ next, sortCandidate (fun x => |x|) columns status column preference channel pick n =
      some next ∧ Picked columns column st preference channel (n + 1) next := by
  have hread := hstatus.read_eq (hsize ▸ Cells.place_lt hn hcolumn)
  obtain ⟨hdistance, hlt⟩ := i8_distance hchannel hn
  rw [sortCandidate, hread]
  by_cases hpreferred : Preferred columns column st preference n
  · -- a candidate is taken if it is nearer than the one before
    simp only [Option.bind_eq_bind, Option.bind_some, ne_eq, show st _ = preference from hpreferred,
      not_true_eq_false, if_false, hdistance, Option.pure_def]
    refine ⟨_, rfl, Or.inr ?_⟩
    split
    · rename_i hnearer
      refine ⟨rfl, Search.Nearest.take hpreferred fun j hj hp => ?_⟩
      rcases h with ⟨-, hnone⟩ | ⟨hbest, hnearest⟩
      · exact absurd hp (hnone j hj)
      · exact lt_of_lt_of_le (hbest ▸ hnearer) (hnearest.le hj hp)
    · rename_i hfarther
      rcases h with ⟨rfl, -⟩ | ⟨hbest, hnearest⟩
      · exact absurd hlt hfarther
      · exact ⟨hbest, hnearest.keep fun _ => hbest ▸ not_lt.mp hfarther⟩
  · simp only [Option.bind_eq_bind, Option.bind_some, ne_eq,
      show ¬st _ = preference from hpreferred, not_false_eq_true, if_true, Option.pure_def]
    refine ⟨_, rfl, ?_⟩
    rcases h with ⟨rfl, hnone⟩ | ⟨hbest, hnearest⟩
    · refine Or.inl ⟨rfl, fun c hc => ?_⟩
      rcases Nat.lt_succ_iff_lt_or_eq.mp hc with hc | rfl
      · exact hnone c hc
      · exact hpreferred
    · exact Or.inr ⟨hbest, hnearest.keep fun hp => absurd hp hpreferred⟩

/-- The scan ends at the nearest channel, or at the channel itself if there is none. -/
theorem sortCandidate_scan (preference : BitVec 8) (hstatus : status.Holds st)
    (hsize : status.size = 14 * columns) (hcolumn : column < columns) (hchannel : channel < 14) :
    ∃ pick, (List.range 14).foldlM
        (sortCandidate (fun x => |x|) columns status column preference channel) ⟨channel, 20⟩ =
      some pick ∧ Picked columns column st preference channel 14 pick :=
  Loop.foldlM_range (I := Picked columns column st preference channel)
    (fun _ hn _ h => sortCandidate_picked hstatus hsize hcolumn hchannel hn h)
    (Or.inl ⟨rfl, fun c hc => absurd hc (Nat.not_lt_zero c)⟩)

/-- A cell of the sorted table, from the table before. -/
structure SortedCell (columns column : Nat) (st : Nat → BitVec 8) (preference : BitVec 8)
    (f : Nat → BitVec 32) (channel : Nat) (value : BitVec 32) : Prop where
  kept : st (channel * columns + column) = 1 → value = f (channel * columns + column)
  replaced : st (channel * columns + column) ≠ 1 →
    (∃ selected, NearestChannel columns column st preference channel selected ∧
      value = f (selected * columns + column) &&& 0xffff01ff) ∨
    ((∀ c < 14, ¬Preferred columns column st preference c) ∧
      value = f (channel * columns + column) &&& 0xffff01ff)

theorem mask_idempotent (x : BitVec 32) : x &&& 0xffff01ff &&& 0xffff01ff = x &&& 0xffff01ff := by
  rw [BitVec.and_assoc, BitVec.and_self]

/-- A channel with the preferred status has no nearer one than itself. -/
theorem nearestChannel_self {preference : BitVec 8} (hchannel : channel < 14)
    (hpreferred : Preferred columns column st preference channel) :
    NearestChannel columns column st preference channel channel := by
  have hself : channelDistance channel channel = 0 := by
    rw [channelDistance, sub_self, abs_zero]
  refine ⟨hchannel, hpreferred, fun c _ _ => ?_⟩
  rw [hself]
  rcases (abs_nonneg ((channel : Int) - c)).lt_or_eq with hlt | heq
  · exact Or.inl hlt
  · have hzero : (channel : Int) - c = 0 := abs_eq_zero.mp heq.symm
    exact Or.inr ⟨heq, by omega⟩

/-- A source of the sort has the same coefficients whether it was sorted or not. -/
theorem SortedCell.source {preference : BitVec 8} {f : Nat → BitVec 32} {value : BitVec 32}
    (hchannel : channel < 14) (hpreferred : Preferred columns column st preference channel)
    (h : SortedCell columns column st preference f channel value) :
    value &&& 0xffff01ff = f (channel * columns + column) &&& 0xffff01ff := by
  by_cases hone : st (channel * columns + column) = 1
  · rw [h.kept hone]
  · rcases h.replaced hone with ⟨selected, hnearest, rfl⟩ | ⟨hnone, -⟩
    · rw [hnearest.unique (nearestChannel_self hchannel hpreferred), mask_idempotent]
    · exact absurd hpreferred (hnone channel hchannel)

/-- The table after the channels below `n` of a column are sorted. -/
structure SortedUpTo (columns column : Nat) (st : Nat → BitVec 8) (preference : BitVec 8)
    (f : Nat → BitVec 32) (n : Nat) (g : Nat → BitVec 32) : Prop where
  sorted : ∀ channel < n,
    SortedCell columns column st preference f channel (g (channel * columns + column))
  rest : ∀ channel', n ≤ channel' →
    g (channel' * columns + column) = f (channel' * columns + column)
  other : ∀ channel' column', column' < columns → column' ≠ column →
    g (channel' * columns + column') = f (channel' * columns + column')

variable {preference : BitVec 8} {f g : Nat → BitVec 32} {n : Nat}

/-- What a source gives in the middle of the sort. -/
theorem SortedUpTo.source (h : SortedUpTo columns column st preference f n g) {selected : Nat}
    (hselected : selected < 14) (hpreferred : Preferred columns column st preference selected) :
    g (selected * columns + column) &&& 0xffff01ff =
      f (selected * columns + column) &&& 0xffff01ff := by
  rcases Nat.lt_or_ge selected n with hlt | hge
  · exact (h.sorted selected hlt).source hselected hpreferred
  · rw [h.rest selected hge]

/-- The next channel keeps its cell. -/
theorem SortedUpTo.keep (h : SortedUpTo columns column st preference f n g)
    (hone : st (n * columns + column) = 1) :
    SortedUpTo columns column st preference f (n + 1) g where
  sorted channel hchannel := by
    rcases Nat.lt_succ_iff_lt_or_eq.mp hchannel with hlt | rfl
    · exact h.sorted channel hlt
    · rw [h.rest channel (Nat.le_refl channel)]
      exact ⟨fun _ => rfl, fun hne => absurd hone hne⟩
  rest channel' hle := h.rest channel' (Nat.le_of_succ_le hle)
  other := h.other

/-- The next channel gets a cell. -/
theorem SortedUpTo.replace (h : SortedUpTo columns column st preference f n g)
    (hcolumn : column < columns) {value : BitVec 32}
    (hvalue : SortedCell columns column st preference f n value) :
    SortedUpTo columns column st preference f (n + 1)
      (Function.update g (n * columns + column) value) where
  sorted channel hchannel := by
    rcases Nat.lt_succ_iff_lt_or_eq.mp hchannel with hlt | rfl
    · have hne : channel * columns + column ≠ n * columns + column := fun heq =>
        Nat.ne_of_lt hlt (Cells.place_inj hcolumn hcolumn heq).1
      rw [Function.update_of_ne hne]
      exact h.sorted channel hlt
    · rw [Function.update_self]
      exact hvalue
  rest channel' hle := by
    have hne : channel' * columns + column ≠ n * columns + column := fun heq =>
      Nat.ne_of_gt hle (Cells.place_inj hcolumn hcolumn heq).1
    rw [Function.update_of_ne hne]
    exact h.rest channel' (Nat.le_of_succ_le hle)
  other channel' column' hcolumn' hother := by
    have hne : channel' * columns + column' ≠ n * columns + column := fun heq =>
      hother (Cells.place_inj hcolumn' hcolumn heq).2
    rw [Function.update_of_ne hne]
    exact h.other channel' column' hcolumn' hother

/-- The buffer of a table in the middle of the sort. -/
def SortBuffer (columns column : Nat) (st : Nat → BitVec 8) (preference : BitVec 8)
    (f : Nat → BitVec 32) (n : Nat) (data : Cells (BitVec 32)) : Prop :=
  data.size = 14 * columns ∧
    ∃ g, data.Holds g ∧ SortedUpTo columns column st preference f n g

theorem sortChannel_buffer {data : Cells (BitVec 32)} (hstatus : status.Holds st)
    (hsize : status.size = 14 * columns) (hcolumn : column < columns) (hn : n < 14)
    (h : SortBuffer columns column st preference f n data) :
    ∃ next, sortChannel (fun x => |x|) columns status column preference data n = some next ∧
      SortBuffer columns column st preference f (n + 1) next := by
  obtain ⟨hdata, g, hholds, hsorted⟩ := h
  have hplace : n * columns + column < 14 * columns := Cells.place_lt hn hcolumn
  rw [sortChannel, hstatus.read_eq (hsize ▸ hplace)]
  by_cases hone : st (n * columns + column) = 1
  · exact ⟨data, if_pos hone, hdata, g, hholds, hsorted.keep hone⟩
  · obtain ⟨pick, hscan, hpicked⟩ :=
      sortCandidate_scan preference hstatus hsize hcolumn hn
    -- the cell that is copied, and what it is in the table before the sort
    have hcell : pick.selected < 14 ∧ SortedCell columns column st preference f n
        (g (pick.selected * columns + column) &&& 0xffff01ff) := by
      rcases hpicked with ⟨rfl, hnone⟩ | ⟨-, hnearest⟩
      · refine ⟨hn, fun h => absurd h hone, fun _ => Or.inr ⟨hnone, ?_⟩⟩
        rw [hsorted.rest n (Nat.le_refl n)]
      · refine ⟨hnearest.lt, fun h => absurd h hone, fun _ => Or.inl ⟨_, hnearest, ?_⟩⟩
        exact hsorted.source hnearest.lt hnearest.found
    obtain ⟨hselected, hvalue⟩ := hcell
    have hread := hholds.read_eq (hdata ▸ Cells.place_lt hselected hcolumn)
    obtain ⟨next, hwrite, hnext, hholds'⟩ := hholds.write (hdata ▸ hplace)
      (g (pick.selected * columns + column) &&& 0xffff01ff)
    refine ⟨next, ?_, hnext.trans hdata, _, hholds', hsorted.replace hcolumn hvalue⟩
    simp only [Option.bind_eq_bind, Option.bind_some, hone, if_false, hscan, hread]
    exact hwrite

/-! ### The preference -/

/-- The count is zero only if it was and no channel so far has status 1. -/
def Counted (columns column : Nat) (st : Nat → BitVec 8) (first : BitVec 8) (n : Nat)
    (count : BitVec 8) : Prop :=
  count.toNat ≤ first.toNat + n ∧
    (count = 0 ↔ first = 0 ∧ ∀ c < n, st (c * columns + column) ≠ 1)

theorem sortCount_counted (hstatus : status.Holds st) (hsize : status.size = 14 * columns)
    (hcolumn : column < columns) {first count : BitVec 8} (hfirst : first.toNat ≤ 2) (hn : n < 14)
    (h : Counted columns column st first n count) :
    ∃ next, sortCount columns status column count n = some next ∧
      Counted columns column st first (n + 1) next := by
  obtain ⟨hle, hzero⟩ := h
  have hread := hstatus.read_eq (hsize ▸ Cells.place_lt hn hcolumn)
  rw [sortCount, hread]
  refine ⟨_, rfl, ?_⟩
  by_cases hone : st (n * columns + column) = 1
  · -- there are at most 14 channels, so the count does not wrap
    have hnext : (count + 1).toNat = count.toNat + 1 := by
      rw [BitVec.toNat_add]
      exact Nat.mod_eq_of_lt (by change count.toNat + 1 < 256; omega)
    rw [if_pos hone]
    refine ⟨by omega, iff_of_false (fun hcount => ?_) fun hall => ?_⟩
    · rw [hcount] at hnext
      exact absurd hnext (Nat.ne_of_lt (Nat.succ_pos _))
    · exact hall.2 n (Nat.lt_succ_self n) hone
  · rw [if_neg hone]
    refine ⟨by omega, hzero.trans (and_congr_right fun _ => ?_)⟩
    constructor
    · intro hall c hc
      rcases Nat.lt_succ_iff_lt_or_eq.mp hc with hc | rfl
      · exact hall c hc
      · exact hone
    · exact fun hall c hc => hall c (Nat.lt_succ_of_lt hc)

theorem sortCount_spec (hstatus : status.Holds st) (hsize : status.size = 14 * columns)
    (hcolumn : column < columns) {first : BitVec 8} (hfirst : first.toNat ≤ 2) :
    ∃ count, (List.range 14).foldlM (sortCount columns status column) first = some count ∧
      Counted columns column st first 14 count :=
  Loop.foldlM_range (I := Counted columns column st first)
    (fun _ hn _ h => sortCount_counted hstatus hsize hcolumn hfirst hn h)
    ⟨Nat.le_refl _, by simp⟩

/-- No channel of the column has status 1. -/
def LacksOne (columns : Nat) (st : Nat → BitVec 8) (column : Nat) : Prop :=
  ∀ c < 14, st (c * columns + column) ≠ 1

instance (columns : Nat) (st : Nat → BitVec 8) (column : Nat) :
    Decidable (LacksOne columns st column) :=
  Nat.decidableBallLT 14 fun c _ => st (c * columns + column) ≠ 1

/-- The preferred status of a column: 2 in the first column if it has no status 1, otherwise 1. -/
def preferenceOf (columns : Nat) (st : Nat → BitVec 8) (column : Nat) : BitVec 8 :=
  if column = 0 ∧ LacksOne columns st column then 2 else 1

theorem preferenceOf_range (columns : Nat) (st : Nat → BitVec 8) (column : Nat) :
    (preferenceOf columns st column).toNat ≤ 2 ∧ preferenceOf columns st column ≠ 0 := by
  rw [preferenceOf]
  split
  · exact ⟨Nat.le_refl 2, by decide⟩
  · exact ⟨by decide, by decide⟩

/-- If a search only gives 0 or 1, the preferred channels are those with status 1. -/
theorem preferred_iff
    (hst : ∀ c < 14, st (c * columns + column) = 0 ∨ st (c * columns + column) = 1)
    {c : Nat} (hc : c < 14) :
    Preferred columns column st (preferenceOf columns st column) c ↔
      st (c * columns + column) = 1 := by
  rw [Preferred, preferenceOf]
  split
  · rename_i hlacks
    refine iff_of_false (fun htwo => ?_) (hlacks.2 c hc)
    rcases hst c hc with hzero | hone
    · exact absurd (hzero.symm.trans htwo) (by decide)
    · exact absurd hone (hlacks.2 c hc)
  · exact Iff.rfl

/-! ### The columns -/

/-- The table after the columns below `k` are sorted, with the preference of the last one. -/
structure ColumnsSorted (columns : Nat) (st : Nat → BitVec 8) (f : Nat → BitVec 32) (k : Nat)
    (s : BitVec 8 × Cells (BitVec 32)) : Prop where
  preference : s.1.toNat ≤ 2 ∧ (s.1 = 0 ↔ k = 0)
  size : s.2.size = 14 * columns
  holds : ∃ g, s.2.Holds g ∧
    (∀ column < k, ∀ channel < 14, SortedCell columns column st (preferenceOf columns st column) f
      channel (g (channel * columns + column))) ∧
    ∀ channel column, k ≤ column → column < columns →
      g (channel * columns + column) = f (channel * columns + column)

theorem SortedCell.congr {value : BitVec 32}
    (hfg : ∀ c, g (c * columns + column) = f (c * columns + column))
    (h : SortedCell columns column st preference g channel value) :
    SortedCell columns column st preference f channel value where
  kept hone := (h.kept hone).trans (hfg channel)
  replaced hone := by
    rcases h.replaced hone with ⟨selected, hnearest, hvalue⟩ | ⟨hnone, hvalue⟩
    · exact Or.inl ⟨selected, hnearest, hfg selected ▸ hvalue⟩
    · exact Or.inr ⟨hnone, hfg channel ▸ hvalue⟩

theorem sortColumn_sorted {k : Nat} {s : BitVec 8 × Cells (BitVec 32)}
    (hstatus : status.Holds st) (hsize : status.size = 14 * columns) (hk : k < columns)
    (h : ColumnsSorted columns st f k s) :
    ∃ next, sortColumn (fun x => |x|) columns status s k = some next ∧
      ColumnsSorted columns st f (k + 1) next := by
  obtain ⟨⟨hpreference, hfirst⟩, hdata, g, hholds, hsorted, hrest⟩ := h
  obtain ⟨count, hcount, -, hzero⟩ := sortCount_spec hstatus hsize hk hpreference
  have hpreferenceOf : (if count = 0 then 2 else 1) = preferenceOf columns st k := by
    rw [preferenceOf]
    exact if_congr (hzero.trans (and_congr_left fun _ => hfirst)) rfl rfl
  obtain ⟨data, hrun, hdata', g', hholds', hcolumn⟩ := Loop.foldlM_range
    (I := SortBuffer columns k st (preferenceOf columns st k) g)
    (fun _ hn _ h => sortChannel_buffer hstatus hsize hk hn h)
    ⟨hdata, g, hholds, fun channel hchannel => absurd hchannel (Nat.not_lt_zero channel),
      fun _ _ => rfl, fun _ _ _ _ => rfl⟩
  obtain ⟨hle, hne⟩ := preferenceOf_range columns st k
  refine ⟨(preferenceOf columns st k, data), ?_, ⟨hle, iff_of_false hne (Nat.succ_ne_zero k)⟩,
    hdata', g', hholds', ?_, ?_⟩
  · rw [sortColumn, hcount]
    simp only [Option.bind_eq_bind, Option.bind_some, hpreferenceOf, hrun, Option.pure_def]
  · intro column hlt channel hchannel
    rcases Nat.lt_succ_iff_lt_or_eq.mp hlt with hlt | rfl
    · rw [hcolumn.other channel column (Nat.lt_trans hlt hk) (Nat.ne_of_lt hlt)]
      exact hsorted column hlt channel hchannel
    · exact (hcolumn.sorted channel hchannel).congr fun c => hrest c column (Nat.le_refl _) hk
  · intro channel column hle hlt
    rw [hcolumn.other channel column hlt (Nat.ne_of_gt hle)]
    exact hrest channel column (Nat.le_of_succ_le hle) hlt

/-- For any status bytes and any data the sort gives the table of its reference. -/
theorem dcSort_reference (chip : PhyChip) {data : Cells (BitVec 32)}
    (hstatus : status.Holds st) (hstatusSize : status.size = 14 * chip.dcColumns)
    (hdata : data.Holds f) (hdataSize : data.size = 14 * chip.dcColumns) :
    ∃ sorted g, dcSort (fun x => |x|) chip data status = some sorted ∧
      sorted.size = 14 * chip.dcColumns ∧ sorted.Holds g ∧
      ∀ column < chip.dcColumns, ∀ channel < 14,
        SortedCell chip.dcColumns column st (preferenceOf chip.dcColumns st column) f channel
          (g (channel * chip.dcColumns + column)) := by
  obtain ⟨s, hrun, -, hsize, g, hholds, hsorted, -⟩ := Loop.foldlM_range
    (I := ColumnsSorted chip.dcColumns st f) (s := (0, data))
    (fun _ hk _ h => sortColumn_sorted hstatus hstatusSize hk h)
    ⟨⟨Nat.zero_le 2, iff_of_true rfl rfl⟩, hdataSize, f, hdata,
      fun column hcolumn => absurd hcolumn (Nat.not_lt_zero column), fun _ _ _ _ => rfl⟩
  refine ⟨s.2, g, ?_, hsize, hholds, hsorted⟩
  rw [dcSort, hrun]
  rfl

end Reference

/-! ## What `dc` writes -/

section Writes

variable (chip : PhyChip) (a : DcArgs) (search : Nat → Nat → Nat → DcOutcome)

theorem dcPrepare_fields (mode : Nat) (gain : BitVec 32) (s : DcTable) :
    (dcPrepare mode gain s).channels = s.channels ∧ (dcPrepare mode gain s).status = s.status ∧
      (dcPrepare mode gain s).channelIndex = s.channelIndex := by
  rw [dcPrepare]
  split
  · exact ⟨rfl, rfl, rfl⟩
  · split
    · exact ⟨rfl, rfl, rfl⟩
    · exact ⟨rfl, rfl, rfl⟩

/-- A search has coefficients to start with. -/
theorem dcPrepare_coefficients (mode : Nat) (gain : BitVec 32) {s : DcTable}
    (h : mode = 2 ∨ s.coefficients.isSome) :
    ∃ pair, (dcPrepare mode gain s).coefficients = some pair := by
  rw [dcPrepare]
  split
  · rename_i hmode
    rcases h with rfl | h
    · cases hmode
    · exact Option.isSome_iff_exists.mp h
  · split
    · exact ⟨_, rfl⟩
    · rename_i hmode
      exact Option.isSome_iff_exists.mp (h.resolve_left hmode)

theorem dcSearch_spec (mode channel column : Nat) {offset : Nat} {s : DcTable}
    (hcoefficients : ∃ pair, s.coefficients = some pair) (hoffset : offset < s.status.size) :
    ∃ t, dcSearch search mode channel column offset s = some t ∧
      t.status.size = s.status.size ∧
      t.status.cell offset = some (search mode channel column).status ∧
      (∀ j, j ≠ offset → t.status.cell j = s.status.cell j) ∧
      t.coefficients = some ((search mode channel column).first,
        (search mode channel column).second) ∧
      t.channels = s.channels ∧ t.channelIndex = s.channelIndex := by
  obtain ⟨pair, hpair⟩ := hcoefficients
  obtain ⟨status, hwrite, hsize, hself, hother⟩ :=
    Cells.write_spec hoffset (search mode channel column).status
  rw [dcSearch, hpair]
  simp only [Option.bind_eq_bind, Option.bind_some, hwrite, Option.pure_def]
  exact ⟨_, rfl, hsize, hself, hother, rfl, rfl, rfl⟩

/-! ### The first two modes -/

/-- The state in the first two modes, which do not write to the table of the channels. -/
structure DcPlain (s : DcTable) : Prop where
  channels : s.channels.size = 14 * chip.dcColumns
  status : s.status.size = 14 * chip.dcColumns
  index : s.channelIndex = 0
  coefficients : s.coefficients.isSome

theorem dcStore_plain {mode : Nat} (columns offset : Nat) (hmode : mode = 0 ∨ mode = 1)
    {s : DcTable} (h : DcPlain chip s) :
    ∃ t, dcStore chip mode columns offset s = some t ∧ DcPlain chip t := by
  obtain ⟨pair, hpair⟩ := Option.isSome_iff_exists.mp h.coefficients
  rw [dcStore, hpair]
  rcases hmode with rfl | rfl
  · exact ⟨_, rfl, h.channels, h.status, h.index, rfl⟩
  · exact ⟨_, rfl, h.channels, h.status, h.index, rfl⟩

theorem dcColumn_plain {mode column : Nat} (columns : Nat) (hmode : mode = 0 ∨ mode = 1)
    (hcolumn : column < 14) {gain : BitVec 32} (hgain : dcGain chip a mode column = some gain)
    {s : DcTable} (h : DcPlain chip s) :
    ∃ t, dcColumn chip a search mode columns 0 s column = some t ∧ DcPlain chip t := by
  obtain ⟨hchannels, hstatus, hindex⟩ := dcPrepare_fields mode gain s
  have hcoefficients := dcPrepare_coefficients mode gain (Or.inr h.coefficients)
  rw [dcColumn, hgain]
  simp only [Option.bind_eq_bind, Option.bind_some]
  generalize dcPrepare mode gain s = p at *
  have hoffset : dcOffset chip p columns 0 column < p.status.size := by
    rw [hstatus, h.status]
    cases chip with
    | esp32s3 =>
        rw [dcOffset, hindex, h.index]
        decide
    | esp32c3 =>
        change 0 * columns * 2 + column < 42
        omega
  obtain ⟨t, ht, htSize, -, -, htCoefficients, htChannels, htIndex⟩ :=
    dcSearch_spec search mode 0 column hcoefficients hoffset
  rw [ht]
  apply dcStore_plain chip columns _ hmode
  constructor
  case channels => rw [htChannels, hchannels, h.channels]
  case status => rw [htSize, hstatus, h.status]
  case index => rw [htIndex, hindex, h.index]
  case coefficients => rw [htCoefficients]; rfl

theorem dcGain_middle {column : Nat} (hcolumn : column < 4) :
    ∃ gain, dcGain chip a 1 column = some gain := by
  have hcoefficient : ∃ coefficient, [0, 1, 5, 13, 29][column]? = some coefficient :=
    ⟨_, List.getElem?_eq_getElem (Nat.lt_succ_of_lt hcolumn)⟩
  obtain ⟨coefficient, hcoefficient⟩ := hcoefficient
  simp only [dcGain, hcoefficient, one_ne_zero, if_false, if_true, Option.bind_eq_bind,
    Option.bind_some, Option.pure_def]
  exact ⟨_, rfl⟩

/-- One of the first two modes. -/
theorem dcMode_plain (mode : Nat) (hmode : mode = 0 ∨ mode = 1)
    (hcolumns : dcModeColumns chip a mode ≤ 14)
    (hgain : ∀ column < dcModeColumns chip a mode, ∃ gain, dcGain chip a mode column = some gain)
    {s : DcTable} (hchannels : s.channels.size = 14 * chip.dcColumns)
    (hstatus : s.status.size = 14 * chip.dcColumns) :
    ∃ t, dcMode chip a search mode s = some t ∧ DcPlain chip t := by
  have hiterations : (if mode = 2 then 7 else 1) = 1 := if_neg (by omega)
  have hchannel : ∀ k < 1, ∀ t, DcPlain chip t →
      ∃ u, dcChannel chip a search mode (dcModeColumns chip a mode) t k = some u ∧
        DcPlain chip u := by
    intro k hk t ht
    obtain rfl := Nat.lt_one_iff.mp hk
    refine Loop.foldlM_range (I := fun _ u => DcPlain chip u) (fun column hcolumn u hu => ?_)
      ⟨ht.channels, ht.status, ht.index, ht.coefficients⟩
    obtain ⟨gain, hgain⟩ := hgain column hcolumn
    exact dcColumn_plain chip a search _ hmode (Nat.lt_of_lt_of_le hcolumn hcolumns) hgain hu
  rw [dcMode, hiterations]
  refine Loop.foldlM_range (I := fun _ u => DcPlain chip u) hchannel ?_
  exact ⟨hchannels, hstatus, rfl, by rw [if_pos hmode]; rfl⟩

/-! ### The table of the channels -/

/-- The word of a search, in its column. -/
def searchWord (k column : Nat) : BitVec 32 :=
  packDc (search 2 k column).first (search 2 k column).second

/-- The searches below `k`, and below `column` for the search `k` itself, are in the table. -/
structure DcFilled (k column : Nat) (s : DcTable) : Prop where
  channels : s.channels.size = 14 * chip.dcColumns
  status : s.status.size = 14 * chip.dcColumns
  index : chip = .esp32s3 → s.channelIndex = k + column
  cells : ∀ k' column', column' < chip.dcColumns → k' < k ∨ (k' = k ∧ column' < column) →
    ∀ b < 2, s.channels.cell ((2 * k' + b) * chip.dcColumns + column') =
        some (searchWord search k' column') ∧
      s.status.cell ((2 * k' + b) * chip.dcColumns + column') = some (search 2 k' column').status

/-- Both chips put the search `k` to the channels `2 * k` and `2 * k + 1`. -/
theorem dcOffset_eq {k column : Nat} (hcolumn : column < chip.dcColumns) {s : DcTable}
    (hindex : chip = .esp32s3 → s.channelIndex = k + column) :
    dcOffset chip s chip.dcColumns k column = (2 * k + 0) * chip.dcColumns + column ∧
      dcOffset chip s chip.dcColumns k column + chip.dcNext chip.dcColumns =
        (2 * k + 1) * chip.dcColumns + column := by
  cases chip with
  | esp32s3 =>
      have hs := hindex rfl
      simp only [dcOffset, PhyChip.dcNext, PhyChip.dcColumns] at hcolumn ⊢
      omega
  | esp32c3 =>
      simp only [dcOffset, PhyChip.dcNext, PhyChip.dcColumns]
      omega

theorem dcGain_table (hcount : 3 ≤ (chip.byte a.count).toNat) (column : Nat) :
    ∃ gain, dcGain chip a 2 column = some gain := by
  cases chip with
  | esp32s3 => exact ⟨_, if_pos (Nat.le_trans (by decide) hcount)⟩
  | esp32c3 => exact ⟨_, if_pos (Nat.le_trans hcount (Nat.le_add_right _ _))⟩

variable {chip search} in
/-- One more search is in the table, and the cells of the others have not changed. -/
theorem DcFilled.extend {k column : Nat} (hcolumn : column < chip.dcColumns) {s t : DcTable}
    (h : DcFilled chip search k column s) (hchannels : t.channels.size = s.channels.size)
    (hstatus : t.status.size = s.status.size)
    (hindex : chip = .esp32s3 → t.channelIndex = k + (column + 1))
    (hself : ∀ b < 2, t.channels.cell ((2 * k + b) * chip.dcColumns + column) =
        some (searchWord search k column) ∧
      t.status.cell ((2 * k + b) * chip.dcColumns + column) = some (search 2 k column).status)
    (hother : ∀ j, (∀ b < 2, j ≠ (2 * k + b) * chip.dcColumns + column) →
      t.channels.cell j = s.channels.cell j ∧ t.status.cell j = s.status.cell j) :
    DcFilled chip search k (column + 1) t := by
  refine ⟨hchannels.trans h.channels, hstatus.trans h.status, hindex, ?_⟩
  intro k' column' hcolumn' hwritten b hb
  by_cases hsame : k' = k ∧ column' = column
  · obtain ⟨rfl, rfl⟩ := hsame
    exact hself b hb
  · have hne : ∀ b' < 2, (2 * k' + b) * chip.dcColumns + column' ≠
        (2 * k + b') * chip.dcColumns + column := by
      intro b' hb' heq
      have hplace := Cells.place_inj hcolumn' hcolumn heq
      omega
    obtain ⟨hcellChannels, hcellStatus⟩ := hother _ hne
    rw [hcellChannels, hcellStatus]
    exact h.cells k' column' hcolumn' (by omega) b hb

theorem dcStore_table {columns offset : Nat} {s : DcTable} {x y : BitVec 16} {v : BitVec 8}
    (hcoefficients : s.coefficients = some (x, y)) (hfirst : offset < s.channels.size)
    (hsecond : offset + chip.dcNext columns < s.channels.size)
    (hsize : s.status.size = s.channels.size) (hne : offset ≠ offset + chip.dcNext columns)
    (hv : s.status.cell offset = some v) :
    ∃ t, dcStore chip 2 columns offset s = some t ∧
      (t.channels.size = s.channels.size ∧ t.status.size = s.status.size) ∧
      (t.channels.cell offset = some (packDc x y) ∧ t.status.cell offset = some v) ∧
      (t.channels.cell (offset + chip.dcNext columns) = some (packDc x y) ∧
        t.status.cell (offset + chip.dcNext columns) = some v) ∧
      (∀ j, j ≠ offset → j ≠ offset + chip.dcNext columns →
        t.channels.cell j = s.channels.cell j ∧ t.status.cell j = s.status.cell j) ∧
      t.channelIndex = chip.dcNextIndex s.channelIndex := by
  obtain ⟨c, hc, hcSize, hcSelf, hcOther⟩ := Cells.write_spec hfirst (packDc x y)
  obtain ⟨d, hd, hdSize, hdSelf, hdOther⟩ := Cells.write_spec (hcSize ▸ hsecond) (packDc x y)
  have hread : s.status.read offset = some v := (Cells.read_eq (hsize ▸ hfirst)).trans hv
  obtain ⟨e, he, heSize, heSelf, heOther⟩ := Cells.write_spec (hsize ▸ hsecond) v
  rw [dcStore, hcoefficients]
  simp only [Option.bind_eq_bind, Option.bind_some, OfNat.ofNat_ne_one, OfNat.ofNat_ne_zero,
    if_false, hc, hd, hread, he, Option.pure_def]
  refine ⟨_, rfl, ⟨hdSize.trans hcSize, heSize⟩, ⟨?_, ?_⟩, ⟨hdSelf, heSelf⟩, ?_, rfl⟩
  · exact (hdOther offset hne).trans hcSelf
  · exact (heOther offset hne).trans hv
  · intro j hj hj'
    exact ⟨(hdOther j hj').trans (hcOther j hj), heOther j hj'⟩

theorem dcColumn_filled (hcount : 3 ≤ (chip.byte a.count).toNat) {k column : Nat} (hk : k < 7)
    (hcolumn : column < chip.dcColumns) {s : DcTable} (h : DcFilled chip search k column s) :
    ∃ t, dcColumn chip a search 2 chip.dcColumns k s column = some t ∧
      DcFilled chip search k (column + 1) t := by
  obtain ⟨gain, hgain⟩ := dcGain_table chip a hcount column
  obtain ⟨hchannels, hstatus, hindex⟩ := dcPrepare_fields 2 gain s
  have hcoefficients := dcPrepare_coefficients 2 gain (s := s) (Or.inl rfl)
  rw [dcColumn, hgain]
  simp only [Option.bind_eq_bind, Option.bind_some]
  generalize dcPrepare 2 gain s = p at *
  obtain ⟨hfirst, hsecond⟩ := dcOffset_eq chip (k := k) (s := p) hcolumn
    fun hs => hindex.trans (h.index hs)
  have hfirstLt : (2 * k + 0) * chip.dcColumns + column < 14 * chip.dcColumns :=
    Cells.place_lt (by omega) hcolumn
  have hsecondLt : (2 * k + 1) * chip.dcColumns + column < 14 * chip.dcColumns :=
    Cells.place_lt (by omega) hcolumn
  rw [hfirst]
  obtain ⟨t, ht, htSize, htSelf, htOther, htCoefficients, htChannels, htIndex⟩ :=
    dcSearch_spec search 2 k column hcoefficients (by rw [hstatus, h.status]; exact hfirstLt)
  have htStatus : t.status.size = t.channels.size := by
    rw [htSize, hstatus, h.status, htChannels, hchannels, h.channels]
  have htLt : ∀ {j}, j < 14 * chip.dcColumns → j < t.channels.size := by
    intro j hj
    rwa [htChannels, hchannels, h.channels]
  rw [hfirst] at hsecond
  obtain ⟨u, hu, ⟨huChannels, huStatus⟩, huFirst, huSecond, huOther, huIndex⟩ :=
    dcStore_table chip htCoefficients (htLt hfirstLt) (hsecond ▸ htLt hsecondLt) htStatus
      (by rw [hsecond]; intro heq; have := (Cells.place_inj hcolumn hcolumn heq).1; omega) htSelf
  rw [hsecond] at huSecond huOther
  rw [ht]
  refine ⟨u, hu, h.extend hcolumn ?_ ?_ ?_ ?_ ?_⟩
  · rw [huChannels, htChannels, hchannels]
  · rw [huStatus, htSize, hstatus]
  · intro hs
    have hbefore := h.index hs
    subst hs
    rw [huIndex, htIndex, hindex, hbefore]
    change (k + column + 1) % 256 = k + (column + 1)
    have hlt : column < 1 := hcolumn
    omega
  · intro b hb
    rcases Nat.lt_succ_iff_lt_or_eq.mp hb with hb | rfl
    · obtain rfl := Nat.lt_one_iff.mp hb
      exact huFirst
    · exact huSecond
  · intro j hj
    obtain ⟨hcellChannels, hcellStatus⟩ := huOther j (hj 0 (by decide)) (hj 1 (by decide))
    constructor
    · rw [hcellChannels, htChannels, hchannels]
    · rw [hcellStatus, htOther j (hj 0 (by decide)), hstatus]

/-- The last mode fills the table. -/
theorem dcMode_filled (hcount : 3 ≤ (chip.byte a.count).toNat) {s : DcTable}
    (hchannels : s.channels.size = 14 * chip.dcColumns)
    (hstatus : s.status.size = 14 * chip.dcColumns) :
    ∃ t, dcMode chip a search 2 s = some t ∧ DcFilled chip search 7 0 t := by
  have hchannel : ∀ k < 7, ∀ t, DcFilled chip search k 0 t →
      ∃ u, dcChannel chip a search 2 chip.dcColumns t k = some u ∧
        DcFilled chip search (k + 1) 0 u := by
    intro k hk t ht
    obtain ⟨u, hu, hfilled⟩ := Loop.foldlM_range (I := DcFilled chip search k)
      (fun column hcolumn u hu => dcColumn_filled chip a search hcount hk hcolumn hu)
      (s := { t with calls := t.calls ++ _ }) ⟨ht.channels, ht.status, ht.index, ht.cells⟩
    refine ⟨u, hu, hfilled.channels, hfilled.status, fun hs => ?_, ?_⟩
    · have hindex := hfilled.index hs
      subst hs
      exact hindex
    · intro k' column' hcolumn' hwritten b hb
      exact hfilled.cells k' column' hcolumn' (by omega) b hb
  refine Loop.foldlM_range (I := fun k => DcFilled chip search k 0) hchannel ?_
  exact ⟨hchannels, hstatus, fun _ => rfl, fun k' column' _ hwritten => by omega⟩

/-! ## The table after the calibration -/

/-- The word of a cell before the sort. -/
def filledWord (i : Nat) : BitVec 32 :=
  searchWord search (i / chip.dcColumns / 2) (i % chip.dcColumns)

/-- The status of a cell before the sort. -/
def filledStatus (i : Nat) : BitVec 8 :=
  (search 2 (i / chip.dcColumns / 2) (i % chip.dcColumns)).status

/-- After seven searches no cell is left out. -/
theorem DcFilled.holds {s : DcTable} (h : DcFilled chip search 7 0 s) :
    s.channels.Holds (filledWord chip search) ∧ s.status.Holds (filledStatus chip search) := by
  have hcell : ∀ i < 14 * chip.dcColumns,
      s.channels.cell i = some (filledWord chip search i) ∧
        s.status.cell i = some (filledStatus chip search i) := by
    intro i hi
    have hrow : i / chip.dcColumns < 14 := Nat.div_lt_of_lt_mul (Nat.mul_comm _ _ ▸ hi)
    have hpositive : 0 < chip.dcColumns := by cases chip <;> decide
    have hcells := h.cells (i / chip.dcColumns / 2) (i % chip.dcColumns) (Nat.mod_lt i hpositive)
      (Or.inl (by omega)) (i / chip.dcColumns % 2) (Nat.mod_lt _ (by decide))
    rwa [Nat.div_add_mod, Nat.div_add_mod'] at hcells
  exact ⟨fun i hi => (hcell i (h.channels ▸ hi)).1, fun i hi => (hcell i (h.status ▸ hi)).2⟩

/-- The calibration of the channels, as `set_param` calls it.  A search of a channel succeeds or
not, and gives coefficients of nine bits. -/
structure DcArgs.Calibration : Prop where
  policy : a.policy = 0
  mode : a.mode = 0
  stop : a.stop = 3
  middle : a.middleCount chip = 4
  count : 3 ≤ a.count.toNat ∧ a.count.toNat ≤ 9
  outcome : ∀ column < chip.dcColumns, ∀ k < 7,
    ((search 2 k column).status = 0 ∨ (search 2 k column).status = 1) ∧
      (search 2 k column).first.toNat ≤ 511 ∧ (search 2 k column).second.toNat ≤ 511

variable {chip a search}

/-- The three modes of a calibration.  Only the last one is seen in the table. -/
theorem dcModes_filled (h : a.Calibration chip search) {fuel : Nat} (hfuel : 4 ≤ fuel)
    (iq dc : Nat → BitVec 32) :
    ∃ t, dcModes chip a search fuel 0 (dcStart chip a iq dc) = some t ∧
      DcFilled chip search 7 0 t := by
  obtain ⟨hcount, hcount'⟩ := h.count
  have hbyte : chip.byte a.count = a.count := PhyChip.byte_of_lt (by omega)
  have hend : (chip.byte a.stop).toNat = 3 := by
    rw [h.stop, PhyChip.byte_of_lt (by decide)]
    rfl
  obtain ⟨s₁, hs₁, hplain₁⟩ := dcMode_plain chip a search 0 (Or.inl rfl)
    (by change (chip.byte a.count).toNat ≤ 14; rw [hbyte]; omega) (fun _ _ => ⟨_, rfl⟩)
    (s := dcStart chip a iq dc) rfl rfl
  obtain ⟨s₂, hs₂, hplain₂⟩ := dcMode_plain chip a search 1 (Or.inr rfl)
    (by change a.middleCount chip ≤ 14; rw [h.middle]; decide)
    (fun _ hcolumn => dcGain_middle chip a (Nat.lt_of_lt_of_eq hcolumn h.middle))
    hplain₁.channels hplain₁.status
  obtain ⟨t, ht, hfilled⟩ := dcMode_filled chip a search (hbyte.symm ▸ hcount)
    hplain₂.channels hplain₂.status
  obtain ⟨n, rfl⟩ := Nat.exists_eq_add_of_le' hfuel
  refine ⟨t, ?_, hfilled⟩
  simp only [dcModes, hend, hs₁, hs₂, ht, Option.bind_eq_bind, Option.bind_some]
  rfl

/-- With policy 0 the sort is the end of the calibration. -/
theorem gainCalDc_of_sort (h : a.Calibration chip search) {difference : Int → Int} {fuel : Nat}
    {iq dc : Nat → BitVec 32} {t : DcTable} {sorted : Cells (BitVec 32)}
    (ht : dcModes chip a search fuel 0 (dcStart chip a iq dc) = some t)
    (hsort : dcSort difference chip t.channels t.status = some sorted) :
    gainCalDc chip a search difference fuel iq dc =
      some { t with channels := sorted, calls := t.calls ++ [.sort] } := by
  have hpolicy : chip.byte a.policy = 0 := by
    rw [h.policy, PhyChip.byte_of_lt (by decide)]
  have hmode : (chip.byte a.mode).toNat = 0 := by
    rw [h.mode, PhyChip.byte_of_lt (by decide)]
    rfl
  rw [gainCalDc, hmode, ht]
  simp only [Option.bind_eq_bind, Option.bind_some, hpolicy, ne_eq, not_true_eq_false, if_false,
    hsort, Option.pure_def]

/-- The mask of the sort keeps a pair of coefficients. -/
theorem packDc_mask {x y : BitVec 16} (hy : y.toNat ≤ 511) :
    packDc x y &&& 0xffff01ff = packDc x y := by
  have hmask : ∀ i < 32, i < 9 ∨ 16 ≤ i →
      (0xffff01ff : BitVec 32).getLsbD i = true := by decide
  apply BitVec.eq_of_getLsbD_eq
  intro i hi
  rw [BitVec.getLsbD_and]
  by_cases hbit : i < 9 ∨ 16 ≤ i
  · rw [hmask i hi hbit, Bool.and_true]
  · -- the bits between belong to the second coefficient, which does not reach them
    obtain ⟨hge, hlt⟩ := not_or.mp hbit
    have hy' : y.getLsbD i = false := by
      apply Nat.testBit_lt_two_pow
      calc y.toNat < 2 ^ 9 := by omega
        _ ≤ 2 ^ i := Nat.pow_le_pow_right (by decide) (by omega)
    have hlow : (packDc x y).getLsbD i = false := by
      rw [packDc, BitVec.getLsbD_or, BitVec.getLsbD_shiftLeft, BitVec.getLsbD_signExtend, hy']
      simp only [hi, decide_true, Bool.true_and, show i < 16 by omega, Bool.not_true,
        Bool.false_and, Bool.or_false, if_true]
    rw [hlow, Bool.false_and]

/-- A cell of the calibrated table: the word of its search, or if that has failed, the word of the
nearest channel whose search has not. -/
structure CalibratedCell (search : Nat → Nat → Nat → DcOutcome) (column channel : Nat)
    (value : BitVec 32) : Prop where
  kept : (search 2 (channel / 2) column).status = 1 →
    value = searchWord search (channel / 2) column
  replaced : (search 2 (channel / 2) column).status ≠ 1 →
    (∃ selected, Search.Nearest (fun c => (search 2 (c / 2) column).status = 1)
        (channelDistance channel) 14 selected ∧
      value = searchWord search (selected / 2) column) ∨
    ((∀ c < 14, (search 2 (c / 2) column).status ≠ 1) ∧
      value = searchWord search (channel / 2) column)

/-- With the status bytes of a search, the reference of the sort is the one of the calibration. -/
theorem SortedCell.calibrated (ha : a.Calibration chip search) {channel column : Nat}
    (hcolumn : column < chip.dcColumns) (hchannel : channel < 14) {value : BitVec 32}
    (h : SortedCell chip.dcColumns column (filledStatus chip search)
      (preferenceOf chip.dcColumns (filledStatus chip search) column) (filledWord chip search)
      channel value) :
    CalibratedCell search column channel value := by
  have hstatus : ∀ c, filledStatus chip search (c * chip.dcColumns + column) =
      (search 2 (c / 2) column).status := by
    intro c
    obtain ⟨hdiv, hmod⟩ := Cells.place_div_mod c hcolumn
    rw [filledStatus, hdiv, hmod]
  have hword : ∀ c < 14, filledWord chip search (c * chip.dcColumns + column) &&& 0xffff01ff =
      searchWord search (c / 2) column := by
    intro c hc
    obtain ⟨hdiv, hmod⟩ := Cells.place_div_mod c hcolumn
    rw [filledWord, hdiv, hmod]
    exact packDc_mask (ha.outcome column hcolumn (c / 2) (by omega)).2.2
  have hpreferred : ∀ c < 14, Preferred chip.dcColumns column (filledStatus chip search)
      (preferenceOf chip.dcColumns (filledStatus chip search) column) c ↔
        (search 2 (c / 2) column).status = 1 := by
    intro c hc
    have hst : ∀ c < 14, filledStatus chip search (c * chip.dcColumns + column) = 0 ∨
        filledStatus chip search (c * chip.dcColumns + column) = 1 := by
      intro c hc
      rw [hstatus]
      exact (ha.outcome column hcolumn (c / 2) (by omega)).1
    rw [preferred_iff hst hc, hstatus]
  refine ⟨fun hone => ?_, fun hne => ?_⟩
  · obtain ⟨hdiv, hmod⟩ := Cells.place_div_mod channel hcolumn
    rw [h.kept ((hstatus channel).trans hone), filledWord, hdiv, hmod]
  rcases h.replaced (by rw [hstatus]; exact hne) with
    ⟨selected, hnearest, rfl⟩ | ⟨hnone, rfl⟩
  · exact Or.inl ⟨selected, hnearest.congr hpreferred, hword selected hnearest.lt⟩
  · exact Or.inr ⟨fun c hc hone => hnone c hc ((hpreferred c hc).mpr hone), hword channel hchannel⟩

end Writes

/-- A calibration with policy 0 writes all cells of the table and of the status buffer before the
sort reads them, and no access leaves the two.  Its table is the one of the reference.  And for any
status bytes and data the sort, which works in place, gives what its reference gives from the table
before. -/
theorem dc_table_reference :
    (∀ (chip : PhyChip) (a : DcArgs) (search : Nat → Nat → Nat → DcOutcome)
      (iq dc : Nat → BitVec 32) (fuel : Nat), a.Calibration chip search → 4 ≤ fuel →
      (∃ t, dcModes chip a search fuel 0 (dcStart chip a iq dc) = some t ∧
        ∀ column < chip.dcColumns, ∀ channel < 14,
          t.channels.read (channel * chip.dcColumns + column) =
              some (searchWord search (channel / 2) column) ∧
            t.status.read (channel * chip.dcColumns + column) =
              some (search 2 (channel / 2) column).status) ∧
      ∃ s, gainCalDc chip a search (fun x => |x|) fuel iq dc = some s ∧
        ∀ column < chip.dcColumns, ∀ channel < 14, ∃ value,
          s.channels.read (channel * chip.dcColumns + column) = some value ∧
            CalibratedCell search column channel value) ∧
    ∀ (chip : PhyChip) (st : Nat → BitVec 8) (f : Nat → BitVec 32),
      ∃ sorted, dcSort (fun x => |x|) chip (.full (14 * chip.dcColumns) f)
          (.full (14 * chip.dcColumns) st) = some sorted ∧
        ∀ column < chip.dcColumns, ∀ channel < 14, ∃ value,
          sorted.read (channel * chip.dcColumns + column) = some value ∧
            SortedCell chip.dcColumns column st (preferenceOf chip.dcColumns st column) f channel
              value := by
  constructor
  · intro chip a search iq dc fuel ha hfuel
    obtain ⟨t, ht, hfilled⟩ := dcModes_filled ha hfuel iq dc
    obtain ⟨hchannels, hstatus⟩ := hfilled.holds
    constructor
    · refine ⟨t, ht, fun column hcolumn channel hchannel => ?_⟩
      have hplace := Cells.place_lt hchannel hcolumn
      obtain ⟨hdiv, hmod⟩ := Cells.place_div_mod channel hcolumn
      rw [hchannels.read_eq (hfilled.channels ▸ hplace), hstatus.read_eq (hfilled.status ▸ hplace),
        filledWord, filledStatus, hdiv, hmod]
      exact ⟨rfl, rfl⟩
    · obtain ⟨sorted, g, hsort, hsize, hholds, hcells⟩ :=
        dcSort_reference chip hstatus hfilled.status hchannels hfilled.channels
      refine ⟨_, gainCalDc_of_sort ha ht hsort, fun column hcolumn channel hchannel =>
        ⟨g (channel * chip.dcColumns + column), ?_, ?_⟩⟩
      · exact hholds.read_eq (hsize ▸ Cells.place_lt hchannel hcolumn)
      · exact (hcells column hcolumn channel hchannel).calibrated ha hcolumn hchannel
  · intro chip st f
    obtain ⟨sorted, g, hsort, hsize, hholds, hcells⟩ :=
      dcSort_reference chip (Cells.holds_full _ st) rfl (Cells.holds_full _ f) rfl
    refine ⟨sorted, hsort, fun column hcolumn channel hchannel =>
      ⟨g (channel * chip.dcColumns + column), ?_, hcells column hcolumn channel hchannel⟩⟩
    exact hholds.read_eq (hsize ▸ Cells.place_lt hchannel hcolumn)

/-- Only the fourth search has succeeded, so the first channel gets its coefficients. -/
theorem dc_table_reference_of_fourth :
    ∃ s, gainCalDc .esp32s3 ⟨0, 0, 3, fun _ => 0, 3, 4, 0⟩
        (fun _ k _ => if k = 3 then ⟨1, 300, 511⟩ else ⟨0, 256, 256⟩) (fun x => |x|) 4
        (fun _ => 0) (fun _ => 0) = some s ∧
      s.channels.read 0 = some 0x012c01ff := by
  obtain ⟨-, s, hrun, hcells⟩ := dc_table_reference.1 .esp32s3 ⟨0, 0, 3, fun _ => 0, 3, 4, 0⟩
    (fun _ k _ => if k = 3 then ⟨1, 300, 511⟩ else ⟨0, 256, 256⟩) (fun _ => 0) (fun _ => 0) 4
    ⟨rfl, rfl, rfl, rfl, by decide, by decide⟩ (by decide)
  refine ⟨s, hrun, ?_⟩
  obtain ⟨value, hread, -, hreplaced⟩ := hcells 0 (by decide) 0 (by decide)
  rw [show s.channels.read 0 = some value from hread]
  rcases hreplaced (by decide) with ⟨selected, hnearest, rfl⟩ | ⟨hnone, -⟩
  · by_cases hfourth : selected / 2 = 3
    · rw [hfourth]
      decide
    · exact absurd hnearest.found (by simp only [hfourth, if_false]; decide)
  · exact absurd rfl (hnone 6 (by decide))

end EspWifiHal
