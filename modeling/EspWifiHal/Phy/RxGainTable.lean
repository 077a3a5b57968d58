import EspWifiHal.Phy.RxGainMemory

/-!
# The receive gain table

`generate` builds the table of gain words.  Its input are rows, each with a code, a first gain
and a number of steps.  The gain goes up from the first gain of a row for as many steps, then the
next row with a step follows, and in the last row the gain goes up until it has passed a
maximum.  Two words of 16 bits share a word of the table.

Later `write_memory` reads the words one after the other.  It does not know where a row begins: it
goes to the next row when the code in the word is not that of the present row.

`ramp` is the table as a list, and `gain_table_round_trip` says that `write_memory` finds the row
and the gain of every entry again.
-/

namespace EspWifiHal

namespace GainTable

open Memory

/-! ## The function -/

/-- The arguments of `generate`, in their order and without the last one, which switches the log. -/
structure GenerateArgs where
  out : Nat
  max : BitVec 32
  codes : Nat
  steps : Nat
  starts : Nat
  count : BitVec 32

/-- The variables of the loop. -/
structure GainCursor where
  input : Nat
  gain : Nat
deriving DecidableEq, Repr

/-- The inner loop: the next row with a step, or the last row. -/
def nextInput (m : ByteMem) (steps : Nat) (last : Int) : Nat → Nat → Option Nat
  | 0, _ => none
  | fuel + 1, input =>
      let input := (input + 1) % 256
      if read m (steps + input) 1 ≠ 0 ∨ (input : Int) ≥ last then some input
      else nextInput m steps last fuel input

/-- The row and the gain of an entry, from those after the entry before. -/
def advance (a : GenerateArgs) (last : Int) (m : ByteMem) (c : GainCursor) : Option GainCursor :=
  let step := Signed.i8 (read m (a.steps + c.input) 1).toNat
  let start := Signed.i8 (read m (a.starts + c.input) 1).toNat
  if c.gain = step + start ∧ c.input < last then do
    let input ← nextInput m a.steps last 256 c.input
    return ⟨input, (read m (a.starts + input) 1).toNat⟩
  else
    some c

/-- The word of an entry.  There are five coefficients. -/
def packedGain (code : BitVec 32) (gain : Nat) : Option (BitVec 32) := do
  let coefficient ← gainCoefficients[gain / 6]?
  let shifted := BitVec.ofNat 32 (coefficient * 8 % 65536)
  return (code <<< 8 + shifted + BitVec.ofNat 32 (gain % 6)) &&& 65535#32

/-- The entry with the given index.  An odd one is added to the word of the one before.  The source
takes the index as a signed byte, which it does not exceed. -/
def storeGain (out index : Nat) (packed : BitVec 32) (m : ByteMem) : ByteMem :=
  let address := out + index / 2 * 4
  if index % 2 ≠ 0 then write m address 4 (read m address 4 + packed <<< 16)
  else write m address 4 packed

/-- The loop, with the number of rounds before the index would be 127. -/
def generateLoop (a : GenerateArgs) (max : Nat) (last : Int) :
    Nat → Nat → GainCursor → ByteMem → Option (ByteMem × Nat)
  | 0, _, _, m => some (m, 85)
  | fuel + 1, index, c, m => do
      let c ← advance a last m c
      let packed ← packedGain (read m (a.codes + c.input) 1) c.gain
      let m := storeGain a.out index packed m
      if max < c.gain then some (m, index % 256)
      else generateLoop a max last fuel (index + 1) ⟨c.input, (c.gain + 1) % 256⟩ m

def generate (chip : PhyChip) (a : GenerateArgs) (m : ByteMem) : Option (ByteMem × Nat) :=
  generateLoop a (chip.byte a.max).toNat (chip.byte a.count - 1#32).toInt 127 0
    ⟨0, (read m a.starts 1).toNat⟩ m

/-! ## The table as a list -/

structure GainRow where
  code : BitVec 8
  start : BitVec 8
  step : BitVec 8
deriving DecidableEq, Repr

/-- The entries, each with its row and its gain, from the row `i` on, whose gain is `g`. -/
def ramp (max i g : Nat) : List GainRow → List (Nat × Nat)
  | [] => []
  | [_] => (List.range' g (max + 2 - g)).map (i, ·)
  | r :: r' :: rest =>
      (List.range' g (r.start.toNat + r.step.toNat - g)).map (i, ·) ++
        ramp max (i + 1) r'.start.toNat (r' :: rest)

def gainEntries (max : Nat) (rows : List GainRow) : List (Nat × Nat) :=
  ramp max 0 (rows.head?.elim 0 fun r => r.start.toNat) rows

/-- Rows that stay below the maximum, before the last one. -/
def Bounded (max : Nat) : List GainRow → Prop
  | [] => False
  | [r] => r.start.toNat ≤ max + 1
  | r :: r' :: rest => r.start.toNat + r.step.toNat ≤ max + 1 ∧ Bounded max (r' :: rest)

instance decidableBounded (max : Nat) : (rows : List GainRow) → Decidable (Bounded max rows)
  | [] => isFalse id
  | [r] => inferInstanceAs (Decidable (r.start.toNat ≤ max + 1))
  | r :: r' :: rest =>
      have := decidableBounded max (r' :: rest)
      inferInstanceAs
        (Decidable (r.start.toNat + r.step.toNat ≤ max + 1 ∧ Bounded max (r' :: rest)))

/-- The rows are in the tables. -/
def Tables (m : ByteMem) (a : GenerateArgs) (rows : List GainRow) : Prop :=
  ∀ i r, rows[i]? = some r →
    m (a.codes + i) = r.code ∧ m (a.steps + i) = r.step ∧ m (a.starts + i) = r.start

/-- The loop is in the row `i` of all rows, from which on these are left, with the gain `g`. -/
structure Position (max i g : Nat) (rows : List GainRow) (r : GainRow) (rest : List GainRow) :
    Prop where
  drop : rows.drop i = r :: rest
  bounded : Bounded max (r :: rest)
  low : r.start.toNat ≤ g
  high : g ≤ if rest = [] then max + 1 else r.start.toNat + r.step.toNat

/-- The position of an entry. -/
structure Settled (max i g : Nat) (rows : List GainRow) (r : GainRow) (rest : List GainRow) : Prop
    extends Position max i g rows r rest where
  inside : rest ≠ [] → g < r.start.toNat + r.step.toNat

variable {max i g : Nat} {rows rest : List GainRow} {r : GainRow} {m : ByteMem} {a : GenerateArgs}

theorem Bounded.tail {r' : GainRow} (h : Bounded max (r :: r' :: rest)) :
    Bounded max (r' :: rest) :=
  h.2

theorem Bounded.start_le (h : Bounded max (r :: rest)) : r.start.toNat ≤ max + 1 := by
  cases rest with
  | nil => exact h
  | cons r' rest => exact Nat.le_trans (Nat.le_add_right _ _) h.1

/-- The first gain of the next row. -/
theorem Position.next {r' : GainRow} (h : Position max i g rows r (r' :: rest)) :
    Position max (i + 1) r'.start.toNat rows r' rest where
  drop := by rw [← List.drop_drop, h.drop]; rfl
  bounded := h.bounded.tail
  low := Nat.le_refl _
  high := by
    have hstart := h.bounded.tail.start_le
    split <;> omega

theorem Position.getElem? (h : Position max i g rows r rest) : rows[i]? = some r := by
  have hhead := congrArg List.head? h.drop
  rwa [List.head?_drop, List.head?_cons] at hhead

theorem Position.length (h : Position max i g rows r rest) :
    rows.length = i + 1 + rest.length := by
  have hlength := congrArg List.length h.drop
  rw [List.length_drop, List.length_cons] at hlength
  have hlt : i < rows.length := by omega
  omega

/-- A row without a step adds nothing. -/
theorem ramp_next {r' : GainRow} (hg : r.start.toNat + r.step.toNat ≤ g) :
    ramp max i g (r :: r' :: rest) = ramp max (i + 1) r'.start.toNat (r' :: rest) := by
  rw [ramp, Nat.sub_eq_zero_of_le hg]
  rfl

/-- The entry at a position, and those behind it. -/
theorem Settled.ramp_eq (h : Settled max i g rows r rest) :
    ramp max i g (r :: rest) =
      (i, g) :: if max < g then [] else ramp max i (g + 1) (r :: rest) := by
  have hhigh := h.high
  cases rest with
  | nil =>
      rw [if_pos rfl] at hhigh
      rw [ramp, ramp, show max + 2 - g = max + 1 - g + 1 by omega, List.range'_succ, List.map_cons]
      split
      case isTrue hlt =>
          rw [show max + 1 - g = 0 by omega]
          rfl
      case isFalse => rw [show max + 2 - (g + 1) = max + 1 - g by omega]
  | cons r' rest =>
      have hinside := h.inside (List.cons_ne_nil _ _)
      have hbounded := h.bounded.1
      rw [if_neg (by omega), ramp, ramp,
        show r.start.toNat + r.step.toNat - g = r.start.toNat + r.step.toNat - (g + 1) + 1 by omega,
        List.range'_succ, List.map_cons, List.cons_append]

theorem Settled.gain_le (h : Settled max i g rows r rest) : g ≤ max + 1 := by
  have hhigh := h.high
  cases rest with
  | nil => exact hhigh
  | cons r' rest => exact Nat.le_trans hhigh h.bounded.1

/-- The position after an entry. -/
theorem Settled.succ (h : Settled max i g rows r rest) (hg : g ≤ max) :
    Position max i (g + 1) rows r rest where
  drop := h.drop
  bounded := h.bounded
  low := Nat.le_succ_of_le h.low
  high := by
    split
    case isTrue => omega
    case isFalse hne => exact h.inside hne

theorem gain_le_of_mem_ramp (h : Bounded max (r :: rest)) {e : Nat × Nat}
    (he : e ∈ ramp max i g (r :: rest)) : e.2 ≤ max + 1 := by
  induction rest generalizing i g r with
  | nil =>
      obtain ⟨gain, hgain, rfl⟩ := List.mem_map.mp he
      rw [List.mem_range'_1] at hgain
      omega
  | cons r' rest ih =>
      rw [ramp, List.mem_append] at he
      rcases he with he | he
      · obtain ⟨gain, hgain, rfl⟩ := List.mem_map.mp he
        rw [List.mem_range'_1] at hgain
        have hbounded := h.1
        omega
      · exact ih h.tail he

/-! ## The rows -/

theorem read_byte (m : ByteMem) (x : Nat) : (read m x 1).toNat = (m x).toNat := by
  rw [read_one, BitVec.toNat_setWidth]
  exact Nat.mod_eq_of_lt (Nat.lt_of_lt_of_le (m x).isLt (by decide))

theorem read_byte_ne_zero (m : ByteMem) (x : Nat) : read m x 1 ≠ 0 ↔ (m x).toNat ≠ 0 := by
  rw [← read_byte, Ne, ← BitVec.toNat_inj]
  rfl

/-- The bytes of the tables are not negative. -/
def Plain (rows : List GainRow) : Prop :=
  rows.length ≤ 128 ∧ ∀ r ∈ rows, r.start.toNat < 128 ∧ r.step.toNat < 128

/-- One round of the inner loop. -/
theorem nextInput_succ (hplain : Plain rows) (htables : Tables m a rows) {r' : GainRow}
    (h : Position max i g rows r (r' :: rest)) (fuel : Nat) :
    nextInput m a.steps (rows.length - 1 : Int) (fuel + 1) i =
      if r'.step.toNat ≠ 0 ∨ rest = [] then some (i + 1)
      else nextInput m a.steps (rows.length - 1 : Int) fuel (i + 1) := by
  have hlength := h.length
  have hrows := hplain.1
  rw [List.length_cons] at hlength
  have hmod : (i + 1) % 256 = i + 1 := Nat.mod_eq_of_lt (by omega)
  have hstep : m (a.steps + (i + 1)) = r'.step := (htables (i + 1) r' h.next.getElem?).2.1
  have hlast : ((i + 1 : Nat) : Int) ≥ (rows.length - 1 : Int) ↔ rest = [] := by
    rw [← List.length_eq_zero_iff]
    omega
  simp only [nextInput, hmod, read_byte_ne_zero, hstep, hlast]

/-- The inner loop ends at a row with an entry and passes only rows without one. -/
theorem nextInput_spec (hplain : Plain rows) (htables : Tables m a rows) {r' : GainRow}
    (h : Position max i g rows r (r' :: rest)) (hg : r.start.toNat + r.step.toNat ≤ g) {fuel : Nat}
    (hfuel : rest.length < fuel) :
    ∃ j s rest', nextInput m a.steps (rows.length - 1 : Int) fuel i = some j ∧
      Settled max j s.start.toNat rows s rest' ∧
      ramp max i g (r :: r' :: rest) = ramp max j s.start.toNat (s :: rest') := by
  induction rest generalizing i g r r' fuel with
  | nil =>
      obtain ⟨fuel, rfl⟩ : ∃ f, fuel = f + 1 := ⟨fuel - 1, by omega⟩
      rw [nextInput_succ hplain htables h, if_pos (Or.inr rfl)]
      exact ⟨i + 1, r', [], rfl, ⟨h.next, fun hne => absurd rfl hne⟩, ramp_next hg⟩
  | cons r'' rest ih =>
      rw [List.length_cons] at hfuel
      obtain ⟨fuel, rfl⟩ : ∃ f, fuel = f + 1 := ⟨fuel - 1, by omega⟩
      rw [nextInput_succ hplain htables h, ramp_next hg]
      by_cases hstep : r'.step.toNat = 0
      · rw [if_neg (by simp [hstep])]
        exact ih h.next (by omega) (by omega)
      · rw [if_pos (Or.inl hstep)]
        exact ⟨i + 1, r', r'' :: rest, rfl, ⟨h.next, fun _ => by omega⟩, rfl⟩

/-- Before an entry is stored the loop goes to its row. -/
theorem advance_spec (hplain : Plain rows) (htables : Tables m a rows)
    (h : Position max i g rows r rest) :
    ∃ j k s rest', advance a (rows.length - 1 : Int) m ⟨i, g⟩ = some ⟨j, k⟩ ∧
      Settled max j k rows s rest' ∧ ramp max i g (r :: rest) = ramp max j k (s :: rest') := by
  have hlength := h.length
  have hrows := hplain.1
  obtain ⟨-, hstep, hstart⟩ := htables i r h.getElem?
  obtain ⟨hstart', hstep'⟩ := hplain.2 r (List.mem_of_getElem? h.getElem?)
  have hsum : ((g : Int) = Signed.i8 (read m (a.steps + i) 1).toNat +
      Signed.i8 (read m (a.starts + i) 1).toNat) ↔ g = r.start.toNat + r.step.toNat := by
    rw [read_byte, read_byte, hstep, hstart, Signed.i8, Signed.i8]
    omega
  have hlast : (i : Int) < (rows.length - 1 : Int) ↔ rest ≠ [] := by
    rw [← List.length_pos_iff]
    omega
  rw [advance]
  simp only [hsum, hlast]
  by_cases hend : g = r.start.toNat + r.step.toNat ∧ rest ≠ []
  · rw [if_pos hend]
    obtain ⟨r', rest, rfl⟩ := List.exists_cons_of_ne_nil hend.2
    rw [List.length_cons] at hlength
    obtain ⟨j, s, rest', hnext, hsettled, hramp⟩ :=
      nextInput_spec hplain htables h (by omega) (show rest.length < 256 by omega)
    have hbyte : (read m (a.starts + j) 1).toNat = s.start.toNat := by
      rw [read_byte, (htables j s hsettled.getElem?).2.2]
    refine ⟨j, s.start.toNat, s, rest', ?_, hsettled, hramp⟩
    rw [hnext]
    simp [hbyte]
  · rw [if_neg hend]
    refine ⟨i, g, r, rest, rfl, ⟨h, fun hne => ?_⟩, rfl⟩
    have hhigh := h.high
    rw [if_neg hne] at hhigh
    have hg : g ≠ r.start.toNat + r.step.toNat := fun hg => hend ⟨hg, hne⟩
    omega

/-! ## The words -/

/-- The coefficient of a gain. -/
def coefficient (gain : Nat) : Nat := gainCoefficients.getD (gain / 6) 0

/-- The word of an entry. -/
def packed (code : BitVec 8) (gain : Nat) : BitVec 32 :=
  BitVec.ofNat 32 (coefficient gain * 8 + gain % 6) ||| code.setWidth 32 <<< 8

def packedEntry (rows : List GainRow) (e : Nat × Nat) : BitVec 32 :=
  packed (rows[e.1]?.elim 0 GainRow.code) e.2

theorem coefficient_le (gain : Nat) : coefficient gain ≤ 29 := by
  rw [coefficient]
  rcases gain / 6 with _ | _ | _ | _ | _ | k <;> simp [gainCoefficients]

theorem toNat_packed (code : BitVec 8) (gain : Nat) :
    (packed code gain).toNat = coefficient gain * 8 + gain % 6 + code.toNat * 2 ^ 8 := by
  have hle := coefficient_le gain
  have hcode := code.isLt
  have hlow : (BitVec.ofNat 32 (coefficient gain * 8 + gain % 6)).toNat =
      coefficient gain * 8 + gain % 6 := by
    rw [BitVec.toNat_ofNat]
    exact Nat.mod_eq_of_lt (by omega)
  have hhigh : (code.setWidth 32).toNat = code.toNat := by
    rw [BitVec.toNat_setWidth]
    exact Nat.mod_eq_of_lt (by omega)
  rw [packed, Register.toNat_or_shiftLeft (by omega) (by omega), hlow, hhigh]

theorem packed_lt (code : BitVec 8) (gain : Nat) : (packed code gain).toNat < 2 ^ 16 := by
  have hle := coefficient_le gain
  have hcode := code.isLt
  rw [toNat_packed]
  omega

theorem packedGain_eq (m : ByteMem) (x : Nat) {gain : Nat} (h : gain < 30) :
    packedGain (read m x 1) gain = some (packed (m x) gain) := by
  have hle := coefficient_le gain
  have hcode := (m x).isLt
  have hlookup : gainCoefficients[gain / 6]? = some (coefficient gain) := by
    have hlt : gain / 6 < gainCoefficients.length := by
      simp only [gainCoefficients, List.length_cons, List.length_nil]
      omega
    rw [coefficient, List.getD_eq_getElem?_getD, List.getElem?_eq_getElem hlt]
    rfl
  rw [packedGain, hlookup]
  refine congrArg some (BitVec.eq_of_toNat_eq ?_)
  rw [Register.toNat_and_mask 16 rfl, toNat_packed]
  simp only [BitVec.toNat_add, BitVec.toNat_shiftLeft, read_byte, BitVec.toNat_ofNat,
    Nat.shiftLeft_eq]
  omega

/-! ## Storing -/

/-- The words are stored from `out` on, two in each word of 32 bits, and the second half of the
last one is empty. -/
structure Stored (m : ByteMem) (out : Nat) (words : List (BitVec 32)) : Prop where
  word : ∀ k w, words[k]? = some w → read m (out + 2 * k) 2 = w
  half : words.length % 2 = 1 → read m (out + 2 * words.length) 2 = 0

theorem stored_nil (m : ByteMem) (out : Nat) : Stored m out [] where
  word := by
    intro k w hw
    simp at hw
  half := by
    intro hodd
    simp at hodd

theorem toNat_read_two (m : ByteMem) (x : Nat) :
    (read m x 2).toNat = (m x).toNat + (m (x + 1)).toNat * 2 ^ 8 := by
  rw [toNat_read_succ m x (by decide), read_byte]

/-- A word of 32 bits is its halves. -/
theorem toNat_read_four (m : ByteMem) (x : Nat) :
    (read m x 4).toNat = (read m x 2).toNat + (read m (x + 2) 2).toNat * 2 ^ 16 := by
  rw [toNat_read_succ m x (by decide), toNat_read_succ m (x + 1) (by decide),
    toNat_read_two, toNat_read_two]
  omega

theorem read_write_low (m : ByteMem) (x : Nat) (v : BitVec 32) :
    (read (write m x 4 v) x 2).toNat = v.toNat % 2 ^ 16 := by
  have hbyte : ∀ k < 4, write m x 4 v (x + k) = byteOf v k := fun k hk => fill_range hk
  have hzero := hbyte 0 (by decide)
  rw [Nat.add_zero] at hzero
  rw [toNat_read_two, hzero, hbyte 1 (by decide), toNat_byteOf, toNat_byteOf]
  omega

theorem read_write_high (m : ByteMem) (x : Nat) (v : BitVec 32) :
    (read (write m x 4 v) (x + 2) 2).toNat = v.toNat / 2 ^ 16 := by
  have hbyte : ∀ k < 4, write m x 4 v (x + k) = byteOf v k := fun k hk => fill_range hk
  have hlt := v.isLt
  rw [toNat_read_two, hbyte 2 (by decide), Nat.add_assoc x 2 1, hbyte 3 (by decide), toNat_byteOf,
    toNat_byteOf]
  omega

theorem storeGain_frame (out index : Nat) (w : BitVec 32) (m : ByteMem) {x : Nat}
    (hx : x < out + index / 2 * 4 ∨ out + index / 2 * 4 + 4 ≤ x) :
    storeGain out index w m x = m x := by
  rw [storeGain]
  split <;> exact fill_of_not_mem hx

/-- The entries before the word that is written. -/
theorem storeGain_kept {out k : Nat} {words : List (BitVec 32)} {u : BitVec 32}
    (h : Stored m out words) (hk : k < words.length / 2 * 2) (hu : words[k]? = some u)
    (w : BitVec 32) : read (storeGain out words.length w m) (out + 2 * k) 2 = u := by
  rw [← h.word k u hu]
  exact read_congr fun i hi => storeGain_frame _ _ _ _ (by omega)

theorem getElem?_concat_eq_some {words : List (BitVec 32)} {w u : BitVec 32} {k : Nat}
    (h : (words ++ [w])[k]? = some u) :
    (k < words.length ∧ words[k]? = some u) ∨ (k = words.length ∧ u = w) := by
  rw [List.getElem?_append] at h
  split at h
  case isTrue hlt => exact Or.inl ⟨hlt, h⟩
  case isFalse hge =>
      obtain ⟨hlt, hw⟩ := List.getElem?_eq_some_iff.mp h
      rw [List.length_singleton] at hlt
      refine Or.inr ⟨by omega, ?_⟩
      rw [← hw, List.getElem_singleton]

/-- A word in the lower half, with zeros over it. -/
theorem storeGain_even {out : Nat} {words : List (BitVec 32)} {w : BitVec 32}
    (h : Stored m out words) (hw : w.toNat < 2 ^ 16) (heven : words.length % 2 = 0) :
    Stored (storeGain out words.length w m) out (words ++ [w]) := by
  have hx : out + words.length / 2 * 4 = out + 2 * words.length := by omega
  have hstore : storeGain out words.length w m = write m (out + 2 * words.length) 4 w := by
    rw [storeGain, if_neg (by omega), hx]
  refine ⟨fun k u hu => ?_, fun _ => ?_⟩
  · rcases getElem?_concat_eq_some hu with ⟨hk, hu⟩ | ⟨rfl, rfl⟩
    · exact storeGain_kept h (by omega) hu w
    · apply BitVec.eq_of_toNat_eq
      rw [hstore, read_write_low, Nat.mod_eq_of_lt hw]
  · apply BitVec.eq_of_toNat_eq
    rw [hstore, List.length_append, List.length_singleton, Nat.mul_add, ← Nat.add_assoc,
      read_write_high, Nat.div_eq_of_lt hw]
    rfl

/-- A word in the upper half.  The sum does not touch the lower half, and the upper one is empty. -/
theorem storeGain_odd {out : Nat} {words : List (BitVec 32)} {w : BitVec 32}
    (h : Stored m out words) (hw : w.toNat < 2 ^ 16) (hodd : words.length % 2 = 1) :
    Stored (storeGain out words.length w m) out (words ++ [w]) := by
  obtain ⟨x, hx⟩ : ∃ x, x = out + words.length / 2 * 4 := ⟨_, rfl⟩
  obtain ⟨v, hv⟩ : ∃ v, v = read m x 4 + w <<< 16 := ⟨_, rfl⟩
  have hnext : out + 2 * words.length = x + 2 := by omega
  have hstore : storeGain out words.length w m = write m x 4 v := by
    rw [storeGain, if_pos (by omega), hv, hx]
  have hempty : (read m (x + 2) 2).toNat = 0 := by
    rw [← hnext, h.half hodd]
    rfl
  have hlow := toNat_read_lt m x 2
  have hsum : v.toNat = (read m x 2).toNat + w.toNat * 2 ^ 16 := by
    rw [hv, BitVec.toNat_add, toNat_read_four, hempty, BitVec.toNat_shiftLeft, Nat.shiftLeft_eq]
    omega
  refine ⟨fun k u hu => ?_, fun heven => ?_⟩
  · rcases getElem?_concat_eq_some hu with ⟨hk, hu⟩ | ⟨rfl, rfl⟩
    · by_cases hbefore : k < words.length / 2 * 2
      · exact storeGain_kept h hbefore hu w
      · rw [← h.word k u hu, show out + 2 * k = x by omega]
        apply BitVec.eq_of_toNat_eq
        rw [hstore, read_write_low, hsum]
        omega
    · apply BitVec.eq_of_toNat_eq
      rw [hnext, hstore, read_write_high, hsum]
      omega
  · rw [List.length_append, List.length_singleton] at heven
    omega

theorem Stored.concat {out : Nat} {words : List (BitVec 32)} {w : BitVec 32}
    (h : Stored m out words) (hw : w.toNat < 2 ^ 16) :
    Stored (storeGain out words.length w m) out (words ++ [w]) := by
  rcases Nat.mod_two_eq_zero_or_one words.length with heven | hodd
  · exact storeGain_even h hw heven
  · exact storeGain_odd h hw hodd

/-! ## The loop -/

/-- The tables are not in the bytes that the entries take. -/
def Apart (a : GenerateArgs) (count length : Nat) : Prop :=
  ∀ i < count, ∀ x ∈ [a.codes + i, a.steps + i, a.starts + i],
    x < a.out ∨ a.out + (length + 1) / 2 * 4 ≤ x

theorem Tables.storeGain (h : Tables m a rows) {length index : Nat}
    (hapart : Apart a rows.length length) (hindex : index < length) (w : BitVec 32) :
    Tables (storeGain a.out index w m) a rows := by
  intro i r hr
  have hi : i < rows.length := (List.getElem?_eq_some_iff.mp hr).1
  have hkept : ∀ x ∈ [a.codes + i, a.steps + i, a.starts + i],
      GainTable.storeGain a.out index w m x = m x := by
    intro x hx
    have hout := hapart i hi x hx
    exact storeGain_frame _ _ _ _ (by omega)
  rw [hkept _ (by simp), hkept _ (by simp), hkept _ (by simp)]
  exact h i r hr

/-- From a position on the loop stores the rest of the table. -/
theorem generateLoop_spec (hplain : Plain rows) (hmax : max ≤ 28) {total : Nat}
    (hapart : Apart a rows.length total) {fuel : Nat} {words : List (BitVec 32)}
    (h : Position max i g rows r rest) (htables : Tables m a rows) (hstored : Stored m a.out words)
    (htotal : words.length + (ramp max i g (r :: rest)).length = total)
    (hfuel : (ramp max i g (r :: rest)).length ≤ fuel) (hbyte : total ≤ 256) :
    ∃ m', generateLoop a max (rows.length - 1 : Int) fuel words.length ⟨i, g⟩ m =
        some (m', total - 1) ∧
      Stored m' a.out (words ++ (ramp max i g (r :: rest)).map (packedEntry rows)) ∧
      ∀ x, x < a.out ∨ a.out + (total + 1) / 2 * 4 ≤ x → m' x = m x := by
  induction fuel generalizing i g r rest words m with
  | zero =>
      obtain ⟨j, k, s, rest', -, hsettled, hramp⟩ := advance_spec hplain htables h
      rw [hramp, hsettled.ramp_eq, List.length_cons] at hfuel
      omega
  | succ fuel ih =>
      obtain ⟨j, k, s, rest', hadvance, hsettled, hramp⟩ := advance_spec hplain htables h
      have hk := hsettled.gain_le
      have hcode : m (a.codes + j) = s.code := (htables j s hsettled.getElem?).1
      have hpack : packedGain (read m (a.codes + j) 1) k = some (packed s.code k) := by
        rw [packedGain_eq m _ (by omega), hcode]
      have hentry : packedEntry rows (j, k) = packed s.code k := by
        simp only [packedEntry, hsettled.getElem?, Option.elim_some]
      rw [hramp, hsettled.ramp_eq, List.length_cons] at htotal hfuel
      rw [hramp, hsettled.ramp_eq, List.map_cons, hentry]
      rw [generateLoop, hadvance, Option.bind_eq_bind, Option.bind_some]
      simp only [hpack, Option.bind_eq_bind, Option.bind_some]
      have hstored' := hstored.concat (packed_lt s.code k)
      have htables' := htables.storeGain hapart (show words.length < total by omega)
        (packed s.code k)
      have hframe : ∀ x, x < a.out ∨ a.out + (total + 1) / 2 * 4 ≤ x →
          storeGain a.out words.length (packed s.code k) m x = m x := fun x hx =>
        storeGain_frame _ _ _ _ (by omega)
      by_cases hend : max < k
      · rw [if_pos hend] at htotal
        simp only [hend, if_true, List.map_nil]
        simp only [List.length_nil] at htotal
        refine ⟨_, ?_, hstored', hframe⟩
        rw [Nat.mod_eq_of_lt (by omega), ← htotal]
        rfl
      · rw [if_neg hend] at htotal hfuel
        simp only [hend, if_false]
        rw [Nat.mod_eq_of_lt (by omega)]
        have hlength : (words ++ [packed s.code k]).length = words.length + 1 := by simp
        obtain ⟨m', hloop, hdone, hframe'⟩ := ih (hsettled.succ (by omega)) htables' hstored'
          (by rw [hlength]; omega) (by omega)
        rw [hlength] at hloop
        refine ⟨m', hloop, ?_, fun x hx => (hframe' x hx).trans (hframe x hx)⟩
        rwa [List.append_assoc] at hdone

/-- A call of `generate` with the rows in its tables. -/
structure Called (chip : PhyChip) (a : GenerateArgs) (max : Nat) (rows : List GainRow)
    (m : ByteMem) : Prop where
  plain : Plain rows
  count : (chip.byte a.count).toNat = rows.length
  max_eq : (chip.byte a.max).toNat = max
  max_le : max ≤ 28
  bounded : Bounded max rows
  length_le : (gainEntries max rows).length ≤ 127
  tables : Tables m a rows
  apart : Apart a rows.length (gainEntries max rows).length

/-- The table that `generate` builds.  Its result is the index of the last entry. -/
theorem generate_spec {chip : PhyChip} (h : Called chip a max rows m) :
    ∃ m', generate chip a m = some (m', (gainEntries max rows).length - 1) ∧
      Stored m' a.out ((gainEntries max rows).map (packedEntry rows)) ∧
      ∀ x, x < a.out ∨ a.out + ((gainEntries max rows).length + 1) / 2 * 4 ≤ x → m' x = m x := by
  cases rows with
  | nil => exact h.bounded.elim
  | cons r rest =>
      have hposition : Position max 0 r.start.toNat (r :: rest) r rest := by
        refine ⟨rfl, h.bounded, Nat.le_refl _, ?_⟩
        have hstart := h.bounded.start_le
        split <;> omega
      have hstart : (read m a.starts 1).toNat = r.start.toNat := by
        rw [read_byte, ← Nat.add_zero a.starts, (h.tables 0 r rfl).2.2]
      have hlast : (chip.byte a.count - 1#32).toInt = ((r :: rest).length - 1 : Int) := by
        have hcount := h.count
        have hrows := h.plain.1
        rw [List.length_cons] at hcount hrows ⊢
        have hnat : (chip.byte a.count - 1#32).toNat = rest.length := by
          rw [BitVec.toNat_sub_of_le (by bv_omega), hcount]
          rfl
        rw [BitVec.toInt_eq_toNat_of_lt (by omega), hnat]
        omega
      obtain ⟨m', hloop, hstored, hframe⟩ := generateLoop_spec h.plain h.max_le h.apart hposition
        h.tables (stored_nil m a.out) (by simp [gainEntries]) h.length_le
        (Nat.le_trans h.length_le (by decide))
      refine ⟨m', ?_, hstored, hframe⟩
      rw [generate, h.max_eq, hstart, hlast]
      exact hloop

/-! ## The way back -/

/-- The upper part of a word is its code. -/
theorem packed_and_code (code : BitVec 8) (gain : Nat) :
    packed code gain &&& 0xffffff00#32 = code.setWidth 32 <<< 8 := by
  have hle := coefficient_le gain
  have hlow : ∀ i, 8 ≤ i →
      (BitVec.ofNat 32 (coefficient gain * 8 + gain % 6)).getLsbD i = false := by
    intro i hi
    have hlt : coefficient gain * 8 + gain % 6 < 2 ^ i :=
      Nat.lt_of_lt_of_le (show _ < 2 ^ 8 by omega) (Nat.pow_le_pow_right Nat.zero_lt_two hi)
    rw [BitVec.getLsbD_ofNat, Nat.testBit_lt_two_pow hlt, Bool.and_false]
  have hmask : ∀ i < 32, (0xffffff00#32).getLsbD i = decide (8 ≤ i) := by decide
  apply BitVec.eq_of_getLsbD_eq
  intro i hi
  rw [packed, BitVec.getLsbD_and, BitVec.getLsbD_or, hmask i hi]
  by_cases hupper : 8 ≤ i
  · rw [hlow i hupper, decide_eq_true hupper, Bool.false_or, Bool.and_true]
  · rw [decide_eq_false hupper, Bool.and_false, BitVec.getLsbD_shiftLeft,
      decide_eq_true (Nat.lt_of_not_le hupper)]
    simp

/-- The number of bits of a coefficient is its place in the list. -/
theorem cpop_coefficient {gain : Nat} (h : gain < 30) :
    (BitVec.ofNat 32 (coefficient gain)).cpop.toNat = gain / 6 := by
  have hall : ∀ k < 5, (BitVec.ofNat 32 (gainCoefficients.getD k 0)).cpop.toNat = k := by decide
  exact hall (gain / 6) (by omega)

/-- The bit over the coefficient is the lowest one of the code. -/
theorem gainBits_packed {code : BitVec 8} (heven : code.toNat % 2 = 0) {gain : Nat}
    (h : gain < 30) : gainBits (packed code gain) = gain / 6 := by
  have hle := coefficient_le gain
  have hfield : (packed code gain >>> 3) &&& 63 = BitVec.ofNat 32 (coefficient gain) := by
    apply BitVec.eq_of_toNat_eq
    rw [Register.toNat_and_mask 6 rfl, BitVec.toNat_ushiftRight, Nat.shiftRight_eq_div_pow,
      toNat_packed, BitVec.toNat_ofNat]
    omega
  rw [gainBits, hfield, cpop_coefficient h]

theorem packed_and_coefficient (code : BitVec 8) {gain : Nat} (h : gain < 30) :
    packed code gain &&& 0xf8#32 ≠ 0 ↔ 6 ≤ gain := by
  have hcode : 0xf8#32 &&& code.setWidth 32 <<< 8 = 0#32 := by
    have hmask : ∀ i < 32, (0xf8#32).getLsbD i = true → i < 8 := by decide
    apply BitVec.eq_of_getLsbD_eq
    intro i hi
    rw [BitVec.getLsbD_and, BitVec.getLsbD_shiftLeft]
    cases hbit : (0xf8#32).getLsbD i with
    | false => simp
    | true => simp [hmask i hi hbit]
  have hlow : ∀ g < 30, (BitVec.ofNat 32 (coefficient g * 8 + g % 6) &&& 0xf8#32 ≠ 0 ↔ 6 ≤ g) := by
    decide
  rw [packed, Register.or_and_of_disjoint _ _ hcode]
  exact hlow gain h

/-- The row of an entry can be told from the row `i` of the one before and from the codes. -/
def Link (rows : List GainRow) (i : Nat) (e : Nat × Nat) : Prop :=
  ∃ r s, rows[i]? = some r ∧ rows[e.1]? = some s ∧ (e.1 = i ∨ e.1 = i + 1 ∧ r.code ≠ s.code)

def Tracks (rows : List GainRow) : Nat → List (Nat × Nat) → Prop
  | _, [] => True
  | i, e :: es => Link rows i e ∧ Tracks rows e.1 es

/-- No row before the last is empty and no row has the code of the one before. -/
def Recoverable : List GainRow → Prop
  | r :: r' :: rest => r.step.toNat ≠ 0 ∧ r.code ≠ r'.code ∧ Recoverable (r' :: rest)
  | _ => True

instance decidableRecoverable : (rows : List GainRow) → Decidable (Recoverable rows)
  | [] => isTrue trivial
  | [_] => isTrue trivial
  | r :: r' :: rest =>
      have := decidableRecoverable (r' :: rest)
      inferInstanceAs
        (Decidable (r.step.toNat ≠ 0 ∧ r.code ≠ r'.code ∧ Recoverable (r' :: rest)))

/-- Entries of one row. -/
theorem Tracks.same_row (hr : rows[i]? = some r) {es : List (Nat × Nat)} (h : Tracks rows i es)
    (gains : List Nat) : Tracks rows i (gains.map (i, ·) ++ es) := by
  induction gains with
  | nil => exact h
  | cons g gains ih => exact ⟨⟨r, r, hr, hr, Or.inl rfl⟩, ih⟩

/-- The first entry of a row, seen from the row before. -/
theorem Tracks.next_row {r' : GainRow} (hr : rows[i]? = some r) (hr' : rows[i + 1]? = some r')
    (hcode : r.code ≠ r'.code) {es : List (Nat × Nat)}
    (h : Tracks rows (i + 1) ((i + 1, g) :: es)) :
    Tracks rows i ((i + 1, g) :: es) :=
  ⟨⟨r, r', hr, hr', Or.inr ⟨rfl, hcode⟩⟩, h.2⟩

theorem tracks_ramp (h : Position max i g rows r rest) (hrec : Recoverable (r :: rest)) :
    Tracks rows i (ramp max i g (r :: rest)) := by
  induction rest generalizing i g r with
  | nil =>
      have hlast := Tracks.same_row h.getElem? (show Tracks rows i [] from trivial)
        (List.range' g (max + 2 - g))
      rwa [List.append_nil] at hlast
  | cons r' rest ih =>
      obtain ⟨-, hcode, hrec'⟩ := hrec
      have hsettled : Settled max (i + 1) r'.start.toNat rows r' rest := by
        refine ⟨h.next, fun hne => ?_⟩
        obtain ⟨r'', rest, rfl⟩ := List.exists_cons_of_ne_nil hne
        have hstep := hrec'.1
        omega
      have hnext := ih h.next hrec'
      rw [hsettled.ramp_eq] at hnext
      rw [ramp, hsettled.ramp_eq]
      exact Tracks.same_row h.getElem? (hnext.next_row h.getElem? h.next.getElem? hcode) _

/-! ## Reading the table -/

section Memory

variable {chip : PhyChip} {param : Nat} {b : MemoryArgs} {es : List (Nat × Nat)} {e : Nat × Nat}

/-- The memory when `write_memory` is called without the alternate table. -/
structure Readable (chip : PhyChip) (b : MemoryArgs) (rows : List GainRow) (es : List (Nat × Nat))
    (m : ByteMem) : Prop where
  alternate : chip.byte b.alternate = 0
  stored : Stored m b.packed (es.map (packedEntry rows))
  codes : ∀ i r, rows[i]? = some r → m (b.codes + i) = r.code
  rows_le : rows.length ≤ 128
  length_le : es.length ≤ 127

/-- The next row, when the code of the word is not that of the present one. -/
def track (b : MemoryArgs) (m : ByteMem) (c : MemoryCursor) (word : BitVec 32) : MemoryCursor :=
  if word &&& 0xffffff00#32 ≠ read m (b.codes + c.input) 1 <<< 8 then
    { c with input := (c.input + 1) % 256 }
  else c

/-- Codes that differ still do when they are shifted. -/
theorem shifted_code_inj {x y : BitVec 8} (h : x.setWidth 32 <<< 8 = y.setWidth 32 <<< 8) :
    x = y := by
  have hbits : ∀ z : BitVec 8, ((z.setWidth 32 <<< 8) >>> 8).setWidth 8 = z := by
    intro z
    have hz := z.isLt
    apply BitVec.eq_of_toNat_eq
    simp only [BitVec.toNat_setWidth, BitVec.toNat_ushiftRight, BitVec.toNat_shiftLeft,
      Nat.shiftLeft_eq, Nat.shiftRight_eq_div_pow]
    omega
  rw [← hbits x, h, hbits y]

theorem track_input (h : Readable chip b rows es m) {c : MemoryCursor}
    (hlink : Link rows c.input e) :
    (track b m c (packedEntry rows e)).input = e.1 := by
  obtain ⟨r, s, hr, hs, hrow⟩ := hlink
  have hlt : e.1 < rows.length := (List.getElem?_eq_some_iff.mp hs).1
  have hrows := h.rows_le
  have hword : packedEntry rows e &&& 0xffffff00#32 = s.code.setWidth 32 <<< 8 := by
    rw [packedEntry, hs]
    exact packed_and_code s.code e.2
  rw [track, hword, read_one, h.codes _ r hr]
  rcases hrow with heq | ⟨heq, hcode⟩
  · have hrs : r = s := Option.some.inj (hr.symm.trans (heq ▸ hs))
    rw [if_neg (not_not.mpr (by rw [hrs])), heq]
  · rw [if_pos fun hsame => hcode (shifted_code_inj hsame).symm, heq]
    exact Nat.mod_eq_of_lt (by omega)

/-- The halfword at an index, as S3 loads it. -/
theorem Readable.half (h : Readable chip b rows es m) {k : Nat} (he : es[k]? = some e) :
    read m (b.packed + k / 2 * 4 + k % 2 * 2) 2 = packedEntry rows e := by
  rw [show b.packed + k / 2 * 4 + k % 2 * 2 = b.packed + 2 * k by omega]
  refine h.stored.word k _ ?_
  rw [List.getElem?_map, he]
  rfl

/-- The halfword at an index, as C3 takes it from a word. -/
theorem Readable.halfOfWord (h : Readable chip b rows es m) {k : Nat} (he : es[k]? = some e) :
    (if k % 2 ≠ 0 then read m (b.packed + (BitVec.ofNat 32 (k * 2) &&& 1020).toNat) 4 >>> 16
      else read m (b.packed + (BitVec.ofNat 32 (k * 2) &&& 1020).toNat) 4 &&& 65535) =
      packedEntry rows e := by
  have hk : k < es.length := (List.getElem?_eq_some_iff.mp he).1
  have hlength := h.length_le
  have hoffset : ∀ k < 127, (BitVec.ofNat 32 (k * 2) &&& 1020).toNat = k / 2 * 4 := by decide
  have hhalf := h.half he
  rw [hoffset k (by omega)]
  generalize b.packed + k / 2 * 4 = x at hhalf ⊢
  have hlow := toNat_read_lt m x 2
  have hfour := toNat_read_four m x
  apply BitVec.eq_of_toNat_eq
  by_cases hodd : k % 2 ≠ 0
  · rw [show k % 2 = 1 by omega, Nat.one_mul] at hhalf
    rw [if_pos hodd, ← hhalf, BitVec.toNat_ushiftRight, Nat.shiftRight_eq_div_pow, hfour]
    omega
  · rw [show k % 2 = 0 by omega, Nat.zero_mul, Nat.add_zero] at hhalf
    rw [if_neg hodd, ← hhalf, Register.toNat_and_mask 16 rfl, hfour]
    omega

/-- In mode 0 the last entries have their IQ words in `extra`. -/
abbrev Extra (chip : PhyChip) (b : MemoryArgs) (k : Nat) : Prop :=
  chip.byte b.mode = 0 ∧ chip.memoryTotal ≤ k

/-- The IQ word of the entry `k`, which is in the row `i`. -/
def entryIq (chip : PhyChip) (param : Nat) (b : MemoryArgs) (m : ByteMem) (k i : Nat) : BitVec 32 :=
  if Extra chip b k then
    read m (b.extra + extraOffset chip (Signed.i8 (read m (param + 0x1f2) 1).toNat) i * 4) 4
  else read m (b.iq + i * 4) 4

/-- The DC word and the correction of a gain.  Only mode 0 reads them. -/
def entryDc (chip : PhyChip) (param : Nat) (b : MemoryArgs) (m : ByteMem) (gain : Nat) :
    BitVec 32 × Option (BitVec 32) :=
  if chip.byte b.mode ≠ 0 then (0x01000100, none)
  else
    (read m (b.dc + min (gain / 6) 3 * 4) 4,
      some (read m (param + 0x150 + if 6 ≤ gain then 2 else 0) 2))

/-- The loop is in the row of the entry `k`.  S3 stays behind where it does not need the row. -/
def Tracked (chip : PhyChip) (b : MemoryArgs) (k : Nat) : Prop :=
  chip = .esp32c3 ∨ ¬ Extra chip b k

theorem Tracked.of_succ {k : Nat} (h : Tracked chip b (k + 1)) : Tracked chip b k :=
  h.imp_right fun hextra hu => hextra ⟨hu.1, Nat.le_succ_of_le hu.2⟩

/-- S3 goes to the next row when it takes the IQ word, C3 when it takes the gain word. -/
theorem memoryIq_s3 (param : Nat) (h : Readable .esp32s3 b rows es m) {c : MemoryCursor}
    (hlink : Tracked .esp32s3 b c.index → Link rows c.input e) :
    (Tracked .esp32s3 b c.index →
        (memoryIq .esp32s3 param b m c (packedEntry rows e)).1.input = e.1) ∧
      (memoryIq .esp32s3 param b m c (packedEntry rows e)).2 =
        entryIq .esp32s3 param b m c.index e.1 := by
  by_cases hextra : Extra .esp32s3 b c.index
  · refine ⟨fun htracked => (htracked.resolve_left nofun hextra).elim, ?_⟩
    rw [memoryIq, if_pos hextra, entryIq, if_pos hextra]
    rfl
  · have hinput := track_input h (hlink (Or.inr hextra))
    have hiq : memoryIq .esp32s3 param b m c (packedEntry rows e) =
        (track b m c (packedEntry rows e),
          read m (b.iq + (track b m c (packedEntry rows e)).input * 4) 4) := by
      rw [memoryIq, if_neg hextra]
      rfl
    rw [hiq]
    refine ⟨fun _ => hinput, ?_⟩
    rw [hinput, entryIq, if_neg hextra]

theorem memoryIq_c3 (param : Nat) (b : MemoryArgs) (m : ByteMem) (c : MemoryCursor)
    (word : BitVec 32) :
    memoryIq .esp32c3 param b m c word = (c, entryIq .esp32c3 param b m c.index c.input) := by
  by_cases hextra : Extra .esp32c3 b c.index
  · rw [memoryIq, if_pos hextra, entryIq, if_pos hextra]
  · rw [memoryIq, if_neg hextra, entryIq, if_neg hextra]

theorem track_index (b : MemoryArgs) (m : ByteMem) (c : MemoryCursor) (word : BitVec 32) :
    (track b m c word).index = c.index := by
  rw [track]
  split <;> rfl

/-- One round. -/
theorem memoryStep_entry (param : Nat) (h : Readable chip b rows es m) {c : MemoryCursor}
    (he : es[c.index]? = some e) (hlink : Tracked chip b c.index → Link rows c.input e) :
    ∃ next, memoryStep chip param b m c = some next ∧ next.1.index = c.index + 1 ∧
      next.2.index = memoryIndex chip (chip.byte b.mode) c.index ∧
      next.2.entry.word = packedEntry rows e ∧
      (next.2.entry.dcValue, next.2.entry.stored) =
        memoryDc chip param b m (packedEntry rows e) ∧
      (Tracked chip b c.index → next.1.input = e.1) ∧
      next.2.entry.iqValue = entryIq chip param b m c.index e.1 := by
  have hk : c.index < es.length := (List.getElem?_eq_some_iff.mp he).1
  have hlength := h.length_le
  have hmod : (c.index + 1) % 256 = c.index + 1 := Nat.mod_eq_of_lt (by omega)
  cases chip with
  | esp32s3 =>
      have hword : ∃ gain, memoryWord .esp32s3 b m c =
          some ({ c with gain := gain }, packedEntry rows e) := by
        rw [memoryWord, if_neg (not_not.mpr h.alternate)]
        dsimp only
        rw [h.half he]
        exact ⟨_, rfl⟩
      obtain ⟨gain, hword⟩ := hword
      rw [memoryStep, hword]
      exact ⟨_, rfl, hmod, rfl, rfl, rfl, memoryIq_s3 param (c := { c with gain := gain }) h hlink⟩
  | esp32c3 =>
      have hword : memoryWord .esp32c3 b m c =
          some (track b m c (packedEntry rows e), packedEntry rows e) := by
        rw [memoryWord, if_neg (not_not.mpr h.alternate)]
        dsimp only
        rw [h.halfOfWord he, track]
        split <;> rfl
      have hinput := track_input h (hlink (Or.inl rfl))
      have hiq := memoryIq_c3 param b m (track b m c (packedEntry rows e)) (packedEntry rows e)
      rw [hinput, track_index] at hiq
      rw [memoryStep, hword]
      refine ⟨_, rfl, hmod, rfl, rfl, rfl, ?_⟩
      dsimp only
      rw [hiq]
      exact ⟨fun _ => hinput, rfl⟩

/-- The call for the entry `k`: its word, the IQ word for its row, and the DC word and the
correction of its gain. -/
structure CallOf (chip : PhyChip) (param : Nat) (b : MemoryArgs) (m : ByteMem)
    (rows : List GainRow) (k : Nat) (e : Nat × Nat) (call : MemoryCall) : Prop where
  index : call.index = memoryIndex chip (chip.byte b.mode) k
  word : call.entry.word = packedEntry rows e
  iq : call.entry.iqValue = entryIq chip param b m k e.1
  dc : (call.entry.dcValue, call.entry.stored) = entryDc chip param b m e.2

/-- The DC word and the correction depend on the gain only. -/
theorem memoryDc_entry (hgain : e.2 < 30) (heven : ∀ r ∈ rows, r.code.toNat % 2 = 0) :
    memoryDc chip param b m (packedEntry rows e) = entryDc chip param b m e.2 := by
  have hcode : (rows[e.1]?.elim 0 GainRow.code).toNat % 2 = 0 := by
    cases hr : rows[e.1]? with
    | none => rfl
    | some r => exact heven r (List.mem_of_getElem? hr)
  have hbits : gainBits (packedEntry rows e) = e.2 / 6 := gainBits_packed hcode hgain
  have hupper := packed_and_coefficient (rows[e.1]?.elim 0 GainRow.code) hgain
  rw [memoryDc, entryDc, hbits]
  simp only [packedEntry, hupper]

/-- The calls of the loop from an index on. -/
theorem memoryLoop_spec (param : Nat) (h : Readable chip b rows es m)
    (heven : ∀ r ∈ rows, r.code.toNat % 2 = 0) (hgain : ∀ e ∈ es, e.2 < 30)
    (hcount : (chip.byte b.count).toNat ≤ es.length) {left fuel : Nat} {c : MemoryCursor}
    (hleft : c.index + left = (chip.byte b.count).toNat) (hfuel : left ≤ fuel)
    (htracks : Tracked chip b c.index → Tracks rows c.input (es.drop c.index)) :
    ∀ j < left, ∀ e, es[c.index + j]? = some e →
      ∃ call, (memoryLoop chip param b m fuel c)[j]? = some call ∧
        CallOf chip param b m rows (c.index + j) e call := by
  induction left generalizing fuel c with
  | zero => exact fun j hj => absurd hj (Nat.not_lt_zero j)
  | succ left ih =>
      obtain ⟨fuel, rfl⟩ : ∃ f, fuel = f + 1 := ⟨fuel - 1, by omega⟩
      have hindex : c.index < es.length := by omega
      have hfirst : es[c.index]? = some (es.get ⟨c.index, hindex⟩) :=
        List.getElem?_eq_getElem hindex
      generalize es.get ⟨c.index, hindex⟩ = first at hfirst
      have hdrop : es.drop c.index = first :: es.drop (c.index + 1) := by
        rw [List.drop_eq_getElem_cons hindex, ← Option.some.inj
          ((List.getElem?_eq_getElem hindex).symm.trans hfirst)]
      rw [hdrop] at htracks
      obtain ⟨next, hstep, hnext, hcall, hword, hdc, hrow, hiq⟩ :=
        memoryStep_entry param h hfirst fun htracked => (htracks htracked).1
      have hrest : Tracked chip b next.1.index →
          Tracks rows next.1.input (es.drop next.1.index) := by
        intro htracked
        rw [hnext] at htracked ⊢
        rw [hrow htracked.of_succ]
        exact (htracks htracked.of_succ).2
      rw [memoryLoop, if_pos (by omega), hstep]
      intro j hj e he
      cases j with
      | zero =>
          obtain rfl : first = e := Option.some.inj (hfirst.symm.trans he)
          have hgain' := hgain first (List.mem_of_getElem? hfirst)
          exact ⟨next.2, rfl, hcall, hword, hiq, hdc.trans (memoryDc_entry hgain' heven)⟩
      | succ j =>
          obtain ⟨call, hmem, hgood⟩ := ih (c := next.1) (by omega)
            (show left ≤ fuel by omega) hrest j (by omega) e (by rw [hnext, ← he]; congr 1; omega)
          refine ⟨call, hmem, ?_⟩
          rwa [hnext, Nat.add_right_comm, Nat.add_assoc] at hgood

end Memory

theorem Stored.congr {m m' : ByteMem} {out : Nat} {words : List (BitVec 32)}
    (h : Stored m out words)
    (hsame : ∀ x, out ≤ x → x < out + (words.length + 1) / 2 * 4 → m' x = m x) :
    Stored m' out words where
  word := by
    intro k w hw
    have hk : k < words.length := (List.getElem?_eq_some_iff.mp hw).1
    rw [← h.word k w hw]
    refine read_congr fun j hj => hsame _ ?_ ?_ <;> omega
  half := by
    intro hodd
    rw [← h.half hodd]
    refine read_congr fun j hj => hsame _ ?_ ?_ <;> omega

/-- The calls of `write_memory` for a table that is in the memory. -/
theorem writeMemory_spec {chip : PhyChip} (param : Nat) {b : MemoryArgs}
    (hplain : Plain rows) (hmax : max ≤ 28) (hbounded : Bounded max rows) (hrec : Recoverable rows)
    (heven : ∀ r ∈ rows, r.code.toNat % 2 = 0)
    (h : Readable chip b rows (gainEntries max rows) m)
    (hcount : (chip.byte b.count).toNat ≤ (gainEntries max rows).length) {fuel : Nat}
    (hfuel : (chip.byte b.count).toNat ≤ fuel) :
    ∀ k < (chip.byte b.count).toNat, ∀ e, (gainEntries max rows)[k]? = some e →
      ∃ call, (writeMemory chip param b fuel m)[k]? = some call ∧
        CallOf chip param b m rows k e call := by
  cases rows with
  | nil => exact hbounded.elim
  | cons r rest =>
      have hposition : Position max 0 r.start.toNat (r :: rest) r rest := by
        refine ⟨rfl, hbounded, Nat.le_refl _, ?_⟩
        have hstart := hbounded.start_le
        split <;> omega
      have hgain : ∀ e ∈ gainEntries max (r :: rest), e.2 < 30 := by
        intro e he
        have hle := gain_le_of_mem_ramp hbounded he
        omega
      have hindex : (MemoryCursor.start chip b).index = 0 := if_neg (not_not.mpr h.alternate)
      have hinput : (MemoryCursor.start chip b).input = 0 := by
        cases chip with
        | esp32s3 => rfl
        | esp32c3 => exact if_neg (not_not.mpr h.alternate)
      have htracks : Tracks (r :: rest) 0 (gainEntries max (r :: rest)) :=
        tracks_ramp hposition hrec
      have hloop := memoryLoop_spec param h heven hgain hcount
        (c := MemoryCursor.start chip b) (by rw [hindex, Nat.zero_add]) hfuel
        (fun _ => by rw [hindex, hinput]; exact htracks)
      intro k hk e he
      have hcall := hloop k hk e (by rw [hindex, Nat.zero_add]; exact he)
      rw [hindex, Nat.zero_add] at hcall
      exact hcall

/-- Rows with even codes, of which none before the last is empty and none has the code of the one
before.  `generate` stores the words of all their entries, its result is the index of the last
one, and it changes nothing else.  When `write_memory` later finds the table and the codes as they
are, then for every index it hands on the word of the entry, the IQ word for the row of the entry
and the DC word and the correction of its gain, although it reads neither the first gains nor
the steps. -/
theorem gain_table_round_trip (chip : PhyChip) (a : GenerateArgs) (max : Nat)
    (rows : List GainRow) (m : ByteMem) (h : Called chip a max rows m) (hrec : Recoverable rows)
    (heven : ∀ r ∈ rows, r.code.toNat % 2 = 0) :
    ∃ m', generate chip a m = some (m', (gainEntries max rows).length - 1) ∧
      Stored m' a.out ((gainEntries max rows).map (packedEntry rows)) ∧
      (∀ x, x < a.out ∨ a.out + ((gainEntries max rows).length + 1) / 2 * 4 ≤ x → m' x = m x) ∧
      ∀ (param : Nat) (b : MemoryArgs) (m'' : ByteMem) (fuel : Nat),
        b.packed = a.out → b.codes = a.codes → chip.byte b.alternate = 0 →
        (chip.byte b.count).toNat ≤ (gainEntries max rows).length →
        (chip.byte b.count).toNat ≤ fuel →
        (∀ x, a.out ≤ x → x < a.out + ((gainEntries max rows).length + 1) / 2 * 4 →
          m'' x = m' x) →
        (∀ i < rows.length, m'' (a.codes + i) = m' (a.codes + i)) →
        ∀ k < (chip.byte b.count).toNat, ∀ e, (gainEntries max rows)[k]? = some e →
          ∃ call, (writeMemory chip param b fuel m'')[k]? = some call ∧
            CallOf chip param b m'' rows k e call := by
  obtain ⟨m', hgenerate, hstored, hframe⟩ := generate_spec h
  refine ⟨m', hgenerate, hstored, hframe, ?_⟩
  intro param b m'' fuel hpacked hcodes halternate hcount hfuel htable hcode
  refine writeMemory_spec param h.plain h.max_le h.bounded hrec heven ?_ hcount hfuel
  refine ⟨halternate, ?_, fun i r hr => ?_, h.plain.1, h.length_le⟩
  · rw [hpacked]
    refine hstored.congr ?_
    rw [List.length_map]
    exact htable
  · have hi : i < rows.length := (List.getElem?_eq_some_iff.mp hr).1
    have hout := h.apart i hi (a.codes + i) (by simp)
    rw [hcodes, hcode i hi, hframe _ hout, (h.tables i r hr).1]

/-- Two rows, with the gains 0 and 1 in the first and 1 to 4 in the second, and the IQ word of the
second. -/
def twoRows : ByteMem := fun x =>
  if x = 0 then 160 else if x = 1 then 132 else if x = 10 then 2 else if x = 21 then 1
  else if x = 204 then 7 else 0

def twoRowsArgs : GenerateArgs := ⟨100, 3, 0, 10, 20, 2⟩

theorem twoRows_called : Called .esp32s3 twoRowsArgs 3 [⟨160, 0, 2⟩, ⟨132, 1, 0⟩] twoRows where
  plain := ⟨by decide, by decide⟩
  count := by decide
  max_eq := by decide
  max_le := by decide
  bounded := by decide
  length_le := by decide
  tables := by
    intro i r hr
    match i, hr with
    | 0, rfl => exact ⟨rfl, rfl, rfl⟩
    | 1, rfl => exact ⟨rfl, rfl, rfl⟩
  apart := by
    intro i hi x hx
    have hi2 : i < 2 := hi
    simp only [twoRowsArgs, List.mem_cons, List.not_mem_nil, or_false] at hx
    exact Or.inl (show x < 100 by omega)

/-- The fourth entry has the gain 2 in the second row. -/
theorem gain_table_round_trip_two :
    ∃ m' call, generate .esp32s3 twoRowsArgs twoRows = some (m', 5) ∧
      (writeMemory .esp32s3 500 ⟨0, 0, 0, 200, 300, 400, 6, 100⟩ 256 m')[3]? = some call ∧
      call.entry.word = 0x8402 ∧ call.entry.iqValue = 7 := by
  obtain ⟨m', hgenerate, -, hframe, hcalls⟩ :=
    gain_table_round_trip .esp32s3 twoRowsArgs 3 _ twoRows twoRows_called (by decide) (by decide)
  obtain ⟨call, hcall, hentry⟩ := hcalls 500 ⟨0, 0, 0, 200, 300, 400, 6, 100⟩ m' 256 rfl rfl rfl
    (by decide) (by decide) (fun _ _ _ => rfl) (fun _ _ => rfl) 3 (by decide) (1, 2) (by decide)
  have hiq : read m' 204 4 = read twoRows 204 4 :=
    read_congr fun i _ => hframe _ (Or.inr (show 112 ≤ 204 + i by omega))
  refine ⟨m', call, hgenerate, hcall, hentry.word.trans (by decide), ?_⟩
  rw [hentry.iq, entryIq, if_neg (by decide)]
  exact hiq.trans (by decide)

end GainTable

end EspWifiHal
