import Mathlib.Data.BitVec

/-!
# Words of bytes

A word of four bytes in little-endian order, and the words of a list of bytes,
the last of them filled up with zeros.  `fill` writes the words of a list to the
first registers of a bank.
-/

namespace Words

/-- The word with the lowest byte `b₀`. -/
def leWord (b₀ b₁ b₂ b₃ : BitVec 8) : BitVec 32 := b₃ ++ b₂ ++ b₁ ++ b₀

theorem append_inj {n k : Nat} {a c : BitVec n} {b d : BitVec k} (h : a ++ b = c ++ d) :
    a = c ∧ b = d := by
  constructor
  · have hleft := congrArg (BitVec.extractLsb' k n) h
    rwa [BitVec.extractLsb'_append_eq_left, BitVec.extractLsb'_append_eq_left] at hleft
  · have hright := congrArg (BitVec.extractLsb' 0 k) h
    rwa [BitVec.extractLsb'_append_eq_right, BitVec.extractLsb'_append_eq_right] at hright

/-- A word has its bytes. -/
theorem leWord_inj {a₀ a₁ a₂ a₃ b₀ b₁ b₂ b₃ : BitVec 8}
    (h : leWord a₀ a₁ a₂ a₃ = leWord b₀ b₁ b₂ b₃) : a₀ = b₀ ∧ a₁ = b₁ ∧ a₂ = b₂ ∧ a₃ = b₃ := by
  obtain ⟨h, h₀⟩ := append_inj h
  obtain ⟨h, h₁⟩ := append_inj h
  obtain ⟨h₃, h₂⟩ := append_inj h
  exact ⟨h₀, h₁, h₂, h₃⟩

/-- The word at the byte offset `i` of a list, which zeros follow. -/
def wordAt (bytes : List (BitVec 8)) (i : Nat) : BitVec 32 :=
  leWord (bytes.getD i 0) (bytes.getD (i + 1) 0) (bytes.getD (i + 2) 0) (bytes.getD (i + 3) 0)

/-- The words of a list: those of four bytes, then one for the bytes that remain. -/
def wordsOf : List (BitVec 8) → List (BitVec 32)
  | b₀ :: b₁ :: b₂ :: b₃ :: rest => leWord b₀ b₁ b₂ b₃ :: wordsOf rest
  | [] => []
  | remaining => [wordAt remaining 0]

theorem wordAt_of_length_le {bytes : List (BitVec 8)} {i : Nat} (h : bytes.length ≤ i) :
    wordAt bytes i = 0 := by
  simp only [wordAt, List.getD_eq_getElem?_getD]
  rw [List.getElem?_eq_none h, List.getElem?_eq_none (by omega), List.getElem?_eq_none (by omega),
    List.getElem?_eq_none (by omega)]
  rfl

theorem wordAt_cons_four (b₀ b₁ b₂ b₃ : BitVec 8) (rest : List (BitVec 8)) (i : Nat) :
    wordAt (b₀ :: b₁ :: b₂ :: b₃ :: rest) (4 * (i + 1)) = wordAt rest (4 * i) := by
  have hget : ∀ k, (b₀ :: b₁ :: b₂ :: b₃ :: rest).getD (k + 4) 0 = rest.getD k 0 := fun _ => rfl
  simp only [wordAt, ← hget]
  congr 2

/-- The word `i` of a list is the word at offset `4 * i`. -/
theorem wordsOf_getElem? (bytes : List (BitVec 8)) (i : Nat) :
    (wordsOf bytes)[i]? = if 4 * i < bytes.length then some (wordAt bytes (4 * i)) else none := by
  fun_induction wordsOf bytes generalizing i with
  | case1 b₀ b₁ b₂ b₃ rest ih =>
      cases i with
      | zero => simp [wordAt]
      | succ i =>
          rw [List.getElem?_cons_succ, ih, wordAt_cons_four]
          simp only [List.length_cons]
          split <;> split <;> first | rfl | omega
  | case2 => simp
  | case3 remaining hfour hnil =>
      have hlen : 0 < remaining.length ∧ remaining.length < 4 := by
        match remaining, hfour, hnil with
        | [], _, hnil => exact absurd rfl hnil
        | [_], _, _ => simp
        | [_, _], _, _ => simp
        | [_, _, _], _, _ => simp
        | a :: b :: c :: d :: rest, hfour, _ => exact absurd rfl (hfour a b c d rest)
      cases i with
      | zero => simp [hlen.1]
      | succ i =>
          rw [if_neg (by omega)]
          rfl

/-! ## Banks of registers -/

section Fill

variable {α ι : Type*} [DecidableEq ι]

/-- Writes the words of a list to registers, one after the other. -/
def fillAt (is : List ι) (words : List α) (bank : ι → α) : ι → α :=
  (words.zip is).foldl (fun bank (word, i) => Function.update bank i word) bank

theorem fillAt_of_not_mem {is : List ι} {i : ι} (hi : i ∉ is) (words : List α) (bank : ι → α) :
    fillAt is words bank i = bank i := by
  induction is generalizing words bank with
  | nil => simp [fillAt]
  | cons j is ih =>
      rw [List.mem_cons, not_or] at hi
      obtain ⟨hij, his⟩ := hi
      cases words with
      | nil => rfl
      | cons word words =>
          calc fillAt (j :: is) (word :: words) bank i
              = fillAt is words (Function.update bank j word) i := rfl
            _ = Function.update bank j word i := ih his ..
            _ = bank i := Function.update_of_ne hij ..

theorem fillAt_getElem? {is : List ι} (hnodup : is.Nodup) {k : Nat} {i : ι} (hi : is[k]? = some i)
    (words : List α) (bank : ι → α) :
    fillAt is words bank i = words[k]?.getD (bank i) := by
  induction is generalizing k words bank with
  | nil => cases hi
  | cons j is ih =>
      obtain ⟨hj, his⟩ := List.nodup_cons.mp hnodup
      cases words with
      | nil => rfl
      | cons word words =>
          cases k with
          | zero =>
              obtain rfl : j = i := Option.some.inj hi
              calc fillAt (j :: is) (word :: words) bank j
                  = fillAt is words (Function.update bank j word) j := rfl
                _ = Function.update bank j word j := fillAt_of_not_mem hj ..
                _ = word := Function.update_self ..
          | succ k =>
              have hmem : i ∈ is := List.mem_of_getElem? hi
              have hij : i ≠ j := fun h => hj (h ▸ hmem)
              calc fillAt (j :: is) (word :: words) bank i
                  = fillAt is words (Function.update bank j word) i := rfl
                _ = words[k]?.getD (Function.update bank j word i) := ih his hi ..
                _ = words[k]?.getD (bank i) := by rw [Function.update_of_ne hij]

end Fill

section Modify

variable {σ ι α : Type*} [DecidableEq ι] (I : σ → Prop) (bank : σ → ι → α) (index : Nat → ι)
  (f : Nat → α → α) (body : σ → Nat → σ)

/-- A loop whose iteration `i` replaces the register `index i` and keeps the others. -/
theorem foldl_modify {n : Nat} (hinj : ∀ i < n, ∀ j < n, index i = index j → i = j)
    (hbody : ∀ s, ∀ i < n, I s → I (body s i) ∧
      bank (body s i) = Function.update (bank s) (index i) (f i (bank s (index i))))
    {s : σ} (hs : I s) :
    I ((List.range n).foldl body s) ∧
      (∀ i < n, bank ((List.range n).foldl body s) (index i) = f i (bank s (index i))) ∧
      ∀ x, (∀ i < n, index i ≠ x) → bank ((List.range n).foldl body s) x = bank s x := by
  induction n with
  | zero => exact ⟨hs, fun i hi => absurd hi (Nat.not_lt_zero i), fun _ _ => rfl⟩
  | succ n ih =>
      obtain ⟨hI, hdone, hrest⟩ := ih
        (fun i hi j hj => hinj i (Nat.lt_succ_of_lt hi) j (Nat.lt_succ_of_lt hj))
        (fun s i hi => hbody s i (Nat.lt_succ_of_lt hi))
      rw [List.range_succ, List.foldl_append, List.foldl_cons, List.foldl_nil]
      generalize (List.range n).foldl body s = t at hI hdone hrest ⊢
      obtain ⟨hI', hbank⟩ := hbody t n (Nat.lt_succ_self n) hI
      rw [hbank]
      refine ⟨hI', fun i hi => ?_, fun x hx => ?_⟩
      · rcases Nat.lt_succ_iff_lt_or_eq.mp hi with hlt | rfl
        · have hne : index i ≠ index n := fun h =>
            Nat.ne_of_lt hlt (hinj i hi n (Nat.lt_succ_self n) h)
          rw [Function.update_of_ne hne, hdone i hlt]
        · -- the register `n` is still the one of the start
          have hkept : bank t (index i) = bank s (index i) := hrest _ fun j hj h =>
            Nat.ne_of_lt hj (hinj j (Nat.lt_succ_of_lt hj) i hi h)
          rw [Function.update_self, hkept]
      · rw [Function.update_of_ne (hx n (Nat.lt_succ_self n)).symm,
          hrest x fun i hi => hx i (Nat.lt_succ_of_lt hi)]

end Modify

/-- The registers behind the words keep their values. -/
theorem fillAt_finRange {α : Type*} {n : Nat} (words : List α) (bank : Fin n → α) (i : Fin n) :
    fillAt (List.finRange n) words bank i = words[i.val]?.getD (bank i) :=
  fillAt_getElem? (List.nodup_finRange n) (by simp) words bank

end Words
