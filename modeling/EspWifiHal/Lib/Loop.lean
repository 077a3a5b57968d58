import Mathlib.Data.List.Basic

/-!
# Loops with an early exit

A `for` loop over a list whose body may break.  `forBreak_spec` is the rule for
it: an invariant that counts the completed iterations holds at the end, or the
loop broke in some iteration from a state in which the invariant held.
`whileBreak` is a `while` loop, which may not end.  `forBreakE` is the `for` loop with a
body that may fail.
-/

namespace Loop

universe u v

variable {σ : Type u} {α : Type v}

/-- Run the body over a list until it returns `true`. -/
def forBreak (body : σ → α → σ × Bool) : List α → σ → σ
  | [], s => s
  | a :: as, s => if (body s a).2 then (body s a).1 else forBreak body as (body s a).1

/-- How the loop ended: in the iteration `k`, or after the last one. -/
theorem forBreak_spec (body : σ → α → σ × Bool) (I : Nat → σ → Prop) (xs : List α) {s : σ}
    (h : I 0 s)
    (hbody : ∀ k a t, xs[k]? = some a → I k t → (body t a).2 = false → I (k + 1) (body t a).1) :
    I xs.length (forBreak body xs s) ∨
      ∃ k a t, xs[k]? = some a ∧ I k t ∧ (body t a).2 = true ∧
        forBreak body xs s = (body t a).1 := by
  -- the rest of the list runs under the invariant shifted by one iteration
  induction xs generalizing I s with
  | nil => exact Or.inl h
  | cons a as ih =>
      cases hb : (body s a).2 with
      | true =>
          refine Or.inr ⟨0, a, s, rfl, h, hb, ?_⟩
          rw [forBreak, hb, if_pos rfl]
      | false =>
          have hnext : forBreak body (a :: as) s = forBreak body as (body s a).1 := by
            rw [forBreak, hb, if_neg Bool.false_ne_true]
          have hfirst : I 1 (body s a).1 := hbody 0 a s rfl h hb
          rcases ih (fun k => I (k + 1)) hfirst fun k b t hk => hbody (k + 1) b t hk with
            hend | ⟨k, b, t, hk, ht, hbreak, heq⟩
          · exact Or.inl (hnext ▸ hend)
          · exact Or.inr ⟨k + 1, b, t, hk, ht, hbreak, hnext.trans heq⟩

/-- The rule for a loop over `0, …, n - 1`. -/
theorem forBreak_range (body : σ → Nat → σ × Bool) (I : Nat → σ → Prop) (n : Nat) {s : σ}
    (h : I 0 s) (hbody : ∀ k < n, ∀ t, I k t → (body t k).2 = false → I (k + 1) (body t k).1) :
    I n (forBreak body (List.range n) s) ∨
      ∃ k < n, ∃ t, I k t ∧ (body t k).2 = true ∧
        forBreak body (List.range n) s = (body t k).1 := by
  have hindex : ∀ k a, (List.range n)[k]? = some a → k < n ∧ a = k := by
    intro k a ha
    obtain ⟨hlt, heq⟩ := List.getElem?_eq_some_iff.mp ha
    rw [List.length_range] at hlt
    rw [List.getElem_range] at heq
    exact ⟨hlt, heq.symm⟩
  have hloop := forBreak_spec body I (List.range n) h fun k a t ha hk hgo => by
    obtain ⟨hlt, rfl⟩ := hindex k a ha
    exact hbody a hlt t hk hgo
  rcases hloop with hend | ⟨k, a, t, ha, hk, hstop, heq⟩
  · rw [List.length_range] at hend
    exact Or.inl hend
  · obtain ⟨hlt, rfl⟩ := hindex k a ha
    exact Or.inr ⟨a, hlt, t, hk, hstop, heq⟩

/-- The same rule, for an invariant that the last iteration keeps too. -/
theorem forBreak_steps (body : σ → Nat → σ × Bool) (I : Nat → σ → Prop) {n : Nat} (hn : 0 < n)
    {s : σ} (h : I 0 s) (hbody : ∀ k < n, ∀ t, I k t → I (k + 1) (body t k).1) :
    ∃ k, 0 < k ∧ k ≤ n ∧ I k (forBreak body (List.range n) s) := by
  rcases forBreak_range body I n h fun k hk t ht _ => hbody k hk t ht with
    hend | ⟨k, hk, t, ht, -, heq⟩
  · exact ⟨n, hn, Nat.le_refl n, hend⟩
  · exact ⟨k + 1, Nat.succ_pos k, hk, heq ▸ hbody k hk t ht⟩

/-- A property that the body keeps holds at the end. -/
theorem forBreak_inv (body : σ → α → σ × Bool) (P : σ → Prop)
    (hbody : ∀ a t, P t → P (body t a).1) (xs : List α) {s : σ} (h : P s) :
    P (forBreak body xs s) := by
  induction xs generalizing s with
  | nil => exact h
  | cons a as ih =>
      rw [forBreak]
      split
      · exact hbody a s h
      · exact ih (hbody a s h)

/-- Two bodies that agree under an invariant give the same loop. -/
theorem forBreak_congr {body body' : σ → Nat → σ × Bool} {I : Nat → σ → Prop} (n : Nat) {s : σ}
    (h : I 0 s) (hbody : ∀ k < n, ∀ t, I k t → body t k = body' t k)
    (hnext : ∀ k < n, ∀ t, I k t → (body t k).2 = false → I (k + 1) (body t k).1) :
    forBreak body (List.range n) s = forBreak body' (List.range n) s := by
  suffices hrest : ∀ m i s, i + m = n → I i s →
      forBreak body (List.range' i m) s = forBreak body' (List.range' i m) s by
    rw [List.range_eq_range']
    exact hrest n 0 s (Nat.zero_add n) h
  intro m
  induction m with
  | zero => exact fun _ _ _ _ => rfl
  | succ m ih =>
      intro i s hi hs
      rw [List.range'_succ, forBreak, forBreak, ← hbody i (by omega) s hs]
      cases hstop : (body s i).2 with
      | true => rfl
      | false =>
          rw [if_neg Bool.false_ne_true, if_neg Bool.false_ne_true]
          exact ih (i + 1) _ (by omega) (hnext i (by omega) s hs hstop)

/-! ## Loops with a condition -/

section While

variable {τ : Type*}

/-- Run the body while the condition holds or until it returns `true`.  The condition is tested
`fuel` times at most. -/
def whileBreak (cond : σ → Bool) (body : σ → σ × Bool) : Nat → σ → Option σ
  | 0, _ => none
  | fuel + 1, s =>
      if cond s then
        if (body s).2 then some (body s).1 else whileBreak cond body fuel (body s).1
      else some s

/-- A loop that counts its iterations up to `n` is a `for` loop. -/
theorem whileBreak_count {body : τ × Nat → (τ × Nat) × Bool} {f : τ → τ × Bool} {P : τ → Prop}
    {n : Nat} (hbody : ∀ s, P s → ∀ c < n,
      body (s, c) = (((f s).1, if (f s).2 then c else c + 1), (f s).2))
    (hP : ∀ s, P s → P (f s).1) (xs : List α) {s : τ} {c fuel : Nat} (hs : P s)
    (hc : c + xs.length = n) (hfuel : xs.length < fuel) :
    (whileBreak (fun s => s.2 != n) body fuel (s, c)).map Prod.fst =
      some (forBreak (fun s _ => f s) xs s) := by
  induction xs generalizing s c fuel with
  | nil =>
      obtain ⟨fuel, rfl⟩ := Nat.exists_eq_succ_of_ne_zero (Nat.ne_of_gt hfuel)
      have hdone : c = n := hc
      simp [whileBreak, forBreak, hdone]
  | cons a as ih =>
      obtain ⟨fuel, rfl⟩ := Nat.exists_eq_succ_of_ne_zero (Nat.ne_of_gt (Nat.zero_lt_of_lt hfuel))
      rw [List.length_cons] at hc hfuel
      have hlt : c < n := by omega
      have hmore : (c != n) = true := bne_iff_ne.mpr (Nat.ne_of_lt hlt)
      rw [whileBreak, forBreak, if_pos hmore, hbody s hs c hlt]
      cases hstop : (f s).2 with
      | true => simp
      | false =>
          simp only [Bool.false_eq_true, if_false]
          exact ih (hP s hs) (by omega) (by omega)

/-- A loop that counts up to `n` and does not break. -/
theorem whileBreak_range {cond : τ × Nat → Bool} {body : τ × Nat → (τ × Nat) × Bool}
    {f : τ → Nat → τ} {n : Nat} (hcond : ∀ t, ∀ c ≤ n, cond (t, c) = decide (c < n))
    (hbody : ∀ t, ∀ c < n, body (t, c) = ((f t c, c + 1), false)) {fuel : Nat} (hfuel : n < fuel)
    (t : τ) : whileBreak cond body fuel (t, 0) = some ((List.range n).foldl f t, n) := by
  suffices hrest : ∀ m c t fuel, c + m = n → m < fuel →
      whileBreak cond body fuel (t, c) = some ((List.range' c m).foldl f t, n) by
    rw [List.range_eq_range']
    exact hrest n 0 t fuel (Nat.zero_add n) hfuel
  intro m
  induction m with
  | zero =>
      intro c t fuel hc hfuel
      obtain ⟨fuel, rfl⟩ := Nat.exists_eq_succ_of_ne_zero (Nat.ne_of_gt hfuel)
      have hdone : cond (t, c) = false := by
        rw [hcond t c (by omega)]
        exact decide_eq_false (by omega)
      rw [whileBreak, hdone, if_neg Bool.false_ne_true, ← hc]
      rfl
  | succ m ih =>
      intro c t fuel hc hfuel
      obtain ⟨fuel, rfl⟩ := Nat.exists_eq_succ_of_ne_zero (Nat.ne_of_gt (Nat.zero_lt_of_lt hfuel))
      have hmore : cond (t, c) = true := by
        rw [hcond t c (by omega)]
        exact decide_eq_true (by omega)
      rw [whileBreak, hmore, if_pos rfl, hbody t c (by omega), if_neg Bool.false_ne_true,
        ih (c + 1) _ fuel (by omega) (by omega), List.range'_succ, List.foldl_cons]

/-- The `for` loop over the same body, while the count stays below `n`. -/
theorem forBreak_count {body : τ × Nat → (τ × Nat) × Bool} {f : τ → τ × Bool} {P : τ → Prop}
    {n : Nat} (hbody : ∀ s, P s → ∀ c < n,
      body (s, c) = (((f s).1, if (f s).2 then c else c + 1), (f s).2))
    (hP : ∀ s, P s → P (f s).1) (xs : List α) {s : τ} {c : Nat} (hs : P s)
    (hc : c + xs.length ≤ n) :
    (forBreak (fun s _ => body s) xs (s, c)).1 = forBreak (fun s _ => f s) xs s := by
  induction xs generalizing s c with
  | nil => rfl
  | cons a as ih =>
      rw [List.length_cons] at hc
      rw [forBreak, forBreak, hbody s hs c (by omega)]
      cases hstop : (f s).2 with
      | true => simp
      | false =>
          simp only [Bool.false_eq_true, if_false]
          exact ih (hP s hs) (by omega)

end While

/-! ## Bodies that may fail -/

/-- A loop over a range, all of whose iterations succeed. -/
theorem foldlM_range {body : σ → Nat → Option σ} {I : Nat → σ → Prop} {n : Nat}
    (hbody : ∀ k < n, ∀ s, I k s → ∃ t, body s k = some t ∧ I (k + 1) t) {s : σ} (h : I 0 s) :
    ∃ t, (List.range n).foldlM body s = some t ∧ I n t := by
  induction n with
  | zero => exact ⟨s, rfl, h⟩
  | succ n ih =>
      obtain ⟨t, ht, hI⟩ := ih fun k hk => hbody k (Nat.lt_succ_of_lt hk)
      obtain ⟨u, hu, hI'⟩ := hbody n (Nat.lt_succ_self n) t hI
      refine ⟨u, ?_, hI'⟩
      rw [List.range_succ, List.foldlM_append, ht]
      simp [hu]

/-- A loop whose iterations append to what has been done. -/
theorem foldl_flatMap {β : Type*} {I : List β → σ → Prop} {body : σ → α → σ} {f : α → List β}
    {xs : List α} (hbody : ∀ x ∈ xs, ∀ ys t, I ys t → I (ys ++ f x) (body t x)) {ys : List β}
    {s : σ} (h : I ys s) : I (ys ++ xs.flatMap f) (xs.foldl body s) := by
  induction xs generalizing ys s with
  | nil =>
      rw [List.flatMap_nil, List.append_nil]
      exact h
  | cons x xs ih =>
      rw [List.flatMap_cons, ← List.append_assoc, List.foldl_cons]
      exact ih (fun y hy => hbody y (List.mem_cons_of_mem x hy)) (hbody x List.mem_cons_self ys s h)

section Fallible

variable {ε : Type*}

/-- Run the body over a list until it fails or returns `true`. -/
def forBreakE (body : σ → α → Except ε (σ × Bool)) : List α → σ → Except ε σ
  | [], s => .ok s
  | a :: as, s =>
      match body s a with
      | .error e => .error e
      | .ok (t, true) => .ok t
      | .ok (t, false) => forBreakE body as t

/-- A loop over a range whose body does not fail, as long as an invariant holds. -/
theorem forBreakE_range {body : σ → Nat → Except ε (σ × Bool)} {I : Nat → σ → Prop} (n : Nat)
    {s : σ} (h : I 0 s)
    (hbody : ∀ k < n, ∀ t, I k t → ∃ r, body t k = .ok r ∧ I (k + 1) r.1) :
    ∃ k ≤ n, ∃ t, forBreakE body (List.range n) s = .ok t ∧ I k t := by
  -- the loop from the iteration `i` on, which is the head of a shorter range
  suffices hrest : ∀ m i s, i + m = n → I i s →
      ∃ k ≤ n, ∃ t, forBreakE body (List.range' i m) s = .ok t ∧ I k t by
    rw [List.range_eq_range']
    exact hrest n 0 s (Nat.zero_add n) h
  intro m
  induction m with
  | zero => exact fun i s hi hs => ⟨i, Nat.le_of_eq hi, s, rfl, hs⟩
  | succ m ih =>
      intro i s hi hs
      obtain ⟨⟨t, done⟩, hr, ht⟩ := hbody i (by omega) s hs
      rw [List.range'_succ, forBreakE, hr]
      cases done with
      | true => exact ⟨i + 1, by omega, t, rfl, ht⟩
      | false => exact ih (i + 1) t (by omega) ht

theorem forBreakE_map {β : Type*} (body : σ → α → Except ε (σ × Bool)) (f : β → α) (xs : List β)
    (s : σ) : forBreakE body (xs.map f) s = forBreakE (fun s b => body s (f b)) xs s := by
  induction xs generalizing s with
  | nil => rfl
  | cons b xs ih =>
      simp only [List.map_cons, forBreakE]
      cases body s (f b) with
      | error e => rfl
      | ok r =>
          obtain ⟨t, done⟩ := r
          cases done with
          | true => rfl
          | false => exact ih t

/-- The loop runs through as the one with the body that cannot fail, if and only if its
first iteration and the rest do. -/
theorem forBreakE_cons_ok_iff {bodyE : σ → α → Except ε (σ × Bool)} {body : σ → α → σ × Bool}
    (hagree : ∀ s a r, bodyE s a = .ok r → r = body s a) {a : α} {as : List α} {s : σ} :
    forBreakE bodyE (a :: as) s = .ok (forBreak body (a :: as) s) ↔
      bodyE s a = .ok (body s a) ∧ ((body s a).2 = false →
        forBreakE bodyE as (body s a).1 = .ok (forBreak body as (body s a).1)) := by
  cases hbody : bodyE s a with
  | error e => simp [forBreakE, hbody]
  | ok r =>
      obtain rfl := hagree s a r hbody
      cases hdone : (body s a).2 with
      | true =>
          have hpair : body s a = ((body s a).1, true) := Prod.ext rfl hdone
          rw [hpair] at hbody
          simp [forBreakE, forBreak, hbody, hdone]
      | false =>
          have hpair : body s a = ((body s a).1, false) := Prod.ext rfl hdone
          rw [hpair] at hbody
          simp [forBreakE, forBreak, hbody, hdone]

end Fallible

end Loop
