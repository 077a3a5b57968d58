import Mathlib.Data.List.Basic

/-!
# Runs of a step function

`step s e` is the state after the event `e`, or `none` when `e` is not enabled
in `s`.  `run step s es` performs the events in order.  A property that every
step keeps holds after every run (`run_inv`).  When the step keeps it only
under a condition on the event and the state before it, it holds after every
run all of whose steps meet the condition (`Meets`, `run_inv_of_meets`).

A step can itself be a list of updates.  `Throughout` is a property of the state
before, between and after them.
-/

namespace Trace

variable {σ ε : Type*}

/-- The state after a list of events. -/
def run (step : σ → ε → Option σ) : σ → List ε → Option σ
  | s, [] => some s
  | s, e :: es => (step s e).bind fun s' => run step s' es

variable {step : σ → ε → Option σ}

@[simp] theorem run_nil (s : σ) : run step s [] = some s := rfl

@[simp] theorem run_cons (s : σ) (e : ε) (es : List ε) :
    run step s (e :: es) = (step s e).bind fun s' => run step s' es := rfl

theorem run_append (s : σ) (es fs : List ε) :
    run step s (es ++ fs) = (run step s es).bind fun s' => run step s' fs := by
  induction es generalizing s with
  | nil => rfl
  | cons e es ih =>
      rw [List.cons_append, run_cons, run_cons]
      cases step s e with
      | none => rfl
      | some s' => exact ih s'

theorem run_trans {s t u : σ} {es fs : List ε} (h : run step s es = some t)
    (h' : run step t fs = some u) : run step s (es ++ fs) = some u := by
  rw [run_append, h, Option.bind_some, h']

/-- A property kept by every step holds after every run. -/
theorem run_inv {I : σ → Prop} (hstep : ∀ s e s', I s → step s e = some s' → I s') :
    ∀ {es : List ε} {s t : σ}, I s → run step s es = some t → I t
  | [], s, t, hs, h => by
      cases h
      exact hs
  | e :: es, s, t, hs, h => by
      rw [run_cons, Option.bind_eq_some_iff] at h
      obtain ⟨s', hse, hrest⟩ := h
      exact run_inv hstep (hstep s e s' hs hse) hrest

/-- When every allowed event is possible and keeps the property, every run of allowed events goes
through. -/
theorem run_total {I : σ → Prop} {ok : ε → Prop}
    (hstep : ∀ s e, I s → ok e → ∃ s', step s e = some s' ∧ I s') {es : List ε}
    (hes : ∀ e ∈ es, ok e) {s : σ} (hs : I s) : ∃ t, run step s es = some t ∧ I t := by
  induction es generalizing s with
  | nil => exact ⟨s, rfl, hs⟩
  | cons e es ih =>
      obtain ⟨he, hrest⟩ := List.forall_mem_cons.mp hes
      obtain ⟨s', hse, hs'⟩ := hstep s e hs he
      obtain ⟨t, ht, hinv⟩ := ih hrest hs'
      refine ⟨t, ?_, hinv⟩
      rw [run_cons, hse]
      exact ht

/-- Every step of the run from `s` meets the condition `ok`. -/
def Meets (step : σ → ε → Option σ) (ok : σ → ε → Prop) : σ → List ε → Prop
  | _, [] => True
  | s, e :: es => ok s e ∧ ∀ s', step s e = some s' → Meets step ok s' es

variable {ok : σ → ε → Prop}

instance decidableMeets [∀ s e, Decidable (ok s e)] :
    (s : σ) → (es : List ε) → Decidable (Meets step ok s es)
  | _, [] => isTrue trivial
  | s, e :: es =>
      have : Decidable (∀ s', step s e = some s' → Meets step ok s' es) :=
        match h : step s e with
        | none => isTrue fun _ h' => by cases h'
        | some t =>
            have := decidableMeets t es
            decidable_of_iff (Meets step ok t es) ⟨fun hmeets s' h' => Option.some.inj h' ▸ hmeets,
              fun hall => hall t rfl⟩
      inferInstanceAs (Decidable (_ ∧ _))

/-- Events that meet the condition in every state. -/
theorem meets_of_forall {es : List ε} (h : ∀ e ∈ es, ∀ s, ok s e) (s : σ) :
    Meets step ok s es := by
  induction es generalizing s with
  | nil => exact trivial
  | cons e es ih =>
      obtain ⟨he, hes⟩ := List.forall_mem_cons.mp h
      exact ⟨he s, fun s' _ => ih hes s'⟩

theorem Meets.append {s t : σ} {es fs : List ε} (hes : Meets step ok s es)
    (hrun : run step s es = some t) (hfs : Meets step ok t fs) : Meets step ok s (es ++ fs) := by
  induction es generalizing s with
  | nil =>
      cases hrun
      exact hfs
  | cons e es ih =>
      rw [run_cons, Option.bind_eq_some_iff] at hrun
      obtain ⟨s', hse, hrest⟩ := hrun
      refine ⟨hes.1, fun s'' hs'' => ?_⟩
      have heq : s' = s'' := Option.some.inj (hse.symm.trans hs'')
      subst heq
      exact ih (hes.2 s' hse) hrest

/-- A property kept by every step that meets the condition holds after every
run whose steps all meet it. -/
theorem run_inv_of_meets {I : σ → Prop}
    (hstep : ∀ s e s', I s → ok s e → step s e = some s' → I s') :
    ∀ {es : List ε} {s t : σ}, I s → Meets step ok s es → run step s es = some t → I t
  | [], s, t, hs, _, h => by
      cases h
      exact hs
  | e :: es, s, t, hs, hm, h => by
      rw [run_cons, Option.bind_eq_some_iff] at h
      obtain ⟨s', hse, hrest⟩ := h
      exact run_inv_of_meets hstep (hstep s e s' hs hm.1 hse) (hm.2 s' hse) hrest

/-- When a step that misses the condition always breaks the property `P`, a run
has `P` at each of its states exactly when all its steps meet the condition. -/
theorem forall_states_iff_meets {I P : σ → Prop} (hP : ∀ s, I s → P s)
    (hstep : ∀ s e s', I s → ok s e → step s e = some s' → I s')
    (hbad : ∀ s e s', I s → ¬ok s e → step s e = some s' → ¬P s') :
    ∀ {es : List ε} {s t : σ}, I s → run step s es = some t →
      ((∀ es₁ es₂ s₁, es = es₁ ++ es₂ → run step s es₁ = some s₁ → P s₁) ↔ Meets step ok s es)
  | [], s, t, hs, _ => by
      refine ⟨fun _ => trivial, fun _ es₁ es₂ s₁ heq hrun => ?_⟩
      obtain ⟨rfl, rfl⟩ := List.append_eq_nil_iff.mp heq.symm
      cases hrun
      exact hP s hs
  | e :: es, s, t, hs, h => by
      rw [run_cons, Option.bind_eq_some_iff] at h
      obtain ⟨s', hse, hrest⟩ := h
      constructor
      · intro hall
        have hok : ok s e := by
          by_contra hno
          refine hbad s e s' hs hno hse (hall [e] es s' rfl ?_)
          rw [run_cons, hse]
          rfl
        refine ⟨hok, fun s'' hs'' => ?_⟩
        have heq : s' = s'' := Option.some.inj (hse.symm.trans hs'')
        subst heq
        refine (forall_states_iff_meets hP hstep hbad (hstep s e s' hs hok hse) hrest).mp ?_
        intro es₁ es₂ s₁ heq hrun
        refine hall (e :: es₁) es₂ s₁ (by rw [heq, List.cons_append]) ?_
        rw [run_cons, hse]
        exact hrun
      · rintro ⟨hok, hmeets⟩ es₁ es₂ s₁ heq hrun
        cases es₁ with
        | nil =>
            cases hrun
            exact hP s hs
        | cons e' es₁ =>
            rw [List.cons_append, List.cons.injEq] at heq
            obtain ⟨rfl, heq⟩ := heq
            rw [run_cons, hse, Option.bind_some] at hrun
            exact (forall_states_iff_meets hP hstep hbad (hstep s e s' hs hok hse) hrest).mpr
              (hmeets s' hse) es₁ es₂ s₁ heq hrun

/-- Two conditions that agree under an invariant are met by the same runs. -/
theorem meets_iff_meets {I : σ → Prop} {ok' : σ → ε → Prop}
    (hiff : ∀ s e, I s → (ok' s e ↔ ok s e))
    (hstep : ∀ s e s', I s → ok s e → step s e = some s' → I s') {es : List ε} {s : σ}
    (hs : I s) : Meets step ok' s es ↔ Meets step ok s es := by
  induction es generalizing s with
  | nil => exact Iff.rfl
  | cons e es ih =>
      constructor
      · rintro ⟨he, hes⟩
        have hok := (hiff s e hs).mp he
        exact ⟨hok, fun s' hse => (ih (hstep s e s' hs hok hse)).mp (hes s' hse)⟩
      · rintro ⟨hok, hes⟩
        exact ⟨(hiff s e hs).mpr hok, fun s' hse => (ih (hstep s e s' hs hok hse)).mpr (hes s' hse)⟩

/-! ## Paths of a relation -/

/-- The events lead from the one state to the other along the relation. -/
inductive Follows (R : σ → ε → σ → Prop) (s : σ) : List ε → σ → Prop where
  | nil : Follows R s [] s
  | concat {es : List ε} {t u : σ} {e : ε} :
      Follows R s es t → R t e u → Follows R s (es ++ [e]) u

/-! ## Updates -/

section Updates

variable {τ ω : Type*} {update : σ → ω → σ}

/-- `P` holds before, between and after the updates. -/
def Throughout (update : σ → ω → σ) (P : σ → Prop) (s : σ) (ws : List ω) : Prop :=
  ∀ k, P ((ws.take k).foldl update s)

theorem throughout_nil {P : σ → Prop} {s : σ} : Throughout update P s [] ↔ P s := by
  simp [Throughout]

theorem throughout_cons {P : σ → Prop} {s : σ} {w : ω} {ws : List ω} :
    Throughout update P s (w :: ws) ↔ P s ∧ Throughout update P (update s w) ws := by
  constructor
  · intro h
    exact ⟨h 0, fun k => h (k + 1)⟩
  · rintro ⟨hs, hws⟩ k
    cases k with
    | zero => exact hs
    | succ k => exact hws k

theorem throughout_append {P : σ → Prop} {s : σ} {ws vs : List ω} :
    Throughout update P s (ws ++ vs) ↔
      Throughout update P s ws ∧ Throughout update P (ws.foldl update s) vs := by
  induction ws generalizing s with
  | nil =>
      rw [List.nil_append, throughout_nil, List.foldl_nil]
      exact ⟨fun h => ⟨h 0, h⟩, And.right⟩
  | cons w ws ih => rw [List.cons_append, throughout_cons, throughout_cons, ih, and_assoc]; rfl

/-- A property that each of the updates keeps holds throughout them. -/
theorem throughout_of_inv {P : σ → Prop} {ws : List ω}
    (hupdate : ∀ w ∈ ws, ∀ s, P s → P (update s w)) {s : σ} (hs : P s) :
    Throughout update P s ws := by
  induction ws generalizing s with
  | nil => exact throughout_nil.mpr hs
  | cons w ws ih =>
      obtain ⟨hw, hws⟩ := List.forall_mem_cons.mp hupdate
      exact throughout_cons.mpr ⟨hs, ih hws (hw s hs)⟩

theorem Throughout.last {P : σ → Prop} {s : σ} {ws : List ω} (h : Throughout update P s ws) :
    P (ws.foldl update s) := by
  have hlast := h ws.length
  rwa [List.take_length] at hlast

theorem Throughout.mono {P Q : σ → Prop} (hPQ : ∀ s, P s → Q s) {s : σ} {ws : List ω}
    (h : Throughout update P s ws) : Throughout update Q s ws := fun k => hPQ _ (h k)

/-- Each update is made in a state that allows it. -/
def Allowed (update : σ → ω → σ) (ok : σ → ω → Prop) (s : σ) (ws : List ω) : Prop :=
  ∀ before w after, ws = before ++ w :: after → ok (before.foldl update s) w

theorem Allowed.append {ok : σ → ω → Prop} {s : σ} {ws vs : List ω}
    (hws : Allowed update ok s ws) (hvs : Allowed update ok (ws.foldl update s) vs) :
    Allowed update ok s (ws ++ vs) := by
  intro before w after h
  rcases List.append_eq_append_iff.mp h with ⟨rest, rfl, hrest⟩ | ⟨rest, hrest, hcons⟩
  · rw [List.foldl_append]
    exact hvs rest w after hrest
  · cases rest with
    | nil =>
        rw [List.append_nil] at hrest
        subst hrest
        exact hvs [] w after hcons.symm
    | cons v rest =>
        obtain ⟨rfl, -⟩ := List.cons.inj hcons
        exact hws before w rest hrest

theorem allowed_of_forall {ok : σ → ω → Prop} {ws : List ω} (h : ∀ w ∈ ws, ∀ s, ok s w) (s : σ) :
    Allowed update ok s ws :=
  fun _ w _ hws => h w (by rw [hws]; simp) _

theorem allowed_singleton {ok : σ → ω → Prop} {s : σ} {w : ω} (h : ok s w) :
    Allowed update ok s [w] := by
  intro before w' after hw
  rcases List.cons_eq_append_iff.mp hw with ⟨rfl, hcons⟩ | ⟨_, _, hnil⟩
  · obtain ⟨rfl, -⟩ := List.cons.inj hcons
    exact h
  · exact absurd hnil.symm (by simp)

theorem foldl_view {update' : τ → ω → τ} (view : σ → τ)
    (hview : ∀ s w, view (update s w) = update' (view s) w) (s : σ) (ws : List ω) :
    view (ws.foldl update s) = ws.foldl update' (view s) := by
  induction ws generalizing s with
  | nil => rfl
  | cons w ws ih => rw [List.foldl_cons, List.foldl_cons, ih, hview]

/-- A property of a part of the state is followed on that part alone. -/
theorem throughout_view {update' : τ → ω → τ} (view : σ → τ) {P : τ → Prop}
    (hview : ∀ s w, view (update s w) = update' (view s) w) {s : σ} {ws : List ω} :
    Throughout update (fun s => P (view s)) s ws ↔ Throughout update' P (view s) ws := by
  simp only [Throughout, foldl_view view hview]

end Updates

end Trace
