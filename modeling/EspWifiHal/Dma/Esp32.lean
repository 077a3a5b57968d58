import EspWifiHal.Dma.Ownership

/-!
# The receive queue of the ESP32 and ESP32-S2

Without the features `esp32s3` and `esp32c3` the queue is compiled differently.
`take_first` always rewrites the base register, and `recycle` reads two live
registers to decide whether the appended descriptor becomes the new tail.  What
the hardware answers is part of the event.

When the queue is not empty and neither test succeeds, `recycle` falls through
to the code for the empty queue.  It replaces the head and keeps the old tail,
so the queue that was there is lost.  `complete_iff_keepsTail` says that this is
the only way: a run keeps every descriptor reachable in all its states exactly
when no `recycle` in it falls through.
-/

namespace EspWifiHal

open Linked

namespace Esp32

/-- What `NEXT` reads as when the hardware has no next descriptor. -/
def noNext : Addr := 0x3ff00000

/-- `DmaList::take_first`. -/
def takeFirst (s : RxState) : Option Addr × RxState :=
  match s.rxChainPtrs with
  | none => (none, s)
  | some (first, _) =>
      if s.mem.completed first then
        let s := s.setRxChainBase (s.mem.link first)
        (some first, (s.modify first (.setOwner .cpu)).modify first (.setNext none))
      else (none, s)

/-- `DmaList::recycle`.  After the reload the registers read `next` and `last`. -/
def recycle (next last : Option Addr) (d : Addr) (s : RxState) : RxState :=
  let s := (s.modify d (.setNext none)).modify d .resetForRx
  match s.rxChainPtrs with
  | some (head, tail) =>
      let s := s.modify tail (.setNext (some d))
      let s := { s with dma := { s.dma with next := next, last := last } }
      if next ≠ some noNext ∨ last = some d then { s with rxChainPtrs := some (head, d) }
      else s.setRxChainBase (some d)
  | none => s.setRxChainBase (some d)

/-- The steps of a run. -/
inductive Event where
  | takeFirst
  | recycle (d : Addr) (next last : Option Addr)
  | clear
  | hardware (c : HwChange)

/-- One step.  Only a borrowed descriptor can be returned. -/
def step (slab : DmaBufferSlab) (l : Ledger) : Event → Option Ledger
  | .takeFirst => some (l.noteTaken (takeFirst l.rx))
  | .recycle d next last =>
      if d ∈ l.borrowed then
        some
          { l with
            rx := recycle next last d l.rx
            borrowed := l.borrowed.erase d
            appended := l.appended ++ [d] }
      else none
  | .clear => l.step slab .clear
  | .hardware c => l.step slab (.hardware c)

/-- The chain from the software head holds every descriptor that is not
borrowed, each once, and ends at the software tail. -/
def Complete (slab : DmaBufferSlab) (l : Ledger) : Prop :=
  ∃ xs, Path l.rx.mem.link l.rx.head xs ∧ xs.Nodup ∧
    (∀ p, p ∈ xs ↔ p ∈ slab.descriptors ∧ p ∉ l.borrowed) ∧
    l.rx.rxChainPtrs.map Prod.snd = xs.getLast?

/-- A `recycle` finds the queue empty, a next descriptor in the hardware, or its
descriptor as the last one of the hardware. -/
def KeepsTail (l : Ledger) : Event → Prop
  | .recycle d next last =>
      l.rx.rxChainPtrs = none ∨ next ≠ some noNext ∨ last = some d
  | _ => True

variable {slab : DmaBufferSlab} {l l' : Ledger} {q : Fifo}

theorem complete_of_inv (h : l.Inv slab q) : Complete slab l :=
  ⟨q.chain, h.refines.path, h.refines.path.nodup, h.mem_chain_iff, h.refines.tail⟩

/-! ## The steps that keep the queue -/

theorem inv_takeFirst (h : l.Inv slab q) : ∃ q', (l.noteTaken (takeFirst l.rx)).Inv slab q' := by
  cases hq : q.chain with
  | nil =>
      rw [takeFirst, h.refines.ptrs_nil hq]
      exact ⟨q, h.refines, h.order, h.perm, h.null⟩
  | cons x xs =>
      obtain ⟨t, hptrs, hlast⟩ := h.refines.ptrs_cons hq
      have hpath := h.refines.path
      rw [hq] at hpath hlast
      simp only [takeFirst, hptrs]
      cases hdone : l.rx.mem.completed x with
      | false => exact ⟨q, h.refines, h.order, h.perm, h.null⟩
      | true =>
          have hlink := l.rx.mem.unlink_link x
          cases xs with
          | nil =>
              have hnull : l.rx.mem.link x = none := hpath.2
              rw [hnull]
              exact ⟨_, h.noteTaken hq (h.refines.pop none _ hq rfl rfl) rfl hlink⟩
          | cons y ys =>
              have hnext : l.rx.mem.link x = some y := hpath.2.1
              rw [hnext]
              rw [List.getLast?_cons_cons] at hlast
              have hpop : Refines
                  (((l.rx.setRxChainBase (some y)).modify x (.setOwner .cpu)).modify x
                    (.setNext none))
                  { q with chain := y :: ys, dma := l.rx.dma.setBaseRxDescriptor y } := by
                simp only [RxState.setRxChainBase, RxState.modify, hptrs]
                exact h.refines.pop (some (y, t)) _ hq rfl hlast.symm
              exact ⟨_, h.noteTaken hq hpop rfl hlink⟩

theorem inv_recycle {d : Addr} {next last : Option Addr} (h : l.Inv slab q)
    (hd : d ∈ l.borrowed) (hok : KeepsTail l (.recycle d next last)) :
    ∃ q', Ledger.Inv slab { l with
      rx := recycle next last d l.rx
      borrowed := l.borrowed.erase d
      appended := l.appended ++ [d] } q' := by
  obtain ⟨hnotin, _⟩ := h.room hd
  by_cases hq : q.chain = []
  · have hptrs : l.rx.rxChainPtrs = none := h.refines.ptrs_nil hq
    have hpush : Refines (recycle next last d l.rx) { q with
        chain := q.chain ++ [d]
        done := Function.update q.done d false
        dma := l.rx.dma.setBaseRxDescriptor d } := by
      simp only [recycle, RxState.modify, hptrs, RxState.setRxChainBase]
      exact h.refines.pushFirst hq
    refine ⟨_, h.noteReturned hd hpush rfl ?_⟩
    · intro p _ hp
      simp only [recycle, RxState.modify, hptrs, RxState.setRxChainBase]
      rw [Mem.renew_link, Function.update_of_ne hp]
  · obtain ⟨x, xs, hcons⟩ := List.exists_cons_of_ne_nil hq
    obtain ⟨t, hptrs, hlast⟩ := h.refines.ptrs_cons hcons
    have htest : next ≠ some noNext ∨ last = some d := by
      refine hok.resolve_left fun hnone => ?_
      rw [hptrs] at hnone
      cases hnone
    have hpush : Refines (recycle next last d l.rx) { q with
        chain := q.chain ++ [d]
        done := Function.update q.done d false
        dma := { l.rx.dma with next := next, last := last } } := by
      simp only [recycle, RxState.modify, hptrs, htest, if_true]
      exact h.refines.push _ hnotin hptrs
    refine ⟨_, h.noteReturned hd hpush rfl ?_⟩
    · intro p hp hpd
      have hpt : p ≠ t := fun he => hp (he ▸ List.mem_of_getLast? hlast)
      simp only [recycle, RxState.modify, hptrs, htest, if_true]
      rw [Mem.link_modify, Function.update_of_ne hpt, Mem.renew_link, Function.update_of_ne hpd]

theorem inv_step {e : Event} (h : ∃ q, l.Inv slab q) (hok : KeepsTail l e)
    (hs : step slab l e = some l') : ∃ q, l'.Inv slab q := by
  obtain ⟨q, h⟩ := h
  cases e with
  | takeFirst =>
      simp only [step, Option.some.injEq] at hs
      exact hs ▸ inv_takeFirst h
  | recycle d next last =>
      by_cases hd : d ∈ l.borrowed
      · simp only [step, hd, if_true, Option.some.injEq] at hs
        exact hs ▸ inv_recycle h hd hok
      · simp only [step, hd, if_false, reduceCtorEq] at hs
  | clear => exact Ledger.inv_step (e := .clear) ⟨q, h⟩ hs
  | hardware c => exact Ledger.inv_step (e := .hardware c) ⟨q, h⟩ hs

/-! ## The step that loses the queue -/

/-- A `recycle` that falls through leaves its descriptor as the whole chain,
although the descriptors that were queued are not borrowed. -/
theorem not_complete_of_fallthrough {d : Addr} {next last : Option Addr} (h : l.Inv slab q)
    (hno : ¬KeepsTail l (.recycle d next last))
    (hs : step slab l (.recycle d next last) = some l') : ¬Complete slab l' := by
  simp only [KeepsTail, not_or, not_not] at hno
  obtain ⟨hptrs, hnext, hlast⟩ := hno
  by_cases hd : d ∈ l.borrowed
  · simp only [step, hd, if_true, Option.some.injEq] at hs
    subst hs
    obtain ⟨hnotin, _⟩ := h.room hd
    obtain ⟨x, xs, hcons⟩ : ∃ x xs, q.chain = x :: xs :=
      List.exists_cons_of_ne_nil fun hq => hptrs (h.refines.ptrs_nil hq)
    obtain ⟨t, hxt, ht⟩ := h.refines.ptrs_cons hcons
    have htail : t ≠ d := fun he => hnotin (he ▸ List.mem_of_getLast? ht)
    have hfall : ¬(next ≠ some noNext ∨ last = some d) := by
      simp only [not_or, not_not]
      exact ⟨hnext, hlast⟩
    rintro ⟨ys, hpath, _, hmem, _⟩
    -- the chain from the new head is the returned descriptor alone
    have honly : ys = [d] := by
      refine hpath.unique ⟨?_, ?_⟩
      · simp only [recycle, RxState.modify, hxt, hfall, if_false, RxState.setRxChainBase,
          RxState.head, Option.map_some]
      · simp only [recycle, RxState.modify, hxt, hfall, if_false, RxState.setRxChainBase]
        rw [Mem.link_modify, Function.update_of_ne htail.symm, Mem.renew_link,
          Function.update_self]
        rfl
    have hx := (h.mem_chain_iff x).mp (by rw [hcons]; exact List.mem_cons_self)
    have hxys : x ∈ ys :=
      (hmem x).mpr ⟨hx.1, fun hb => hx.2 (List.mem_of_mem_erase hb)⟩
    rw [honly, List.mem_singleton] at hxys
    exact hnotin (hxys ▸ hcons ▸ List.mem_cons_self)
  · simp only [step, hd, if_false, reduceCtorEq] at hs

/-- Every state of a run keeps every descriptor reachable exactly when no
`recycle` of the run falls through. -/
theorem complete_iff_keepsTail (slab : DmaBufferSlab) (mem : Mem) :
    ∃ l₀, Ledger.start slab mem = some l₀ ∧
      ∀ (es : List Event) (l : Ledger), Trace.run (step slab) l₀ es = some l →
        ((∀ es₁ es₂ l₁, es = es₁ ++ es₂ → Trace.run (step slab) l₀ es₁ = some l₁ →
            Complete slab l₁) ↔
          Trace.Meets (step slab) KeepsTail l₀ es) := by
  obtain ⟨l₀, hstart, hinv⟩ := Ledger.inv_start slab mem
  refine ⟨l₀, hstart, fun es l hrun => ?_⟩
  refine Trace.forall_states_iff_meets (I := fun l => ∃ q, l.Inv slab q) ?_ ?_ ?_ hinv hrun
  · rintro l ⟨q, h⟩
    exact complete_of_inv h
  · intro l e l' h hok hs
    exact inv_step h hok hs
  · rintro l e l' ⟨q, h⟩ hno hs
    cases e with
    | recycle d next last => exact not_complete_of_fallthrough h hno hs
    | takeFirst => exact absurd trivial hno
    | clear => exact absurd trivial hno
    | hardware c => exact absurd trivial hno

/-- The hardware completes `d` alone. -/
def completeOnly (d : Addr) : HwChange :=
  { sucEof := fun p => p == d
    length := fun _ => 128
    next := none
    last := some d
    prefetchedNull := false }

/-- The first frame is received, read and returned while `NEXT` reads as no
descriptor and `LAST` is still the second descriptor.  The second descriptor is
then in no list. -/
theorem recycle_loses_queue :
    ∃ l₀ l, Ledger.start .twoBuffers (fun _ => .empty) = some l₀ ∧
      Trace.run (step .twoBuffers) l₀
        [.hardware (completeOnly 0x3ffb1000), .takeFirst,
          .recycle 0x3ffb1000 (some noNext) (some 0x3ffb100c)] = some l ∧
      l.borrowed = [] ∧ Path l.rx.mem.link l.rx.head [0x3ffb1000] ∧ ¬Complete .twoBuffers l := by
  refine ⟨_, _, rfl, rfl, rfl, ⟨rfl, rfl⟩, ?_⟩
  rintro ⟨xs, hpath, _, hmem, _⟩
  have honly : xs = [0x3ffb1000] := hpath.unique ⟨rfl, rfl⟩
  have hsecond : 0x3ffb100c ∈ xs := (hmem _).mpr ⟨by decide, by decide⟩
  rw [honly] at hsecond
  revert hsecond
  decide

end Esp32

end EspWifiHal
