import EspWifiHal.Dma.Ownership

/-!
# Restarting the receive engine

Here the engine is a party of its own.  `NEXT` names a descriptor or nothing.
A completion marks the descriptor at `NEXT` and moves on along its link, or to
nothing if the engine fetched a null link before a later append
(`prefetchedNull`).  Completions and prefetches interleave with the calls of
the driver in any order.

At all times the queue splits into descriptors that are completed and unread
and, behind them, descriptors that are free (`Split`), and `NEXT` is nothing or
the first free descriptor (`Engine`).  After each call of the driver `NEXT` is
the first free descriptor exactly (`Settled`), so it is nothing only if no
descriptor is free.
-/

namespace EspWifiHal

open Linked

/-! ## The engine as a party -/

/-- The engine fetches the link of its descriptor and finds it null. -/
def RxState.prefetch (s : RxState) : Option RxState :=
  match s.dma.next with
  | some d =>
      if s.mem.link d = none then some { s with dma := { s.dma with prefetchedNull := true } }
      else none
  | none => none

/-- The engine completes its descriptor with `len` bytes and moves on. -/
def RxState.complete (len : Nat) (s : RxState) : Option RxState :=
  match s.dma.next with
  | some d =>
      some
        { s with
          mem := s.mem.modify d fun x => (x.setLength len).setSucEof true
          dma :=
            { s.dma with
              next := if s.dma.prefetchedNull then none else s.mem.link d
              last := some d
              prefetchedNull := false } }
  | none => none

/-- The steps of driver and engine. -/
inductive RxEvent where
  | takeFirst
  | recycle (d : Addr)
  | clear
  | prefetch
  | complete (len : Nat)

/-- A step of the driver, not of the engine. -/
def RxEvent.isCall : RxEvent → Bool
  | .takeFirst | .recycle _ | .clear => true
  | .prefetch | .complete _ => false

/-- One step of driver or engine. -/
def Ledger.rxStep (slab : DmaBufferSlab) (l : Ledger) : RxEvent → Option Ledger
  | .takeFirst => l.step slab .takeFirst
  | .recycle d => l.step slab (.recycle d)
  | .clear => l.step slab .clear
  | .prefetch => l.rx.prefetch.map fun rx => { l with rx := rx }
  | .complete len => (l.rx.complete len).map fun rx => { l with rx := rx }

/-- The queue from the head on is `read`, all completed, then `free`, none
completed. -/
def RxState.Split (s : RxState) (read free : List Addr) : Prop :=
  Path s.mem.link s.head (read ++ free) ∧ (∀ p ∈ read, s.mem.completed p = true) ∧
    ∀ p ∈ free, s.mem.completed p = false

/-! ## The split of the list model -/

namespace Fifo

def Split (q : Fifo) (read free : List Addr) : Prop :=
  q.chain = read ++ free ∧ (∀ p ∈ read, q.done p = true) ∧ ∀ p ∈ free, q.done p = false

/-- The engine is idle or at the first free descriptor. -/
def Engine (q : Fifo) : Prop :=
  ∃ read free, q.Split read free ∧ (q.dma.next = none ∨ q.dma.next = free.head?)

/-- The engine is at the first free descriptor, if there is one.  Whatever the
driver wrote as base since `written` is that descriptor. -/
def Settled (q : Fifo) (written : List Addr) : Prop :=
  ∃ read free, q.Split read free ∧ q.dma.next = free.head? ∧
    (q.dma.written = written ∨ ∃ d, free.head? = some d ∧ q.dma.written = written ++ [d])

theorem Settled.engine {q : Fifo} {written : List Addr} (h : q.Settled written) : q.Engine := by
  obtain ⟨read, free, hsplit, hnext, _⟩ := h
  exact ⟨read, free, hsplit, Or.inr hnext⟩

theorem Split.available {q : Fifo} {read free : List Addr} (h : q.Split read free) :
    q.available = free.head? := by
  obtain ⟨hchain, hread, hfree⟩ := h
  have hnone : read.find? (fun p => !q.done p) = none := by
    rw [List.find?_eq_none]
    intro p hp
    simp [hread p hp]
  rw [Fifo.available, hchain, List.find?_append, hnone, Option.none_or]
  cases free with
  | nil => rfl
  | cons d free => rw [List.find?_cons, hfree d List.mem_cons_self]; rfl

/-- A completion moves the first free descriptor to the read ones. -/
theorem Split.complete {q : Fifo} {read free : List Addr} {d : Addr} (h : q.Split read (d :: free))
    (hnotin : d ∉ free) (dma : RxDma) :
    Split { q with done := Function.update q.done d true, dma := dma } (read ++ [d]) free := by
  obtain ⟨hchain, hread, hfree⟩ := h
  refine ⟨?_, ?_, ?_⟩
  · rw [List.append_assoc, List.singleton_append]
    exact hchain
  · intro p hp
    show Function.update q.done d true p = true
    by_cases hpd : p = d
    · rw [hpd, Function.update_self]
    · rw [Function.update_of_ne hpd]
      exact hread p ((List.mem_append.mp hp).resolve_right fun he =>
        hpd (List.mem_singleton.mp he))
  · intro p hp
    show Function.update q.done d true p = false
    rw [Function.update_of_ne (ne_of_mem_of_not_mem hp hnotin)]
    exact hfree p (List.mem_cons_of_mem d hp)

end Fifo

/-- A restart brings an idle engine to the first free descriptor. -/
theorem RxDma.restart_next {dma : RxDma} {available : Option Addr}
    (h : dma.next = none ∨ dma.next = available) :
    (dma.restart available).next = available ∧
      ((dma.restart available).written = dma.written ∨
        ∃ d, available = some d ∧ (dma.restart available).written = dma.written ++ [d]) := by
  unfold RxDma.restart
  cases hn : dma.next with
  | some d =>
      rw [hn] at h
      have ha : some d = available := h.resolve_left (by simp)
      exact ⟨hn.trans ha, Or.inl rfl⟩
  | none =>
      cases available with
      | none => exact ⟨hn, Or.inl rfl⟩
      | some d => exact ⟨rfl, Or.inr ⟨d, rfl, rfl⟩⟩

namespace Fifo

/-- A list whose engine has just been restarted is settled. -/
theorem Split.settled_restart {q : Fifo} {read free : List Addr} (h : q.Split read free)
    (hn : q.dma.next = none ∨ q.dma.next = free.head?) :
    Settled { q with dma := q.dma.restart q.available } q.dma.written := by
  have havail := h.available
  rw [← havail] at hn
  obtain ⟨hnext, hwritten⟩ := RxDma.restart_next hn
  exact ⟨read, free, h, hnext.trans havail, havail ▸ hwritten⟩

/-! ## One lemma per step -/

theorem Engine.takeFirst {q : Fifo} (h : q.Engine) : q.takeFirst.2.Settled q.dma.written := by
  obtain ⟨read, free, hsplit, hnext⟩ := h
  obtain ⟨hchain, hread, hfree⟩ := hsplit
  cases hq : q.chain with
  | nil =>
      rw [takeFirst_nil hq]
      have hnil : read = [] ∧ free = [] := List.append_eq_nil_iff.mp (hchain.symm.trans hq)
      obtain ⟨rfl, rfl⟩ := hnil
      exact ⟨[], [], ⟨hchain, hread, hfree⟩, hnext.elim id id, Or.inl rfl⟩
  | cons x xs =>
      rw [hq] at hchain
      cases hx : q.done x with
      | false =>
          rw [takeFirst_waiting hq hx]
          exact Split.settled_restart ⟨hq.trans hchain, hread, hfree⟩ hnext
      | true =>
          -- a completed head is not free, so it is the first of the read descriptors
          obtain ⟨read', hread'⟩ : ∃ read', read = x :: read' := by
            cases read with
            | nil =>
                have hmem : x ∈ free := by
                  rw [List.nil_append] at hchain
                  rw [← hchain]
                  exact List.mem_cons_self
                rw [hfree x hmem] at hx
                cases hx
            | cons y read' =>
                rw [List.cons_append, List.cons.injEq] at hchain
                exact ⟨read', by rw [hchain.1]⟩
          subst hread'
          rw [List.cons_append, List.cons.injEq] at hchain
          have hread'' : ∀ p ∈ read', q.done p = true := fun p hp =>
            hread p (List.mem_cons_of_mem x hp)
          cases xs with
          | nil =>
              rw [takeFirst_last hq hx]
              have hnil : read' = [] ∧ free = [] := List.append_eq_nil_iff.mp hchain.2.symm
              obtain ⟨rfl, rfl⟩ := hnil
              exact ⟨[], [], ⟨rfl, hread'', hfree⟩, rfl, Or.inl rfl⟩
          | cons y ys =>
              rw [takeFirst_next hq hx]
              exact Split.settled_restart (q := { q with chain := y :: ys })
                ⟨hchain.2, hread'', hfree⟩ hnext

theorem Engine.recycle {q : Fifo} {d : Addr} (h : q.Engine) (hd : d ∉ q.chain) :
    (q.recycle d).Settled q.dma.written := by
  obtain ⟨read, free, ⟨hchain, hread, hfree⟩, hnext⟩ := h
  have hread' : ∀ p ∈ read, Function.update q.done d false p = true := by
    intro p hp
    have hne : p ≠ d := fun he => hd (by rw [hchain]; exact List.mem_append_left _ (he ▸ hp))
    rw [Function.update_of_ne hne]
    exact hread p hp
  have hfree' : ∀ p ∈ free ++ [d], Function.update q.done d false p = false := by
    intro p hp
    by_cases hpd : p = d
    · rw [hpd, Function.update_self]
    · rw [Function.update_of_ne hpd]
      refine hfree p ((List.mem_append.mp hp).resolve_right fun he => hpd ?_)
      exact List.mem_singleton.mp he
  by_cases hnil : q.chain = []
  · rw [hnil] at hchain
    obtain ⟨rfl, rfl⟩ := List.append_eq_nil_iff.mp hchain.symm
    refine ⟨[], [d], ⟨?_, hread', hfree'⟩, ?_, Or.inr ⟨d, rfl, ?_⟩⟩
    · rw [recycle_chain, hnil]
    · simp only [Fifo.recycle, hnil, if_true, List.head?_cons]
      rfl
    · simp only [Fifo.recycle, hnil, if_true]
      rfl
  · have hnext' : q.dma.next = none ∨ q.dma.next = (free ++ [d]).head? := by
      cases free with
      | nil => exact Or.inl (hnext.elim id id)
      | cons e free => exact hnext
    have hsplit : Split { q with
        chain := q.chain ++ [d]
        done := Function.update q.done d false } read (free ++ [d]) :=
      ⟨by rw [hchain, List.append_assoc], hread', hfree'⟩
    have hres := hsplit.settled_restart hnext'
    simpa only [Fifo.recycle, hnil, if_false] using hres

theorem Engine.clear {q : Fifo} (h : q.Engine) :
    q.clear.Settled q.dma.written ∧ ∀ p ∈ q.chain, q.clear.done p = false := by
  obtain ⟨read, free, ⟨hchain, hread, hfree⟩, hnext⟩ := h
  cases hq : q.chain with
  | nil =>
      rw [clear_nil hq]
      rw [hq] at hchain
      obtain ⟨rfl, rfl⟩ := List.append_eq_nil_iff.mp hchain.symm
      exact ⟨⟨[], [], ⟨hq, hread, hfree⟩, hnext.elim id id, Or.inl rfl⟩, by simp⟩
  | cons x xs =>
      rw [clear_cons hq]
      -- the completed descriptors are all at the front, so the loop un-marks all of them
      have hall : ∀ p ∈ x :: xs, q.unmarked p = false := by
        intro p hp
        unfold Fifo.unmarked
        rw [← hq, hchain] at hp
        rcases List.mem_append.mp hp with hr | hf
        · have hfront : p ∈ q.chain.takeWhile q.done := by
            rw [hchain, List.takeWhile_append_of_pos hread]
            exact List.mem_append_left _ hr
          rw [if_pos hfront]
        · rw [hfree p hf]
          split <;> rfl
      exact ⟨⟨[], x :: xs, ⟨hq, by simp, hall⟩, rfl, Or.inr ⟨x, rfl, rfl⟩⟩, hall⟩

end Fifo

/-! ## The driver state -/

theorem Refines.split_iff {s : RxState} {q : Fifo} (h : Refines s q) {read free : List Addr} :
    s.Split read free ↔ q.Split read free := by
  unfold RxState.Split Fifo.Split
  rw [h.done]
  constructor
  · rintro ⟨hpath, hrest⟩
    exact ⟨h.path.unique hpath, hrest⟩
  · rintro ⟨hchain, hrest⟩
    exact ⟨hchain ▸ h.path, hrest⟩

/-- The invariant of a run of driver and engine. -/
def Ledger.RxInv (slab : DmaBufferSlab) (l : Ledger) : Prop := ∃ q, l.Inv slab q ∧ q.Engine

/-- What one call of the driver guarantees, given the base writes before it. -/
structure RxState.Restarted (written : List Addr) (s : RxState) : Prop where
  /-- Every base the call wrote is the first descriptor that is not completed. -/
  base : ∀ d ∈ s.dma.written.drop written.length, ∃ read free, s.Split read (d :: free)
  /-- The engine is idle only if every queued descriptor is completed. -/
  idle : s.dma.next = none → ∃ read, s.Split read []

theorem Fifo.Settled.restarted {s : RxState} {q : Fifo} {written : List Addr}
    (h : q.Settled written) (href : Refines s q) : s.Restarted written := by
  obtain ⟨read, free, hsplit, hnext, hwritten⟩ := h
  rw [← href.split_iff] at hsplit
  rw [← href.dma] at hnext hwritten
  constructor
  · intro d hd
    rcases hwritten with hw | ⟨e, he, hw⟩
    · rw [hw, List.drop_length] at hd
      cases hd
    · rw [hw, List.drop_left, List.mem_singleton] at hd
      subst hd
      cases free with
      | nil => cases he
      | cons e free =>
          rw [List.head?_cons, Option.some.injEq] at he
          exact ⟨read, free, he ▸ hsplit⟩
  · intro hidle
    rw [hidle] at hnext
    have hfree : free = [] := List.head?_eq_none_iff.mp hnext.symm
    exact ⟨read, hfree ▸ hsplit⟩

namespace Ledger

variable {slab : DmaBufferSlab} {l l' : Ledger}

/-- What a step of driver or engine does to a state in the invariant. -/
structure RxSafe (l : Ledger) (e : RxEvent) (l' : Ledger) : Prop where
  /-- A call of the driver leaves the engine restarted. -/
  call : e.isCall → l'.rx.Restarted l.rx.dma.written
  /-- A call other than `clear` leaves the mark of every descriptor that stays queued. -/
  unread : e.isCall → e ≠ .clear → ∀ xs, Path l'.rx.mem.link l'.rx.head xs →
    ∀ p ∈ xs, e ≠ .recycle p → l'.rx.mem.completed p = l.rx.mem.completed p
  /-- `clear` leaves no mark in the queue. -/
  cleared : e = .clear → ∃ free, l'.rx.Split [] free

theorem rxStep_takeFirst (h : l.RxInv slab) (hs : l.rxStep slab .takeFirst = some l') :
    l'.RxInv slab ∧ RxSafe l .takeFirst l' := by
  obtain ⟨q, hinv, heng⟩ := h
  obtain ⟨rx, hrun, hinv'⟩ := hinv.takeFirst
  simp only [rxStep, step, hrun, Option.map_some, Option.some.injEq] at hs
  subst hs
  have hset := heng.takeFirst
  have hrx : (l.noteTaken (q.takeFirst.1, rx)).rx = rx := by
    cases q.takeFirst.1 with
    | none => rfl
    | some d => rfl
  refine ⟨⟨_, hinv', hset.engine⟩, ?_, ?_, by simp⟩
  · intro _
    rw [hinv.refines.dma]
    exact hset.restarted hinv'.refines
  · intro _ _ xs hpath p hp _
    rw [hinv'.refines.done, hinv.refines.done, q.takeFirst_done]

theorem rxStep_recycle {d : Addr} (h : l.RxInv slab)
    (hs : l.rxStep slab (.recycle d) = some l') : l'.RxInv slab ∧ RxSafe l (.recycle d) l' := by
  obtain ⟨q, hinv, heng⟩ := h
  by_cases hd : d ∈ l.borrowed
  · obtain ⟨rx, hrun, hinv'⟩ := hinv.recycle hd
    simp only [rxStep, step, hd, if_true, hrun, Option.map_some, Option.some.injEq] at hs
    subst hs
    have hnotin : d ∉ q.chain := fun hc => ((hinv.mem_chain_iff d).mp hc).2 hd
    have hset := heng.recycle hnotin
    refine ⟨⟨_, hinv', hset.engine⟩, ?_, ?_, by simp⟩
    · intro _
      rw [hinv.refines.dma]
      exact hset.restarted hinv'.refines
    · intro _ _ xs hpath p hp hne
      have hpd : p ≠ d := fun he => hne (by rw [he])
      rw [hinv'.refines.done, hinv.refines.done, q.recycle_done, Function.update_of_ne hpd]
  · simp only [rxStep, step, hd, if_false, reduceCtorEq] at hs

theorem rxStep_clear (h : l.RxInv slab) (hs : l.rxStep slab .clear = some l') :
    l'.RxInv slab ∧ RxSafe l .clear l' := by
  obtain ⟨q, hinv, heng⟩ := h
  obtain ⟨rx, hrun, hinv'⟩ := hinv.clear
  simp only [rxStep, step, hrun, Option.map_some, Option.some.injEq] at hs
  subst hs
  obtain ⟨hset, hall⟩ := heng.clear
  refine ⟨⟨_, hinv', hset.engine⟩, ?_, by simp, fun _ => ?_⟩
  · intro _
    rw [hinv.refines.dma]
    exact hset.restarted hinv'.refines
  · refine ⟨q.chain, hinv'.refines.split_iff.mpr ⟨?_, by simp, hall⟩⟩
    rw [q.clear_chain, List.nil_append]

theorem rxStep_prefetch (h : l.RxInv slab) (hs : l.rxStep slab .prefetch = some l') :
    l'.RxInv slab ∧ RxSafe l .prefetch l' := by
  obtain ⟨q, hinv, read, free, hsplit, hnext⟩ := h
  refine ⟨?_, by simp [RxEvent.isCall], by simp [RxEvent.isCall], by simp⟩
  simp only [rxStep, RxState.prefetch] at hs
  cases hn : l.rx.dma.next with
  | none => simp [hn] at hs
  | some d =>
      by_cases hlink : l.rx.mem.link d = none
      · simp only [hn, hlink, if_true, Option.map_some, Option.some.injEq] at hs
        subst hs
        rw [← hinv.refines.dma, hn] at hnext
        exact ⟨{ q with dma := _ }, ⟨hinv.refines.withDma, hinv.order, hinv.perm, hinv.null⟩,
          read, free, hsplit, hnext⟩
      · simp [hn, hlink] at hs

/-- The engine marks a descriptor and moves on.  No link changes. -/
theorem Inv.complete {q : Fifo} (h : l.Inv slab q) (d : Addr) (len : Nat) (dma : RxDma) :
    Inv slab
      { l with
        rx :=
          { l.rx with
            mem := l.rx.mem.modify d fun x => (x.setLength len).setSucEof true
            dma := dma } }
      { q with done := Function.update q.done d true, dma := dma } := by
  have hlink : (l.rx.mem.modify d fun x => (x.setLength len).setSucEof true).link =
      l.rx.mem.link := by
    rw [Mem.link_modify]
    exact Function.update_eq_self d l.rx.mem.link
  have hdone : (l.rx.mem.modify d fun x => (x.setLength len).setSucEof true).completed =
      Function.update q.done d true := by
    rw [Mem.completed_modify, h.refines.done]
    rfl
  refine ⟨⟨?_, h.refines.tail, hdone, rfl⟩, h.order, h.perm, fun p hp => ?_⟩
  · show Path (Mem.link _) _ _
    rw [hlink]
    exact h.refines.path
  · exact (congrFun hlink p).trans (h.null p hp)

theorem rxStep_complete {len : Nat} (h : l.RxInv slab)
    (hs : l.rxStep slab (.complete len) = some l') :
    l'.RxInv slab ∧ RxSafe l (.complete len) l' := by
  obtain ⟨q, hinv, read, free, hsplit, hnext⟩ := h
  refine ⟨?_, by simp [RxEvent.isCall], by simp [RxEvent.isCall], by simp⟩
  simp only [rxStep, RxState.complete] at hs
  rw [← hinv.refines.dma] at hnext
  cases hn : l.rx.dma.next with
  | none => simp [hn] at hs
  | some d =>
      simp only [hn, Option.map_some, Option.some.injEq] at hs
      subst hs
      rw [hn] at hnext
      have hhead : free.head? = some d := (hnext.resolve_left (by simp)).symm
      obtain ⟨free, rfl⟩ := List.head?_eq_some_iff.mp hhead
      have hpath := hinv.refines.path
      rw [hsplit.1] at hpath
      have hsucc : l.rx.mem.link d = free.head? := (hpath.drop).2.head?_eq.symm
      have hnotin : d ∉ free :=
        (List.nodup_cons.mp (List.nodup_append.mp hpath.nodup).2.1).1
      refine ⟨_, hinv.complete d len _, read ++ [d], free, hsplit.complete hnotin _, ?_⟩
      -- a null link that was prefetched stops the engine
      cases hpre : l.rx.dma.prefetchedNull with
      | true => exact Or.inl rfl
      | false => exact Or.inr hsucc

/-- Every step keeps the invariant and is safe. -/
theorem rxStep_safe {e : RxEvent} (h : l.RxInv slab) (hs : l.rxStep slab e = some l') :
    l'.RxInv slab ∧ RxSafe l e l' := by
  cases e with
  | takeFirst => exact rxStep_takeFirst h hs
  | recycle d => exact rxStep_recycle h hs
  | clear => exact rxStep_clear h hs
  | prefetch => exact rxStep_prefetch h hs
  | complete len => exact rxStep_complete h hs

/-- The queue splits into completed and free descriptors, and the engine works
at nothing or at the first free descriptor. -/
theorem RxInv.split (h : l.RxInv slab) : ∃ read free, l.rx.Split read free ∧
    ∀ d, l.rx.dma.next = some d → free.head? = some d := by
  obtain ⟨q, hinv, read, free, hsplit, hnext⟩ := h
  refine ⟨read, free, hinv.refines.split_iff.mpr hsplit, fun d hd => ?_⟩
  rw [← hinv.refines.dma, hd] at hnext
  exact (hnext.resolve_left (by simp)).symm

theorem rxInv_start (slab : DmaBufferSlab) (mem : Mem) :
    ∃ l, start slab mem = some l ∧ l.RxInv slab ∧ l.rx.Restarted [] := by
  obtain ⟨rx, base, hstart, href, hbase, hdone⟩ := start_refines slab mem
  have hset : Fifo.Settled
      { chain := slab.descriptors
        done := rx.mem.completed
        dma := RxDma.reset.setBaseRxDescriptor base } [] :=
    ⟨[], slab.descriptors, ⟨rfl, by simp, hdone⟩, hbase.symm, Or.inr ⟨base, hbase, rfl⟩⟩
  refine ⟨_, by rw [start, hstart]; rfl, ⟨_, ⟨href, ?_, ?_, ?_⟩, hset.engine⟩, hset.restarted href⟩
  · rfl
  · rw [List.append_nil]
  · intro p hp
    cases hp

/-- Restart safety in every interleaving of driver and engine.  The queue
always splits into completed and free descriptors with the engine idle or at
the first free one, and every step is safe in the sense of `RxSafe`. -/
theorem restart_safe_of_run (slab : DmaBufferSlab) (mem : Mem) :
    ∃ l₀, start slab mem = some l₀ ∧ l₀.rx.Restarted [] ∧
      ∀ (es : List RxEvent) (l : Ledger), Trace.run (rxStep slab) l₀ es = some l →
        (∃ read free, l.rx.Split read free ∧
          ∀ d, l.rx.dma.next = some d → free.head? = some d) ∧
        ∀ e l', l.rxStep slab e = some l' → RxSafe l e l' := by
  obtain ⟨l₀, hstart, hinv, hrestarted⟩ := rxInv_start slab mem
  refine ⟨l₀, hstart, hrestarted, fun es l hrun => ?_⟩
  have h : l.RxInv slab := Trace.run_inv (I := fun l => l.RxInv slab)
    (fun s e s' hs hstep => (rxStep_safe hs hstep).1) hinv hrun
  exact ⟨h.split, fun e l' hs => (rxStep_safe h hs).2⟩

end Ledger

end EspWifiHal
