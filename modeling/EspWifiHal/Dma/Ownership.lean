import EspWifiHal.Dma.Fifo
import EspWifiHal.Lib.Trace

/-!
# Who holds which descriptor

A run of the receive queue is any sequence of `take_first`, `recycle` of a
descriptor that was taken and not yet returned, `clear` and hardware activity.
The hardware may set and clear completion flags, write lengths and move its own
registers as it likes.  It never writes a link.

`Ledger` is the queue together with the record of such a run: the descriptors
that are out, and the order in which descriptors were appended and taken.
`Ledger.Sound` is what holds of it in every state of every run
(`ownership_of_run`).  The proof carries `Ledger.Inv`, which says the same of
the list model.
-/

namespace EspWifiHal

open Linked

/-- What the hardware leaves behind: any completion flags, any lengths and any
register contents. -/
structure HwChange where
  sucEof : Addr → Bool
  length : Addr → BitVec 12
  next : Option Addr
  last : Option Addr
  prefetchedNull : Bool

/-- A step of the hardware between two calls of the driver. -/
def RxState.hardware (c : HwChange) (s : RxState) : RxState :=
  { s with
    mem := fun p =>
      { s.mem p with
        flags := { (s.mem p).flags with sucEof := c.sucEof p, length := c.length p } }
    dma :=
      { s.dma with next := c.next, last := c.last, prefetchedNull := c.prefetchedNull } }

/-- The queue and the record of its run. -/
structure Ledger where
  /-- The queue. -/
  rx : RxState
  /-- The descriptors that were taken and not yet returned. -/
  borrowed : List Addr
  /-- Every descriptor that entered the queue, oldest first. -/
  appended : List Addr
  /-- Every descriptor that left the queue, oldest first. -/
  taken : List Addr

/-- The steps of a run. -/
inductive QueueEvent where
  | takeFirst
  | recycle (d : Addr)
  | clear
  | hardware (c : HwChange)

namespace Ledger

/-- The ledger after `DmaBufferSlab::init` and `DmaList::new`. -/
def start (slab : DmaBufferSlab) (mem : Mem) : Option Ledger :=
  (slab.start mem).map fun rx =>
    { rx := rx, borrowed := [], appended := slab.descriptors, taken := [] }

/-- The entries of a call of `take_first`. -/
def noteTaken (l : Ledger) : Option Addr × RxState → Ledger
  | (none, rx) => { l with rx := rx }
  | (some d, rx) =>
      { l with rx := rx, borrowed := d :: l.borrowed, taken := l.taken ++ [d] }

/-- One step.  Only a borrowed descriptor can be returned. -/
def step (slab : DmaBufferSlab) (l : Ledger) : QueueEvent → Option Ledger
  | .takeFirst => (l.rx.takeFirst slab.bufferCount).map l.noteTaken
  | .recycle d =>
      if d ∈ l.borrowed then
        (l.rx.recycle slab.bufferCount d).map fun rx =>
          { l with rx := rx, borrowed := l.borrowed.erase d, appended := l.appended ++ [d] }
      else none
  | .clear => (l.rx.clear slab.bufferCount).map fun rx => { l with rx := rx }
  | .hardware c => some { l with rx := l.rx.hardware c }

/-- A step that the rules of a run allow. -/
def Allowed (l : Ledger) : QueueEvent → Prop
  | .recycle d => d ∈ l.borrowed
  | _ => True

/-- Ownership of the descriptors in one state. -/
structure Sound (slab : DmaBufferSlab) (l : Ledger) : Prop where
  /-- From the head the links visit every descriptor that is not borrowed, each
  once, and end at the tail.  What is queued is what was appended and not taken. -/
  chain : ∀ head tail, l.rx.rxChainPtrs = some (head, tail) →
    ∃ xs, Path l.rx.mem.link (some head) xs ∧ xs.Nodup ∧
      (∀ p, p ∈ xs ↔ p ∈ slab.descriptors ∧ p ∉ l.borrowed) ∧
      xs.getLast? = some tail ∧ l.rx.mem.link tail = none ∧ l.appended = l.taken ++ xs
  /-- The queue is empty exactly when every descriptor is borrowed. -/
  none_iff : l.rx.rxChainPtrs = none ↔ ∀ p ∈ slab.descriptors, p ∈ l.borrowed
  /-- A borrowed descriptor links nowhere and nothing links to it. -/
  unlinked : ∀ p ∈ l.borrowed, l.rx.mem.link p = none ∧
    ∀ r ∈ slab.descriptors, l.rx.mem.link r ≠ some p
  /-- Descriptors leave in the order in which they were appended. -/
  fifo : l.taken <+: l.appended

/-- The invariant of a run: the state refines a list that holds, together with
the borrowed descriptors, the whole slab. -/
structure Inv (slab : DmaBufferSlab) (l : Ledger) (q : Fifo) : Prop where
  refines : Refines l.rx q
  order : l.appended = l.taken ++ q.chain
  perm : (q.chain ++ l.borrowed).Perm slab.descriptors
  null : ∀ p ∈ l.borrowed, l.rx.mem.link p = none

namespace Inv

variable {slab : DmaBufferSlab} {l : Ledger} {q : Fifo}

theorem length_le (h : Inv slab l q) : q.chain.length + l.borrowed.length = slab.bufferCount := by
  have hlen := h.perm.length_eq
  rw [List.length_append, DmaBufferSlab.descriptors, List.length_map, List.length_range] at hlen
  exact hlen

theorem nodup (h : Inv slab l q) : (q.chain ++ l.borrowed).Nodup :=
  h.perm.nodup_iff.mpr slab.descriptors_nodup

/-- The queued descriptors are those of the slab that are not borrowed. -/
theorem mem_chain_iff (h : Inv slab l q) (p : Addr) :
    p ∈ q.chain ↔ p ∈ slab.descriptors ∧ p ∉ l.borrowed := by
  have hdisj := (List.nodup_append.mp h.nodup).2.2
  rw [← h.perm.mem_iff, List.mem_append]
  constructor
  · intro hp
    exact ⟨Or.inl hp, fun hb => hdisj p hp p hb rfl⟩
  · rintro ⟨hp | hp, hnb⟩
    · exact hp
    · exact absurd hp hnb

theorem sound (h : Inv slab l q) : l.Sound slab where
  chain := by
    intro head tail hptrs
    have htail : q.chain.getLast? = some tail := by rw [← h.refines.tail, hptrs]; rfl
    have hpath := h.refines.path
    rw [RxState.head, hptrs, Option.map_some] at hpath
    exact ⟨q.chain, hpath, hpath.nodup, h.mem_chain_iff, htail, hpath.getLast_null htail, h.order⟩
  none_iff := by
    rw [h.refines.ptrs_none_iff]
    constructor
    · intro hq p hp
      by_contra hb
      have hmem := (h.mem_chain_iff p).mpr ⟨hp, hb⟩
      rw [hq] at hmem
      cases hmem
    · intro hall
      apply List.eq_nil_iff_forall_not_mem.mpr
      intro p hp
      obtain ⟨hslab, hnb⟩ := (h.mem_chain_iff p).mp hp
      exact hnb (hall p hslab)
  unlinked := by
    intro p hp
    refine ⟨h.null p hp, fun r hr hlink => ?_⟩
    by_cases hb : r ∈ l.borrowed
    · rw [h.null r hb] at hlink
      cases hlink
    · have hchain := (h.mem_chain_iff r).mpr ⟨hr, hb⟩
      have hmem := List.mem_of_mem_tail (h.refines.path.mem_tail_of_next hchain hlink)
      exact ((h.mem_chain_iff p).mp hmem).2 hp
  fifo := ⟨q.chain, h.order.symm⟩

/-! ## One lemma per step

The first two are about the entries of the ledger only.  They hold for any
driver code that takes the head out of the list, or appends to it. -/

theorem noteTaken {x : Addr} {xs : List Addr} {rx : RxState} {q' : Fifo} (h : Inv slab l q)
    (hq : q.chain = x :: xs) (href : Refines rx q') (hq' : q'.chain = xs)
    (hlink : rx.mem.link = Function.update l.rx.mem.link x none) :
    Inv slab (l.noteTaken (some x, rx)) q' := by
  refine ⟨href, ?_, ?_, fun p hp => ?_⟩
  · show l.appended = l.taken ++ [x] ++ q'.chain
    rw [h.order, hq, hq', List.append_assoc, List.singleton_append]
  · show (q'.chain ++ x :: l.borrowed).Perm slab.descriptors
    have hperm := h.perm
    rw [hq, List.cons_append] at hperm
    rw [hq']
    exact List.perm_middle.trans hperm
  · show rx.mem.link p = none
    rw [hlink]
    by_cases hpx : p = x
    · rw [hpx, Function.update_self]
    · rw [Function.update_of_ne hpx]
      exact h.null p ((List.mem_cons.mp hp).resolve_left hpx)

theorem noteReturned {d : Addr} {rx : RxState} {q' : Fifo} (h : Inv slab l q)
    (hd : d ∈ l.borrowed) (href : Refines rx q') (hq' : q'.chain = q.chain ++ [d])
    (hlink : ∀ p, p ∉ q.chain → p ≠ d → rx.mem.link p = l.rx.mem.link p) :
    Inv slab { l with rx := rx, borrowed := l.borrowed.erase d, appended := l.appended ++ [d] }
      q' := by
  have hndb : l.borrowed.Nodup := (List.nodup_append.mp h.nodup).2.1
  refine ⟨href, ?_, ?_, fun p hp => ?_⟩
  · show l.appended ++ [d] = l.taken ++ q'.chain
    rw [h.order, hq', List.append_assoc]
  · rw [hq', List.append_assoc, List.singleton_append]
    exact ((List.perm_cons_erase hd).symm.append_left q.chain).trans h.perm
  · have hpd : p ≠ d := fun he => hndb.not_mem_erase (he ▸ hp)
    have hpb : p ∈ l.borrowed := List.mem_of_mem_erase hp
    have hpc : p ∉ q.chain := fun hc => ((h.mem_chain_iff p).mp hc).2 hpb
    exact (hlink p hpc hpd).trans (h.null p hpb)

/-- A borrowed descriptor is not queued, and there is room for it. -/
theorem room {d : Addr} (h : Inv slab l q) (hd : d ∈ l.borrowed) :
    d ∉ q.chain ∧ q.chain.length < slab.bufferCount := by
  refine ⟨fun hc => ((h.mem_chain_iff d).mp hc).2 hd, ?_⟩
  have := h.length_le
  have := List.length_pos_of_mem hd
  omega

theorem takeFirst (h : Inv slab l q) : ∃ rx,
    l.rx.takeFirst slab.bufferCount = some (q.takeFirst.1, rx) ∧
      Inv slab (l.noteTaken (q.takeFirst.1, rx)) q.takeFirst.2 := by
  have hlen : q.chain.length ≤ slab.bufferCount := by have := h.length_le; omega
  obtain ⟨rx, hrun, href, hlink⟩ := takeFirst_refines h.refines hlen
  have hchain := q.takeFirst_chain
  refine ⟨rx, hrun, ?_⟩
  cases htaken : q.takeFirst.1 with
  | none =>
      rw [htaken, Option.toList_none, List.nil_append] at hchain
      rw [htaken] at hlink
      refine ⟨href, ?_, ?_, fun p hp => ?_⟩
      · rw [← hchain]; exact h.order
      · rw [← hchain]; exact h.perm
      · exact (congrFun hlink p).trans (h.null p hp)
  | some d =>
      rw [htaken, Option.toList_some, List.singleton_append] at hchain
      rw [htaken, Option.elim_some] at hlink
      exact h.noteTaken hchain href rfl hlink

theorem recycle {d : Addr} (h : Inv slab l q) (hd : d ∈ l.borrowed) : ∃ rx,
    l.rx.recycle slab.bufferCount d = some rx ∧
      Inv slab { l with rx := rx, borrowed := l.borrowed.erase d, appended := l.appended ++ [d] }
        (q.recycle d) := by
  obtain ⟨hnotin, hlen⟩ := h.room hd
  obtain ⟨rx, hrun, href, hlink⟩ := recycle_refines h.refines hnotin hlen
  exact ⟨rx, hrun, h.noteReturned hd href (q.recycle_chain d) hlink⟩

theorem clear (h : Inv slab l q) : ∃ rx, l.rx.clear slab.bufferCount = some rx ∧
    Inv slab { l with rx := rx } q.clear := by
  have hlen : q.chain.length ≤ slab.bufferCount := by have := h.length_le; omega
  obtain ⟨rx, hrun, href, hlink⟩ := clear_refines h.refines hlen
  refine ⟨rx, hrun, href, ?_, ?_, fun p hp => ?_⟩
  · rw [q.clear_chain]; exact h.order
  · rw [q.clear_chain]; exact h.perm
  · exact (congrFun hlink p).trans (h.null p hp)

theorem hardware (c : HwChange) (h : Inv slab l q) :
    Inv slab { l with rx := l.rx.hardware c }
      { q with done := c.sucEof, dma := (l.rx.hardware c).dma } :=
  ⟨⟨h.refines.path, h.refines.tail, rfl, rfl⟩, h.order, h.perm, h.null⟩

/-- Every allowed step can be taken: no loop of the driver runs on. -/
theorem step_isSome {e : QueueEvent} (h : Inv slab l q) (he : l.Allowed e) :
    (l.step slab e).isSome := by
  cases e with
  | takeFirst =>
      obtain ⟨rx, hrun, _⟩ := h.takeFirst
      simp [step, hrun]
  | recycle d =>
      obtain ⟨rx, hrun, _⟩ := h.recycle he
      simp [step, hrun, show d ∈ l.borrowed from he]
  | clear =>
      obtain ⟨rx, hrun, _⟩ := h.clear
      simp [step, hrun]
  | hardware c => rfl

end Inv

/-- Every step keeps the invariant. -/
theorem inv_step {slab : DmaBufferSlab} {l l' : Ledger} {e : QueueEvent}
    (h : ∃ q, Inv slab l q) (hs : l.step slab e = some l') : ∃ q, Inv slab l' q := by
  obtain ⟨q, h⟩ := h
  cases e with
  | takeFirst =>
      obtain ⟨rx, hrun, hinv⟩ := h.takeFirst
      simp only [step, hrun, Option.map_some, Option.some.injEq] at hs
      exact ⟨_, hs ▸ hinv⟩
  | recycle d =>
      by_cases hd : d ∈ l.borrowed
      · obtain ⟨rx, hrun, hinv⟩ := h.recycle hd
        simp only [step, hd, if_true, hrun, Option.map_some, Option.some.injEq] at hs
        exact ⟨_, hs ▸ hinv⟩
      · simp only [step, hd, if_false, reduceCtorEq] at hs
  | clear =>
      obtain ⟨rx, hrun, hinv⟩ := h.clear
      simp only [step, hrun, Option.map_some, Option.some.injEq] at hs
      exact ⟨_, hs ▸ hinv⟩
  | hardware c =>
      simp only [step, Option.some.injEq] at hs
      exact ⟨_, hs ▸ h.hardware c⟩

/-- The ledger starts with the whole slab in the queue and nothing completed. -/
theorem start_spec (slab : DmaBufferSlab) (mem : Mem) :
    ∃ l q, start slab mem = some l ∧ Inv slab l q ∧ q.chain = slab.descriptors ∧
      ∀ p ∈ slab.descriptors, q.done p = false := by
  obtain ⟨rx, base, hstart, href, _, hdone⟩ := start_refines slab mem
  refine ⟨_, _, by rw [start, hstart]; rfl, ⟨href, ?_, ?_, ?_⟩, rfl, hdone⟩
  · rfl
  · rw [List.append_nil]
  · intro p hp
    cases hp

theorem inv_start (slab : DmaBufferSlab) (mem : Mem) :
    ∃ l, start slab mem = some l ∧ ∃ q, Inv slab l q := by
  obtain ⟨l, q, hstart, hinv, _, _⟩ := start_spec slab mem
  exact ⟨l, hstart, q, hinv⟩

/-- Ownership in every state of every run: the queue starts, every allowed step
can be taken, and each state reached is sound. -/
theorem ownership_of_run (slab : DmaBufferSlab) (mem : Mem) :
    ∃ l₀, start slab mem = some l₀ ∧
      ∀ (es : List QueueEvent) (l : Ledger), Trace.run (step slab) l₀ es = some l →
        l.Sound slab ∧ ∀ e, l.Allowed e → (l.step slab e).isSome := by
  obtain ⟨l₀, hstart, hinv⟩ := inv_start slab mem
  refine ⟨l₀, hstart, fun es l hrun => ?_⟩
  obtain ⟨q, h⟩ := Trace.run_inv (I := fun l => ∃ q, Inv slab l q)
    (fun s e s' hs hstep => inv_step hs hstep) hinv hrun
  exact ⟨h.sound, fun e he => h.step_isSome he⟩

end Ledger

end EspWifiHal
