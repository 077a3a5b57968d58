import EspWifiHal.Dma.Queue

/-!
# The receive queue as a list

What the receive queue is for: a list of descriptors in the order in which they
were appended, a completion mark for each, and the engine.  `Fifo` says this
with no pointers.  `Refines s q` relates it to the state the driver works on:
the links from the software head spell out the list and the software tail is
its last element.

Each queue operation refines its list counterpart.  It returns whenever its
bound covers the list, and it leaves the links of all other descriptors alone.
-/

namespace EspWifiHal

open Linked

/-! ## The list model -/

/-- Restart an engine that has no descriptor, if one is available. -/
def RxDma.restart (dma : RxDma) (available : Option Addr) : RxDma :=
  if dma.next.isSome then dma
  else
    match available with
    | some d => dma.setBaseRxDescriptor d
    | none => dma

/-- The receive queue without pointers. -/
structure Fifo where
  /-- The queued descriptors, oldest first. -/
  chain : List Addr
  /-- The completion marks. -/
  done : Addr → Bool
  /-- The receive engine. -/
  dma : RxDma

namespace Fifo

/-- The first queued descriptor that is not completed. -/
def available (q : Fifo) : Option Addr := q.chain.find? fun p => !q.done p

/-- Take the oldest descriptor, if it is completed. -/
def takeFirst (q : Fifo) : Option Addr × Fifo :=
  match q.chain with
  | [] => (none, q)
  | x :: xs =>
      if q.done x then
        let q' := { q with chain := xs }
        (some x, { q' with
          dma := if xs = [] then q.dma.clearBaseRxDescriptor else q.dma.restart q'.available })
      else (none, { q with dma := q.dma.restart q.available })

/-- Append a descriptor, not completed. -/
def recycle (d : Addr) (q : Fifo) : Fifo :=
  let q' := { q with chain := q.chain ++ [d], done := Function.update q.done d false }
  { q' with
    dma := if q.chain = [] then q.dma.setBaseRxDescriptor d else q.dma.restart q'.available }

/-- The marks without those of the completed descriptors at the front. -/
def unmarked (q : Fifo) (p : Addr) : Bool :=
  if p ∈ q.chain.takeWhile q.done then false else q.done p

/-- Un-mark the completed descriptors at the front and restart from the oldest. -/
def clear (q : Fifo) : Fifo :=
  match q.chain with
  | [] => q
  | x :: _ => { q with done := q.unmarked, dma := q.dma.setBaseRxDescriptor x }

section Equations

variable {q : Fifo} {x y : Addr} {xs : List Addr}

theorem takeFirst_nil (hq : q.chain = []) : q.takeFirst = (none, q) := by
  simp only [takeFirst, hq]

theorem takeFirst_waiting (hq : q.chain = x :: xs) (hx : q.done x = false) :
    q.takeFirst = (none, { q with dma := q.dma.restart q.available }) := by
  simp only [takeFirst, hq, hx, Bool.false_eq_true, if_false]

theorem takeFirst_last (hq : q.chain = [x]) (hx : q.done x = true) :
    q.takeFirst = (some x, { q with chain := [], dma := q.dma.clearBaseRxDescriptor }) := by
  simp only [takeFirst, hq, hx, if_true]

theorem takeFirst_next (hq : q.chain = x :: y :: xs) (hx : q.done x = true) :
    q.takeFirst = (some x, { q with
      chain := y :: xs
      dma := q.dma.restart { q with chain := y :: xs }.available }) := by
  simp only [takeFirst, hq, hx, if_true, reduceCtorEq, if_false]

/-- A completed head is taken. -/
theorem takeFirst_head (hq : q.chain = x :: xs) (hx : q.done x = true) :
    q.takeFirst.1 = some x ∧ q.takeFirst.2.chain = xs := by
  cases xs with
  | nil => rw [takeFirst_last hq hx]; exact ⟨rfl, rfl⟩
  | cons y ys => rw [takeFirst_next hq hx]; exact ⟨rfl, rfl⟩

/-- Only the oldest descriptor can leave the list. -/
theorem takeFirst_chain (q : Fifo) : q.chain = q.takeFirst.1.toList ++ q.takeFirst.2.chain := by
  cases hq : q.chain with
  | nil => rw [takeFirst_nil hq]; exact hq.symm
  | cons x xs =>
      cases hx : q.done x with
      | false => rw [takeFirst_waiting hq hx]; exact hq.symm
      | true =>
          cases xs with
          | nil => rw [takeFirst_last hq hx]; rfl
          | cons y ys => rw [takeFirst_next hq hx]; rfl

theorem takeFirst_done (q : Fifo) : q.takeFirst.2.done = q.done := by
  cases hq : q.chain with
  | nil => rw [takeFirst_nil hq]
  | cons x xs =>
      cases hx : q.done x with
      | false => rw [takeFirst_waiting hq hx]
      | true =>
          cases xs with
          | nil => rw [takeFirst_last hq hx]
          | cons y ys => rw [takeFirst_next hq hx]

theorem clear_nil (hq : q.chain = []) : q.clear = q := by
  simp only [clear, hq]

theorem clear_cons (hq : q.chain = x :: xs) :
    q.clear = { q with done := q.unmarked, dma := q.dma.setBaseRxDescriptor x } := by
  simp only [clear, hq]

@[simp] theorem clear_chain (q : Fifo) : q.clear.chain = q.chain := by
  cases hq : q.chain with
  | nil => rw [clear_nil hq]; exact hq
  | cons x xs => rw [clear_cons hq]; exact hq

theorem recycle_first {d : Addr} (hq : q.chain = []) : q.recycle d =
    { chain := q.chain ++ [d]
      done := Function.update q.done d false
      dma := q.dma.setBaseRxDescriptor d } := by
  simp only [recycle, hq, if_true]

theorem recycle_behind {d : Addr} (hq : q.chain ≠ []) : q.recycle d =
    { chain := q.chain ++ [d]
      done := Function.update q.done d false
      dma := q.dma.restart
        { q with chain := q.chain ++ [d], done := Function.update q.done d false }.available } := by
  simp only [recycle, hq, if_false]

@[simp] theorem recycle_chain (q : Fifo) (d : Addr) : (q.recycle d).chain = q.chain ++ [d] := rfl

@[simp] theorem recycle_done (q : Fifo) (d : Addr) :
    (q.recycle d).done = Function.update q.done d false := rfl

end Equations

end Fifo

/-! ## Refinement -/

/-- The driver state spells out the list. -/
structure Refines (s : RxState) (q : Fifo) : Prop where
  path : Path s.mem.link s.head q.chain
  tail : s.rxChainPtrs.map Prod.snd = q.chain.getLast?
  done : s.mem.completed = q.done
  dma : s.dma = q.dma

namespace Refines

variable {s : RxState} {q : Fifo}

theorem ptrs_nil (h : Refines s q) (hq : q.chain = []) : s.rxChainPtrs = none := by
  have hhead := h.path
  rw [hq, path_nil, RxState.head, Option.map_eq_none_iff] at hhead
  exact hhead

theorem ptrs_cons {x : Addr} {xs : List Addr} (h : Refines s q) (hq : q.chain = x :: xs) :
    ∃ t, s.rxChainPtrs = some (x, t) ∧ q.chain.getLast? = some t := by
  have hhead := h.path.head?_eq
  rw [hq, List.head?_cons] at hhead
  cases hp : s.rxChainPtrs with
  | none =>
      rw [RxState.head, hp] at hhead
      cases hhead
  | some ptrs =>
      obtain ⟨x', t⟩ := ptrs
      rw [RxState.head, hp, Option.map_some, Option.some.injEq] at hhead
      have htail := h.tail
      rw [hp, Option.map_some] at htail
      exact ⟨t, by rw [hhead], htail.symm⟩

/-- The software queue is empty exactly when the list is. -/
theorem ptrs_none_iff (h : Refines s q) : s.rxChainPtrs = none ↔ q.chain = [] := by
  refine ⟨fun hp => ?_, h.ptrs_nil⟩
  cases hq : q.chain with
  | nil => rfl
  | cons x xs =>
      obtain ⟨t, ht, _⟩ := h.ptrs_cons hq
      rw [hp] at ht
      cases ht

/-- A restart changes the engine only, as the list model says. -/
theorem restartExhaustedRx_eq {fuel : Nat} (h : Refines s q) (hf : q.chain.length ≤ fuel) :
    s.restartExhaustedRx fuel = some { s with dma := s.dma.restart q.available } := by
  unfold RxState.restartExhaustedRx RxDma.restart
  cases hn : s.dma.next.isSome with
  | true => rfl
  | false =>
      have hfind : Linked.walk s.mem.link (fun p => !s.mem.completed p) fuel s.head =
          some q.available := by
        rw [walk_eq_find? _ h.path hf, h.done]
        rfl
      simp only [Bool.false_eq_true, if_false, hfind, Option.map_some]
      cases q.available with
      | none => rfl
      | some d => rfl

/-- A change of the engine on both sides. -/
theorem withDma {dma : RxDma} (h : Refines s q) :
    Refines { s with dma := dma } { q with dma := dma } :=
  ⟨h.path, h.tail, h.done, rfl⟩

end Refines

/-- Taking a descriptor out of the queue: its link becomes null and the other
links and all completion flags stay. -/
theorem Mem.unlink_link (mem : Mem) (p : Addr) :
    ((mem.modify p (.setOwner .cpu)).modify p (.setNext none)).link =
      Function.update mem.link p none := by
  rw [Mem.link_modify, Mem.link_modify]
  simp

theorem Mem.unlink_completed (mem : Mem) (p : Addr) :
    ((mem.modify p (.setOwner .cpu)).modify p (.setNext none)).completed = mem.completed := by
  rw [Mem.completed_modify, Mem.completed_modify, Mem.modify_self]
  simp only [DmaDescriptor.setNext_flags, DmaDescriptor.setOwner_sucEof, Function.update_idem]
  exact Function.update_eq_self p mem.completed

/-- Preparing a descriptor for its return: its link becomes null and its
completion flag is cleared. -/
theorem Mem.renew_link (mem : Mem) (p : Addr) :
    ((mem.modify p (.setNext none)).modify p .resetForRx).link =
      Function.update mem.link p none := by
  rw [Mem.link_modify, Mem.link_modify, Mem.modify_self]
  simp

theorem Mem.renew_completed (mem : Mem) (p : Addr) :
    ((mem.modify p (.setNext none)).modify p .resetForRx).completed =
      Function.update mem.completed p false := by
  rw [Mem.completed_modify, Mem.completed_modify]
  simp

namespace Refines

variable {s : RxState} {q : Fifo}

/-- Taking the head out of the queue, whatever happens to the engine. -/
theorem pop {x : Addr} {xs : List Addr} (h : Refines s q) (ptrs : Option (Addr × Addr))
    (dma : RxDma) (hq : q.chain = x :: xs) (hhead : ptrs.map Prod.fst = xs.head?)
    (htail : ptrs.map Prod.snd = xs.getLast?) :
    Refines
      { mem := (s.mem.modify x (.setOwner .cpu)).modify x (.setNext none)
        rxChainPtrs := ptrs
        dma := dma }
      { q with chain := xs, dma := dma } := by
  have hpath := h.path
  rw [hq] at hpath
  have hnotin : x ∉ xs := (List.nodup_cons.mp hpath.nodup).1
  refine ⟨?_, htail, (s.mem.unlink_completed x).trans h.done, rfl⟩
  show Path _ (ptrs.map Prod.fst) xs
  rw [hhead, hpath.tail.head?_eq, Mem.unlink_link]
  exact hpath.tail.update_off hnotin

/-- Appending a descriptor to a queue that is not empty, whatever happens to the
engine. -/
theorem push {d x t : Addr} (h : Refines s q) (dma : RxDma) (hd : d ∉ q.chain)
    (hptrs : s.rxChainPtrs = some (x, t)) :
    Refines
      { mem := ((s.mem.modify d (.setNext none)).modify d .resetForRx).modify t (.setNext (some d))
        rxChainPtrs := some (x, d)
        dma := dma }
      { chain := q.chain ++ [d], done := Function.update q.done d false, dma := dma } := by
  have htail : q.chain.getLast? = some t := by rw [← h.tail, hptrs]; rfl
  have hhead : s.head = some x := by rw [RxState.head, hptrs, Option.map_some]
  have hpath := h.path
  rw [hhead] at hpath
  refine ⟨?_, ?_, ?_, rfl⟩
  · show Path _ (some x) _
    rw [Mem.link_modify, Mem.renew_link]
    exact (hpath.update_off hd).snoc htail hd (by rw [Function.update_self])
  · rw [List.getLast?_concat, Option.map_some]
  · show Mem.completed (Mem.modify _ t _) = _
    rw [Mem.completed_modify, DmaDescriptor.setNext_flags, ← h.done, ← s.mem.renew_completed d]
    exact Function.update_eq_self t _

/-- Appending a descriptor to an empty queue, whatever happens to the engine. -/
theorem pushFirst {d : Addr} {dma : RxDma} (h : Refines s q) (hq : q.chain = []) :
    Refines
      { mem := (s.mem.modify d (.setNext none)).modify d .resetForRx
        rxChainPtrs := some (d, d)
        dma := dma }
      { chain := q.chain ++ [d], done := Function.update q.done d false, dma := dma } := by
  rw [hq]
  refine ⟨⟨rfl, ?_⟩, rfl, ?_, rfl⟩
  · show Mem.link _ d = none
    rw [Mem.renew_link, Function.update_self]
  · show Mem.completed _ = _
    rw [Mem.renew_completed, h.done]

end Refines

/-- What `take_first` does, next to the list model. -/
theorem takeFirst_refines {s : RxState} {q : Fifo} {fuel : Nat} (h : Refines s q)
    (hf : q.chain.length ≤ fuel) : ∃ s', s.takeFirst fuel = some (q.takeFirst.1, s') ∧
      Refines s' q.takeFirst.2 ∧
      s'.mem.link = q.takeFirst.1.elim s.mem.link fun d => Function.update s.mem.link d none := by
  cases hq : q.chain with
  | nil =>
      rw [Fifo.takeFirst_nil hq]
      refine ⟨s, ?_, h, rfl⟩
      rw [RxState.takeFirst, h.ptrs_nil hq]
  | cons x xs =>
      obtain ⟨t, hptrs, hlast⟩ := h.ptrs_cons hq
      have hpath := h.path
      rw [hq] at hpath hlast
      have hx : s.mem.completed x = q.done x := congrFun h.done x
      cases hdone : q.done x with
      | false =>
          rw [Fifo.takeFirst_waiting hq hdone]
          refine ⟨{ s with dma := s.dma.restart q.available }, ?_, ?_, rfl⟩
          · simp only [RxState.takeFirst, hptrs, hx, hdone, Bool.false_eq_true, if_false,
              h.restartExhaustedRx_eq hf, Option.map_some]
          · rw [h.dma]
            exact h.withDma
      | true =>
          cases xs with
          | nil =>
              rw [Fifo.takeFirst_last hq hdone]
              have hlink : s.mem.link x = none := hpath.2
              refine ⟨_, ?_, h.pop none _ hq rfl rfl, s.mem.unlink_link x⟩
              · simp only [RxState.takeFirst, hptrs, hx, hdone, if_true, hlink, Option.map_some,
                  RxState.setRxChainBase, h.dma]
                rfl
          | cons y ys =>
              rw [Fifo.takeFirst_next hq hdone]
              have hlink : s.mem.link x = some y := hpath.2.1
              rw [List.getLast?_cons_cons] at hlast
              have hrest :
                  Refines { s with rxChainPtrs := some (y, t) } { q with chain := y :: ys } :=
                ⟨⟨rfl, hpath.2.2⟩, hlast.symm, h.done, h.dma⟩
              have hlen : (y :: ys).length ≤ fuel := by
                rw [hq, List.length_cons] at hf
                omega
              refine ⟨_, ?_, h.pop (some (y, t)) _ hq rfl hlast.symm, s.mem.unlink_link x⟩
              · simp only [RxState.takeFirst, hptrs, hx, hdone, if_true, hlink]
                rw [hrest.restartExhaustedRx_eq hlen, h.dma]
                rfl

/-- What `recycle` does with a descriptor outside the queue. -/
theorem recycle_refines {s : RxState} {q : Fifo} {fuel : Nat} {d : Addr} (h : Refines s q)
    (hd : d ∉ q.chain) (hf : q.chain.length < fuel) : ∃ s', s.recycle fuel d = some s' ∧
      Refines s' (q.recycle d) ∧ ∀ p, p ∉ q.chain → p ≠ d → s'.mem.link p = s.mem.link p := by
  by_cases hq : q.chain = []
  · have hptrs : s.rxChainPtrs = none := h.ptrs_nil hq
    rw [Fifo.recycle_first hq]
    refine ⟨_, ?_, h.pushFirst hq, fun p _ hp => ?_⟩
    · simp only [RxState.recycle, RxState.modify, hptrs, RxState.setRxChainBase, h.dma]
    · exact (congrFun (s.mem.renew_link d) p).trans (Function.update_of_ne hp _ _)
  · obtain ⟨x, xs, hcons⟩ := List.exists_cons_of_ne_nil hq
    obtain ⟨t, hptrs, hlast⟩ := h.ptrs_cons hcons
    have hlen : (q.chain ++ [d]).length ≤ fuel := by
      rw [List.length_append, List.length_singleton]
      omega
    rw [Fifo.recycle_behind hq]
    refine ⟨_, ?_, h.push _ hd hptrs, fun p hp hpd => ?_⟩
    · simp only [RxState.recycle, RxState.modify, hptrs]
      rw [(h.push s.dma hd hptrs).restartExhaustedRx_eq hlen, h.dma]
    · have hpt : p ≠ t := fun he => hp (he ▸ List.mem_of_getLast? hlast)
      show Mem.link (Mem.modify _ t _) p = s.mem.link p
      rw [Mem.link_modify, Function.update_of_ne hpt, Mem.renew_link, Function.update_of_ne hpd]

/-- The loop of `clear` un-marks the completed descriptors at the front of the
path it walks, and changes no link. -/
theorem clearLoop_spec : ∀ {xs : List Addr} {x : Addr} {fuel : Nat} {mem : Mem},
    Path mem.link (some x) (x :: xs) → xs.length < fuel →
    ∃ mem', RxState.clearLoop fuel x mem = some mem' ∧ mem'.link = mem.link ∧
      ∀ p, mem'.completed p =
        if p ∈ (x :: xs).takeWhile mem.completed then false else mem.completed p
  | xs, x, 0, mem, _, hf => by omega
  | xs, x, fuel + 1, mem, h, hf => by
      cases hx : mem.completed x with
      | false =>
          refine ⟨mem, ?_, rfl, fun p => ?_⟩
          · simp only [RxState.clearLoop, hx, Bool.false_eq_true, if_false]
          · simp only [List.takeWhile_cons, hx, Bool.false_eq_true, if_false, List.not_mem_nil]
      | true =>
          let mem₁ := mem.modify x .resetForRx
          have hlink₁ : mem₁.link = mem.link := by
            rw [Mem.link_modify]
            exact Function.update_eq_self x mem.link
          have hdone₁ : mem₁.completed = Function.update mem.completed x false :=
            mem.completed_modify x _
          have hnotin : x ∉ xs := (List.nodup_cons.mp h.nodup).1
          -- un-marking `x` does not change which of the later descriptors are marked
          have hrest : xs.takeWhile mem₁.completed = xs.takeWhile mem.completed := by
            refine takeWhile_congr fun z hz => ?_
            rw [hdone₁, Function.update_of_ne (ne_of_mem_of_not_mem hz hnotin)]
          cases xs with
          | nil =>
              have hnull : mem₁.link x = none := by rw [hlink₁]; exact h.2
              refine ⟨mem₁, ?_, hlink₁, fun p => ?_⟩
              · simp only [RxState.clearLoop, hx, if_true]
                rw [show mem.modify x .resetForRx = mem₁ from rfl, hnull]
              · simp only [List.takeWhile_cons, hx, if_true, List.takeWhile_nil,
                  List.mem_singleton, hdone₁, Function.update_apply]
          | cons y ys =>
              have hnext : mem₁.link x = some y := by rw [hlink₁]; exact h.2.1
              have hpath₁ : Path mem₁.link (some y) (y :: ys) := by
                rw [hlink₁]
                exact ⟨rfl, h.2.2⟩
              have hlen : ys.length < fuel := by
                simp only [List.length_cons] at hf
                omega
              obtain ⟨mem', hrun, hlink', hdone'⟩ := clearLoop_spec hpath₁ hlen
              refine ⟨mem', ?_, hlink'.trans hlink₁, fun p => ?_⟩
              · simp only [RxState.clearLoop, hx, if_true]
                rw [show mem.modify x .resetForRx = mem₁ from rfl, hnext]
                exact hrun
              · rw [hdone', hrest, List.takeWhile_cons (a := x), hx, if_pos rfl, hdone₁]
                by_cases hp : p = x
                · subst hp
                  simp
                · simp [hp]

/-- What `clear` does, next to the list model. -/
theorem clear_refines {s : RxState} {q : Fifo} {fuel : Nat} (h : Refines s q)
    (hf : q.chain.length ≤ fuel) : ∃ s', s.clear fuel = some s' ∧ Refines s' q.clear ∧
      s'.mem.link = s.mem.link := by
  cases hq : q.chain with
  | nil =>
      rw [Fifo.clear_nil hq]
      refine ⟨s, ?_, h, rfl⟩
      rw [RxState.clear, h.ptrs_nil hq]
  | cons x xs =>
      obtain ⟨t, hptrs, hlast⟩ := h.ptrs_cons hq
      have hpath := h.path
      have hhead : s.head = some x := by rw [RxState.head, hptrs, Option.map_some]
      rw [hq, hhead] at hpath
      rw [hq] at hf
      obtain ⟨mem', hrun, hlink, hdone⟩ := clearLoop_spec hpath hf
      rw [Fifo.clear_cons hq]
      refine ⟨{ s with mem := mem' }.setRxChainBase (some x), ?_, ⟨?_, ?_, ?_, ?_⟩, hlink⟩
      · rw [RxState.clear]
        simp only [hptrs, hrun, hhead, Option.map_some]
      · simp only [RxState.head, RxState.setRxChainBase, hptrs, Option.map_some, hlink, hq]
        exact hpath
      · simp only [RxState.setRxChainBase, hptrs, Option.map_some, hlast]
      · funext p
        show mem'.completed p = if p ∈ q.chain.takeWhile q.done then false else q.done p
        rw [hdone p, hq, ← h.done]
      · exact congrArg (RxDma.setBaseRxDescriptor · x) h.dma

/-- The queue starts with the whole slab, nothing completed, and the engine at
the first descriptor. -/
theorem start_refines (slab : DmaBufferSlab) (mem : Mem) : ∃ s base, slab.start mem = some s ∧
    Refines s
      { chain := slab.descriptors
        done := s.mem.completed
        dma := RxDma.reset.setBaseRxDescriptor base } ∧
    slab.descriptors.head? = some base ∧ ∀ p ∈ slab.descriptors, s.mem.completed p = false := by
  obtain ⟨base, last, mem', hinit, hbase, hlast, hpath, hdone⟩ := slab.init_spec mem
  refine ⟨RxState.new mem' base last, base, ?_, ⟨hpath, hlast.symm, rfl, rfl⟩, hbase, hdone⟩
  rw [DmaBufferSlab.start, hinit]
  rfl

end EspWifiHal
