import EspWifiHal.Dma.Descriptor

/-!
# The receive queue of the ESP32-S3 and ESP32-C3

`RxState` is what `DmaList` works on: the descriptors in memory, the software
head and tail, and the registers of the receive engine.  The functions are
those of `dma_list.rs` with the features `esp32s3` or `esp32c3`.

Two functions loop over the chain.  Nothing in the source bounds these loops,
so here they take a bound and return `none` when it is used up.  The queue
theorems show that a bound of `BUFFER_COUNT` is never used up.
-/

namespace EspWifiHal

/-! ## The receive engine -/

/-- The receive engine as the driver sees it. -/
structure RxDma where
  /-- `RX_DESCR_NEXT`, as `next_rx_descriptor` decodes it. -/
  next : Option Addr
  /-- `RX_DESCR_LAST`, as `last_rx_descriptor` decodes it. -/
  last : Option Addr
  /-- The engine has already fetched a null link of the descriptor at `next`. -/
  prefetchedNull : Bool
  /-- The arguments of `set_base_rx_descriptor` so far, oldest first. -/
  written : List Addr
deriving DecidableEq, Repr

/-- Write the base register and reload: the engine continues at `d`. -/
def RxDma.setBaseRxDescriptor (dma : RxDma) (d : Addr) : RxDma :=
  { dma with next := some d, prefetchedNull := false, written := dma.written ++ [d] }

/-- Reset the base register and reload: the engine has no descriptor. -/
def RxDma.clearBaseRxDescriptor (dma : RxDma) : RxDma :=
  { dma with next := none, prefetchedNull := false }

/-- The engine before `DmaList::new`. -/
def RxDma.reset : RxDma :=
  { next := none, last := none, prefetchedNull := false, written := [] }

/-! ## The queue -/

/-- The memory, the software queue and the receive engine. -/
structure RxState where
  /-- The descriptors. -/
  mem : Mem
  /-- Head and tail of the software queue. -/
  rxChainPtrs : Option (Addr × Addr)
  /-- The receive engine. -/
  dma : RxDma

namespace RxState

/-- The software head. -/
def head (s : RxState) : Option Addr := s.rxChainPtrs.map Prod.fst

/-- A write to one descriptor. -/
def modify (s : RxState) (p : Addr) (f : DmaDescriptor → DmaDescriptor) : RxState :=
  { s with mem := s.mem.modify p f }

/-- `DmaList::new`: start reception at the base pointer. -/
def new (mem : Mem) (base last : Addr) : RxState :=
  { mem := mem
    rxChainPtrs := some (base, last)
    dma := RxDma.reset.setBaseRxDescriptor base }

/-- `DmaList::set_rx_chain_base`. -/
def setRxChainBase (s : RxState) : Option Addr → RxState
  | some base =>
      { s with
        rxChainPtrs :=
          match s.rxChainPtrs with
          | some (_, last) => some (base, last)
          | none => some (base, base)
        dma := s.dma.setBaseRxDescriptor base }
  | none => { s with rxChainPtrs := none, dma := s.dma.clearBaseRxDescriptor }

/-- `DmaList::restart_exhausted_rx`.  The `while let` loop looks for the first
descriptor from the head on that is not completed. -/
def restartExhaustedRx (fuel : Nat) (s : RxState) : Option RxState :=
  if s.dma.next.isSome then some s
  else
    (Linked.walk s.mem.link (fun p => !s.mem.completed p) fuel s.head).map fun
      | some ptr => { s with dma := s.dma.setBaseRxDescriptor ptr }
      | none => s

/-- `DmaList::take_first`. -/
def takeFirst (fuel : Nat) (s : RxState) : Option (Option Addr × RxState) :=
  match s.rxChainPtrs with
  | none => some (none, s)
  | some (first, last) =>
      if s.mem.completed first then
        let advanced :=
          match s.mem.link first with
          | some next => restartExhaustedRx fuel { s with rxChainPtrs := some (next, last) }
          | none => some (s.setRxChainBase none)
        advanced.map fun s =>
          (some first, (s.modify first (.setOwner .cpu)).modify first (.setNext none))
      else
        (restartExhaustedRx fuel s).map fun s => (none, s)

/-- The `while` loop of `DmaList::clear`. -/
def clearLoop : Nat → Addr → Mem → Option Mem
  | 0, _, _ => none
  | fuel + 1, current, mem =>
      if mem.completed current then
        let mem := mem.modify current .resetForRx
        match mem.link current with
        | none => some mem
        | some next => clearLoop fuel next mem
      else some mem

/-- `DmaList::clear`. -/
def clear (fuel : Nat) (s : RxState) : Option RxState :=
  match s.rxChainPtrs with
  | none => some s
  | some (head, _) =>
      (clearLoop fuel head s.mem).map fun mem => { s with mem := mem }.setRxChainBase s.head

/-- `DmaList::recycle`. -/
def recycle (fuel : Nat) (d : Addr) (s : RxState) : Option RxState :=
  let s := (s.modify d (.setNext none)).modify d .resetForRx
  match s.rxChainPtrs with
  | some (head, last) =>
      restartExhaustedRx fuel
        { s.modify last (.setNext (some d)) with rxChainPtrs := some (head, d) }
  | none => some (s.setRxChainBase (some d))

end RxState

/-- The queue after `DmaBufferSlab::init` and `DmaList::new`. -/
def DmaBufferSlab.start (slab : DmaBufferSlab) (mem : Mem) : Option RxState :=
  (slab.init mem).map fun (ptrs, mem) => RxState.new mem ptrs.1 ptrs.2

end EspWifiHal
