import Mathlib.Data.List.Nodup
import EspWifiHal.Lib.Linked

/-!
# DMA descriptors and the receive slab

A descriptor is three words in memory: the flags word, the buffer pointer and
the link to the next descriptor.  The fields of the flags word and what
`reset_for_rx` does to them are those of esp-hal, as the host tests of the
receive queue restate them.

`DmaBufferSlab.init` writes the descriptors of the slab in reverse, so that
every link is known when its descriptor is written.  The slab carries the two
bounds that the source asserts at compile time.
-/

namespace EspWifiHal

/-- A memory address.  A pointer that may be null is an `Option Addr`. -/
abbrev Addr := Nat

/-- Who may touch a descriptor. -/
inductive Owner where
  | cpu
  | dma
deriving DecidableEq, Repr

/-- The flags word of a descriptor. -/
structure DmaDescriptorFlags where
  /-- Bits 0..11. -/
  size : BitVec 12
  /-- Bits 12..23. -/
  length : BitVec 12
  /-- Bit 30, set by the hardware on completion. -/
  sucEof : Bool
  /-- Bit 31. -/
  owner : Owner
deriving DecidableEq, Repr

/-- A DMA descriptor. -/
structure DmaDescriptor where
  /-- The flags word. -/
  flags : DmaDescriptorFlags
  /-- The buffer. -/
  buffer : Option Addr
  /-- The next descriptor. -/
  next : Option Addr
deriving DecidableEq, Repr

namespace DmaDescriptor

/-- `DmaDescriptorFlags(0)`, with a null buffer and a null link. -/
def empty : DmaDescriptor :=
  { flags := { size := 0, length := 0, sucEof := false, owner := .cpu }
    buffer := none
    next := none }

def setOwner (owner : Owner) (d : DmaDescriptor) : DmaDescriptor :=
  { d with flags := { d.flags with owner := owner } }

def setSucEof (sucEof : Bool) (d : DmaDescriptor) : DmaDescriptor :=
  { d with flags := { d.flags with sucEof := sucEof } }

def setLength (len : Nat) (d : DmaDescriptor) : DmaDescriptor :=
  { d with flags := { d.flags with length := BitVec.ofNat 12 len } }

def setSize (size : Nat) (d : DmaDescriptor) : DmaDescriptor :=
  { d with flags := { d.flags with size := BitVec.ofNat 12 size } }

/-- The length field. -/
def len (d : DmaDescriptor) : Nat := d.flags.length.toNat

/-- `DmaDescriptorExt::set_next`. -/
def setNext (next : Option Addr) (d : DmaDescriptor) : DmaDescriptor := { d with next := next }

/-- Hand the descriptor to the hardware, not completed and of length zero. -/
def resetForRx (d : DmaDescriptor) : DmaDescriptor :=
  ((d.setOwner .dma).setSucEof false).setLength 0

@[simp] theorem setOwner_sucEof (o : Owner) (d : DmaDescriptor) :
    (d.setOwner o).flags.sucEof = d.flags.sucEof := rfl

@[simp] theorem setNext_next (n : Option Addr) (d : DmaDescriptor) : (d.setNext n).next = n := rfl

@[simp] theorem setNext_flags (n : Option Addr) (d : DmaDescriptor) :
    (d.setNext n).flags = d.flags := rfl

@[simp] theorem resetForRx_next (d : DmaDescriptor) : d.resetForRx.next = d.next := rfl

@[simp] theorem resetForRx_sucEof (d : DmaDescriptor) : d.resetForRx.flags.sucEof = false := rfl

end DmaDescriptor

/-- The memory the descriptors live in. -/
abbrev Mem := Addr → DmaDescriptor

/-- The link of a descriptor. -/
def Mem.link (mem : Mem) (p : Addr) : Option Addr := (mem p).next

/-- The completion flag of a descriptor. -/
def Mem.completed (mem : Mem) (p : Addr) : Bool := (mem p).flags.sucEof

/-- A write to one descriptor. -/
def Mem.modify (mem : Mem) (p : Addr) (f : DmaDescriptor → DmaDescriptor) : Mem :=
  Function.update mem p (f (mem p))

theorem Mem.modify_self (mem : Mem) (p : Addr) (f : DmaDescriptor → DmaDescriptor) :
    mem.modify p f p = f (mem p) := Function.update_self p _ mem

theorem Mem.modify_of_ne {p q : Addr} (h : q ≠ p) (mem : Mem)
    (f : DmaDescriptor → DmaDescriptor) : mem.modify p f q = mem q := Function.update_of_ne h _ mem

/-- The links after a write are the links before it, except at the descriptor. -/
theorem Mem.link_modify (mem : Mem) (p : Addr) (f : DmaDescriptor → DmaDescriptor) :
    (mem.modify p f).link = Function.update mem.link p (f (mem p)).next := by
  funext q
  by_cases h : q = p
  · subst h
    rw [Function.update_self, Mem.link, Mem.modify_self]
  · rw [Function.update_of_ne h, Mem.link, Mem.modify_of_ne h, Mem.link]

/-- The completion flags after a write, likewise. -/
theorem Mem.completed_modify (mem : Mem) (p : Addr) (f : DmaDescriptor → DmaDescriptor) :
    (mem.modify p f).completed = Function.update mem.completed p (f (mem p)).flags.sucEof := by
  funext q
  by_cases h : q = p
  · subst h
    rw [Function.update_self, Mem.completed, Mem.modify_self]
  · rw [Function.update_of_ne h, Mem.completed, Mem.modify_of_ne h, Mem.completed]

/-! ## The slab -/

/-- Where the buffers and descriptors of a `DmaBufferSlab` lie.  The two bounds
are `_CONST_GUARD`. -/
structure DmaBufferSlab where
  /-- `BUFFER_COUNT`. -/
  bufferCount : Nat
  /-- `BUFFER_SIZE`. -/
  bufferSize : Nat
  /-- The address of `buffers[0]`. -/
  buffers : Addr
  /-- The address of `dma_descriptors[0]`. -/
  dmaDescriptors : Addr
  /-- `BUFFER_COUNT needs to be at least 2`. -/
  two_le_bufferCount : 2 ≤ bufferCount
  /-- `BUFFER_SIZE needs to be at least 1600 bytes`. -/
  le_bufferSize : 1600 ≤ bufferSize

namespace DmaBufferSlab

/-- Two buffers, the least number `DmaBufferSlab` accepts. -/
def twoBuffers : DmaBufferSlab :=
  { bufferCount := 2
    bufferSize := 1600
    buffers := 0x3ffb0000
    dmaDescriptors := 0x3ffb1000
    two_le_bufferCount := by decide
    le_bufferSize := by decide }

/-- The address of `dma_descriptors[i]`.  A descriptor is three words. -/
def descriptor (slab : DmaBufferSlab) (i : Nat) : Addr := slab.dmaDescriptors + 12 * i

/-- The address of `buffers[i]`. -/
def buffer (slab : DmaBufferSlab) (i : Nat) : Addr := slab.buffers + slab.bufferSize * i

/-- The descriptors of the slab in order of their index. -/
def descriptors (slab : DmaBufferSlab) : List Addr :=
  (List.range slab.bufferCount).map slab.descriptor

/-- What `init` writes at index `i`. -/
def initDescriptor (slab : DmaBufferSlab) (i : Nat) (next : Option Addr) : DmaDescriptor :=
  (({ flags := DmaDescriptor.empty.flags, buffer := some (slab.buffer i), next := next :
      DmaDescriptor }.resetForRx).setSize slab.bufferSize).setOwner .dma

/-- The `scan` of `init` over the indices below the first argument, from the
last down.  The second argument is the accumulator `next`.  The result is the
list of pointers the iterator yields. -/
def initScan (slab : DmaBufferSlab) : Nat → Option Addr → Mem → List Addr × Mem
  | 0, _, mem => ([], mem)
  | i + 1, next, mem =>
      let ptr := slab.descriptor i
      let rest := slab.initScan i (some ptr) (Function.update mem ptr (slab.initDescriptor i next))
      (ptr :: rest.1, rest.2)

/-- `DmaBufferSlab::init`: the base pointer, the last pointer and the memory.
The result is `none` where an `unwrap` would fail. -/
def init (slab : DmaBufferSlab) (mem : Mem) : Option ((Addr × Addr) × Mem) :=
  match slab.initScan slab.bufferCount none mem with
  | (last :: rest, mem) => rest.getLast?.map fun base => ((base, last), mem)
  | ([], _) => none

theorem descriptor_injective (slab : DmaBufferSlab) : Function.Injective slab.descriptor := by
  intro i j h
  have hmul : 12 * i = 12 * j := Nat.add_left_cancel h
  omega

theorem descriptors_nodup (slab : DmaBufferSlab) : slab.descriptors.Nodup :=
  List.Nodup.map slab.descriptor_injective List.nodup_range

/-- The pointers the iterator yields are the descriptors below the bound, from
the last down. -/
theorem initScan_ptrs (slab : DmaBufferSlab) : ∀ (i : Nat) (next : Option Addr) (mem : Mem),
    (slab.initScan i next mem).1 = ((List.range i).map slab.descriptor).reverse
  | 0, _, _ => rfl
  | i + 1, next, mem => by
      simp only [initScan, initScan_ptrs slab i, List.range_succ, List.map_append,
        List.reverse_append, List.map_cons, List.map_nil, List.reverse_singleton,
        List.singleton_append]

/-- The scan writes only descriptors below its bound. -/
theorem initScan_frame (slab : DmaBufferSlab) : ∀ (i : Nat) (next : Option Addr) (mem : Mem)
    (p : Addr), (∀ j, j < i → p ≠ slab.descriptor j) → (slab.initScan i next mem).2 p = mem p
  | 0, _, _, _, _ => rfl
  | i + 1, next, mem, p, hp => by
      simp only [initScan]
      rw [initScan_frame slab i _ _ p fun j hj => hp j (Nat.lt_succ_of_lt hj),
        Function.update_of_ne (hp i (Nat.lt_succ_self i))]

/-- Every descriptor below the bound is left not completed. -/
theorem initScan_completed (slab : DmaBufferSlab) : ∀ (i : Nat) (next : Option Addr) (mem : Mem)
    (j : Nat), j < i → ((slab.initScan i next mem).2).completed (slab.descriptor j) = false
  | 0, _, _, _, hj => absurd hj (Nat.not_lt_zero _)
  | i + 1, next, mem, j, hj => by
      simp only [initScan]
      rcases Nat.lt_succ_iff_lt_or_eq.mp hj with hlt | heq
      · exact initScan_completed slab i _ _ j hlt
      · subst heq
        have hoff : ∀ k, k < j → slab.descriptor j ≠ slab.descriptor k := fun k hk he =>
          absurd (slab.descriptor_injective he) (by omega)
        rw [Mem.completed, initScan_frame slab j _ _ _ hoff, Function.update_self]
        rfl

/-- The scan prepends the descriptors below its bound to the chain it is given. -/
theorem initScan_path (slab : DmaBufferSlab) : ∀ (i : Nat) (next : Option Addr) (mem : Mem)
    (xs : List Addr), Linked.Path mem.link next xs → (∀ j, j < i → slab.descriptor j ∉ xs) →
    Linked.Path ((slab.initScan i next mem).2).link
      (((List.range i).map slab.descriptor ++ xs).head?)
      ((List.range i).map slab.descriptor ++ xs)
  | 0, next, mem, xs, h, _ => by
      simpa [initScan, h.head?_eq] using h
  | i + 1, next, mem, xs, h, hfresh => by
      -- the accumulator carries the invariant: from `next` on, the chain `xs` is built
      have hnew : Linked.Path
          (Mem.link (Function.update mem (slab.descriptor i) (slab.initDescriptor i next)))
          (some (slab.descriptor i)) (slab.descriptor i :: xs) := by
        refine ⟨rfl, ?_⟩
        have hoff : ∀ x ∈ xs,
            Mem.link (Function.update mem (slab.descriptor i) (slab.initDescriptor i next)) x =
              mem.link x := by
          intro x hx
          have hne : x ≠ slab.descriptor i := fun he => hfresh i (Nat.lt_succ_self i) (he ▸ hx)
          rw [Mem.link, Function.update_of_ne hne, Mem.link]
        rw [Mem.link, Function.update_self]
        exact h.congr hoff
      have hrest := initScan_path slab i (some (slab.descriptor i)) _ _ hnew (by
        intro j hj hmem
        rcases List.mem_cons.mp hmem with he | hx
        · exact absurd (slab.descriptor_injective he) (by omega)
        · exact hfresh j (Nat.lt_succ_of_lt hj) hx)
      simpa [initScan, List.range_succ] using hrest

/-- `init` succeeds.  Its base is the first descriptor, its last pointer is the
last one, and the chain from the base is the whole slab in order. -/
theorem init_spec (slab : DmaBufferSlab) (mem : Mem) : ∃ base last mem',
    slab.init mem = some ((base, last), mem') ∧ slab.descriptors.head? = some base ∧
      slab.descriptors.getLast? = some last ∧
      Linked.Path mem'.link (some base) slab.descriptors ∧
      ∀ p ∈ slab.descriptors, mem'.completed p = false := by
  obtain ⟨n, hn⟩ : ∃ n, slab.bufferCount = n + 2 :=
    ⟨slab.bufferCount - 2, by have := slab.two_le_bufferCount; omega⟩
  have hptrs := slab.initScan_ptrs slab.bufferCount none mem
  have hpath := slab.initScan_path slab.bufferCount none mem [] rfl (by simp)
  rw [List.append_nil] at hpath
  have hfirst : slab.descriptors.head? = some (slab.descriptor 0) := by
    rw [descriptors, hn, List.range_succ_eq_map]
    rfl
  have hlast : slab.descriptors.getLast? = some (slab.descriptor (n + 1)) := by
    rw [descriptors, hn, List.range_succ, List.map_append, List.map_singleton,
      List.getLast?_concat]
  refine ⟨slab.descriptor 0, slab.descriptor (n + 1),
    (slab.initScan slab.bufferCount none mem).2, ?_, hfirst, hlast, ?_, ?_⟩
  · rw [init]
    have hsplit : (slab.initScan slab.bufferCount none mem).1 =
        slab.descriptor (n + 1) :: ((List.range (n + 1)).map slab.descriptor).reverse := by
      rw [hptrs, hn, List.range_succ, List.map_append, List.reverse_append]
      rfl
    have hbase : ((List.range (n + 1)).map slab.descriptor).reverse.getLast? =
        some (slab.descriptor 0) := by
      rw [List.getLast?_reverse, List.range_succ_eq_map]
      rfl
    generalize slab.initScan slab.bufferCount none mem = scan at hsplit ⊢
    obtain ⟨ptrs, mem'⟩ := scan
    simp only at hsplit
    subst hsplit
    simp only [hbase, Option.map_some]
  · rw [← hfirst]
    exact hpath
  · intro p hp
    obtain ⟨j, hj, rfl⟩ := List.mem_map.mp hp
    exact slab.initScan_completed slab.bufferCount none mem j (List.mem_range.mp hj)

end DmaBufferSlab

end EspWifiHal
