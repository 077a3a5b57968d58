import Mathlib.Data.List.Basic
import Mathlib.Logic.Function.Basic

/-!
# Processes that share a register file

Several processes access the registers of one device, one access at a time and in any order.  An
update of a register is a load and a later store, so another process can come in between.

Where each register belongs to one process, that does no harm: at every moment the registers of a
process are those after some of its operations, done one after the other and alone
(`progress_of_run`), and after all of them when it has nothing left to do (`mem_of_run`).
-/

namespace Interleave

variable {R : Type*} {V : R → Type*}

/-- An operation on one register. -/
inductive Op (V : R → Type*) where
  | write (r : R) (v : V r)
  | modify (r : R) (f : V r → V r)

def Op.reg : Op V → R
  | write r _ => r
  | modify r _ => r

variable [DecidableEq R]

def Op.apply (m : (r : R) → V r) : Op V → (r : R) → V r
  | write r v => Function.update m r v
  | modify r f => Function.update m r (f (m r))

theorem Op.apply_of_ne (m : (r : R) → V r) {op : Op V} {r : R} (h : r ≠ op.reg) :
    op.apply m r = m r := by
  cases op with
  | write q v => exact Function.update_of_ne h v m
  | modify q f => exact Function.update_of_ne h _ m

/-- Operations one after the other, without interruption. -/
def applyAll (ops : List (Op V)) (m : (r : R) → V r) : (r : R) → V r := ops.foldl Op.apply m

@[simp] theorem applyAll_nil (m : (r : R) → V r) : applyAll [] m = m := rfl

@[simp] theorem applyAll_cons (op : Op V) (ops : List (Op V)) (m : (r : R) → V r) :
    applyAll (op :: ops) m = applyAll ops (op.apply m) := rfl

theorem applyAll_append (ops ops' : List (Op V)) (m : (r : R) → V r) :
    applyAll (ops ++ ops') m = applyAll ops' (applyAll ops m) :=
  List.foldl_append

/-- Operations on other registers. -/
theorem applyAll_of_ne {ops : List (Op V)} {r : R} (h : ∀ op ∈ ops, op.reg ≠ r)
    (m : (r : R) → V r) : applyAll ops m r = m r := by
  induction ops generalizing m with
  | nil => rfl
  | cons op ops ih =>
      obtain ⟨hop, hops⟩ := List.forall_mem_cons.mp h
      rw [applyAll_cons, ih hops, op.apply_of_ne m hop.symm]

/-! ## Interleavings -/

variable {ι : Type*} [DecidableEq ι]

/-- The registers, and what each process still has to do. -/
structure State (ι : Type*) (V : R → Type*) where
  mem : (r : R) → V r
  todo : ι → List (Op V)

namespace State

variable (s : State ι V) (i : ι)

def store (r : R) (v : V r) (rest : List (Op V)) : State ι V where
  mem := Function.update s.mem r v
  todo := Function.update s.todo i rest

/-- The load of an update, after which its store is left. -/
def load (r : R) (f : V r → V r) (rest : List (Op V)) : State ι V :=
  { s with todo := Function.update s.todo i (.write r (f (s.mem r)) :: rest) }

/-- The next access of a process. -/
def step : State ι V :=
  match s.todo i with
  | [] => s
  | .write r v :: rest => s.store i r v rest
  | .modify r f :: rest => s.load i r f rest

variable {s i} {r : R} {v : V r} {f : V r → V r} {rest : List (Op V)}

@[simp] theorem store_todo (s : State ι V) (i : ι) (r : R) (v : V r) (rest : List (Op V)) :
    (s.store i r v rest).todo i = rest := by
  simp only [store, Function.update_self]

omit [DecidableEq R] in
@[simp] theorem load_todo (s : State ι V) (i : ι) (r : R) (f : V r → V r) (rest : List (Op V)) :
    (s.load i r f rest).todo i = .write r (f (s.mem r)) :: rest := by
  simp only [load, Function.update_self]

theorem step_nil (h : s.todo i = []) : s.step i = s := by
  rw [step, h]

theorem step_write (h : s.todo i = .write r v :: rest) : s.step i = s.store i r v rest := by
  rw [step, h]

theorem step_modify (h : s.todo i = .modify r f :: rest) : s.step i = s.load i r f rest := by
  rw [step, h]

/-- An access leaves what the others have to do. -/
theorem step_todo_of_ne {j : ι} (hne : j ≠ i) (s : State ι V) :
    (s.step i).todo j = s.todo j := by
  rw [step]
  split
  case h_1 => rfl
  case h_2 => exact Function.update_of_ne hne _ _
  case h_3 => exact Function.update_of_ne hne _ _

/-- It leaves the registers alone that the process does not access. -/
theorem step_mem_of_ne {q : R} (hq : ∀ op ∈ s.todo i, op.reg ≠ q) :
    (s.step i).mem q = s.mem q := by
  cases htodo : s.todo i with
  | nil => rw [step_nil htodo]
  | cons op rest =>
      cases op with
      | write r v =>
          have hne : r ≠ q := hq (.write r v) (by rw [htodo]; exact List.mem_cons_self)
          rw [step_write htodo]
          exact Function.update_of_ne hne.symm _ _
      | modify r f => rw [step_modify htodo, load]

end State

/-- Each register that a process accesses belongs to it. -/
def Owned (owner : R → ι) (program : ι → List (Op V)) : Prop :=
  ∀ i, ∀ op ∈ program i, owner op.reg = i

/-- What is left to do is `rest`, or `rest` after the load of its first operation. -/
inductive Pending (mem : (r : R) → V r) (rest : List (Op V)) : List (Op V) → Prop
  | idle : Pending mem rest rest
  | loaded {r : R} {f : V r → V r} {ops : List (Op V)} (h : rest = .modify r f :: ops) :
      Pending mem rest (.write r (f (mem r)) :: ops)

omit [DecidableEq R] in
theorem Pending.reg {mem : (r : R) → V r} {rest ops : List (Op V)} (h : Pending mem rest ops)
    {P : R → Prop} (hrest : ∀ op ∈ rest, P op.reg) : ∀ op ∈ ops, P op.reg := by
  cases h with
  | idle => exact hrest
  | loaded h =>
      subst h
      obtain ⟨hfirst, hops⟩ := List.forall_mem_cons.mp hrest
      exact List.forall_mem_cons.mpr ⟨hfirst, hops⟩

variable {owner : R → ι} {program : ι → List (Op V)} {m : (r : R) → V r} {s : State ι V} {i : ι}

/-- The process has done the operations `done`, and its registers show it. -/
structure Progress (owner : R → ι) (program : ι → List (Op V)) (m : (r : R) → V r)
    (s : State ι V) (i : ι) (done rest : List (Op V)) : Prop where
  program_eq : program i = done ++ rest
  pending : Pending s.mem rest (s.todo i)
  mem_eq : ∀ r, owner r = i → s.mem r = applyAll done m r

namespace Progress

variable {done rest : List (Op V)}

omit [DecidableEq ι] in
/-- An access of another process. -/
theorem of_same {s' : State ι V} (howned : Owned owner program)
    (h : Progress owner program m s i done rest) (htodo : s'.todo i = s.todo i)
    (hmem : ∀ r, owner r = i → s'.mem r = s.mem r) :
    Progress owner program m s' i done rest := by
  refine ⟨h.program_eq, ?_, fun r hr => (hmem r hr).trans (h.mem_eq r hr)⟩
  have hpending := h.pending
  rw [htodo]
  generalize s.todo i = ops at hpending
  cases hpending with
  | idle => exact .idle
  | @loaded r f ops hrest =>
      have hreg : owner r = i :=
        howned i (.modify r f) (by rw [h.program_eq, hrest]; simp)
      rw [← hmem r hreg]
      exact .loaded hrest

/-- The store that finishes an operation. -/
theorem store (op : Op V) {v : V op.reg} (h : Progress owner program m s i done (op :: rest))
    (hv : v = op.apply (applyAll done m) op.reg) :
    Progress owner program m (s.store i op.reg v rest) i (done ++ [op]) rest where
  program_eq := by rw [h.program_eq, List.append_assoc, List.singleton_append]
  pending := by
    rw [State.store_todo]
    exact .idle
  mem_eq := by
    intro r hr
    rw [applyAll_append, applyAll_cons, applyAll_nil]
    by_cases hreg : r = op.reg
    · subst hreg
      exact (Function.update_self _ v s.mem).trans hv
    · rw [op.apply_of_ne _ hreg, ← h.mem_eq r hr]
      exact Function.update_of_ne hreg v s.mem

/-- An access of the process itself. -/
theorem step_self (howned : Owned owner program) (h : Progress owner program m s i done rest) :
    ∃ done' rest', Progress owner program m (s.step i) i done' rest' := by
  have hpending := h.pending
  cases htodo : s.todo i with
  | nil => exact ⟨done, rest, by rwa [State.step_nil htodo]⟩
  | cons op ops =>
      rw [htodo] at hpending
      cases hpending with
      | idle =>
          cases op with
          | write r v =>
              rw [State.step_write htodo]
              exact ⟨_, _, store (.write r v) h (Function.update_self r v _).symm⟩
          | modify r f =>
              rw [State.step_modify htodo]
              refine ⟨done, .modify r f :: ops, h.program_eq, ?_, h.mem_eq⟩
              rw [State.load_todo]
              exact .loaded rfl
      | @loaded r f ops hrest =>
          subst hrest
          rw [State.step_write htodo]
          have hreg : owner r = i := howned i (.modify r f) (by rw [h.program_eq]; simp)
          refine ⟨_, _, store (.modify r f) h ?_⟩
          rw [h.mem_eq r hreg]
          exact (Function.update_self r _ _).symm

theorem step (howned : Owned owner program)
    (h : ∀ i, ∃ done rest, Progress owner program m s i done rest) (j : ι) :
    ∀ i, ∃ done rest, Progress owner program m (s.step j) i done rest := by
  intro i
  obtain ⟨done, rest, hi⟩ := h i
  by_cases hij : i = j
  · subst hij
    exact hi.step_self howned
  · obtain ⟨_, rest', hj⟩ := h j
    have hrest : ∀ op ∈ rest', owner op.reg = j := fun op hop =>
      howned j op (by rw [hj.program_eq]; exact List.mem_append_right _ hop)
    have hregs : ∀ op ∈ s.todo j, owner op.reg = j := hj.pending.reg (P := (owner · = j)) hrest
    refine ⟨done, rest, hi.of_same howned (State.step_todo_of_ne hij s) fun q hq => ?_⟩
    refine State.step_mem_of_ne fun op hop heq => hij ?_
    rw [← hq, ← heq, hregs op hop]

end Progress

/-- At every moment of every interleaving the registers of a process are those after some of its
operations. -/
theorem progress_of_run (howned : Owned owner program) (m : (r : R) → V r) (schedule : List ι)
    (i : ι) :
    ∃ done rest, Progress owner program m (schedule.foldl State.step ⟨m, program⟩) i done rest := by
  have hstart : ∀ i, ∃ done rest, Progress owner program m ⟨m, program⟩ i done rest :=
    fun i => ⟨[], program i, rfl, .idle, fun _ _ => rfl⟩
  suffices hrun : ∀ s : State ι V, (∀ i, ∃ done rest, Progress owner program m s i done rest) →
      ∀ i, ∃ done rest, Progress owner program m (schedule.foldl State.step s) i done rest from
    hrun _ hstart i
  induction schedule with
  | nil => exact fun _ h => h
  | cons j schedule ih => exact fun s h => ih _ (Progress.step howned h j)

/-- A process that has nothing left to do has done all its operations. -/
theorem mem_of_run (howned : Owned owner program) (m : (r : R) → V r) (schedule : List ι) {i : ι}
    (hdone : (schedule.foldl State.step ⟨m, program⟩).todo i = []) {r : R} (hr : owner r = i) :
    (schedule.foldl State.step ⟨m, program⟩).mem r = applyAll (program i) m r := by
  obtain ⟨done, rest, h⟩ := progress_of_run howned m schedule i
  have hpending := h.pending
  rw [hdone] at hpending
  cases hpending with
  | idle => rw [h.mem_eq r hr, h.program_eq, List.append_nil]

end Interleave
