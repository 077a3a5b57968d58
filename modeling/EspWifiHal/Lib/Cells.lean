import Mathlib.Logic.Function.Basic

/-!
# Cells

A buffer whose cells may not have been written yet.  A read fails outside of the buffer and at a
cell without a value, and a write fails outside of the buffer.  So a program that gives a result
has written what it reads and has stayed inside of its buffers.
-/

/-- Cells of a buffer, `none` before the first write. -/
structure Cells (α : Type*) where
  size : Nat
  cell : Nat → Option α

namespace Cells

variable {α : Type*} {c : Cells α} {f : Nat → α} {i : Nat}

def fresh (size : Nat) : Cells α := ⟨size, fun _ => none⟩

def full (size : Nat) (f : Nat → α) : Cells α := ⟨size, fun i => some (f i)⟩

def read (c : Cells α) (i : Nat) : Option α := if i < c.size then c.cell i else none

def write (c : Cells α) (i : Nat) (value : α) : Option (Cells α) :=
  if i < c.size then some { c with cell := Function.update c.cell i (some value) } else none

theorem read_eq (hi : i < c.size) : c.read i = c.cell i := if_pos hi

/-- What a write inside of the buffer does. -/
theorem write_spec (hi : i < c.size) (value : α) :
    ∃ d, c.write i value = some d ∧ d.size = c.size ∧ d.cell i = some value ∧
      ∀ j, j ≠ i → d.cell j = c.cell j :=
  ⟨_, if_pos hi, rfl, Function.update_self .., fun _ hj => Function.update_of_ne hj ..⟩

/-- All cells have been written, with the values of a function. -/
def Holds (c : Cells α) (f : Nat → α) : Prop := ∀ i < c.size, c.cell i = some (f i)

theorem holds_full (size : Nat) (f : Nat → α) : (full size f).Holds f := fun _ _ => rfl

theorem Holds.read_eq (h : c.Holds f) (hi : i < c.size) : c.read i = some (f i) :=
  (Cells.read_eq hi).trans (h i hi)

theorem Holds.write (h : c.Holds f) (hi : i < c.size) (value : α) :
    ∃ d, c.write i value = some d ∧ d.size = c.size ∧ d.Holds (Function.update f i value) := by
  obtain ⟨d, hwrite, hsize, hself, hother⟩ := write_spec hi value
  refine ⟨d, hwrite, hsize, fun j hj => ?_⟩
  by_cases hji : j = i
  · rw [hji, hself, Function.update_self]
  · rw [hother j hji, Function.update_of_ne hji]
    exact h j (hsize ▸ hj)

/-! ## Rows and columns -/

variable {columns row row' column column' rows : Nat}

/-- A place in a table that is stored row by row. -/
theorem place_lt (hrow : row < rows) (hcolumn : column < columns) :
    row * columns + column < rows * columns := by
  have hnext : (row + 1) * columns ≤ rows * columns := Nat.mul_le_mul_right columns hrow
  rw [Nat.succ_mul] at hnext
  omega

theorem place_div_mod (row : Nat) (hcolumn : column < columns) :
    (row * columns + column) / columns = row ∧ (row * columns + column) % columns = column := by
  rw [Nat.mul_comm]
  constructor
  · rw [Nat.mul_add_div (by omega), Nat.div_eq_of_lt hcolumn, Nat.add_zero]
  · rw [Nat.mul_add_mod, Nat.mod_eq_of_lt hcolumn]

theorem place_inj (hcolumn : column < columns) (hcolumn' : column' < columns)
    (h : row * columns + column = row' * columns + column') : row = row' ∧ column = column' := by
  obtain ⟨hdiv, hmod⟩ := place_div_mod row hcolumn
  obtain ⟨hdiv', hmod'⟩ := place_div_mod row' hcolumn'
  rw [h] at hdiv hmod
  exact ⟨hdiv.symm.trans hdiv', hmod.symm.trans hmod'⟩

end Cells
