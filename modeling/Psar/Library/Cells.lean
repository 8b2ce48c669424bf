import Mathlib

/-!
# Arrays with checked accesses

An array is a list of cells; an index is an integer, as it is where arrays are addressed with signed
numbers. An access outside the array gives `none`.
-/

namespace Cells

variable {α : Type}

def read (tab : List α) (i : ℤ) : Option α := if 0 ≤ i then tab[i.toNat]? else none

def write (tab : List α) (i : ℤ) (a : α) : Option (List α) :=
  if 0 ≤ i ∧ i < tab.length then some (tab.set i.toNat a) else none

theorem read_natCast (tab : List α) (i : ℕ) : read tab i = tab[i]? := by
  simp [read]

/-! ## A cell between two parts of the array -/

/-- The index of a cell is the length of the part in front of it. -/
theorem read_middle (x : List α) (a : α) (y : List α) :
    read (x ++ a :: y) x.length = some a := by
  simp [read]

theorem write_middle (x : List α) (a b : α) (y : List α) :
    write (x ++ a :: y) x.length b = some (x ++ b :: y) := by
  simp [write]

end Cells
