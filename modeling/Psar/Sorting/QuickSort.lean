import Psar.Library.Cells

/-!
# `sort`

`swap`, `partition`, `quick_sort`, `sort` and `is_sorted` of `main.c`. Of the elements only their
order is used, so that it does not matter whether a `char` is signed. The indices are of type `int`:
an operation that would make one overflow is undefined in C and gives `none` here, and so does an
access outside the array.
-/

namespace Sorting

open Cells (read write)

variable {α : Type} [LinearOrder α]

/-- The result of an operation on `int`. -/
def int (z : ℤ) : Option ℤ := if -2 ^ 31 ≤ z ∧ z < 2 ^ 31 then some z else none

/-- `swap(&tab[a], &tab[b])`. -/
def swap (tab : List α) (a b : ℤ) : Option (List α) := do
  let temp ← read tab a
  let tab ← write tab a (← read tab b)
  write tab b temp

/-- The loop of `partition` with `n` turns left: it ends when `j` is `high`. -/
def partitionLoop (pivot : α) : ℕ → ℤ → ℤ → List α → Option (ℤ × List α)
  | 0, _, i, tab => some (i, tab)
  | n + 1, j, i, tab => do
    if (← read tab j) ≤ pivot then
      let i ← int (i + 1)
      let tab ← swap tab i j
      partitionLoop pivot n (← int (j + 1)) i tab
    else
      partitionLoop pivot n (← int (j + 1)) i tab

/-- The index of the pivot, and the array. -/
def partition (tab : List α) (low high : ℤ) : Option (ℤ × List α) := do
  let pivot ← read tab high
  let i ← int (low - 1)
  let (i, tab) ← partitionLoop pivot (high - low).toNat low i tab
  let tab ← swap tab (← int (i + 1)) high
  return (← int (i + 1), tab)

/-- `fuel` bounds the depth of the recursion. -/
def quickSort : ℕ → List α → ℤ → ℤ → Option (List α)
  | 0, _, _, _ => none
  | fuel + 1, tab, low, high =>
    if low < high then do
      let (pi, tab) ← partition tab low high
      let tab ← quickSort fuel tab low (← int (pi - 1))
      quickSort fuel tab (← int (pi + 1)) high
    else some tab

/-- `tab_size - 1` is converted to `int`. -/
def sort (fuel : ℕ) (tab : List α) (tabSize : ℕ) : Option (List α) :=
  if tabSize = 0 then some tab
  else quickSort fuel tab 0 (BitVec.ofNat 32 (tabSize - 1)).toInt

/-- The loop of `is_sorted` with `n` turns left: it ends when `i` is `tab_size - 1`. -/
def isSortedLoop (tab : List α) : ℕ → ℕ → Option Bool
  | 0, _ => some true
  | n + 1, i => do
    if (← read tab i) > (← read tab (i + 1)) then return false
    else isSortedLoop tab n (i + 1)

def isSorted (tab : List α) (tabSize : ℕ) : Option Bool :=
  if tabSize = 0 then some true else isSortedLoop tab (tabSize - 1) 0

end Sorting
