import Psar.Library.Cells
import Psar.Library.Merge

/-!
# `merge_segments`

The array consists of segments of equal size that are in order; `merge_segments` of `main.c` merges
them through a temporary buffer. `indices` has the number of elements taken from every segment.
-/

namespace Sorting

open Cells (read write)

variable {α : Type} [LinearOrder α]

/-- A call and the errors that are logged. An access outside an array and a division by zero are
undefined in C and give `none`. -/
abbrev Call (β : Type) := StateT (List String) Option β

def checked {β : Type} (x : Option β) : Call β := fun log => x.map fun b => (b, log)

/-- `ensure_error`, whose result nobody looks at: the call goes on. -/
def ensureError (condition : Bool) (fmt : String) : Call Unit :=
  fun log => some ((), if condition then log else log ++ [fmt])

/-- The loop over the segments with `n` turns left. The pair is `min_val` and `min_seg`, which is
`none` for `(size_t)-1`. -/
def minSegment (tab : List α) (segmentSize : ℕ) (indices : List ℕ) :
    ℕ → ℕ → α × Option ℕ → Option (α × Option ℕ)
  | 0, _, min => some min
  | n + 1, s, min => do
    let index ← read indices s
    if index < segmentSize then
      let v ← read tab (s * segmentSize + index : ℕ)
      if min.2 = none ∨ v < min.1 then minSegment tab segmentSize indices n (s + 1) (v, some s)
      else minSegment tab segmentSize indices n (s + 1) min
    else minSegment tab segmentSize indices n (s + 1) min

/-- The merge loop with `n` turns left: it ends when `out` is `tab_size`. -/
def mergeLoop [Zero α] (tab : List α) (numSegments segmentSize : ℕ) :
    ℕ → ℕ → List α → List ℕ → Call (List α)
  | 0, _, tmp, _ => pure tmp
  | n + 1, out, tmp, indices => do
    let min ← checked (minSegment tab segmentSize indices numSegments 0 (0, none))
    ensureError min.2.isSome "No more elements to merge"
    let tmp ← checked (write tmp out min.1)
    -- there is no `indices[(size_t)-1]`
    let minSeg ← checked min.2
    let index ← checked (read indices minSeg)
    let indices ← checked (write indices minSeg (index + 1))
    mergeLoop tab numSegments segmentSize n (out + 1) tmp indices

/-- `memcpy(tab, tmp, tab_size)`. -/
def copyBack (tab tmp : List α) (tabSize : ℕ) : Option (List α) :=
  if tabSize ≤ tab.length ∧ tabSize ≤ tmp.length then some (tmp.take tabSize ++ tab.drop tabSize)
  else none

/-- `malloc` is what the memory of the temporary buffer holds, and `calloc` whether there is memory
for the indices. Nothing can be accessed through `NULL`. -/
def mergeSegments [Zero α] (malloc : Option (ℕ → α)) (calloc : Bool) (tab : List α)
    (tabSize segmentSize : ℕ) : Call (List α) := do
  let _ ← checked (if segmentSize = 0 then none else some ())
  ensureError (tabSize % segmentSize = 0)
    "The size of the array is not divisible by the number of segments"
  let numSegments := tabSize / segmentSize
  ensureError malloc.isSome "Memory allocation failed for temporary buffer"
  let tmp := malloc.elim [] fun garbage => (List.range tabSize).map garbage
  ensureError calloc "Memory allocation failed for indices array"
  let indices := if calloc then List.replicate numSegments 0 else []
  let tmp ← mergeLoop tab numSegments segmentSize tabSize 0 tmp indices
  checked (copyBack tab tmp tabSize)

/-! ## The segments -/

/-- The segment that begins at `s * segmentSize`. -/
def segment (tab : List α) (segmentSize s : ℕ) : List α :=
  (tab.drop (s * segmentSize)).take segmentSize

/-- What is left of the segments. -/
def remaining (tab : List α) (segmentSize : ℕ) (indices : List ℕ) : List (List α) :=
  indices.mapIdx fun s index => (segment tab segmentSize s).drop index

/-- What the loop over the segments has found among the first `k` of them. -/
structure Candidate (rest : List (List α)) (k : ℕ) (min : α × Option ℕ) : Prop where
  nothing : min.2 = none → ∀ t < k, rest[t]? = some []
  found : ∀ s, min.2 = some s → (∃ l, rest[s]? = some (min.1 :: l)) ∧
    ∀ t < k, ∀ (b : α) (l : List α), rest[t]? = some (b :: l) → min.1 ≤ b

end Sorting
