import Mathlib

/-!
# Regions and pages

`exclude_others` of `library.c` goes through the pages of a region of the shared memory. Addresses
and sizes are 64-bit words, as `size_t` is; the number of a page is the quotient that
`get_page_index` computes from the address.
-/

namespace Dsm

/-- `PAGE_SIZE`. -/
def pageSize : ℕ := 4096

/-- `get_page_index`; `dsm` is the global of that name. -/
def getPageIndex (dsm adr : BitVec 64) : BitVec 64 :=
  (adr - dsm) / BitVec.ofNat 64 pageSize

/-! ## The loop of `exclude_others` -/

/-- A call that the loop makes. -/
inductive Call where
  /-- `memory_lock(page_id)`. -/
  | memoryLock (page : ℕ)
  /-- `exc_func(page_id, lock_type)`. -/
  | excFunc (page : ℕ)
  deriving DecidableEq, Repr

/-- The values of `page_id` in the loop. The quotient `end_index` is far below the largest word, so
`page_id++` does not wrap around. -/
def regionPages (dsm adr s : BitVec 64) : List ℕ :=
  let startIndex := (getPageIndex dsm adr).toNat
  let endIndex := (getPageIndex dsm (adr + s - 1)).toNat
  List.range' startIndex (endIndex + 1 - startIndex)

/-- The calls on the pages of a list, one page after the other. -/
def callsOn (pages : List ℕ) : List Call :=
  pages.flatMap fun page => [.memoryLock page, .excFunc page]

def excludeOthers (dsm adr s : BitVec 64) : List Call :=
  callsOn (regionPages dsm adr s)

/-! ## What the loop is for -/

/-- The region from `adr` to `adr + s` lies inside the shared memory of `nbPages` pages at `dsm`. -/
structure InDsm (dsm : BitVec 64) (nbPages : ℕ) (adr s : BitVec 64) : Prop where
  memory : dsm.toNat + nbPages * pageSize ≤ 2 ^ 64
  start : dsm.toNat ≤ adr.toNat
  stop : adr.toNat + s.toNat ≤ dsm.toNat + nbPages * pageSize

/-- The page contains a byte of the region. -/
def Touches (dsm adr s : BitVec 64) (page : ℕ) : Prop :=
  ∃ b, adr.toNat ≤ b ∧ b < adr.toNat + s.toNat ∧ (b - dsm.toNat) / pageSize = page

/-- The calls are those on the pages of the region, each once and in increasing order, and all pages
are below `nbPages`. -/
def Covers (dsm : BitVec 64) (nbPages : ℕ) (adr s : BitVec 64) (calls : List Call) : Prop :=
  ∃ pages, calls = callsOn pages ∧ pages.Pairwise (· < ·) ∧
    (∀ page, page ∈ pages ↔ Touches dsm adr s page) ∧ ∀ page ∈ pages, page < nbPages

end Dsm
