import Psar.Dsm.Region

/-!
# The size of the shared memory

`Init_DSM` rounds the requested size up to pages. The number of pages is an `unsigned int`, and
`nb_pages * PAGE_SIZE` and `PAGE_SIZE * nb_pages` are products of an `unsigned int` and an `int`:
they are computed in 32 bits. `init_sigsegv` then protects that many pages one by one, and ends the
process at the first one that is not mapped.
-/

namespace Dsm

/-- `nb_pages` of `Init_DSM(size, ..)`: the quotient is a `size_t`, the variable has 32 bits. -/
def nbPages (size : BitVec 64) : BitVec 32 :=
  ((size + BitVec.ofNat 64 pageSize - 1) / BitVec.ofNat 64 pageSize).setWidth 32

/-- `nb_pages * PAGE_SIZE`, as the `size_t` that is passed to `mmap` and added to addresses. -/
def length (nbPages : BitVec 32) : BitVec 64 :=
  (nbPages * BitVec.ofNat 32 pageSize).setWidth 64

/-- The globals `dsm` and `nb_pages` after `Init_DSM`. -/
structure Memory where
  dsm : BitVec 64
  nbPages : BitVec 32
  deriving DecidableEq, Repr

/-! ## The calls of the kernel -/

/-- What the kernel answers. -/
structure Kernel where
  /-- `mmap(0, len, ..)`: the address of the mapping, or `none` for `MAP_FAILED`. -/
  mmap : BitVec 64 → Option (BitVec 64)
  /-- Whether `mprotect(addr, PAGE_SIZE, perm)` succeeds when `len` bytes have been mapped at `dsm`;
  the permission makes no difference. -/
  mprotect : (dsm len addr : BitVec 64) → Bool

/-- `memory_protect`; with `false` the process has ended. -/
def memoryProtect (k : Kernel) (dsm len index : BitVec 64) : Bool :=
  k.mprotect dsm len (dsm + index * BitVec.ofNat 64 pageSize)

/-- `init_sigsegv`: the two assertions and the loop over the pages; with `false` the process has
ended. -/
def initSigsegv (k : Kernel) (dsm len nbPage : BitVec 64) : Bool :=
  dsm ≠ 0 && nbPage ≠ 0 &&
    (List.range nbPage.toNat).all fun i => memoryProtect k dsm len (BitVec.ofNat 64 i)

/-- How `Init_DSM` ends. -/
inductive Outcome where
  /-- It returns `dsm`. -/
  | returned (m : Memory)
  /-- It returns `NULL`. -/
  | null
  /-- An assertion fails, or `memory_protect` calls `exit`. -/
  | ended
  deriving DecidableEq, Repr

/-- `Init_DSM`. -/
def initDSM (k : Kernel) (size : BitVec 64) : Outcome :=
  let nbPages := nbPages size
  match k.mmap (length nbPages) with
  | none => .null
  | some dsm =>
    if initSigsegv k dsm (length nbPages) (nbPages.setWidth 64) then .returned ⟨dsm, nbPages⟩
    else .ended

/-- `is_valid_address`. -/
def Memory.isValidAddress (m : Memory) (addr : BitVec 64) : Bool :=
  m.dsm ≤ addr ∧ addr < m.dsm + length m.nbPages

/-! ## The mapping -/

/-- The bytes that `mmap` maps for a length: the pages that cover it. -/
def mapped (len : BitVec 64) : ℕ := (len.toNat + pageSize - 1) / pageSize * pageSize

/-- `mmap` fails on length 0, the end of a mapping is an address, and the pages of the mapping can
be protected. -/
structure Kernel.Lawful (k : Kernel) : Prop where
  zero : k.mmap 0 = none
  fits : ∀ len dsm, k.mmap len = some dsm → dsm.toNat + mapped len < 2 ^ 64
  protect : ∀ len dsm addr, k.mmap len = some dsm → dsm.toNat ≤ addr.toNat →
    addr.toNat + pageSize ≤ dsm.toNat + mapped len → k.mprotect dsm len addr = true

/-- The memory has room for `size` bytes, and every offset below `size` has a page and a valid
address. -/
def Memory.HasRoom (m : Memory) (size : BitVec 64) : Prop :=
  size.toNat ≤ mapped (length m.nbPages) ∧ ∀ offset : BitVec 64, offset < size →
    getPageIndex m.dsm (m.dsm + offset) < m.nbPages.setWidth 64 ∧
      m.isValidAddress (m.dsm + offset) = true

end Dsm
