import Mathlib

/-!
# Rings of linked cells

A circular doubly linked list with a head: every cell in memory has a pointer to the next and one to
the previous cell, and the head is a cell of the ring that is not an entry. The operations read and
write the two pointers of single cells, and fail when they access a cell that is not in memory.

`Entries m head l` says that the entries of the ring of `head` are the cells of `l`, in this order.
-/

namespace LinkedRing

/-- The two pointers of a cell. -/
structure Cell (A : Type) where
  next : A
  prev : A
  deriving DecidableEq, Repr

/-- The cells in memory. -/
abbrev Mem (A : Type) := A → Option (Cell A)

variable {A : Type} [DecidableEq A]

/-! ## Single pointers -/

def nextOf (m : Mem A) (a : A) : Option A := (m a).map Cell.next

def prevOf (m : Mem A) (a : A) : Option A := (m a).map Cell.prev

def setNext (m : Mem A) (a b : A) : Option (Mem A) :=
  (m a).map fun c => Function.update m a (some { c with next := b })

def setPrev (m : Mem A) (a b : A) : Option (Mem A) :=
  (m a).map fun c => Function.update m a (some { c with prev := b })

/-! ## Insertion and removal -/

/-- Inserts `new` between two cells. -/
def insert (m : Mem A) (new prev next : A) : Option (Mem A) := do
  let m ← setPrev m next new
  let m ← setNext m new next
  let m ← setPrev m new prev
  setNext m prev new

/-- Inserts `new` behind `head`. -/
def push (m : Mem A) (new head : A) : Option (Mem A) := do
  let next ← nextOf m head
  insert m new head next

/-- Makes two cells point to each other. -/
def join (m : Mem A) (prev next : A) : Option (Mem A) := do
  let m ← setPrev m next prev
  setNext m prev next

/-- Takes `entry` out of its ring; its pointers become `p` and `q`. -/
def remove (m : Mem A) (entry p q : A) : Option (Mem A) := do
  let prev ← prevOf m entry
  let next ← nextOf m entry
  let m ← join m prev next
  let m ← setNext m entry p
  setPrev m entry q

/-- A new cell; its pointers are what the memory held before. -/
def alloc (m : Mem A) (a : A) (old : Cell A) : Mem A := Function.update m a (some old)

/-- `a` is no cell in memory any more. -/
def free (m : Mem A) (a : A) : Option (Mem A) :=
  (m a).map fun _ => Function.update m a none

/-! ## Loops -/

/-- The loop over the entries from `pos` on, with the cells it goes through. `fuel` bounds the number
of iterations. -/
def walk (m : Mem A) (head : A) : ℕ → A → Option (List A)
  | 0, _ => none
  | fuel + 1, pos =>
    if pos = head then some []
    else do
      let next ← nextOf m pos
      let rest ← walk m head fuel next
      some (pos :: rest)

def forEach (m : Mem A) (head : A) (fuel : ℕ) : Option (List A) := do
  let first ← nextOf m head
  walk m head fuel first

/-- The loop backwards from `pos`, up to the first entry with `q`. -/
def walkBack (m : Mem A) (head : A) (q : A → Bool) : ℕ → A → Option (Option A)
  | 0, _ => none
  | fuel + 1, pos =>
    if pos = head then some none
    else if q pos then some (some pos)
    else do
      let prev ← prevOf m pos
      walkBack m head q fuel prev

def findBack (m : Mem A) (head : A) (q : A → Bool) (fuel : ℕ) : Option (Option A) := do
  let last ← prevOf m head
  walkBack m head q fuel last

/-- The loop that reads the next entry `next` before the body, which may take `pos` out of the ring,
and ends the loop when it returns `true`. -/
def walkSafe (head : A) (body : Mem A → A → Option (Mem A × Bool)) :
    ℕ → Mem A → A → A → Option (Mem A)
  | 0, _, _, _ => none
  | fuel + 1, m, pos, next =>
    if pos = head then some m
    else do
      let r ← body m pos
      if r.2 then some r.1
      else do
        let next' ← nextOf r.1 next
        walkSafe head body fuel r.1 next next'

def forEachSafe (head : A) (body : Mem A → A → Option (Mem A × Bool)) (fuel : ℕ) (m : Mem A) :
    Option (Mem A) := do
  let first ← nextOf m head
  let next ← nextOf m first
  walkSafe head body fuel m first next

/-- What is left of the entries when those without `keep` are taken out, up to the first one with
`stop`. -/
def sweep (keep stop : A → Bool) : List A → List A
  | [] => []
  | x :: l =>
    (if keep x then [x] else []) ++ if stop x then l else sweep keep stop l

/-- The same cells are in memory. -/
def SameCells (m m' : Mem A) : Prop := ∀ x, (m' x).isSome = (m x).isSome

/-! ## Paths -/

/-- The pointers of `a` and `b` lead to each other. -/
def Linked (m : Mem A) (a b : A) : Prop := nextOf m a = some b ∧ prevOf m b = some a

/-- Following the pointers from `a` goes through the cells `l` and ends at `b`. -/
def Path (m : Mem A) : A → List A → A → Prop
  | a, [], b => a = b
  | a, c :: l, b => Linked m a c ∧ Path m c l b

/-- The ring of `head` has the entries `l`. -/
structure Entries (m : Mem A) (head : A) (l : List A) : Prop where
  nodup : (head :: l).Nodup
  path : Path m head (l ++ [head]) head

end LinkedRing
