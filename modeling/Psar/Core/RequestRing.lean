import Psar.Core.PageLock
import Psar.Library.Ring

/-!
# The request lists in memory

The request list of a page is a ring of `list.h` in `core.c`: `core_info[page].request` is its head,
and every `struct request` that `add_request` allocates is linked into it. These are the functions
of `core.c` on the rings of all pages, with every access to memory; the lists that `PageLock` works
on are what is in the rings.

A call that reads or writes a cell that is not allocated has no result, and neither has a loop that
needs more than `fuel` iterations.
-/

namespace RequestRing

open PageLock (LockType Request CoreInfo)
open LinkedRing (Mem Cell)

variable {Node : Type} [DecidableEq Node]

/-! ## Memory -/

/-- The addresses of the `struct list_head`s. -/
inductive Addr where
  /-- `&core_info[page].request`. -/
  | page (page : ℕ)
  /-- `&req->next` of a request that `malloc` has returned. -/
  | cell (i : ℕ)
  /-- `LIST_POISON1`. -/
  | poison1
  /-- `LIST_POISON2`. -/
  | poison2
  deriving DecidableEq, Repr

/-- The pointers of the cells, and `mode` and `who` of the requests that they are in. -/
structure Heap (Node : Type) where
  mem : Mem Addr
  req : Addr → Request Node

/-- `container_of` and the access to the request. -/
def readRequest (req : Addr → Request Node) (m : Mem Addr) (a : Addr) : Option (Request Node) :=
  (m a).map fun _ => req a

/-! ## The functions -/

/-- `add_request`; `i` is what `malloc` returns, and `old` what the memory held there. -/
def addRequest (h : Heap Node) (page : ℕ) (who : Node) (mode : LockType) (i : ℕ)
    (old : Cell Addr) : Option (Heap Node) :=
  (LinkedRing.push (LinkedRing.alloc h.mem (.cell i) old) (.cell i) (.page page)).map fun m =>
    { mem := m, req := Function.update h.req (.cell i) ⟨mode, who⟩ }

/-- `list_del`. -/
def listDel (m : Mem Addr) (a : Addr) : Option (Mem Addr) :=
  LinkedRing.remove m a .poison1 .poison2

/-- The loop of `remove_request`, which ends after the first match. -/
def removeRequest (fuel : ℕ) (h : Heap Node) (page : ℕ) (who : Node) : Option (Heap Node) :=
  (LinkedRing.forEachSafe (.page page) (fun m c => do
    let r ← readRequest h.req m c
    if r.who = who then do
      let m ← listDel m c
      let m ← LinkedRing.free m c
      some (m, true)
    else some (m, false)) fuel h.mem).map fun m => { h with mem := m }

def cleanRequests (fuel : ℕ) (h : Heap Node) (page : ℕ) : Option (Heap Node) :=
  (LinkedRing.forEachSafe (.page page) (fun m c => do
    let m ← listDel m c
    let m ← LinkedRing.free m c
    some (m, false)) fuel h.mem).map fun m => { h with mem := m }

/-- The loop of `handle_DELEGATE` over the requests of one page. -/
def handleDelegatePage (fuel : ℕ) (h : Heap Node) (page : ℕ) (sender : Node) :
    Option (Heap Node) :=
  (LinkedRing.forEachSafe (.page page) (fun m cur => do
    let r ← readRequest h.req m cur
    if r.who = sender then do
      let m ← listDel m cur
      some (m, false)
    else some (m, false)) fuel h.mem).map fun m => { h with mem := m }

/-- The loop of `handle_DELEGATE` over the pages. -/
def handleDelegate (fuel : ℕ) (sender : Node) : List ℕ → Heap Node → Option (Heap Node)
  | [], h => some h
  | page :: pages, h =>
    (handleDelegatePage fuel h page sender).bind fun h => handleDelegate fuel sender pages h

def listEmpty (h : Heap Node) (page : ℕ) : Option Bool :=
  (LinkedRing.nextOf h.mem (.page page)).map fun next => next = .page page

/-- The requests that `list_for_each_entry` goes through. -/
def requests (fuel : ℕ) (h : Heap Node) (page : ℕ) : Option (List (Request Node)) :=
  (LinkedRing.forEach h.mem (.page page) fuel).map fun cells => cells.map h.req

def findLastWriter (fuel : ℕ) (h : Heap Node) (page : ℕ) : Option (Option (Request Node)) :=
  (LinkedRing.findBack h.mem (.page page) (fun c => (h.req c).mode = .write) fuel).map fun c =>
    c.map h.req

/-! ## Runs -/

inductive Event (Node : Type) where
  | addRequest (page : ℕ) (who : Node) (mode : LockType) (i : ℕ) (old : Cell Addr)
  | removeRequest (page : ℕ) (who : Node)
  | cleanRequests (page : ℕ)
  | handleDelegate (sender delegate : Node)
  deriving DecidableEq, Repr

/-- The `free` is missing in `handle_DELEGATE`. -/
def Event.isDelegate : Event Node → Bool
  | .handleDelegate _ _ => true
  | _ => false

def step (fuel nbPages : ℕ) (h : Heap Node) : Event Node → Option (Heap Node)
  | .addRequest page who mode i old => addRequest h page who mode i old
  | .removeRequest page who => removeRequest fuel h page who
  | .cleanRequests page => cleanRequests fuel h page
  | .handleDelegate sender _ => handleDelegate fuel sender (List.range nbPages) h

/-- After `init_core`: the rings of all pages are empty. -/
def initHeap (nbPages : ℕ) (req : Addr → Request Node) : Heap Node where
  mem := fun a => match a with
    | .page page => if page < nbPages then some ⟨.page page, .page page⟩ else none
    | _ => none
  req := req

/-- The call is about one of the pages, and `malloc` returns a cell that is not allocated. -/
def Allowed (nbPages : ℕ) (h : Heap Node) : Event Node → Prop
  | .addRequest page _ _ i _ => page < nbPages ∧ h.mem (.cell i) = none
  | .removeRequest page _ => page < nbPages
  | .cleanRequests page => page < nbPages
  | .handleDelegate _ _ => True

instance (nbPages : ℕ) (h : Heap Node) : ∀ e, Decidable (Allowed nbPages h e)
  | .addRequest page _ _ i _ => inferInstanceAs (Decidable (page < nbPages ∧ h.mem (.cell i) = none))
  | .removeRequest page _ => inferInstanceAs (Decidable (page < nbPages))
  | .cleanRequests page => inferInstanceAs (Decidable (page < nbPages))
  | .handleDelegate _ _ => isTrue trivial

/-- The entries of the pages after the call. -/
def after (nbPages : ℕ) (c : ℕ → CoreInfo Node) : Event Node → ℕ → CoreInfo Node
  | .addRequest page who mode _ _ =>
    Function.update c page (PageLock.addRequest (c page) who mode)
  | .removeRequest page who => Function.update c page (PageLock.removeRequest (c page) who)
  | .cleanRequests page => Function.update c page (PageLock.cleanRequests (c page))
  | .handleDelegate sender delegate => fun page =>
    if page < nbPages then PageLock.handleDelegate (c page) sender delegate else c page

/-- The ring of the page holds the requests `l`. -/
def Holds (h : Heap Node) (page : ℕ) (l : List (Request Node)) : Prop :=
  ∃ cells, LinkedRing.Entries h.mem (.page page) cells ∧ cells.map h.req = l

/-! ## The invariant -/

/-- The rings of the pages have the cells `ls`, no cell is in two of them, and the cells in memory
are those and the ones in `lost`, which are in none. -/
structure Rings (nbPages : ℕ) (m : Mem Addr) (ls : ℕ → List Addr) (lost : List Addr) : Prop where
  entries : ∀ p, p < nbPages → LinkedRing.Entries m (.page p) (ls p)
  cells : ∀ p, p < nbPages → ∀ a ∈ ls p, ∃ i, a = .cell i
  apart : ∀ p p', p < nbPages → p' < nbPages → ∀ a ∈ ls p, a ∈ ls p' → p = p'
  loose : ∀ a ∈ lost, (∃ i, a = .cell i) ∧ ∀ p, p < nbPages → a ∉ ls p
  live : ∀ i, (m (.cell i)).isSome = true ↔
    (∃ p, p < nbPages ∧ Addr.cell i ∈ ls p) ∨ Addr.cell i ∈ lost

/-- The rings have the cells `ls`, and with their requests they are the lists of `c`. -/
structure Rep (nbPages : ℕ) (h : Heap Node) (c : ℕ → CoreInfo Node) (ls : ℕ → List Addr)
    (lost : List Addr) : Prop where
  rings : Rings nbPages h.mem ls lost
  request : ∀ p, p < nbPages → (ls p).map h.req = (c p).request

end RequestRing
