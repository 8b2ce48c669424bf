import Psar.Core.PageLock
import Psar.Library.Network
import Psar.Library.Stamped

/-!
# The request list of a page as a queue

`add_request` and `remove_request` on the list of a page, with the additions counted: two requests
of one node in one mode are different entries of the list.
-/

namespace RequestQueue

open PageLock (CoreInfo LockType Request)
open Stamped (Entry History)

variable {Node : Type} [DecidableEq Node]

inductive Op (Node : Type) where
  | addRequest (who : Node) (mode : LockType)
  | removeRequest (who : Node)
  deriving DecidableEq, Repr

/-- The entry of a page, and the history of its request list. -/
structure Page (Node : Type) where
  core : CoreInfo Node
  history : History (Request Node)
  vals : history.vals = core.request

/-- A page without requests. -/
def Page.empty (c : CoreInfo Node) : Page Node :=
  ⟨PageLock.cleanRequests c, History.empty, rfl⟩

def isAny (_ : Request Node) : Bool := true

def isWrite (r : Request Node) : Bool := r.mode = .write

def isOf (who : Node) (r : Request Node) : Bool := r.who = who

def Page.addRequest (q : Page Node) (who : Node) (mode : LockType) : Page Node where
  core := PageLock.addRequest q.core who mode
  history := q.history.push ⟨mode, who⟩
  vals := congrArg (List.cons _) q.vals

def Page.removeRequest (q : Page Node) (who : Node) : Page Node where
  core := PageLock.removeRequest q.core who
  history := q.history.eraseP (isOf who)
  vals := by
    show _ = q.core.request.eraseP (isOf who)
    rw [← q.vals]
    exact (List.eraseP_map (p := isOf who)).symm

def Page.apply (q : Page Node) : Op Node → Page Node
  | .addRequest who mode => q.addRequest who mode
  | .removeRequest who => q.removeRequest who

def step (q : Page Node) (op : Op Node) : Option (Page Node) := some (q.apply op)

/-- `list_first_entry`, as in `unlock_internal` and `handle_local_UNLOCK`. -/
def Page.firstEntry (q : Page Node) : Option (Entry (Request Node)) :=
  q.history.entries.head?

/-- `find_last_writer`. -/
def Page.lastWriter (q : Page Node) : Option (Entry (Request Node)) :=
  q.history.entries.reverse.find? fun e => isWrite e.val

/-! ## What the list is for -/

/-- The request list is a queue: the first entry is the earliest one, the last writer the latest
one, and a removal removes the earliest entry of the node. -/
structure Fifo (q : Page Node) : Prop where
  first : ∀ e, q.firstEntry = some e → q.history.IsEarliest isAny e
  lastWriter : ∀ e, q.lastWriter = some e → q.history.IsLatest isWrite e
  noWriter : q.lastWriter = none ↔ ∀ e ∈ q.history.entries, e.val.mode ≠ .write
  removed : ∀ who e, q.history.IsEarliest (isOf who) e →
    (q.removeRequest who).history.entries = q.history.entries.filter fun e' => e'.time ≠ e.time

/-- A request is added only to an empty list. -/
def alone (q : Page Node) : Op Node → Prop
  | .addRequest _ _ => q.core.request = []
  | .removeRequest _ => True

instance decidableAlone (q : Page Node) : ∀ op, Decidable (alone q op)
  | .addRequest _ _ => inferInstanceAs (Decidable (q.core.request = []))
  | .removeRequest _ => isTrue trivial

end RequestQueue
