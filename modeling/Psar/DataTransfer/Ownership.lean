import Psar.DataTransfer.Page
import Psar.Library.Pointers

/-!
# The owner of the page

The owner pointers of the nodes are hints that every node overwrites with what the last message
says. What orders them is when a node last became the owner: `rank` counts the publications of the
page, and every pointer and every message in flight leads from a lower rank to a higher one.
-/

namespace DataTransfer

variable {Node C : Type} [DecidableEq Node]

/-- The owner pointer of every node. -/
def owners (s : Net Node C) : Node → Node := fun n => (s.node n).owner

/-- An `INVALIDATION` to `n` is in flight. -/
def invalidated (s : Net Node C) (n : Node) : Bool :=
  s.msgs.any fun m => match m with
    | .invalidation d _ => d = n
    | _ => false

/-- No `INVALIDATION` and no `RECV_PAGE` is in flight. -/
def settled (s : Net Node C) : Bool :=
  s.msgs.all fun m => match m with
    | .askPage _ _ => true
    | _ => false

/-- A node that makes itself the owner has handled all invalidations sent to it. -/
def publishesLast (s : Net Node C) : Event Node C → Bool
  | .act i .publish => !invalidated s i
  | _ => true

/-- The thread of the node waits for a page that has not arrived. -/
def Peer.waits (p : Peer Node C) : Bool :=
  match p.thread with
  | .syncing _ => !p.predicate
  | _ => false

/-- The node `y` itself, as long as it does not wait for the page. -/
def pendingOf (y n : Node) (p : Peer Node C) : ℕ := if n = y ∧ p.waits = false then 1 else 0

/-- The request of `y` for the page, or the answer to it. -/
def pendingMsg (y : Node) : Msg Node C → ℕ
  | .invalidation _ _ => 0
  | .askPage _ requester => if requester = y then 1 else 0
  | .recvPage d _ _ => if d = y then 1 else 0

/-- The invariant of the messages: no node invalidates its own copy, and only a node that waits for
the page has a request or an answer in flight, and one of them. -/
structure Flight [Fintype Node] (s : Net Node C) : Prop where
  invalidation : ∀ d y, Msg.invalidation d y ∈ s.msgs → y ≠ d
  pending : ∀ y, s.weight (pendingOf y) (pendingMsg y) ≤ 1

/-- A message leads from a lower rank to a higher one. -/
def RankedMsg (rank : Node → ℕ) : Msg Node C → Prop
  | .invalidation d sender => rank d < rank sender
  | .askPage d requester => rank requester < rank d
  | .recvPage d owner _ => rank d < rank owner

/-- The invariant of the owner pointers: `c` is the node that has last become the owner, and any
other node that takes itself for the owner is about to learn better. -/
structure Ranked (rank : Node → ℕ) (c : Node) (s : Net Node C) : Prop where
  top : ∀ n, n ≠ c → rank n < rank c
  owner : ∀ n, owners s n ≠ n → rank n < rank (owners s n)
  self : ∀ n, owners s n = n → n ≠ c → invalidated s n = true
  msgs : ∀ m ∈ s.msgs, RankedMsg rank m

/-- The ranks and the last owner after a step: a node that makes itself the owner gets the highest
rank. -/
def nextRank (g : (Node → ℕ) × Node) : Event Node C → (Node → ℕ) × Node
  | .act i .publish => (Function.update g.1 i (g.1 g.2 + 1), i)
  | _ => g

end DataTransfer
