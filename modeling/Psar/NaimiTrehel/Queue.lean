import Psar.NaimiTrehel.Join

/-!
# Nobody waits for ever: what is followed

The request of a node is passed on along the fathers until a node without one takes it: it is
answered with the token, or the requester becomes `next` of that node. `QueueInv` says that every
node that waits has its request in exactly one place, and that the requesters behind each other form
queues that end.
-/

namespace NaimiTrehel

variable {Node : Type} [DecidableEq Node]

/-- The requester that every node remembers. -/
def nexts (s : Net Node) : Node → Option Node := fun i => (s.node i).next

/-- The requests in flight, as destination and requester. -/
def requests (s : Net Node) : List (Node × Node) := s.msgs.filterMap Msg.request

/-- The node that handles the request of `y` in this step. -/
def handled {A : Type} (y : Node) : Network.Event Node (Msg Node) A → Option Node
  | .deliver (.requestCS d _ z) => if z = y then some d else none
  | _ => none

/-- The nodes that handle the request of `y`, one after the other. -/
def handledBy {A : Type} (y : Node) (es : List (Network.Event Node (Msg Node) A)) : List Node :=
  es.filterMap (handled y)

/-- The fathers, the requests in flight and the queues; the nodes of `S` have handled the request of
`y`. -/
def QueueTree [Fintype Node] (y : Node) (S : Set Node) (s : Net Node) : Prop :=
  ∃ att c, Pointers.Attached (fathers s) (requests s) att c ∧
    Pointers.Traced (fathers s) att y S ∧ Pointers.Queued (nexts s) att

/-- The invariant of the queues. -/
structure QueueInv [Fintype Node] (y : Node) (S : Set Node) (s : Net Node) : Prop
    extends OneInv s where
  tree : QueueTree y S s
  known : ∀ z, 1 ≤ s.weight (pendingAt z) (pendingMsg z)

end NaimiTrehel
