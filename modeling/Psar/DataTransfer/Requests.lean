import Psar.DataTransfer.Ownership

/-!
# Requests for the page

A thread that waits in `sync_page` has one `ASK_PAGE` under way, which `ASK_PAGE_handler` passes on
along the owner pointers until the owner answers it with `RECV_PAGE`. These definitions count the
handlers that a request goes through.
-/

namespace DataTransfer

variable {Node C : Type} [DecidableEq Node]

/-- The message is the request of `y` for the page, or the answer to it. -/
def Msg.isFor (y : Node) : Msg Node C → Bool
  | .invalidation _ _ => false
  | .askPage _ requester => requester = y
  | .recvPage d _ _ => d = y

/-- The thread of `y` faults on the page. -/
def isFault (y : Node) : Event Node C → Bool
  | .act i (.sigsevHandler _) => i = y
  | _ => false

/-- A handler answers the request of `y`, or passes it on. -/
def isHop (y : Node) : Event Node C → Bool
  | .deliver (.askPage _ requester) => requester = y
  | _ => false

/-- A node makes itself the owner. -/
def isPublication : Event Node C → Bool
  | .act _ .publish => true
  | _ => false

/-- A message of the request of `y` is handled. -/
def isDelivery (y : Node) : Event Node C → Bool
  | .deliver m => m.isFor y
  | _ => false

/-- `y` does not wait, or its request or the answer to it is in flight. -/
def Once [Fintype Node] (s : Net Node C) (y : Node) : Prop :=
  s.weight (pendingOf y) (pendingMsg y) = 1

/-! ## How far a request still has to go -/

/-- The number of nodes with a higher rank. -/
def above [Fintype Node] (rank : Node → ℕ) (d : Node) : ℕ :=
  (Finset.univ.filter fun n => rank d < rank n).card

/-- A bound on the handlers that a request of `y` still goes through. -/
def hopsLeft [Fintype Node] (rank : Node → ℕ) (y : Node) : Msg Node C → ℕ
  | .askPage d requester => if requester = y then above rank d + 1 else 0
  | _ => 0

/-- The same for the requests in flight. -/
def left [Fintype Node] (rank : Node → ℕ) (y : Node) (s : Net Node C) : ℕ :=
  (s.msgs.map (hopsLeft rank y)).sum

end DataTransfer
