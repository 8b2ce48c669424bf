import Psar.NaimiTrehel.CriticalSection

/-!
# Mutual exclusion between the nodes: what is counted

There is one token, at a node or in flight, and every node has at most one request under way: in a
`REQUEST_CS` in flight, as `next` of another node, or answered by a `GET_CS` in flight.
-/

namespace NaimiTrehel

variable {Node : Type} [DecidableEq Node]

/-! ## Weights -/

def tokenAt (_ : Node) (p : Peer Node) : ℕ := p.token.toNat

def tokenMsg : Msg Node → ℕ
  | .getCS _ _ => 1
  | _ => 0

/-- The request of `y` that waits at `i`, and one more at `y` itself unless it asks for the token.
-/
def pendingAt (y : Node) (i : Node) (p : Peer Node) : ℕ :=
  (if p.next = some y then 1 else 0) + if i = y ∧ (p.token = true ∨ p.requesting = false) then 1 else 0

def pendingMsg (y : Node) : Msg Node → ℕ
  | .requestCS _ _ requester => if requester = y then 1 else 0
  | .getCS d _ => if d = y then 1 else 0
  | _ => 0

/-! ## The invariant -/

/-- The state of one node: its threads inside have the token, a node without token and father asks
for the token, and a node that remembers `next` asks for the token and has a new father. -/
structure LocalInv (p : Peer Node) : Prop where
  users : p.users = p.inside
  inside : 0 < p.inside → p.token = true ∧ p.requesting = true
  asking : p.token = false → p.father = none → p.requesting = true
  queue : p.next ≠ none → p.requesting = true ∧ p.father ≠ none

/-- The messages of `request_CS` and `release_CS`. -/
def MsgInv : Msg Node → Prop
  | .requestCS _ _ _ => True
  | .getCS _ _ => True
  | _ => False

/-- The invariant of the critical section, as long as nobody leaves. -/
structure Inv [Fintype Node] (s : Net Node) : Prop where
  local_ : ∀ i, LocalInv (s.node i)
  stays : ∀ i, (s.node i).leaving = false ∧ (s.node i).resetting = []
  msgs : ∀ m ∈ s.msgs, MsgInv m
  token : s.weight tokenAt tokenMsg = 1
  pending : ∀ y, s.weight (pendingAt y) (pendingMsg y) ≤ 1

/-! ## Which steps are safe -/

/-- No call of `leave_CS`. -/
def noLeave : Event Node → Bool
  | .act _ (.leaveCS _) => false
  | _ => true

/-- A thread leaves the waiting loop while `requesting` is set, and `request_CS` sends no second
request for a node that waits for the token. -/
def oneRequest (s : Net Node) : Event Node → Bool
  | .act i .wake => (s.node i).requesting
  | .act i .requestCS =>
    (s.node i).token || !(s.node i).requesting || (s.node i).father = none
  | _ => true

end NaimiTrehel
