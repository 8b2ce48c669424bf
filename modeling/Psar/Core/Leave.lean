import Psar.Core.PageLock
import Psar.Library.Pointers

/-!
# Leaving with the token

A node that leaves hands its request list over to its delegate in `SEND_STATE`, and tells every
other node in `DELEGATE` to put the delegate in its place. These definitions say from which states a
leave is considered, and what it should achieve.
-/

namespace PageLock

variable {Node : Type} [DecidableEq Node]

/-- The node that `n` believes to have the token. -/
def owner (s : Net Node) (n : Node) : Node := (s.node n).core.haveToken

/-- The lock is not in use: no message is in flight, no node holds the lock or waits for it, only
`l` names itself in `have_token` and every node leads to `l`. The node `l` knows all others. -/
structure Quiescent (nodeList : Node → List Node) (l : Node) (s : Net Node) : Prop where
  msgs : s.msgs = []
  thread : ∀ n, (s.node n).thread = .idle
  mode : ∀ n, (s.node n).core.mode = .none
  acks : (s.node l).delegateAckCounter = 0
  root : Pointers.Root (owner s) (fun _ => True) l
  peers : ∀ n, n ∈ nodeList l ↔ n ≠ l

/-- The steps of a leave: the handling of messages and the end of `leave_core`. -/
def leaveEvent : Event Node → Bool
  | .deliver _ => true
  | .act _ .leaveFinish => true
  | _ => false

/-- Without `l`, exactly one node names itself in `have_token`, every node leads to it, and nobody
names `l`. -/
structure HandedOver (l : Node) (s : Net Node) : Prop where
  root : ∃ c, Pointers.Root (owner s) (fun n => n ≠ l) c
  token : ∀ n, n ≠ l → owner s n ≠ l
  requests : ∀ n, n ≠ l → ∀ r ∈ (s.node n).core.request, r.who ≠ l

/-- What `DELEGATE` makes of a `have_token` entry. -/
def retarget (l delegate : Node) (n : Node) : Node := if n = l then delegate else n

/-- A `DELEGATE`, or its acknowledgement. -/
def awaited : Msg Node → Bool
  | .delegate _ _ _ => true
  | .delegateAck _ _ => true
  | _ => false

/-- The steps that are left: a `DELEGATE` is handled and then acknowledged. -/
def remaining : Msg Node → ℕ
  | .delegate _ _ _ => 2
  | .delegateAck _ _ => 1
  | _ => 0

/-- The state of a leave of `l` that started in `s`. -/
structure LeaveInv (l delegate : Node) (s t : Net Node) : Prop where
  leaver : (t.node l).thread = .leaving delegate true ∨
    (t.node l).thread = .left ∧ (t.node l).delegateAckCounter = 0
  others : ∀ n, n ≠ l → (t.node n).thread = .idle
  /-- Every `DELEGATE` is still to be acknowledged. -/
  acks : (t.node l).delegateAckCounter = t.msgs.countP awaited
  token : ∀ n, n ≠ l → owner t n = retarget l delegate (owner s n) ∨
    (owner t n = owner s n ∧ .delegate n l delegate ∈ t.msgs)
  requests : ∀ n, n ≠ l → ∀ r ∈ (t.node n).core.request, r.who = l →
    r ∈ (s.node l).core.request ∨ .delegate n l delegate ∈ t.msgs
  msgs : ∀ m ∈ t.msgs, m = .sendState delegate l (some (s.node l).core.request) ∨
    (∃ n, n ≠ l ∧ m = .delegate n l delegate) ∨ ∃ n, m = .delegateAck l n

end PageLock
