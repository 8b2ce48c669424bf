import Psar.Core.Exclusion

/-!
# The writer at the node that has the token

A node that has the token and calls `ask_lock(WRITE)` while its request list is not empty adds an
entry of its own to the list and waits on the semaphore `write_auto_lock`. The entry is what the
node has to be woken by: these definitions say where it can get lost.
-/

namespace PageLock

variable {Node : Type} [DecidableEq Node]

/-- A node that waits on `write_auto_lock` is woken, or its own entry is still in its list. -/
def Peer.remembered (i : Node) (p : Peer Node) : Prop :=
  p.thread = .semWait → 0 < p.core.writeAutoLock ∨ ⟨.write, i⟩ ∈ p.core.request

/-- The state of one node, as long as nobody leaves. -/
structure WakeLocal (i : Node) (p : Peer Node) : Prop where
  remembered : p.remembered i
  thread : ∀ d b, p.thread ≠ .leaving d b

/-- An `UNLOCK` is never sent by a node to itself. -/
def WakeMsg : Msg Node → Prop
  | .unlock d sender _ _ => sender ≠ d
  | .askLock _ _ _ _ => True
  | .getLock _ _ _ _ => True
  | _ => False

/-- At a node that waits on `write_auto_lock`, the handler of `UNLOCK` does not find the node's own
`WRITE` request at the head of the list. -/
def headNotOwn (s : Net Node) : Event Node → Bool
  | .deliver (.unlock d sender _ _) =>
    (s.node d).thread ≠ .semWait || (s.node d).core.haveToken ≠ d ||
      (removeRequest (s.node d).core sender).request.head? ≠ some ⟨.write, d⟩
  | _ => true

end PageLock
