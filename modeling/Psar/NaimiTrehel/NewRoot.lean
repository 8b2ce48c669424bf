import Psar.NaimiTrehel.CriticalSection

/-!
# The barrier of `NEW_ROOT_CS_handler`

The new root sends `RESET_CS` to every node of its list and waits for `ACK_CS` before it lets the
leaver go with `LEAVE_CS`. These definitions say which acknowledgements have been handled when it
does so.
-/

namespace NaimiTrehel

variable {Node : Type} [DecidableEq Node]

/-- The senders of the `ACK_CS` messages that `r` has handled. -/
def acksHandled (r : Node) : List (Event Node) → List Node
  | [] => []
  | .deliver (.ackCS d sender) :: es =>
    if d = r then sender :: acksHandled r es else acksHandled r es
  | _ :: es => acksHandled r es

/-- `l` has announced to `r` that it leaves, and nothing of an earlier leave through `r` is left. -/
structure Announced (r l : Node) (s : Net Node) : Prop where
  newRoot : .newRootCS r l ∈ s.msgs
  resetting : (s.node r).resetting = []
  resetCS : ∀ d, .resetCS d r ∉ s.msgs
  ackCS : ∀ sender, .ackCS r sender ∉ s.msgs
  leaveCS : .leaveCS l r ∉ s.msgs

/-- In every run in which `r` handles the `NEW_ROOT_CS` of `l` and no other one, `LEAVE_CS` is sent
only after the `ACK_CS` of every node of the list of `r` has been handled. -/
def Barrier (nodeList : Node → List Node) (r l : Node) (s : Net Node) : Prop :=
  ∀ s' es t, step nodeList s (.deliver (.newRootCS r l)) = some s' →
    (∀ sender, .deliver (.newRootCS r sender) ∉ es) →
    Network.run (step nodeList) s' es = some t → .leaveCS l r ∈ t.msgs →
    (nodeList r).Subperm (acksHandled r es)

/-! ## The wait for one node -/

/-- The messages while `r` waits for `a` alone. -/
def WaitMsg (r l a : Node) : Msg Node → Prop
  | .resetCS d sender => sender = r → d = a
  | .ackCS d sender => d = r → sender = a
  | .leaveCS d sender => ¬(d = l ∧ sender = r)
  | _ => True

/-- The new root while it waits. -/
def WaitLocal (l : Node) (p : Peer Node) : Prop := p.resetting = [⟨l, []⟩] ∧ p.acked = false

/-- `r` waits for `a` alone. -/
structure WaitInv (r l a : Node) (s : Net Node) : Prop where
  root : WaitLocal l (s.node r)
  msgs : ∀ m ∈ s.msgs, WaitMsg r l a m

/-- `l`, which is the only node with the token, leaves through `r`. -/
def leaves (l r : Node) : List (Event Node) := [.act l .requestCS, .act l (.leaveCS r)]

/-- `r` handles the `NEW_ROOT_CS` of `l` and the answer of `a`, and goes on with `rest`. -/
def firstAnswer (r l a : Node) (rest : List Node) : List (Event Node) :=
  [.deliver (.resetCS a r), .deliver (.ackCS r a), .act r (.resumeReset ⟨l, rest⟩)]

end NaimiTrehel
