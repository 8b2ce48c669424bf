import Psar.Core.Exclusion
import Psar.Library.Join

/-!
# Nodes that join the page lock

`join_DSM` ends with `init_core(nb_pages, nd)`: the node that joins takes the node that it has
contacted for the one that has the tokens, whichever node that is. Before `init_core` the handlers
of `core.c` are not registered, and `exec_handler` drops a message to the node.
-/

namespace PageLock

variable {Node : Type}

/-- The page after `init_core`, with no call yet. -/
def joinCore (contact : Node) : Peer Node := ⟨initCore contact, .idle, 0⟩

/-- The nodes that have joined, and the messages in flight. -/
abbrev JoinNet (Node : Type) := Network.JoinNet Node (Peer Node) (Msg Node)

abbrev JoinEvent (Node : Type) := Network.JoinEvent Node (Msg Node) (Action Node)

/-- One step with joins. -/
def joinStep [DecidableEq Node] (nodeList : Node → List Node) :
    JoinNet Node → JoinEvent Node → Option (JoinNet Node) :=
  Network.step (Network.joinProtocol (protocol nodeList) joinCore)

/-- The node `owner` has called `Init_DSM`, and nobody has joined yet. -/
def joinInit [DecidableEq Node] (owner : Node) : JoinNet Node :=
  ⟨fun i => if i = owner then some (joinCore owner) else none, []⟩

/-! ## Names -/

/-- The nodes that `have_token` and the requests name. -/
def CoreInfo.Names (c : CoreInfo Node) (n : Node) : Prop :=
  n = c.haveToken ∨ ∃ r ∈ c.request, n = r.who

def Peer.Names (p : Peer Node) (n : Node) : Prop :=
  p.core.Names n ∨ ∃ locked, p.thread = .leaving n locked

def Msg.Names : Msg Node → Node → Prop
  | .askLock d sender initiator _, n => n = d ∨ n = sender ∨ n = initiator
  | .getLock d sender initiator _, n => n = d ∨ n = sender ∨ n = initiator
  | .unlock d sender initiator _, n => n = d ∨ n = sender ∨ n = initiator
  | .sendState d sender requests, n =>
    n = d ∨ n = sender ∨ ∃ rs ∈ requests, ∃ r ∈ rs, n = r.who
  | .delegate d sender next, n => n = d ∨ n = sender ∨ n = next
  | .delegateAck d sender, n => n = d ∨ n = sender

/-- The nodes named by the states and the messages of the page lock. -/
def naming : Network.Naming Node (Peer Node) (Msg Node) where
  inState := Peer.Names
  inMsg := Msg.Names

/-- A function of `core.c` on the entry of the page names only nodes that `known` does. -/
def CoreKeeps (known : Node → Prop) (r : CoreInfo Node × List (Msg Node)) : Prop :=
  (∀ n, r.1.Names n → known n) ∧ ∀ m ∈ r.2, ∀ n, m.Names n → known n

/-- Any action but `leave_core`, which announces nodes that its caller names. -/
def stays : Action Node → Prop
  | .leaveCore _ => False
  | _ => True

end PageLock
