import Psar.Core.PageLock

/-!
# Forwarding an `UNLOCK`

A reader sends its `UNLOCK` to the node that it takes for the owner of the token, and every node
that does not have the token passes the message on. `send_message` writes the node that sends into
the header, also when the message is passed on; the field `initiator` is not read.
-/

namespace PageLock

variable {Node : Type} [DecidableEq Node]

/-- A node that handles the message, and its entry for the page at that time. -/
structure Hop (Node : Type) where
  node : Node
  core : CoreInfo Node
  deriving DecidableEq, Repr

/-- The forwarding branch of `handle_UNLOCK`, at the node to which the message is sent. -/
def Hop.forward (m : Msg Node) (hop : Hop Node) : Option (Msg Node) :=
  match m with
  | .unlock dest sender initiator mode =>
    if dest = hop.node ∧ hop.core.haveToken ≠ hop.node then
      (handleUnlock hop.node hop.core sender initiator mode).2.head?
    else none
  | _ => none

/-- The message after the nodes `hops` have passed it on. -/
def forwards (m : Msg Node) (hops : List (Hop Node)) : Option (Msg Node) :=
  hops.foldlM Hop.forward m

/-- The node that sent the message last; `n₀` sent it first. -/
def lastSender : Node → List (Hop Node) → Node
  | n₀, [] => n₀
  | _, hop :: hops => lastSender hop.node hops

/-- One `READ` entry of `n₀` is removed, and no other. -/
def RemovesRead (n₀ : Node) (c c' : CoreInfo Node) : Prop :=
  ∃ before after, c.request = before ++ ⟨.read, n₀⟩ :: after ∧ c'.request = before ++ after

/-- One `READ` entry of `n₀` is removed, and no other but a `WRITE` entry that has come first and is
granted. -/
def Releases (n₀ : Node) (c c' : CoreInfo Node) : Prop :=
  ∃ before after, c.request = before ++ ⟨.read, n₀⟩ :: after ∧
    (c'.request = before ++ after ∨ ∃ q, before ++ after = ⟨.write, q⟩ :: c'.request)

end PageLock
