import Psar.Library.Network

/-!
# The members of the shared memory

Every node keeps the other members in `node_list`. A node joins through a contact: the contact
announces it to every node of its own list, one after the other, sends it the list and adds it. A
node that leaves informs the new owner of its pages and then every other node of its list, one after
the other. `Peer` holds the list of a node together with the threads that work on it: the handlers
of `JOIN_DSM`, the call of `leave_data_transfer`, and the handlers of `RECV_PAGE_LEAVE` and
`DT_LEAVE` that have sent their acknowledgement. What these functions do to the pages is left out.
-/

namespace Membership

variable {Node : Type} [DecidableEq Node]

/-- The messages. `sender` is the header field that `send_message` fills in. -/
inductive Msg (Node : Type) where
  /-- `JOIN_DSM`. -/
  | joinDSM (dest sender : Node)
  /-- `NEW_NODE`. -/
  | newNode (dest sender newNode : Node)
  /-- `ACK_NODE`. -/
  | ackNode (dest sender : Node)
  /-- `INFO_DSM`: the field `nb_nodes` and the nodes that follow the header. -/
  | infoDSM (dest sender : Node) (nbNodes : ℕ) (nodes : List Node)
  /-- `RECV_PAGE_LEAVE`. -/
  | recvPageLeave (dest sender : Node)
  /-- `DT_LEAVE`. -/
  | dtLeave (dest sender newOwner : Node)
  /-- `ACK_RECV_PAGE`. -/
  | ackRecvPage (dest sender : Node)
  deriving DecidableEq, Repr

/-- The node a message is sent to. -/
def Msg.dest : Msg Node → Node
  | .joinDSM d _ => d
  | .newNode d _ _ => d
  | .ackNode d _ => d
  | .infoDSM d _ _ _ => d
  | .recvPageLeave d _ => d
  | .dtLeave d _ _ => d
  | .ackRecvPage d _ => d

/-- Where a `JOIN_DSM_handler` is. -/
inductive Stage (Node : Type) where
  /-- In `wait_in_dsm`. -/
  | waitInDsm
  /-- In `request_CS`. -/
  | requestCS
  /-- Inside the critical section, before it has taken `umtx`. -/
  | lockUmtx
  /-- In `wait_acked`, with `umtx`; `rest` is the part of the list that is left. -/
  | waitAcked (rest : List Node)
  /-- Has sent `INFO_DSM` and is about to add the new node, with `umtx`. -/
  | adding
  /-- Has given `umtx` back and is about to call `release_CS`. -/
  | releaseCS
  deriving DecidableEq, Repr

/-- A `JOIN_DSM_handler` and the node that joins. -/
structure Handler (Node : Type) where
  joiner : Node
  stage : Stage Node
  deriving DecidableEq, Repr

/-- Where `leave_data_transfer` is. -/
inductive Leave (Node : Type) where
  /-- Waits for the acknowledgement of the new owner. -/
  | waitOwner (newOwner : Node)
  /-- Waits for the acknowledgement of `n`, with `umtx`; `rest` is the part of the list that is
  left. -/
  | waitNode (newOwner n : Node) (rest : List Node)
  /-- Has returned. -/
  | returned
  deriving DecidableEq, Repr

/-- The state of one node. -/
structure Peer (Node : Type) where
  /-- `node_list`, from its head. -/
  nodeList : List Node
  /-- `nb_nodees`. -/
  nbNodees : ℕ
  /-- `in_dsm`; the handlers of the pages are registered before it is set. -/
  inDsm : Bool
  acked : Bool
  /-- `dt_cv.predicate`. -/
  dtCv : Bool
  /-- The handlers of `JOIN_DSM` that run. -/
  handlers : List (Handler Node)
  /-- The call of `leave_data_transfer`, if there is one. -/
  leave : Option (Leave Node)
  /-- The handlers of `RECV_PAGE_LEAVE` and `DT_LEAVE` that are about to call `remove_node`: the
  node that leaves, and whether the handler takes `umtx`. -/
  removing : List (Node × Bool)
  deriving DecidableEq, Repr

/-! ## The list -/

/-- `add_to_nodes`. -/
def addToNodes (p : Peer Node) (n : Node) : Peer Node :=
  { p with nodeList := n :: p.nodeList, nbNodees := p.nbNodees + 1 }

/-- `remove_node`. -/
def removeNode (p : Peer Node) (n : Node) : Peer Node :=
  if n ∈ p.nodeList then
    { p with nodeList := p.nodeList.erase n, nbNodees := p.nbNodees - 1 }
  else p

/-- The handlers that hold `umtx`. -/
def Handler.busy (h : Handler Node) : Bool :=
  match h.stage with
  | .waitAcked _ => true
  | .adding => true
  | _ => false

/-- Nobody at the node holds `umtx`. -/
def umtxFree (p : Peer Node) : Bool :=
  !p.handlers.any Handler.busy && match p.leave with
    | some (.waitNode _ _ _) => false
    | _ => true

/-! ## Joining -/

/-- The loop of `JOIN_DSM_handler` over the nodes that are left, up to its next wait; after the last
one `INFO_DSM` is sent. -/
def newNodeLoop (me : Node) (p : Peer Node) (joiner : Node) :
    List Node → Peer Node × List (Msg Node)
  | [] =>
    ({ p with handlers := ⟨joiner, .adding⟩ :: p.handlers },
      [.infoDSM joiner me p.nbNodees p.nodeList])
  | n :: rest =>
    ({ p with handlers := ⟨joiner, .waitAcked rest⟩ :: p.handlers }, [.newNode n me joiner])

/-- A handler of `JOIN_DSM` goes on from where it is, up to its next wait. -/
def joinDSMHandler (me : Node) (p : Peer Node) (h : Handler Node) :
    Option (Peer Node × List (Msg Node)) :=
  let q := { p with handlers := p.handlers.erase h }
  match h.stage with
  | .waitInDsm =>
    if p.inDsm then some ({ q with handlers := ⟨h.joiner, .requestCS⟩ :: q.handlers }, []) else none
  | .requestCS => some ({ q with handlers := ⟨h.joiner, .lockUmtx⟩ :: q.handlers }, [])
  | .lockUmtx => if umtxFree p then some (newNodeLoop me q h.joiner p.nodeList) else none
  | .waitAcked rest =>
    if p.acked then some (newNodeLoop me { q with acked := false } h.joiner rest) else none
  | .adding =>
    some (addToNodes { q with handlers := ⟨h.joiner, .releaseCS⟩ :: q.handlers } h.joiner, [])
  | .releaseCS => some (q, [])

/-- `NEW_NODE_handler`. -/
def newNodeHandler (me : Node) (p : Peer Node) (sender newNode : Node) :
    Option (Peer Node × List (Msg Node)) :=
  if umtxFree p then some (addToNodes p newNode, [.ackNode sender me]) else none

/-- `ACK_NODE_handler`. -/
def ackNodeHandler (p : Peer Node) : Peer Node :=
  { p with acked := true }

/-- `INFO_DSM_handler`; `init_data_transfer` sets `dt_cv.predicate`. -/
def infoDSMHandler (p : Peer Node) (nbNodes : ℕ) (nodes : List Node) : Option (Peer Node) :=
  if umtxFree p then
    some { (nodes.take nbNodes).foldl addToNodes p with inDsm := true, dtCv := true }
  else none

/-- `join_DSM`, up to its wait. -/
def joinDSM (me contact : Node) : Peer Node × List (Msg Node) :=
  (addToNodes ⟨[], 0, false, false, false, [], none, []⟩ contact, [.joinDSM contact me])

/-- The node after `Init_DSM`. -/
def initDSM : Peer Node := ⟨[], 0, true, false, true, [], none, []⟩

/-! ## Leaving -/

/-- The loop of `leave_data_transfer` over the nodes that are left, up to its next wait or its
return. -/
def dtLeaveLoop (me : Node) (p : Peer Node) (newOwner : Node) :
    List Node → Peer Node × List (Msg Node)
  | [] => ({ p with leave := some .returned }, [])
  | n :: rest =>
    if n = newOwner then dtLeaveLoop me p newOwner rest
    else
      ({ p with dtCv := false, leave := some (.waitNode newOwner n rest) },
        [.dtLeave n me newOwner])

/-- `leave_data_transfer`, up to its first wait. -/
def leaveDataTransfer (me : Node) (p : Peer Node) (newOwner : Node) :
    Option (Peer Node × List (Msg Node)) :=
  if p.inDsm ∧ p.leave = none then
    some ({ p with dtCv := false, leave := some (.waitOwner newOwner) },
      [.recvPageLeave newOwner me])
  else none

/-- `leave_data_transfer` goes on after an acknowledgement, up to its next wait or its return. -/
def leaveResume (me : Node) (p : Peer Node) : Option (Peer Node × List (Msg Node)) :=
  match p.leave with
  | some (.waitOwner newOwner) =>
    if p.dtCv ∧ umtxFree p then
      some (dtLeaveLoop me { p with dtCv := false } newOwner p.nodeList)
    else none
  | some (.waitNode newOwner _ rest) =>
    if p.dtCv then some (dtLeaveLoop me { p with dtCv := false } newOwner rest) else none
  | _ => none

/-- `RECV_PAGE_LEAVE_handler` and `DT_LEAVE_handler`, up to the acknowledgement; they are registered
by `INFO_DSM_handler`, and the second one takes `umtx` for `remove_node`. -/
def leaveHandler (me : Node) (p : Peer Node) (sender : Node) (locks : Bool) :
    Peer Node × List (Msg Node) :=
  if p.inDsm then
    ({ p with removing := (sender, locks) :: p.removing }, [.ackRecvPage sender me])
  else (p, [])

/-- The end of `RECV_PAGE_LEAVE_handler` and `DT_LEAVE_handler`. -/
def removeLeaver (p : Peer Node) (x : Node × Bool) : Option (Peer Node) :=
  if x ∈ p.removing ∧ (x.2 → umtxFree p) then
    some (removeNode { p with removing := p.removing.erase x } x.1)
  else none

/-- `ACK_RECV_PAGE_handler`. -/
def ackRecvPageHandler (p : Peer Node) : Peer Node :=
  { p with dtCv := true }

/-! ## The nodes together -/

/-- What a node does on its own. -/
inductive Action (Node : Type) where
  | joinDSM (contact : Node)
  /-- A handler of `JOIN_DSM` goes on. -/
  | resume (h : Handler Node)
  | leaveDataTransfer (newOwner : Node)
  /-- `leave_data_transfer` goes on. -/
  | leaveResume
  /-- A handler of `RECV_PAGE_LEAVE` or `DT_LEAVE` removes the leaver. -/
  | removeLeaver (x : Node × Bool)
  deriving DecidableEq, Repr

/-- A node that has started goes on. -/
def started (r : Peer Node × List (Msg Node)) : Option (Peer Node) × List (Msg Node) :=
  (some r.1, r.2)

/-- What the threads of a node that has started do. -/
def peerAct (me : Node) (p : Peer Node) : Action Node → Option (Peer Node × List (Msg Node))
  | .joinDSM _ => none
  | .resume h => if h ∈ p.handlers then joinDSMHandler me p h else none
  | .leaveDataTransfer newOwner => leaveDataTransfer me p newOwner
  | .leaveResume => leaveResume me p
  | .removeLeaver x => (removeLeaver p x).map fun p => (p, [])

/-- What a node does on its own; a node that has not started is `none`. -/
def act (me : Node) :
    Option (Peer Node) → Action Node → Option (Option (Peer Node) × List (Msg Node))
  | none, .joinDSM contact => some (started (joinDSM me contact))
  | none, _ => none
  | some p, a => (peerAct me p a).map started

/-- The handler of one message. -/
def peerHandle (me : Node) (p : Peer Node) : Msg Node → Option (Peer Node × List (Msg Node))
  | .joinDSM _ sender => some ({ p with handlers := ⟨sender, .waitInDsm⟩ :: p.handlers }, [])
  | .newNode _ sender newNode => newNodeHandler me p sender newNode
  | .ackNode _ _ => some (ackNodeHandler p, [])
  | .infoDSM _ _ nbNodes nodes => (infoDSMHandler p nbNodes nodes).map fun p => (p, [])
  | .recvPageLeave _ sender => some (leaveHandler me p sender false)
  | .dtLeave _ sender _ => some (leaveHandler me p sender true)
  | .ackRecvPage _ _ => some (ackRecvPageHandler p, [])

/-- The members and those that join. -/
def protocol : Network.Protocol Node (Option (Peer Node)) (Msg Node) (Action Node) where
  dest := Msg.dest
  act := act
  handle me p m := p.bind fun p => (peerHandle me p m).map started

/-- The nodes that have started and the messages in flight. -/
abbrev Net (Node : Type) := Network.Net Node (Option (Peer Node)) (Msg Node)

/-- A step of the members. -/
abbrev Event (Node : Type) := Network.Event Node (Msg Node) (Action Node)

/-- One step of the members. -/
def step : Net Node → Event Node → Option (Net Node) := Network.step protocol

/-- One node after `Init_DSM`. -/
def initNet (first : Node) : Net Node :=
  ⟨fun i => if i = first then some initDSM else none, []⟩

/-! ## Which steps are considered -/

/-- The handler is between `request_CS` and `release_CS`. -/
def Handler.inside (h : Handler Node) : Bool :=
  match h.stage with
  | .waitInDsm => false
  | .requestCS => false
  | _ => true

/-- The node has a thread in the critical section; `leave_DSM` is inside while it leaves. -/
def inCS (p : Peer Node) : Bool :=
  p.handlers.any Handler.inside || p.leave.isSome

/-- A node joins through a node that has started, and a thread enters the critical section only
while no other node has one inside. -/
def stepOk [Fintype Node] (s : Net Node) : Event Node → Prop
  | .act _ (.joinDSM contact) => (s.node contact).isSome
  | .act i (.resume h) => h.stage = .requestCS → ∀ j, j ≠ i → (s.node j).all fun p => !inCS p
  | .act i (.leaveDataTransfer _) => ∀ j, j ≠ i → (s.node j).all fun p => !inCS p
  | _ => True

instance decidableStepOk [Fintype Node] (s : Net Node) : ∀ e, Decidable (stepOk s e)
  | .act _ (.joinDSM contact) => inferInstanceAs (Decidable ((s.node contact).isSome = true))
  | .act i (.resume h) => inferInstanceAs (Decidable (h.stage = .requestCS →
      ∀ j, j ≠ i → ((s.node j).all fun p => !inCS p) = true))
  | .act i (.leaveDataTransfer _) => inferInstanceAs (Decidable
      (∀ j, j ≠ i → ((s.node j).all fun p => !inCS p) = true))
  | .act _ .leaveResume => isTrue trivial
  | .act _ (.removeLeaver _) => isTrue trivial
  | .deliver _ => isTrue trivial

/-- No call of `leave_data_transfer`. -/
def noLeave : Event Node → Bool
  | .act _ (.leaveDataTransfer _) => false
  | _ => true

end Membership
