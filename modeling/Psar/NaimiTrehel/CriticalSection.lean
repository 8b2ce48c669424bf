import Psar.Library.Network

/-!
# The critical section of `Naimi_Trehel.c`

The nodes share one token. A node that wants it sends a request along its `father` pointer, and the
request is passed on from father to father until it meets a node without one. `Peer` holds the
static variables of the file together with the threads of the node that are in a call; every section
under `nt_mtx` is one step. `EMPTY_NODE` is `none`.
-/

namespace NaimiTrehel

variable {Node : Type} [DecidableEq Node]

/-- The messages. `sender` is the header field that `send_message` fills in. -/
inductive Msg (Node : Type) where
  /-- `REQUEST_CS`. -/
  | requestCS (dest sender requester : Node)
  /-- `GET_CS`: the token. -/
  | getCS (dest sender : Node)
  /-- `NEW_ROOT_CS`. -/
  | newRootCS (dest sender : Node)
  /-- `RESET_CS`. -/
  | resetCS (dest sender : Node)
  /-- `ACK_CS`. -/
  | ackCS (dest sender : Node)
  /-- `LEAVE_CS`. -/
  | leaveCS (dest sender : Node)
  deriving DecidableEq, Repr

/-- The node a message is sent to. -/
def Msg.dest : Msg Node → Node
  | .requestCS d _ _ => d
  | .getCS d _ => d
  | .newRootCS d _ => d
  | .resetCS d _ => d
  | .ackCS d _ => d
  | .leaveCS d _ => d

/-- A `NEW_ROOT_CS_handler` that waits for an acknowledgement: the node that leaves, and the nodes
to which `RESET_CS` is still to be sent. -/
structure Reset (Node : Type) where
  leaver : Node
  rest : List Node
  deriving DecidableEq, Repr

/-- The state of one node. -/
structure Peer (Node : Type) where
  token : Bool
  requesting : Bool
  leaving : Bool
  acked : Bool
  users : ℕ
  father : Option Node
  next : Option Node
  /-- The number of threads in the waiting loop of `request_CS`. -/
  waiting : ℕ
  /-- The number of threads that have returned from `request_CS` and have called neither
  `release_CS` nor `leave_CS` since. -/
  inside : ℕ
  /-- The handlers of `NEW_ROOT_CS` that wait for an acknowledgement. -/
  resetting : List (Reset Node)
  deriving DecidableEq, Repr

/-! ## Requesting and releasing -/

/-- `send_request_to_father`, when the father is `f`. -/
def sendRequestToFather (me : Node) (p : Peer Node) (f requester : Node) :
    Peer Node × List (Msg Node) :=
  ({ p with father := none }, [.requestCS f me requester])

/-- `REQUEST_CS_handler`. -/
def requestCSHandler (me : Node) (p : Peer Node) (requester : Node) : Peer Node × List (Msg Node) :=
  if p.leaving then (p, [])
  else
    let r : Peer Node × List (Msg Node) := match p.father with
      | none =>
        if p.requesting then ({ p with next := some requester }, [])
        else ({ p with token := false }, [.getCS requester me])
      | some f => sendRequestToFather me p f requester
    ({ r.1 with father := some requester }, r.2)

/-- `GET_CS_handler`; the broadcast lets the waiting threads test `token` again. -/
def getCSHandler (p : Peer Node) : Peer Node :=
  { p with token := true }

/-- `request_CS`, up to its return or its first wait. -/
def requestCS (me : Node) (p : Peer Node) : Peer Node × List (Msg Node) :=
  let p := { p with requesting := true }
  if p.token then ({ p with users := p.users + 1, inside := p.inside + 1 }, [])
  else
    let r : Peer Node × List (Msg Node) := match p.father with
      | some f => sendRequestToFather me p f me
      | none => (p, [])
    ({ r.1 with waiting := r.1.waiting + 1 }, r.2)

/-- A thread in the waiting loop of `request_CS` finds `token` set and returns. -/
def wake (p : Peer Node) : Option (Peer Node) :=
  if 0 < p.waiting ∧ p.token then
    some { p with users := p.users + 1, waiting := p.waiting - 1, inside := p.inside + 1 }
  else none

/-- `release_CS`, called by a thread that is inside. -/
def releaseCS (me : Node) (p : Peer Node) : Option (Peer Node × List (Msg Node)) :=
  if 0 < p.inside then
    let p := { p with users := p.users - 1, inside := p.inside - 1 }
    if p.users = 0 then
      let p := { p with requesting := false }
      match p.next with
      | some n => some ({ p with token := false, next := none }, [.getCS n me])
      | none => some (p, [])
    else some (p, [])
  else none

/-! ## Leaving -/

/-- `init_internal_data`. -/
def initInternalData (p : Peer Node) (father : Option Node) (token requesting : Bool) : Peer Node :=
  { p with
    token := token
    requesting := requesting
    leaving := false
    acked := false
    father := father
    next := none }

/-- `ACK_CS_handler`. -/
def ackCSHandler (p : Peer Node) : Peer Node :=
  { p with acked := true }

/-- `RESET_CS_handler`. -/
def resetCSHandler (me : Node) (p : Peer Node) (sender : Node) : Peer Node × List (Msg Node) :=
  let p := initInternalData p (some sender) false p.requesting
  if p.requesting then
    let r := sendRequestToFather me p sender me
    (r.1, .ackCS sender me :: r.2)
  else (p, [.ackCS sender me])

/-- The loop of `NEW_ROOT_CS_handler` over the nodes that are still to be reset, up to its end or
its next wait. -/
def resetLoop (me : Node) (p : Peer Node) (leaver : Node) : List Node → Peer Node × List (Msg Node)
  | [] => (p, [.leaveCS leaver me])
  | n :: rest =>
    if p.acked then
      let r := resetLoop me p leaver rest
      (r.1, .resetCS n me :: r.2)
    else ({ p with resetting := ⟨leaver, rest⟩ :: p.resetting }, [.resetCS n me])

/-- `NEW_ROOT_CS_handler`, up to its end or its first wait; `nodeList` is the `node_list` of the
node. -/
def newRootCSHandler (me : Node) (nodeList : List Node) (p : Peer Node) (sender : Node) :
    Peer Node × List (Msg Node) :=
  resetLoop me (initInternalData p none true p.requesting) sender nodeList

/-- `LEAVE_CS_handler`. -/
def leaveCSHandler (p : Peer Node) : Peer Node :=
  { p with leaving := false }

/-- `leave_CS`, called by a thread that is inside. Once `leaving` is set, `next` does not change
until it is read. -/
def leaveCS (me : Node) (p : Peer Node) (newRoot : Node) : Option (Peer Node × List (Msg Node)) :=
  if 0 < p.inside then
    some ({ p with leaving := true, inside := p.inside - 1 }, [.newRootCS (p.next.getD newRoot) me])
  else none

/-! ## The nodes together -/

/-- What the threads of a node do. -/
inductive Action (Node : Type) where
  | requestCS
  | wake
  | releaseCS
  | leaveCS (newRoot : Node)
  /-- A handler of `NEW_ROOT_CS` finds `acked` set and goes on. -/
  | resumeReset (r : Reset Node)
  deriving DecidableEq, Repr

/-- What the threads of a node do. -/
def act (me : Node) (p : Peer Node) : Action Node → Option (Peer Node × List (Msg Node))
  | .requestCS => some (requestCS me p)
  | .wake => (wake p).map fun p => (p, [])
  | .releaseCS => releaseCS me p
  | .leaveCS newRoot => leaveCS me p newRoot
  | .resumeReset r =>
    if r ∈ p.resetting ∧ p.acked then
      some (resetLoop me { p with resetting := p.resetting.erase r } r.leaver r.rest)
    else none

/-- The handler of one message. -/
def handle (nodeList : Node → List Node) (me : Node) (p : Peer Node) :
    Msg Node → Option (Peer Node × List (Msg Node))
  | .requestCS _ _ requester => some (requestCSHandler me p requester)
  | .getCS _ _ => some (getCSHandler p, [])
  | .newRootCS _ sender => some (newRootCSHandler me (nodeList me) p sender)
  | .resetCS _ sender => some (resetCSHandler me p sender)
  | .ackCS _ _ => some (ackCSHandler p, [])
  | .leaveCS _ _ => some (leaveCSHandler p, [])

/-- The nodes of the critical section; `nodeList n` is the `node_list` of `n`. -/
def protocol (nodeList : Node → List Node) :
    Network.Protocol Node (Peer Node) (Msg Node) (Action Node) where
  dest := Msg.dest
  act := act
  handle := handle nodeList

/-- The nodes and the messages in flight. -/
abbrev Net (Node : Type) := Network.Net Node (Peer Node) (Msg Node)

/-- A step of the critical section. -/
abbrev Event (Node : Type) := Network.Event Node (Msg Node) (Action Node)

/-- One step of the critical section. -/
def step (nodeList : Node → List Node) : Net Node → Event Node → Option (Net Node) :=
  Network.step (protocol nodeList)

/-- A node after `init_CS`. -/
def initCS (father : Option Node) (token requesting : Bool) : Peer Node where
  token := token
  requesting := requesting
  leaving := false
  acked := false
  users := 0
  father := father
  next := none
  waiting := 0
  inside := 0
  resetting := []

/-- All nodes after `init_CS`: a node whose pointer `f` is itself has the token and no father. -/
def initNet (f : Node → Node) : Net Node :=
  ⟨fun i => if f i = i then initCS none true false else initCS (some (f i)) false false, []⟩

end NaimiTrehel
