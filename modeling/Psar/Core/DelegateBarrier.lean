import Psar.Library.Network

/-!
# The barrier of `DELEGATE`

`broadcast_wait_message` as `leave_core` calls it: `DELEGATE_ACK_counter` is raised by `nb_nodees`,
`DELEGATE` is sent to every node of `node_list`, one after the other, and the call returns when the
counter is 0. The nodes handle `DELEGATE` and the node itself handles the `DELEGATE_ACK` messages at
any time. A process leaves the shared memory any number of times: nothing but these functions
touches the counter.

`count` is an `int` whose bits are kept here: only a list of 2^31 nodes would make it overflow.
-/

namespace DelegateBarrier

variable {Node : Type} [DecidableEq Node]

/-- The messages in flight. -/
inductive Msg (Node : Type) where
  /-- `DELEGATE`, to `dest`. -/
  | delegate (dest : Node)
  /-- `DELEGATE_ACK`, from `sender`. -/
  | delegateAck (sender : Node)
  deriving DecidableEq, Repr

/-- Where the application thread is. -/
inductive Thread (Node : Type) where
  | outside
  /-- In the loop of `broadcast_wait_message`; `rest` is the part of the list that is left. -/
  | sending (rest : List Node)
  /-- In `wait_on_counter`. -/
  | waiting
  deriving DecidableEq, Repr

structure State (Node : Type) where
  thread : Thread Node
  /-- `DELEGATE_ACK_counter.count`. -/
  delegateAckCounter : BitVec 32
  msgs : List (Msg Node)
  deriving DecidableEq, Repr

/-- A process at its start: `COUNTER_COND_VAR_INIT`. -/
def initState : State Node := ⟨.outside, 0, []⟩

/-! ## The functions of `counter_cond_var.h` -/

def setCounter (s : State Node) (value : BitVec 32) : State Node :=
  { s with delegateAckCounter := s.delegateAckCounter + value }

def decrCounter (s : State Node) : State Node :=
  { s with delegateAckCounter := s.delegateAckCounter - 1 }

/-! ## Steps -/

inductive Event (Node : Type) where
  /-- The call of `broadcast_wait_message` in `leave_core`, up to `set_counter`. -/
  | broadcastWait (nodeList : List Node) (nbNodees : BitVec 32)
  /-- One turn of the loop. -/
  | sendMessage
  /-- The end of the loop. -/
  | waitOnCounter
  /-- `wait_on_counter` and `broadcast_wait_message` return. -/
  | returned
  /-- `handle_DELEGATE` at the node `n`. -/
  | handleDelegate (n : Node)
  /-- `handle_DELEGATE_ACK` on the message of the node `n`. -/
  | handleDelegateAck (n : Node)
  deriving DecidableEq, Repr

def step (s : State Node) : Event Node → Option (State Node)
  | .broadcastWait nodeList nbNodees =>
    match s.thread with
    | .outside => some { setCounter s nbNodees with thread := .sending nodeList }
    | _ => none
  | .sendMessage =>
    match s.thread with
    | .sending (n :: rest) =>
      some { s with thread := .sending rest, msgs := s.msgs ++ [.delegate n] }
    | _ => none
  | .waitOnCounter =>
    match s.thread with
    | .sending [] => some { s with thread := .waiting }
    | _ => none
  | .returned =>
    match s.thread with
    | .waiting => if s.delegateAckCounter = 0 then some { s with thread := .outside } else none
    | _ => none
  | .handleDelegate n =>
    if .delegate n ∈ s.msgs then
      some { s with msgs := s.msgs.erase (.delegate n) ++ [.delegateAck n] }
    else none
  | .handleDelegateAck n =>
    if .delegateAck n ∈ s.msgs then
      some { decrCounter s with msgs := s.msgs.erase (.delegateAck n) }
    else none

/-- Every call finds `nb_nodees` equal to the length of the list. -/
def Event.Counted : Event Node → Prop
  | .broadcastWait nodeList nbNodees => nbNodees.toNat = nodeList.length
  | _ => True

/-! ## What has been handled -/

/-- The nodes that have handled `DELEGATE`. -/
def delegated : List (Event Node) → List Node
  | [] => []
  | .handleDelegate n :: es => n :: delegated es
  | _ :: es => delegated es

/-- The nodes whose `DELEGATE_ACK` has been handled. -/
def acked : List (Event Node) → List Node
  | [] => []
  | .handleDelegateAck n :: es => n :: acked es
  | _ :: es => acked es

/-! ## The invariant -/

/-- The nodes whose `DELEGATE` is in flight. -/
def delegates (msgs : List (Msg Node)) : List Node :=
  msgs.filterMap fun m => match m with
    | .delegate n => some n
    | _ => none

/-- The nodes whose `DELEGATE_ACK` is in flight. -/
def acks (msgs : List (Msg Node)) : List Node :=
  msgs.filterMap fun m => match m with
    | .delegateAck n => some n
    | _ => none

/-- The part of the list to which `DELEGATE` is still to be sent. -/
def Thread.rest : Thread Node → List Node
  | .sending rest => rest
  | _ => []

/-- During a call on `nodeList`, with the nodes `handled` that have handled `DELEGATE` and the nodes
`answered` whose `DELEGATE_ACK` has been handled. -/
structure During (nodeList handled answered : List Node) (s : State Node) : Prop where
  inside : s.thread ≠ .outside
  sent : (delegates s.msgs ++ handled ++ s.thread.rest).Perm nodeList
  answers : (acks s.msgs ++ answered).Perm handled
  counter : s.delegateAckCounter = BitVec.ofNat 32 nodeList.length - BitVec.ofNat 32 answered.length

/-- Between two calls nothing is in flight. -/
structure Quiet (s : State Node) : Prop where
  thread : s.thread = .outside
  counter : s.delegateAckCounter = 0
  msgs : s.msgs = []

end DelegateBarrier
