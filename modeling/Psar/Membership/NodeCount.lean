import Psar.Membership.InfoDSM
import Psar.Membership.NodeList

/-!
# The counter of the members

`nb_nodees` next to `node_list` (`init_nodes`, `add_to_nodes`, `remove_node` and `free_nodes` in
`utils.c`), over the lifetimes of the shared memory in one process, and `leave_last`, which waits
for a value of the counter.
-/

namespace NodeCount

variable {Node : Type} [DecidableEq Node]

structure State (Node : Type) where
  /-- `node_list`, from its head. After `free_nodes` the entries are gone, and `init_nodes` is the
  next call. -/
  nodeList : List Node
  /-- `nb_nodees`, an `unsigned int`. -/
  nbNodees : BitVec 32
  /-- `leave_all`. -/
  leaveAll : Bool
  /-- `cv2.predicate`. -/
  cv2 : Bool
  deriving DecidableEq, Repr

/-- The globals of a process. -/
def initState : State Node := ⟨[], 0, false, false⟩

/-! ## The functions of `utils.c` -/

def initNodes (s : State Node) : State Node := { s with nodeList := [] }

def addToNodes (s : State Node) (n : Node) : State Node :=
  { s with nodeList := n :: s.nodeList, nbNodees := s.nbNodees + 1 }

def removeNode (s : State Node) (n : Node) : State Node :=
  if n ∈ s.nodeList then
    let s := { s with nodeList := s.nodeList.erase n, nbNodees := s.nbNodees - 1 }
    if s.nbNodees = 1 ∧ s.leaveAll then { s with cv2 := true } else s
  else s

/-! ## Lifetimes -/

inductive Event (Node : Type) where
  /-- `Init_DSM` and `join_DSM`, up to `init_nodes`. -/
  | initNodes
  /-- `add_to_nodes`: in `join_DSM`, and in the handlers. -/
  | addToNodes (n : Node)
  /-- `remove_node`, in the handlers of the messages of a node that leaves. -/
  | removeNode (n : Node)
  /-- `leave_DSM` on an empty list, which frees nothing. -/
  | leaveLast
  /-- `free_nodes`: in `leave_DSM` on a list with entries, and in a `join_DSM` that fails. -/
  | freeNodes
  deriving DecidableEq, Repr

/-- A process; `inside` from `init_nodes` until the node leaves. -/
structure Process (Node : Type) where
  inside : Bool
  globals : State Node
  deriving DecidableEq, Repr

def step (p : Process Node) : Event Node → Option (Process Node)
  | .initNodes =>
    if p.inside then none else some ⟨true, initNodes { p.globals with cv2 := false }⟩
  | .addToNodes n => if p.inside then some { p with globals := addToNodes p.globals n } else none
  | .removeNode n => if p.inside then some { p with globals := removeNode p.globals n } else none
  | .leaveLast =>
    if p.inside ∧ p.globals.nodeList = [] then some { p with inside := false } else none
  | .freeNodes => if p.inside then some { p with inside := false } else none

def initProcess : Process Node := ⟨false, initState⟩

/-- The calls behind which the counter is compared with the list. -/
def Event.counted : Event Node → Bool
  | .initNodes | .addToNodes _ | .removeNode _ => true
  | _ => false

/-- The counter is the number of entries of the list. -/
def State.Matches (s : State Node) : Prop := s.nbNodees.toNat = s.nodeList.length

/-- The counter is the number of entries behind every call of the run that is compared. -/
def AlwaysMatches (es : List (Event Node)) : Prop :=
  ∀ es₁ e, es₁ ++ [e] <+: es → e.counted →
    ∀ p, Network.run step initProcess (es₁ ++ [e]) = some p → p.globals.Matches

/-- The list of the last lifetime was empty at its end, and an `unsigned int` can count the list. -/
def clean (p : Process Node) : Event Node → Prop
  | .initNodes => p.globals.nodeList = []
  | .addToNodes _ => p.globals.nodeList.length + 1 < 2 ^ 32
  | _ => True

instance (p : Process Node) : ∀ e, Decidable (clean p e)
  | .initNodes => inferInstanceAs (Decidable (p.globals.nodeList = []))
  | .addToNodes _ => inferInstanceAs (Decidable (p.globals.nodeList.length + 1 < 2 ^ 32))
  | .removeNode _ => isTrue trivial
  | .leaveLast => isTrue trivial
  | .freeNodes => isTrue trivial

/-! ## `leave_last` -/

/-- `leave_last` up to its loop, in the first lifetime in which it is called. -/
def leaveLast (s : State Node) : State Node := { s with leaveAll := true }

/-- `leave_last` goes on to `leave_DSM`. -/
def State.GoesOn (s : State Node) : Prop := s.cv2 = true

/-- A node comes or goes while `leave_last` waits. -/
def waitStep (s : State Node) (e : Event Node) : Option (State Node) :=
  if s.cv2 then none
  else
    match e with
    | .addToNodes n => some (addToNodes s n)
    | .removeNode n => some (removeNode s n)
    | _ => none

/-- `leave_last` goes on if the list is empty, and waits if it is not. -/
def Exact (s : State Node) : Prop := s.GoesOn ↔ s.nodeList = []

/-- The node that goes does not leave an empty list behind, nor one that is counted as 1. -/
def leavesMore (s : State Node) : Event Node → Prop
  | .removeNode n => n ∈ s.nodeList →
      s.nodeList.length ≠ 1 ∧ (s.nodeList.length - 1) % 2 ^ 32 ≠ 1
  | _ => True

/-- A process whose list is `nodeList`, before it calls `leave_last`. -/
def memberOf (nodeList : List Node) : State Node :=
  ⟨nodeList, BitVec.ofNat 32 nodeList.length, false, false⟩

/-- `leave_last` waits, and the counter is that of the list. -/
structure Waits (s : State Node) : Prop where
  count : s.nbNodees = BitVec.ofNat 32 s.nodeList.length
  leaveAll : s.leaveAll = true
  cv2 : s.cv2 = false

/-! ## The list in `Membership` and in `InfoDSM` -/

/-- The list and the counter of a member, before it calls `leave_last`. -/
def ofPeer (p : Membership.Peer Node) : State Node :=
  ⟨p.nodeList, BitVec.ofNat 32 p.nbNodees, false, false⟩

/-- The list and the counter of a node that handles `INFO_DSM`. -/
def ofJoiner (j : InfoDSM.Joiner) : State SendState.NodeId :=
  ⟨j.nodeList, j.nbNodees, false, false⟩

end NodeCount
