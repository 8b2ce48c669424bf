import Psar.NaimiTrehel.Leave

/-!
# Nodes that join the critical section

A node joins with `init_CS(contact, 0, 0)`: its father is a node that is already there. `JoinNet`
holds a state for every node that has started; a node that has not is `none`. A run with joins is a
run of the nodes together in which every node that joins later has pointed to its contact from the
start (`view`): until it joins, nobody knows it.
-/

namespace NaimiTrehel

variable {Node : Type} [DecidableEq Node]

/-- What a node does: it joins, or one of its threads acts. -/
inductive JoinAction (Node : Type) where
  /-- `init_CS(contact, 0, 0)` in `join_DSM`. -/
  | join (contact : Node)
  | thread (a : Action Node)
  deriving DecidableEq, Repr

/-- A node that has started goes on as before. -/
def started (r : Peer Node × List (Msg Node)) : Option (Peer Node) × List (Msg Node) :=
  (some r.1, r.2)

/-- What a node does. -/
def joinAct (me : Node) :
    Option (Peer Node) → JoinAction Node → Option (Option (Peer Node) × List (Msg Node))
  | none, .join contact => some (some (initCS (some contact) false false), [])
  | some p, .thread a => (act me p a).map started
  | _, _ => none

/-- The nodes of the critical section, with joins. -/
def joinProtocol (nodeList : Node → List Node) :
    Network.Protocol Node (Option (Peer Node)) (Msg Node) (JoinAction Node) where
  dest := Msg.dest
  act := joinAct
  handle me p m := p.bind fun p => (handle nodeList me p m).map started

/-- The nodes that have started and the messages in flight. -/
abbrev JoinNet (Node : Type) := Network.Net Node (Option (Peer Node)) (Msg Node)

/-- A step with joins. -/
abbrev JoinEvent (Node : Type) := Network.Event Node (Msg Node) (JoinAction Node)

/-- One step with joins. -/
def joinStep (nodeList : Node → List Node) : JoinNet Node → JoinEvent Node → Option (JoinNet Node) :=
  Network.step (joinProtocol nodeList)

/-- The nodes of `first` after `init_CS`: the one whose pointer is itself has the token. -/
def joinNet (first : Finset Node) (f : Node → Node) : JoinNet Node :=
  ⟨fun i => if i ∈ first then some ((initNet f).node i) else none, []⟩

/-- The fathers of the nodes of `first` are among them and lead to `root`. -/
structure Start (first : Finset Node) (f : Node → Node) (root : Node) : Prop where
  closed : ∀ i ∈ first, f i ∈ first
  root : Pointers.Root f (· ∈ first) root

/-! ## Which steps are considered -/

/-- A thread calls `request_CS` only while no other thread of the node is between `request_CS` and
`release_CS`. -/
def oneThread (s : Net Node) : Event Node → Bool
  | .act i .requestCS => (s.node i).waiting = 0 && (s.node i).inside = 0
  | _ => true

/-- The step of the nodes together; a join is none. -/
def plain : JoinEvent Node → Option (Event Node)
  | .act i (.thread a) => some (.act i a)
  | .act _ (.join _) => none
  | .deliver m => some (.deliver m)

/-- The nodes together, as if a node that joins later had been there from the start, with the father
`G i`. -/
def view (G : Node → Node) (s : JoinNet Node) : Net Node :=
  ⟨fun i => (s.node i).getD (initCS (some (G i)) false false), s.msgs⟩

/-- The steps considered: joins through nodes that have started, at most one thread of a node
between `request_CS` and `release_CS`, and no leave. -/
def joinOk (s : JoinNet Node) : JoinEvent Node → Bool
  | .act _ (.join contact) => (s.node contact).isSome
  | .act i (.thread .requestCS) =>
    (s.node i).all fun p => p.waiting = 0 && p.inside = 0
  | .act _ (.thread (.leaveCS _)) => false
  | _ => true

/-! ## What is counted -/

/-- The number of nodes that have the token. -/
def tokens [Fintype Node] (s : JoinNet Node) : ℕ :=
  (Finset.univ.filter fun i => (s.node i).any Peer.token).card

/-- The number of `GET_CS` in flight. -/
def tokensInFlight (s : JoinNet Node) : ℕ :=
  s.msgs.countP fun m => match m with
    | .getCS _ _ => true
    | _ => false

/-- The invariant of runs with one thread per node: `requesting` is set exactly while the node has a
thread between `request_CS` and `release_CS`. -/
structure OneInv [Fintype Node] (s : Net Node) : Prop extends Inv s where
  single : ∀ i, (s.node i).waiting + (s.node i).inside = (s.node i).requesting.toNat

end NaimiTrehel
