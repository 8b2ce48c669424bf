import Psar.Membership.Join
import Psar.NaimiTrehel.Exclusion
import Psar.Library.Simulation

/-!
# Joining over the critical section

In `Membership` a handler of `JOIN_DSM` enters the critical section at any time, and that
`request_CS` keeps different nodes apart is a condition on runs. Here `request_CS` and `release_CS`
are those of `Naimi_Trehel.c`, with the messages of both in flight: a node that joins takes its
contact for its father, and the handlers of `JOIN_DSM` at one node use its entry of the critical
section together. Nobody leaves.
-/

namespace Joining

open Membership (Handler Stage)

variable {Node : Type} [DecidableEq Node]

/-! ## One node -/

/-- A node: its members with the handlers of `JOIN_DSM`, and its entry of the critical section. -/
structure Peer (Node : Type) where
  member : Membership.Peer Node
  cs : NaimiTrehel.Peer Node
  /-- The nodes for which a handler of `JOIN_DSM` is in the waiting loop of `request_CS`. -/
  inLoop : List Node
  deriving DecidableEq, Repr

inductive Msg (Node : Type) where
  | member (m : Membership.Msg Node)
  | cs (m : NaimiTrehel.Msg Node)
  deriving DecidableEq, Repr

def Msg.dest : Msg Node → Node
  | .member m => m.dest
  | .cs m => m.dest

/-- A handler of `JOIN_DSM` goes on, with the result `r` of its call in `Naimi_Trehel.c`. -/
def goOn (me : Node) (p : Peer Node) (h : Handler Node)
    (r : NaimiTrehel.Peer Node × List (NaimiTrehel.Msg Node)) :
    Option (Peer Node × List (Msg Node)) :=
  (Membership.peerAct me p.member (.resume h)).map fun m =>
    ({ p with member := m.1, cs := r.1 }, m.2.map .member ++ r.2.map .cs)

/-- `JOIN_DSM_handler` in `request_CS`, up to its return or its first wait. -/
def requestCS (me : Node) (p : Peer Node) (joiner : Node) : Option (Peer Node × List (Msg Node)) :=
  if p.inLoop.count joiner < p.member.handlers.count ⟨joiner, .requestCS⟩ then
    let r := NaimiTrehel.requestCS me p.cs
    if p.cs.token then goOn me p ⟨joiner, .requestCS⟩ r
    else some ({ p with cs := r.1, inLoop := joiner :: p.inLoop }, r.2.map .cs)
  else none

/-- `JOIN_DSM_handler` in `request_CS`, the exit of the waiting loop. -/
def wake (me : Node) (p : Peer Node) (joiner : Node) : Option (Peer Node × List (Msg Node)) :=
  if joiner ∈ p.inLoop then
    (NaimiTrehel.wake p.cs).bind fun cs =>
      goOn me { p with inLoop := p.inLoop.erase joiner } ⟨joiner, .requestCS⟩ (cs, [])
  else none

/-- `JOIN_DSM_handler` in `release_CS`. -/
def releaseCS (me : Node) (p : Peer Node) (joiner : Node) : Option (Peer Node × List (Msg Node)) :=
  (NaimiTrehel.releaseCS me p.cs).bind fun r => goOn me p ⟨joiner, .releaseCS⟩ r

/-! ## The nodes together -/

inductive Action (Node : Type) where
  | joinDSM (contact : Node)
  /-- A handler of `JOIN_DSM` goes on, outside `request_CS` and `release_CS`. -/
  | resume (h : Handler Node)
  /-- The handler of `JOIN_DSM` for the node calls `request_CS`. -/
  | requestCS (joiner : Node)
  | wake (joiner : Node)
  | releaseCS (joiner : Node)
  deriving DecidableEq, Repr

/-- The threads of a node that has started. -/
def peerAct (me : Node) (p : Peer Node) : Action Node → Option (Peer Node × List (Msg Node))
  | .joinDSM _ => none
  | .resume h =>
    if h.stage = .requestCS ∨ h.stage = .releaseCS then none else goOn me p h (p.cs, [])
  | .requestCS joiner => requestCS me p joiner
  | .wake joiner => wake me p joiner
  | .releaseCS joiner => releaseCS me p joiner

/-- `join_DSM`: `add_to_nodes`, `init_CS` and the `JOIN_DSM`. -/
def joinDSM (me contact : Node) : Peer Node × List (Msg Node) :=
  let r := Membership.joinDSM me contact
  (⟨r.1, NaimiTrehel.initCS (some contact) false false, []⟩, r.2.map .member)

def started (r : Peer Node × List (Msg Node)) : Option (Peer Node) × List (Msg Node) :=
  (some r.1, r.2)

def act (me : Node) :
    Option (Peer Node) → Action Node → Option (Option (Peer Node) × List (Msg Node))
  | none, .joinDSM contact => some (started (joinDSM me contact))
  | none, _ => none
  | some p, a => (peerAct me p a).map started

/-- The handler of one message. -/
def peerHandle (me : Node) (p : Peer Node) : Msg Node → Option (Peer Node × List (Msg Node))
  | .member m =>
    (Membership.peerHandle me p.member m).map fun r => ({ p with member := r.1 }, r.2.map .member)
  | .cs m =>
    (NaimiTrehel.handle (fun _ => p.member.nodeList) me p.cs m).map fun r =>
      ({ p with cs := r.1 }, r.2.map .cs)

def protocol : Network.Protocol Node (Option (Peer Node)) (Msg Node) (Action Node) where
  dest := Msg.dest
  act := act
  handle me p m := p.bind fun p => (peerHandle me p m).map started

/-- The nodes that have started and the messages in flight. -/
abbrev Net (Node : Type) := Network.Net Node (Option (Peer Node)) (Msg Node)

abbrev Event (Node : Type) := Network.Event Node (Msg Node) (Action Node)

def step : Net Node → Event Node → Option (Net Node) := Network.step protocol

/-- One node after `Init_DSM`, which has the token. -/
def initNet (first : Node) : Net Node :=
  ⟨fun i =>
    if i = first then some ⟨Membership.initDSM, NaimiTrehel.initCS none true false, []⟩
    else none, []⟩

/-- A node joins through a node that has started, `request_CS` sends no second request for a node
that waits for the token, and a thread leaves the waiting loop while `requesting` is set. -/
def joinOk (s : Net Node) : Event Node → Bool
  | .act _ (.joinDSM contact) => (s.node contact).isSome
  | .act i (.requestCS _) =>
    (s.node i).all fun p => p.cs.token || !p.cs.requesting || p.cs.father = none
  | .act i (.wake _) => (s.node i).all fun p => p.cs.requesting
  | _ => true

/-! ## The members and the critical section by themselves -/

def Msg.member? : Msg Node → Option (Membership.Msg Node)
  | .member m => some m
  | .cs _ => none

def Msg.cs? : Msg Node → Option (NaimiTrehel.Msg Node)
  | .member _ => none
  | .cs m => some m

/-- The members. -/
def memberNet (s : Net Node) : Membership.Net Node := s.project (Option.map Peer.member) Msg.member?

/-- The entry of the critical section; a node that has not started has the father `o` and asks for
nothing. -/
def csOf (o : Node) (p : Option (Peer Node)) : NaimiTrehel.Peer Node :=
  (p.map Peer.cs).getD (NaimiTrehel.initCS (some o) false false)

/-- The critical section, as if all nodes had been there from the start. -/
def csNet (o : Node) (s : Net Node) : NaimiTrehel.Net Node := s.project (csOf o) Msg.cs?

/-- The steps that the members take: a handler goes on when `request_CS` has returned. -/
def memberEvents (s : Net Node) : Event Node → List (Membership.Event Node)
  | .act i (.joinDSM contact) => [.act i (.joinDSM contact)]
  | .act i (.resume h) => [.act i (.resume h)]
  | .act i (.requestCS joiner) =>
    if (s.node i).any fun p => p.cs.token then [.act i (.resume ⟨joiner, .requestCS⟩)] else []
  | .act i (.wake joiner) => [.act i (.resume ⟨joiner, .requestCS⟩)]
  | .act i (.releaseCS joiner) => [.act i (.resume ⟨joiner, .releaseCS⟩)]
  | .deliver (.member m) => [.deliver m]
  | .deliver (.cs _) => []

/-- The steps of the members in the run `es` from `s`. -/
def memberRun (s : Net Node) (es : List (Event Node)) : List (Membership.Event Node) :=
  Network.translate step memberEvents s es

/-! ## The invariant -/

/-- The handlers of `JOIN_DSM` between `request_CS` and `release_CS` are the threads inside. -/
structure Linked (p : Peer Node) : Prop where
  inside : p.cs.inside = p.member.handlers.countP Handler.inside
  leave : p.member.leave = none

structure Inv [Fintype Node] (o : Node) (s : Net Node) : Prop where
  cs : NaimiTrehel.Inv (csNet o s)
  linked : ∀ i, ∀ p ∈ s.node i, Linked p

end Joining
