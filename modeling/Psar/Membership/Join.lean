import Psar.Membership.NodeList

/-!
# Agreement on the members: what is counted

For two nodes `a` and `b`, `entriesAt` and `entriesMsg` count the entries for `b` in the list of
`a`, those on their way to `a` in a message, and those that a handler of `JOIN_DSM` still owes `a`.
The nodes of `S` are those whose handler has begun its loop; between them every entry is counted
once. A node that joins and is not in `S` yet is known to nobody but to nodes that join through it,
and it knows its contact alone. The nodes of `gone` have removed the leaver `l`.
-/

namespace Membership

variable {Node : Type} [DecidableEq Node]

/-! ## Weights -/

/-- A handler for the node `a` that has not begun its loop. -/
def Handler.early (a : Node) (h : Handler Node) : ℕ :=
  match h.stage with
  | .waitInDsm => if h.joiner = a then 1 else 0
  | .requestCS => if h.joiner = a then 1 else 0
  | .lockUmtx => if h.joiner = a then 1 else 0
  | _ => 0

def earlyAt (a i : Node) : Option (Peer Node) → ℕ
  | none => if i = a then 1 else 0
  | some p => (p.handlers.map (Handler.early a)).sum

def earlyMsg (a : Node) : Msg Node → ℕ
  | .joinDSM _ sender => if sender = a then 1 else 0
  | _ => 0

/-- The request of `a` to join, if `b` is its contact. -/
def contactAt (a b i : Node) : Option (Peer Node) → ℕ
  | none => 0
  | some p => if i = b then (p.handlers.map (Handler.early a)).sum else 0

def contactMsg (a b : Node) : Msg Node → ℕ
  | .joinDSM d sender => if sender = a ∧ d = b then 1 else 0
  | _ => 0

/-- A handler for the node `a` in its loop. -/
def Handler.loops (a : Node) (h : Handler Node) : ℕ :=
  match h.stage with
  | .waitAcked _ => if h.joiner = a then 1 else 0
  | _ => 0

/-- The node `a` is in `S`: its handler is in its loop, `INFO_DSM` is on its way, or it has been
handled. -/
def phaseAt (a i : Node) : Option (Peer Node) → ℕ
  | none => 0
  | some p => (if i = a then p.inDsm.toNat else 0) + (p.handlers.map (Handler.loops a)).sum

def phaseMsg (a : Node) : Msg Node → ℕ
  | .infoDSM d _ _ _ => if d = a then 1 else 0
  | _ => 0

/-- The entries for `b` that a handler of the node `i` with the list `l` owes `a`: `NEW_NODE` to the
rest of the list, `INFO_DSM` to the new node, and its own entry. -/
def Handler.owed (a b i : Node) (l : List Node) (h : Handler Node) : ℕ :=
  match h.stage with
  | .waitAcked rest => (if h.joiner = b then rest.count a else 0) +
      (if h.joiner = a then l.count b else 0) + if i = a ∧ h.joiner = b then 1 else 0
  | .adding => if i = a ∧ h.joiner = b then 1 else 0
  | _ => 0

def entriesAt (a b i : Node) : Option (Peer Node) → ℕ
  | none => 0
  | some p => (if i = a then p.nodeList.count b else 0) +
      (p.handlers.map (Handler.owed a b i p.nodeList)).sum

def entriesMsg (a b : Node) : Msg Node → ℕ
  | .newNode d _ n => if d = a ∧ n = b then 1 else 0
  | .infoDSM d _ k nodes => if d = a then (nodes.take k).count b else 0
  | _ => 0

/-- The handlers that hold `umtx`. -/
def busyAt (_ : Node) : Option (Peer Node) → ℕ
  | none => 0
  | some p => (p.handlers.map fun h => h.busy.toNat).sum

/-- A handler in `wait_acked`. -/
def Handler.waits (h : Handler Node) : ℕ :=
  match h.stage with
  | .waitAcked _ => 1
  | _ => 0

def waitsAt (_ : Node) : Option (Peer Node) → ℕ
  | none => 0
  | some p => (p.handlers.map Handler.waits).sum

/-- What a handler in `wait_acked` waits for: `NEW_NODE` or `ACK_NODE` in flight, or `acked`. -/
def ackAt (_ : Node) : Option (Peer Node) → ℕ
  | none => 0
  | some p => p.acked.toNat

def ackMsg : Msg Node → ℕ
  | .newNode _ _ _ => 1
  | .ackNode _ _ => 1
  | _ => 0

def loopsAt (n _ : Node) : Option (Peer Node) → ℕ
  | none => 0
  | some p => (p.handlers.map (Handler.loops n)).sum

def newNodeMsg (n : Node) : Msg Node → ℕ
  | .newNode _ _ n' => if n' = n then 1 else 0
  | _ => 0

/-! ## The invariant -/

/-- The state of one node: the counter of the list is right, and a handler past `wait_in_dsm` has
found `in_dsm` set. -/
structure LocalInv (p : Peer Node) : Prop where
  nb : p.nbNodees = p.nodeList.length
  ready : ∀ h ∈ p.handlers, h.stage ≠ .waitInDsm → p.inDsm = true

/-- `INFO_DSM` carries as many nodes as it says. -/
def MsgInv : Msg Node → Prop
  | .infoDSM _ _ k nodes => k = nodes.length
  | _ => True

/-- The entries for `b` that `a` has or gets; `c` says whether `b` is the contact of `a`. -/
def target (S : Finset Node) (c : ℕ) (a b : Node) : ℕ :=
  if a ∈ S then if b ∈ S ∧ a ≠ b then 1 else 0 else c

/-- The invariant of the lists. -/
structure Inv [Fintype Node] (S : Finset Node) (l : Node) (gone : Finset Node) (s : Net Node) :
    Prop where
  local_ : ∀ i, ∀ p ∈ s.node i, LocalInv p
  msgs : ∀ m ∈ s.msgs, MsgInv m
  cs : ∀ i j, ∀ p ∈ s.node i, ∀ q ∈ s.node j, inCS p = true → inCS q = true → i = j
  busy : s.weight busyAt (fun _ => 0) ≤ 1
  ack : s.weight ackAt ackMsg = s.weight waitsAt fun _ => 0
  news : ∀ n, (s.msgs.map (newNodeMsg n)).sum ≤ s.weight (loopsAt n) fun _ => 0
  early : ∀ a, s.weight (earlyAt a) (earlyMsg a) = if a ∈ S then 0 else 1
  phase : ∀ a, s.weight (phaseAt a) (phaseMsg a) = if a ∈ S then 1 else 0
  gone_subset : gone ⊆ S
  pair : ∀ a b, s.weight (entriesAt a b) (entriesMsg a b) + (if b = l ∧ a ∈ gone then 1 else 0) =
    target S (s.weight (contactAt a b) (contactMsg a b)) a b

/-- No join is in progress: no message is in flight and no handler of `JOIN_DSM` runs. -/
def quiet (s : Net Node) : Prop :=
  s.msgs = [] ∧ ∀ i, ∀ p ∈ s.node i, p.handlers = []

/-- The messages of a leave. -/
def Msg.ofLeave : Msg Node → Bool
  | .recvPageLeave _ _ => true
  | .dtLeave _ _ _ => true
  | .ackRecvPage _ _ => true
  | _ => false

/-- Nobody leaves. -/
structure Stays (s : Net Node) : Prop where
  peers : ∀ i, ∀ p ∈ s.node i, p.leave = none ∧ p.removing = []
  msgs : ∀ m ∈ s.msgs, m.ofLeave = false

end Membership
