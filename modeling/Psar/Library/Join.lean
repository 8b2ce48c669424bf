import Psar.Library.Network

/-!
# Networks that nodes join

A network in which a node has no local state until it joins through a node that is already there.
Nothing handles a message to a node that has not joined, and the message is lost.

A run with joins is a run of the network in which every node is there from the start (`view`), as
long as no message goes to a node that has not joined. That is so when a node only gets to know
other nodes from what it knows already and from the messages it handles (`Naming.Local`).
-/

namespace Network

variable {ι S M A : Type}

/-! ## Joins -/

/-- What a node does: it joins through a node, or it acts. -/
inductive JoinAction (ι A : Type) where
  | join (contact : ι)
  | act (a : A)
  deriving DecidableEq, Repr

/-- A node that has joined goes on as before. -/
def joined (r : S × List M) : Option S × List M := (some r.1, r.2)

def joinAct (P : Protocol ι S M A) (start : ι → S) (i : ι) :
    Option S → JoinAction ι A → Option (Option S × List M)
  | none, .join contact => some (some (start contact), [])
  | some x, .act a => (P.act i x a).map joined
  | _, _ => none

def joinHandle (P : Protocol ι S M A) (i : ι) : Option S → M → Option (Option S × List M)
  | some x, m => (P.handle i x m).map joined
  | none, _ => some (none, [])

/-- The nodes with joins; `start contact` is the local state of a node that joins through
`contact`. -/
def joinProtocol (P : Protocol ι S M A) (start : ι → S) :
    Protocol ι (Option S) M (JoinAction ι A) where
  dest := P.dest
  act := joinAct P start
  handle := joinHandle P

/-- The nodes that have joined and the messages in flight. -/
abbrev JoinNet (ι S M : Type) := Net ι (Option S) M

/-- A step with joins. -/
abbrev JoinEvent (ι M A : Type) := Event ι M (JoinAction ι A)

/-- The network in which every node is there, those that have not joined with the local state
`absent`. -/
def view (absent : S) (s : JoinNet ι S M) : Net ι S M :=
  ⟨fun i => (s.node i).getD absent, s.msgs⟩

/-- Nodes join through nodes that have joined, and all other steps meet `ok` in the network in which
every node is there. -/
def JoinOk (absent : S) (ok : Net ι S M → Event ι M A → Prop) (s : JoinNet ι S M) :
    JoinEvent ι M A → Prop
  | .act _ (.join contact) => (s.node contact).isSome = true
  | .act i (.act a) => ok (view absent s) (.act i a)
  | .deliver m => ok (view absent s) (.deliver m)

instance (absent : S) (ok : Net ι S M → Event ι M A → Prop) [∀ s e, Decidable (ok s e)]
    (s : JoinNet ι S M) : ∀ e, Decidable (JoinOk absent ok s e)
  | .act _ (.join contact) => inferInstanceAs (Decidable ((s.node contact).isSome = true))
  | .act i (.act a) => inferInstanceAs (Decidable (ok (view absent s) (.act i a)))
  | .deliver m => inferInstanceAs (Decidable (ok (view absent s) (.deliver m)))

/-! ## Nodes that know each other -/

/-- The nodes that a local state and a message name. -/
structure Naming (ι S M : Type) where
  inState : S → ι → Prop
  inMsg : M → ι → Prop

/-- What a step results in names only nodes that `known` does. -/
def Naming.Keeps (N : Naming ι S M) (known : ι → Prop) (r : S × List M) : Prop :=
  (∀ n, N.inState r.1 n → known n) ∧ ∀ m ∈ r.2, ∀ n, N.inMsg m n → known n

/-- A node gets to know other nodes only from its local state and the messages it handles. `allowed`
are the actions for which this is so. -/
structure Naming.Local (N : Naming ι S M) (P : Protocol ι S M A) (allowed : A → Prop) : Prop where
  dest : ∀ m, N.inMsg m (P.dest m)
  act : ∀ i x a r, allowed a → P.act i x a = some r → N.Keeps (fun n => n = i ∨ N.inState x n) r
  handle : ∀ i x m r, P.handle i x m = some r →
    N.Keeps (fun n => n = i ∨ N.inState x n ∨ N.inMsg m n) r

/-- Every node that is named somewhere has joined. -/
structure Naming.Closed (N : Naming ι S M) (s : JoinNet ι S M) : Prop where
  node : ∀ i x, s.node i = some x → ∀ n, N.inState x n → (s.node n).isSome = true
  msgs : ∀ m ∈ s.msgs, ∀ n, N.inMsg m n → (s.node n).isSome = true

end Network
