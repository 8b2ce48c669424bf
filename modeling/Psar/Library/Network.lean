import Mathlib

/-!
# Asynchronous networks

A network is a family of nodes, each with a local state, and a pool of messages in flight. A step is
either an action that a node takes on its own, or the handling of one message of the pool at its
destination; both replace the local state of one node and add messages to the pool. The pool has no
order: any message in it may be the next one to be handled.

A *weight* adds up a number for every local state and a number for every message in flight. One step
only changes one local state, at most one message that it consumes and the messages that it sends,
so what a step does to a weight is a local matter.
-/

namespace Network

/-! ## Runs of a partial step function -/

section Run

variable {σ α : Type}

/-- Takes the steps `as` one after the other; `none` as soon as one of them is not enabled. -/
def run (next : σ → α → Option σ) : σ → List α → Option σ
  | s, [] => some s
  | s, a :: as => (next s a).bind fun s' => run next s' as

/-- Every step of the run meets `ok` in the state in which it is taken. -/
def Meets (next : σ → α → Option σ) (ok : σ → α → Prop) : σ → List α → Prop
  | _, [] => True
  | s, a :: as => ok s a ∧ ∀ s' ∈ next s a, Meets next ok s' as

instance decidableMeets (next : σ → α → Option σ) (ok : σ → α → Prop)
    [∀ s a, Decidable (ok s a)] : ∀ s as, Decidable (Meets next ok s as)
  | _, [] => isTrue trivial
  | s, a :: as =>
    match h : next s a with
    | none => decidable_of_iff (ok s a) (by simp [Meets, h])
    | some s' =>
      haveI := decidableMeets next ok s' as
      decidable_of_iff (ok s a ∧ Meets next ok s' as) (by simp [Meets, h])

end Run

/-! ## Nodes and messages -/

variable {ι S M A : Type}

/-- The local states of the nodes and the messages in flight. -/
structure Net (ι S M : Type) where
  /-- The local state of every node. -/
  node : ι → S
  /-- The messages that have been sent and not yet been handled. -/
  msgs : List M

/-- What one node does: on its own, and when it handles a message. `none` means that the step is not
enabled; otherwise the result is the new local state and the messages sent. -/
structure Protocol (ι S M A : Type) where
  /-- The node that handles a message. -/
  dest : M → ι
  /-- An action of the node `i` itself. -/
  act : ι → S → A → Option (S × List M)
  /-- The handler that the node `i` runs on a message. -/
  handle : ι → S → M → Option (S × List M)

/-- A step of the network. -/
inductive Event (ι M A : Type) where
  /-- The node `i` takes the action `a`. -/
  | act (i : ι) (a : A)
  /-- The message `m` is handled by its destination. -/
  | deliver (m : M)
  deriving DecidableEq, Repr

/-- The node `i` moves to the local state `r.1` and sends `r.2`; `rest` stays in flight. -/
def Net.fire [DecidableEq ι] (s : Net ι S M) (i : ι) (rest : List M) (r : S × List M) : Net ι S M :=
  ⟨Function.update s.node i r.1, rest ++ r.2⟩

/-- One step of the network: an action of one node, or the handling of a message in flight. -/
def step [DecidableEq ι] [DecidableEq M] (P : Protocol ι S M A) (s : Net ι S M) :
    Event ι M A → Option (Net ι S M)
  | .act i a => (P.act i (s.node i) a).map (s.fire i s.msgs)
  | .deliver m =>
    if m ∈ s.msgs then
      (P.handle (P.dest m) (s.node (P.dest m)) m).map (s.fire (P.dest m) (s.msgs.erase m))
    else none

/-- The weight of a network: `f i` of the local state of every node `i`, and `g` of every message in
flight, added up. -/
def Net.weight [Fintype ι] (f : ι → S → ℕ) (g : M → ℕ) (s : Net ι S M) : ℕ :=
  ∑ i, f i (s.node i) + (s.msgs.map g).sum

end Network
