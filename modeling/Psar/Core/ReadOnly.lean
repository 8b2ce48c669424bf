import Psar.Core.Exclusion
import Psar.Library.Pointers

/-!
# Runs with readers only

The pointers `have_token` lead to a node that has the token, and every `ask_lock` is
`ask_lock(READ)`. The token stays where it is, every reader is registered there when it is let in,
and its `UNLOCK` takes the registration away.
-/

namespace PageLock

variable {Node : Type} [DecidableEq Node]

/-- Every `ask_lock` asks for `READ`, and nobody leaves. -/
def readOnly : Event Node → Bool
  | .act _ (.askLock .write) => false
  | .act _ (.leaveCore _) => false
  | _ => true

/-- All nodes before the first call, with the pointers `father` in `have_token`. -/
def pointerNet (father : Node → Node) : Net Node :=
  ⟨fun i => ⟨initCore (father i), .idle, 0⟩, []⟩

/-! ## What is counted -/

/-- The entries of `j` in a request list. -/
def entriesOf (j : Node) (l : List (Request Node)) : ℕ := l.countP fun r => r.who = j

/-- A `GET_LOCK(READ)` to `j`. -/
def Msg.letsIn (j : Node) : Msg Node → Bool
  | .getLock d _ _ k => d = j ∧ k = .read
  | _ => false

/-- An `UNLOCK` from `j`. -/
def Msg.releases (j : Node) : Msg Node → Bool
  | .unlock _ sender _ _ => sender = j
  | _ => false

/-- An `ASK_LOCK` of `j`. -/
def Msg.asks (j : Node) : Msg Node → Bool
  | .askLock _ _ initiator _ => initiator = j
  | _ => false

/-- A `GET_LOCK(READ)` to `j` is handled. -/
def letInAt (j : Node) : Event Node → Bool
  | .deliver m => m.letsIn j
  | _ => false

/-- The node `j` calls `unlock`. -/
def unlockAt (j : Node) : Event Node → Bool
  | .act i .unlock => i = j
  | _ => false

/-! ## The invariant -/

/-- The node `o` that has the token. -/
structure OwnerLocal (o : Node) (p : Peer Node) : Prop where
  token : p.core.haveToken = o
  thread : (p.thread = .idle ∧ p.core.mode = .none) ∨
    (p.thread = .returned .read ∧ p.core.mode = .reading)
  reads : ∀ r ∈ p.core.request, r.mode = .read
  own : entriesOf o p.core.request = if p.core.mode = .reading then 1 else 0

/-- Another node `i`. -/
structure ReaderLocal (o i : Node) (p : Peer Node) : Prop where
  token : p.core.haveToken ≠ i
  request : p.core.request = []
  thread : (p.thread = .idle ∧ p.core.mode = .none) ∨
    (p.thread = .condWait .read ∧ p.core.mode = .reading) ∨
    (p.thread = .returned .read ∧ p.core.mode = .reading)
  predicate : p.core.predicate = true → p.thread = .condWait .read
  granted : p.granted .read = true → p.core.haveToken = o

def ReadLocal (o i : Node) (p : Peer Node) : Prop :=
  if i = o then OwnerLocal o p else ReaderLocal o i p

/-- The messages: only the owner of the token lets readers in, and only they answer it. -/
def ReadMsg (o : Node) : Msg Node → Prop
  | .askLock _ _ j k => j ≠ o ∧ k = .read
  | .getLock j sender _ k => j ≠ o ∧ sender = o ∧ k = .read
  | .unlock d sender _ _ => d = o ∧ sender ≠ o
  | _ => False

/-- The invariant of the runs with readers only. -/
structure ReadInv (o : Node) (s : Net Node) : Prop where
  local_ : ∀ i, ReadLocal o i (s.node i)
  msgs : ∀ m ∈ s.msgs, ReadMsg o m
  /-- A node has one request on its way, or its answer, exactly while it waits. -/
  waiting : ∀ j, j ≠ o → s.msgs.countP (Msg.asks j) + s.msgs.countP (Msg.letsIn j) =
    ((s.node j).waits .read).toNat
  entries : ∀ j, j ≠ o → entriesOf j (s.node o).core.request =
    s.msgs.countP (Msg.letsIn j) + s.msgs.countP (Msg.releases j) +
      ((s.node j).granted .read).toNat

end PageLock
