import Psar.Core.Exclusion

/-!
# Runs with writers only

When every `ask_lock` is `ask_lock(WRITE)`, no `READ` request, no `GET_LOCK(READ)` and no `UNLOCK`
ever appears, so `handle_local_UNLOCK` is never run and every step is in order. What remains is the
queue of the writers: which node serves whom.
-/

namespace PageLock

variable {Node : Type} [DecidableEq Node]

/-- Every `ask_lock` asks for `WRITE`, and nobody leaves. -/
def writeOnly : Event Node → Bool
  | .act _ (.askLock .read) => false
  | .act _ (.leaveCore _) => false
  | _ => true

/-- The handler of `ASK_LOCK` is not run by the initiator of the request. -/
def notOwn : Event Node → Bool
  | .deliver (.askLock d _ initiator _) => d ≠ initiator
  | _ => true

/-- No trace of a reader at a node. -/
structure WriteLocal (p : Peer Node) : Prop where
  mode : p.core.mode ≠ .reading
  requests : ∀ r ∈ p.core.request, r.mode = .write

/-- No trace of a reader in a message. -/
def WriteMsg : Msg Node → Prop
  | .askLock _ _ _ k => k = .write
  | .getLock _ _ _ k => k = .write
  | _ => False

/-- The invariant of the runs with writers only. -/
structure WriteInv [Fintype Node] (s : Net Node) : Prop extends Inv s where
  write : ∀ i, WriteLocal (s.node i)
  writeMsgs : ∀ m ∈ s.msgs, WriteMsg m

/-- A node queues at most one request, only while the lock is granted to itself, and never its own.
-/
structure QueueLocal (i : Node) (p : Peer Node) : Prop where
  queue : p.core.request ≠ [] → p.granted .write = true
  length : p.core.request.length ≤ 1
  thread : p.thread ≠ .semWait
  waits : p.waits .write = true → p.core.haveToken ≠ i
  who : ∀ r ∈ p.core.request, r.who ≠ i

/-- The invariant of the runs with writers only in which no request comes back to its initiator: no
request of a waiting node is lost. -/
structure QueueInv [Fintype Node] (s : Net Node) : Prop extends WriteInv s where
  queued : ∀ i, QueueLocal i (s.node i)
  placed : ∀ j, 1 ≤ s.weight (pendingAt j .write) (pendingMsg j .write)

/-- The number of nodes that name themselves in `have_token` and are not blocked in
`send_wait_message_nolock` with a false predicate. -/
def holders [Fintype Node] (s : Net Node) : ℕ :=
  (Finset.univ.filter fun i => (s.node i).core.haveToken = i ∧ (s.node i).blocked = false).card

/-- The number of `GET_LOCK(k)` in flight. -/
def getLocks (k : LockType) (s : Net Node) : ℕ :=
  s.msgs.countP fun m => match m with
    | .getLock _ _ _ k' => k' = k
    | _ => false

/-- The number of `GET_LOCK` in flight to the node `j`. -/
def getLocksTo (j : Node) (s : Net Node) : ℕ :=
  s.msgs.countP fun m => match m with
    | .getLock j' _ _ _ => j' = j
    | _ => false

/-- Neither an `ASK_LOCK` nor a `GET_LOCK`. -/
def Msg.settled : Msg Node → Bool
  | .askLock _ _ _ _ => false
  | .getLock _ _ _ _ => false
  | _ => true

end PageLock
