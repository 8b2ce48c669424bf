import Psar.Core.PageLock

/-!
# Reader/writer exclusion: what is counted

The page lock has no field that says who holds it. These definitions read it off the states of the
nodes and the messages in flight, as weights of the network:

* the *token*: a node that names itself in `have_token` and is not waiting for a `GET_LOCK` has it,
  and so does a `GET_LOCK(WRITE)` in flight;
* the *pending requests* of a node: its `ASK_LOCK` in flight, its entry in a request list that has
  not been served yet, and the `GET_LOCK` that answers it;
* the *readers*: nodes that have been granted `READ`, together with the `GET_LOCK(READ)` on their
  way to a reader and the `UNLOCK` on their way back;
* the *recorded readers*: the `READ` entries in the list of the node that has the token, unless that
  node is itself a writer.

The invariant is that there is one token, that a node has at most one pending request and only while
it waits for it, and that there are no more readers than recorded readers.
-/

namespace PageLock

variable {Node : Type} [DecidableEq Node]

/-! ## The state of one node -/

/-- The application thread waits for a `GET_LOCK(k)` that has not been handled. -/
def Peer.waits (p : Peer Node) (k : LockType) : Bool :=
  p.thread = .condWait k && !p.core.predicate

/-- The application thread waits for a `GET_LOCK`: it is in `send_wait_message_nolock` and the
predicate is false. -/
def Peer.blocked (p : Peer Node) : Bool :=
  p.waits .read || p.waits .write

/-- The lock has been granted to the application thread: `ask_lock(k)` has returned, or is about to
because its `GET_LOCK` has been handled. -/
def Peer.granted (p : Peer Node) (k : LockType) : Bool :=
  p.thread = .returned k || (p.thread = .condWait k && p.core.predicate)

/-- The node `i` has the token. -/
def Peer.holds (i : Node) (p : Peer Node) : Bool :=
  p.core.haveToken = i && !p.blocked

/-- The `READ` entries in the list of `i` are those of readers: `i` has the token and is no
writer. -/
def Peer.serves (i : Node) (p : Peer Node) : Bool :=
  p.holds i && !p.granted .write

/-- The number of `READ` entries of a request list. -/
def reads (l : List (Request Node)) : ℕ :=
  l.countP fun r => r.mode = .read

/-! ## Weights -/

def tokenAt (i : Node) (p : Peer Node) : ℕ := (p.holds i).toNat

def tokenMsg : Msg Node → ℕ
  | .getLock _ _ _ .write => 1
  | _ => 0

/-- The entries of `j` for `k` in the list of `i` that are still to be served. An entry that `i`
made for itself in `ask_lock` is not one of them. -/
def pendingIn (j : Node) (k : LockType) (i : Node) (p : Peer Node) : ℕ :=
  if (k = .read ∧ p.serves i) ∨ (j = i ∧ p.thread = .semWait) then 0
  else p.core.request.count ⟨k, j⟩

/-- The pending requests of `j` for `k` in the list of `i`, and one more at `j` itself unless `j`
waits for `k`. -/
def pendingAt (j : Node) (k : LockType) (i : Node) (p : Peer Node) : ℕ :=
  pendingIn j k i p + if i = j ∧ ¬ p.waits k then 1 else 0

def pendingMsg (j : Node) (k : LockType) : Msg Node → ℕ
  | .askLock _ _ j' k' => if j' = j ∧ k' = k then 1 else 0
  | .getLock j' _ _ k' => if j' = j ∧ k' = k then 1 else 0
  | _ => 0

def readerAt (_ : Node) (p : Peer Node) : ℕ := (p.granted .read).toNat

def readerMsg : Msg Node → ℕ
  | .getLock _ _ _ .read => 1
  | .unlock _ _ _ _ => 1
  | _ => 0

/-- The recorded readers of `i`. -/
def recordedAt (i : Node) (p : Peer Node) : ℕ := if p.serves i then reads p.core.request else 0

/-! ## The invariant -/

/-- The thread of a node agrees with its entry for the page, as long as nobody leaves. -/
structure LocalInv (i : Node) (p : Peer Node) : Prop where
  mode : match p.thread with
    | .idle => p.core.mode = .none
    | .semWait => p.core.mode = .writing
    | .condWait k => p.core.mode = k.toStatus
    | .returned k => p.core.mode = k.toStatus
    | .leaving _ _ => False
    | .left => False
  predicate : p.core.predicate = true → ∃ k, p.thread = .condWait k
  writer : p.granted .write = true → p.core.haveToken = i
  reader : p.waits .read = true → p.core.haveToken ≠ i
  semaphore : p.core.writeAutoLock = 0

/-- The messages about the lock are those of `ask_lock` and `unlock`, and nobody grants the lock to
itself by a message. -/
def MsgInv : Msg Node → Prop
  | .askLock _ _ _ _ => True
  | .getLock d s _ _ => s ≠ d
  | .unlock _ _ _ _ => True
  | _ => False

/-- The invariant of the page lock. -/
structure Inv [Fintype Node] (s : Net Node) : Prop where
  local_ : ∀ i, LocalInv i (s.node i)
  msgs : ∀ m ∈ s.msgs, MsgInv m
  token : s.weight tokenAt tokenMsg = 1
  pending : ∀ j k, s.weight (pendingAt j k) (pendingMsg j k) ≤ 1
  readers : s.weight readerAt readerMsg ≤ s.weight recordedAt fun _ => 0

/-! ## Which steps are safe -/

/-- No call of `leave_core`. -/
def noLeave : Event Node → Bool
  | .act _ (.leaveCore _) => false
  | _ => true

/-- When `handle_local_UNLOCK(page, fr)` at `i` hands the token over to the `WRITE` request of
another node at the head of the list, `i` is not itself waiting for a `WRITE` lock and no `READ`
request is left behind in the list. -/
def safeRelease (i : Node) (p : Peer Node) (fr : Node) : Bool :=
  match (removeRequest p.core fr).request with
  | ⟨.write, q⟩ :: rest => q = i || (!p.waits .write && rest.all fun r => r.mode = .write)
  | _ => true

/-- Every `handle_local_UNLOCK` is safe, and `ask_lock(WRITE)` is not called by a reader. -/
def inOrder (s : Net Node) : Event Node → Bool
  | .act i (.askLock .write) => (s.node i).core.mode ≠ .reading
  | .act i .unlock =>
    (s.node i).core.mode ≠ .reading || (s.node i).core.haveToken ≠ i ||
      safeRelease i (s.node i) i
  | .deliver (.unlock i sender _ _) =>
    (s.node i).core.haveToken ≠ i || safeRelease i (s.node i) sender
  | _ => true

end PageLock
