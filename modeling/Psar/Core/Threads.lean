import Psar.Core.PageLock
import Psar.Library.Simulation

/-!
# Several threads of one node

Every node has any number of application threads, which call `ask_lock`, `unlock` and `leave_core`
on one page; the nodes exchange the messages of `Psar.Core.PageLock`. A node is the `Peer` of that
file without its application thread, and what each of its threads does.

`request` and `granted` are not variables of `core.c`. They record the `ASK_LOCK` of the node that
has not been answered, and what the node has been given and has not released.
-/

namespace Threads

open PageLock (LockType Msg)

variable {Node T : Type} [DecidableEq Node] [DecidableEq T]

/-- Where a thread is. -/
inductive Call where
  /-- In none of the calls. -/
  | idle
  /-- In `ask_lock(WRITE)`, at the `sem_wait` on `write_auto_lock`. -/
  | semWait
  /-- In `ask_lock(m)`, in the waiting loop of `send_wait_message_nolock`. -/
  | condWait (m : LockType)
  /-- In `leave_core`. -/
  | leaving
  deriving DecidableEq, Repr

/-- A call of `ask_lock(mode)` that returns. -/
structure Return (T : Type) where
  thread : T
  mode : LockType
  deriving DecidableEq, Repr

/-- A node. -/
structure Peer (Node T : Type) where
  /-- The entry of the page, `DELEGATE_ACK_counter`, and how far `leave_core` is: `idle` as long as
  it has not been called. -/
  peer : PageLock.Peer Node
  call : T → Call
  /-- The mode of the `ASK_LOCK` that the node has sent and that no `GET_LOCK` has answered. -/
  request : Option LockType
  /-- The mode that the node has been granted and has not released. -/
  granted : Option LockType
  /-- The call that has returned in the last step of the node. -/
  returned : Option (Return T)

inductive Action (Node T : Type) where
  /-- The call of `ask_lock`, up to its return or its first wait. -/
  | askLock (t : T) (m : LockType)
  /-- The end of the waiting loop of `send_wait_message_nolock`. -/
  | resume (t : T)
  /-- The end of the `sem_wait`. -/
  | semWake (t : T)
  /-- The call of `unlock`. -/
  | unlock (t : T)
  /-- The call of `leave_core`, up to the wait for the acknowledgements. -/
  | leaveCore (t : T) (delegate : Node)
  /-- The rest of `leave_core`, once all acknowledgements are there. -/
  | leaveFinish (t : T)
  deriving DecidableEq, Repr

/-! ## The calls -/

/-- `ask_lock(m)` of the thread `t` returns. The calls that return while the node leaves are not
recorded. -/
def Peer.returns (p : Peer Node T) (t : T) (m : LockType) : Option (Return T) :=
  if p.peer.thread = .idle then some ⟨t, m⟩ else none

/-- The body of `ask_lock`, under the page mutex, on a page that is not locked. A page that is taken
locally is granted if no request of the node is under way: it is then the node that has the token
and names itself in `have_token`. -/
def askLockBody (me : Node) (p : Peer Node T) (t : T) (m : LockType) :
    Peer Node T × List (Msg Node) :=
  let c := p.peer.core
  let r := PageLock.askLockBody me c m
  let p' := { p with
    peer := { p.peer with core := r.1 }
    request := if c.haveToken = me then p.request else some m }
  match r.2.1 with
  | .semWait => ({ p' with call := Function.update p.call t .semWait, returned := none }, r.2.2)
  | .condWait m =>
    ({ p' with call := Function.update p.call t (.condWait m), returned := none }, r.2.2)
  | _ =>
    -- taken locally, or the predicate was set when the request was sent
    ({ p' with
        granted := if c.haveToken = me ∧ p.request = none then some m else p.granted
        returned := p.returns t m }, r.2.2)

/-- `ask_lock`: nothing is done on a page that is locked, nor by a node that leaves. -/
def askLock (me : Node) (p : Peer Node T) (t : T) (m : LockType) :
    Option (Peer Node T × List (Msg Node)) :=
  if p.call t = .idle ∧ p.peer.locked = false then
    if p.peer.core.mode = .none ∧ p.peer.thread = .idle then some (askLockBody me p t m)
    else some ({ p with returned := p.returns t m }, [])
  else none

/-- The end of the waiting loop of `send_wait_message_nolock`: one of the threads that wait finds
the predicate set, and clears it. -/
def resume (p : Peer Node T) (t : T) : Option (Peer Node T × List (Msg Node)) :=
  match p.call t with
  | .condWait m =>
    if p.peer.core.predicate ∧ p.peer.locked = false then
      some ({ p with
        peer := { p.peer with core := { p.peer.core with predicate := false } }
        call := Function.update p.call t .idle
        returned := p.returns t m }, [])
    else none
  | _ => none

/-- The end of the `sem_wait`. -/
def semWake (p : Peer Node T) (t : T) : Option (Peer Node T × List (Msg Node)) :=
  let c := p.peer.core
  if p.call t = .semWait ∧ 0 < c.writeAutoLock ∧ p.peer.locked = false then
    some ({ p with
      peer := { p.peer with core := { c with writeAutoLock := c.writeAutoLock - 1 } }
      call := Function.update p.call t .idle
      granted := some .write
      returned := p.returns t .write }, [])
  else none

/-- `unlock`; a failing assertion ends the program and is no step. -/
def unlock (me : Node) (p : Peer Node T) (t : T) : Option (Peer Node T × List (Msg Node)) :=
  if p.call t = .idle ∧ p.peer.locked = false then
    (PageLock.unlockInternal me p.peer.core).map fun r =>
      ({ p with peer := { p.peer with core := r.1 }, granted := none, returned := none }, r.2)
  else none

/-- The first part of `leave_core`. -/
def leaveCore (me : Node) (nodeList : List Node) (p : Peer Node T) (t : T) (delegate : Node) :
    Option (Peer Node T × List (Msg Node)) :=
  if p.call t = .idle then
    (PageLock.leaveCore me nodeList p.peer delegate).map fun r =>
      ({ p with
          peer := r.1
          call := Function.update p.call t .leaving
          granted := none
          returned := none }, r.2)
  else none

/-- The second part of `leave_core`. -/
def leaveFinish (me : Node) (p : Peer Node T) (t : T) : Option (Peer Node T × List (Msg Node)) :=
  if p.call t = .leaving then
    (PageLock.leaveFinish me p.peer).map fun r =>
      ({ p with peer := r.1, call := Function.update p.call t .idle, returned := none }, r.2)
  else none

/-- What the threads of a node do; `nodeList` is its `node_list`. -/
def act (nodeList : List Node) (me : Node) (p : Peer Node T) :
    Action Node T → Option (Peer Node T × List (Msg Node))
  | .askLock t m => askLock me p t m
  | .resume t => resume p t
  | .semWake t => semWake p t
  | .unlock t => unlock me p t
  | .leaveCore t delegate => leaveCore me nodeList p t delegate
  | .leaveFinish t => leaveFinish me p t

/-! ## The handlers -/

/-- The mode of a `GET_LOCK`. -/
def grantOf : Msg Node → Option LockType
  | .getLock _ _ _ mode => some mode
  | _ => none

/-- The handler thread of one message. A `GET_LOCK` that arrives while a request of the node is
under way answers it. -/
def handle (me : Node) (p : Peer Node T) (m : Msg Node) : Option (Peer Node T × List (Msg Node)) :=
  (PageLock.handle me p.peer m).map fun r =>
    let p' := { p with peer := r.1, returned := none }
    if (grantOf m).isSome ∧ p.request.isSome then
      ({ p' with request := none, granted := grantOf m }, r.2)
    else (p', r.2)

/-! ## The nodes together -/

def protocol (nodeList : Node → List Node) :
    Network.Protocol Node (Peer Node T) (Msg Node) (Action Node T) where
  dest := Msg.dest
  act := fun i p a => act (nodeList i) i p a
  handle := handle

/-- The nodes with their threads, and the messages in flight. -/
abbrev Net (Node T : Type) := Network.Net Node (Peer Node T) (Msg Node)

abbrev Event (Node T : Type) := Network.Event Node (Msg Node) (Action Node T)

/-- One step of the page lock. -/
def step (nodeList : Node → List Node) : Net Node T → Event Node T → Option (Net Node T) :=
  Network.step (protocol nodeList)

/-- All nodes after `init_core`, with `owner` as the node that has the token. -/
def initNet (owner : Node) : Net Node T :=
  ⟨fun _ => ⟨⟨PageLock.initCore owner, .idle, 0⟩, fun _ => .idle, none, none, none⟩, []⟩

/-! ## What `ask_lock` is for -/

/-- `k` is at least `m`. -/
def atLeast (m k : LockType) : Bool := m = .read || k = .write

/-- The node `i` has the page for `k` among all nodes: a writer has the token and nobody else has
been granted anything, next to a reader nobody has been granted `WRITE`. -/
def Backed (s : Net Node T) (i : Node) : LockType → Prop
  | .write => (s.node i).peer.core.haveToken = i ∧ ∀ j, j ≠ i → (s.node j).granted = none
  | .read => ∀ j, (s.node j).granted ≠ some .write

/-- A call of `ask_lock(m)` at `i` that has just returned has the page: the node has been granted a
mode that is at least `m` and has not released it, and `get_lock_status` tells that mode. -/
def ReturnsGranted (s : Net Node T) (i : Node) : Prop :=
  ∀ r, (s.node i).returned = some r → ∃ k, (s.node i).granted = some k ∧
    atLeast r.mode k = true ∧ (s.node i).peer.core.mode = k.toStatus ∧ Backed s i k

/-! ## The condition on the calls -/

/-- A thread of the node waits in `ask_lock`, and has not been signalled. -/
def Peer.waiting (p : Peer Node T) (t : T) : Bool :=
  match p.call t with
  | .semWait => true
  | .condWait _ => !p.peer.core.predicate
  | _ => false

/-- When `handle_local_UNLOCK(page, fr)` at `i` hands the token over to the `WRITE` request of
another node at the head of the list, no thread of `i` waits for a `WRITE` lock and no `READ`
request is left behind in the list. -/
def safeRelease (i : Node) (p : Peer Node T) (fr : Node) : Prop :=
  match (PageLock.removeRequest p.peer.core fr).request with
  | ⟨.write, q⟩ :: rest =>
    q = i ∨ (∀ t, p.call t = .condWait .write → p.peer.core.predicate = true) ∧
      ∀ r ∈ rest, r.mode = .write
  | _ => True

/-- `ask_lock(m)` is called on a locked page only while no thread of the node waits in `ask_lock`
and, for `WRITE`, only if the lock status is not `READING`; `unlock` is called only while no thread
of the node is in `ask_lock`; every hand-over is safe; `leave_core` is not called. -/
def orderly (s : Net Node T) : Event Node T → Prop
  | .act i (.askLock _ m) =>
    (s.node i).peer.core.mode = .none ∨
      (∀ t, (s.node i).waiting t = false) ∧ (m = .write → (s.node i).peer.core.mode ≠ .reading)
  | .act i (.unlock _) =>
    (∀ t, (s.node i).call t = .idle) ∧
      ((s.node i).peer.core.mode = .reading → (s.node i).peer.core.haveToken = i →
        safeRelease i (s.node i) i)
  | .act _ (.leaveCore _ _) => False
  | .deliver (.unlock i sender _ _) =>
    (s.node i).peer.core.haveToken = i → safeRelease i (s.node i) sender
  | _ => True

instance [Fintype T] (i : Node) (p : Peer Node T) (fr : Node) : Decidable (safeRelease i p fr) :=
  match h : (PageLock.removeRequest p.peer.core fr).request with
  | ⟨.write, q⟩ :: rest =>
    decidable_of_iff (q = i ∨ (∀ t, p.call t = .condWait .write → p.peer.core.predicate = true) ∧
      ∀ r ∈ rest, r.mode = .write) (by simp [safeRelease, h])
  | ⟨.read, _⟩ :: _ => isTrue (by simp [safeRelease, h])
  | [] => isTrue (by simp [safeRelease, h])

instance [Fintype T] (s : Net Node T) : ∀ e : Event Node T, Decidable (orderly s e)
  | .act i (.askLock _ m) => inferInstanceAs (Decidable ((s.node i).peer.core.mode = .none ∨
      (∀ t, (s.node i).waiting t = false) ∧ (m = .write → (s.node i).peer.core.mode ≠ .reading)))
  | .act i (.unlock _) => inferInstanceAs (Decidable ((∀ t, (s.node i).call t = .idle) ∧
      ((s.node i).peer.core.mode = .reading → (s.node i).peer.core.haveToken = i →
        safeRelease i (s.node i) i)))
  | .act _ (.leaveCore _ _) => isFalse id
  | .deliver (.unlock i sender _ _) => inferInstanceAs (Decidable
      ((s.node i).peer.core.haveToken = i → safeRelease i (s.node i) sender))
  | .act _ (.resume _) => isTrue trivial
  | .act _ (.semWake _) => isTrue trivial
  | .act _ (.leaveFinish _) => isTrue trivial
  | .deliver (.askLock _ _ _ _) => isTrue trivial
  | .deliver (.getLock _ _ _ _) => isTrue trivial
  | .deliver (.sendState _ _ _) => isTrue trivial
  | .deliver (.delegate _ _ _) => isTrue trivial
  | .deliver (.delegateAck _ _) => isTrue trivial

/-! ## The threads of a node as one -/

/-- The application thread of the node, if all its threads are taken as one. -/
def Peer.thread (p : Peer Node T) : PageLock.Thread Node :=
  match p.request, p.granted with
  | some k, _ => .condWait k
  | none, some k => if p.peer.core.predicate then .condWait k else .returned k
  | none, none => if p.peer.core.mode = .none then .idle else .semWait

/-- The node of `Psar.Core.PageLock` that the node is to the others. -/
def Peer.single (p : Peer Node T) : PageLock.Peer Node := { p.peer with thread := p.thread }

/-- The nodes of `Psar.Core.PageLock`. -/
def single (s : Net Node T) : PageLock.Net Node := s.project Peer.single some

end Threads
