import Psar.Sigsegv.Protection
import Psar.Core.Exclusion
import Psar.DataTransfer.Coherence
import Psar.Library.Simulation

/-!
# The page lock and the page transfer together

In the page transfer by itself the lock may be granted at any time, and what the lock layer promises
is a condition on runs. Here the lock layer is the page lock of `core.c`: a step of the two together
is a step of the page lock, and it is followed by steps of the page transfer in which `ask_lock`
returns when the page lock says so.

`exclude_others` protects the page before it calls `ask_lock` or `unlock`. In between a handler may
reset the protection, so the protection of the page is the same in both only while the page is
locked and not being unlocked.
-/

namespace Sigsegv

open PageLock (LockType)

variable {Node C : Type} [DecidableEq Node]

/-! ## The page lock -/

def Msg.lock? : Msg Node C → Option (PageLock.Msg Node)
  | .lock m => some m
  | .data _ => none

def Msg.data? : Msg Node C → Option (DataTransfer.Msg Node C)
  | .lock _ => none
  | .data m => some m

/-- The nodes and the messages of the page lock. -/
def lockNet (s : Net Node C) : PageLock.Net Node := s.project Peer.lock Msg.lock?

/-- What the application thread does to the page lock. -/
def lockActions (p : Peer Node C) : Action C → List (PageLock.Action Node)
  | .askLock =>
    match p.call with
    | some (.askLock k) => [.askLock k]
    | _ => []
  | .resume => [.resume]
  | .semWake => [.semWake]
  | .unlock => [.unlock]
  | _ => []

/-- The steps that the page lock takes. -/
def lockEvents (s : Net Node C) : Event Node C → List (PageLock.Event Node)
  | .act i a => (lockActions (s.node i) a).map (.act i)
  | .deliver (.lock m) => [.deliver m]
  | .deliver (.data _) => []

/-! ## The page transfer -/

/-- `ask_lock(k)` returns without a wait. -/
def returnsAtOnce (me : Node) (p : Peer Node C) (k : LockType) : Bool :=
  (PageLock.askLockBody me p.lock.core k).2.1 = .returned k

/-- What the application thread does to the page transfer. A page that is locked already is only
protected, and `ask_lock` on a page that is not locked may return at once. -/
def dataActions (me : Node) (p : Peer Node C) : Action C → List (DataTransfer.Action C)
  | .lock k => if p.data.mode = .none then [] else [.lock k]
  | .askLock =>
    match p.call with
    | some (.askLock k) =>
      if p.data.mode = .none then
        if returnsAtOnce me p k then [.lock k, .grant] else [.lock k]
      else []
    | _ => []
  | .resume => [.grant]
  | .semWake => [.grant]
  | .release => []
  | .unlock => [.unlock]
  | .sigsevHandler writing => [.sigsevHandler writing]
  | .wake => [.wake]
  | .sigsevReturn =>
    if p.data.thread = .synced true ∧ p.data.mode = .writing then [.protect, .publish]
    else [.protect]
  | .store page => [.write page]
  | .load => if p.data.mode = .none then [] else [.read p.data.content]

/-- The steps that the page transfer takes. -/
def dataEvents (s : Net Node C) : Event Node C → List (DataTransfer.Event Node C)
  | .act i a => (dataActions i (s.node i) a).map (.act i)
  | .deliver (.lock _) => []
  | .deliver (.data m) => [.deliver m]

/-- The steps of the page transfer that follow the run `es` from `s`. -/
def dataRun [DecidableEq C] (nodeList : Node → List Node) (s : Net Node C)
    (es : List (Event Node C)) : List (DataTransfer.Event Node C) :=
  Network.translate (step nodeList) dataEvents s es

/-! ## Which steps are safe -/

/-- Every hand-over of the page lock is safe, and no node in mode `READING` calls
`ask_lock(WRITE)`. -/
def lockInOrder (s : Net Node C) (e : Event Node C) : Bool :=
  (lockEvents s e).all (PageLock.inOrder (lockNet s))

/-- An `INVALIDATION` to `n` is in flight. -/
def invalidated (s : Net Node C) (n : Node) : Bool :=
  s.msgs.any fun m => match m with
    | .data (.invalidation d _) => d = n
    | _ => false

/-- A node does not rely on its copy while an `INVALIDATION` to it is in flight: `ask_lock` does not
return from its wait with the page unprotected, `sync_page` does not return at once, and
`ASK_PAGE_handler` does not answer. -/
def upToDate (s : Net Node C) : Event Node C → Bool
  | .act i .resume => (s.node i).data.prot = .none ∨ invalidated s i = false
  | .act i (.sigsevHandler _) =>
    (s.node i).data.owner ≠ i ∧ (s.node i).data.state = false ∨ invalidated s i = false
  | .deliver (.data (.askPage d _)) => (s.node d).data.owner ≠ d ∨ invalidated s d = false
  | _ => true

/-- The content that the last store has left, when it was `v` before the step. -/
def lastStore (v : C) : Event Node C → C
  | .act _ (.store page) => page
  | _ => v

/-! ## The relation -/

/-- The application thread waits in `ask_lock`. -/
def waiting : PageLock.Thread Node → Bool
  | .semWait => true
  | .condWait _ => true
  | _ => false

/-- Where the application thread of a node can be. -/
structure CallLocal (p : Peer Node C) : Prop where
  running : p.call = none → p.data.thread = .running
  waits : waiting p.lock.thread = true → p.call = none
  asking : ∀ k, p.call = some (.askLock k) →
    p.data.thread = .running ∧ (p.data.mode = .none → p.data.prot = .none)
  unlocking : p.call = some .unlock → p.data.thread = .running

/-- The node in the page transfer `d` is the node `p`. -/
structure Agrees (p : Peer Node C) (d : DataTransfer.Peer Node C) : Prop where
  owner : d.owner = p.data.owner
  state : d.state = p.data.state
  predicate : d.predicate = p.data.predicate
  content : d.content = p.data.content
  mode : d.mode = p.data.mode
  thread : d.thread = if waiting p.lock.thread then .asking else p.data.thread
  prot : p.data.mode ≠ .none → p.call ≠ some .unlock → d.prot = p.data.prot

/-- The page transfer `t` has followed the two together. -/
structure Follows (s : Net Node C) (t : DataTransfer.Net Node C) : Prop where
  agrees : ∀ n, Agrees (s.node n) (t.node n)
  msgs : t.msgs = s.msgs.filterMap Msg.data?

/-- The invariant of the two together. -/
structure Joined [Fintype Node] (s : Net Node C) : Prop where
  lock : PageLock.Inv (lockNet s)
  peer : ∀ n, PeerInv n (s.node n)
  call : ∀ n, CallLocal (s.node n)

end Sigsegv
