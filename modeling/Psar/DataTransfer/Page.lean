import Psar.Core.PageLock

/-!
# The transfer of one page

A page has an owner, which answers `ASK_PAGE`; the other nodes keep a guess at who that is and pass
the request on. A node that writes makes itself the owner and invalidates the copies of all other
nodes. This file follows one page through `data_transfer.c`, `data_transfer_utils.h` and
`sigsegv.c`, with one application thread at every node: `Peer` holds the entries of `page_owners`,
`page_state` and `page_cv` for the page, its content and protection at the node, and where the
thread is. A handler is one step, and so is each part of `sigsev_handler` that the thread runs
without waiting.

When the lock layer lets a thread into its critical section is not decided here: `grant` may be
taken at any time, and what the lock layer promises is a condition on runs.
-/

namespace DataTransfer

open PageLock (LockType LockStatus)

variable {Node C : Type} [DecidableEq Node]

/-- The protection of the page: `PROT_NONE`, `PROT_READ` or `PROT_READ | PROT_WRITE`. -/
inductive Prot where
  | none
  | read
  | readWrite
  deriving DecidableEq, Repr

/-- An access that the protection lets through without a `SIGSEGV`. -/
def Prot.allows (writing : Bool) : Prot → Bool
  | .none => false
  | .read => !writing
  | .readWrite => true

/-- Where the application thread of a node is. -/
inductive Thread where
  /-- In the program itself. -/
  | running
  /-- In `ask_lock`, before the lock is granted. -/
  | asking
  /-- In `sync_page`, waiting for the page; `writing` is `curr_writing` of `sigsev_handler`. -/
  | syncing (writing : Bool)
  /-- In `sigsev_handler`, back from `sync_page`. -/
  | synced (writing : Bool)
  /-- In `sigsev_handler`, with the write permission set and `set_new_owner` still to come. -/
  | writable
  deriving DecidableEq, Repr

/-- The state of one node. -/
structure Peer (Node C : Type) where
  /-- `page_owners[page_id]`. -/
  owner : Node
  /-- `page_state[page_id]`. -/
  state : Bool
  /-- `page_cv[page_id].predicate`. -/
  predicate : Bool
  content : C
  prot : Prot
  /-- What `get_lock_status` returns. -/
  mode : LockStatus
  thread : Thread
  deriving DecidableEq, Repr

/-- The messages about the page. -/
inductive Msg (Node C : Type) where
  /-- `INVALIDATION`. -/
  | invalidation (dest sender : Node)
  /-- `ASK_PAGE`. -/
  | askPage (dest requester : Node)
  /-- `RECV_PAGE`. -/
  | recvPage (dest owner : Node) (page : C)
  deriving DecidableEq, Repr

/-- The node a message is sent to. -/
def Msg.dest : Msg Node C → Node
  | .invalidation d _ => d
  | .askPage d _ => d
  | .recvPage d _ _ => d

/-! ## The protection of the page -/

def memoryProtect (p : Peer Node C) (prot : Prot) : Peer Node C :=
  { p with prot := prot }

def memoryLock (p : Peer Node C) : Peer Node C :=
  memoryProtect p .none

def memoryLockReset (p : Peer Node C) : Peer Node C :=
  memoryProtect p (match p.mode with
    | .none => .none
    | .reading => .read
    | .writing => .read)

/-! ## The owner of the page -/

def setNewOwner (me : Node) (p : Peer Node C) (newOwner : Node) : Peer Node C :=
  { p with owner := newOwner, state := newOwner = me }

/-- `send_invalidation` to the nodes of the `node_list`. -/
def sendInvalidation (me : Node) (nodeList : List Node) : List (Msg Node C) :=
  nodeList.map fun n => .invalidation n me

def invalidationHandler (me : Node) (p : Peer Node C) (sender : Node) : Peer Node C :=
  setNewOwner me (memoryLock p) sender

def signalPageNoLock (p : Peer Node C) : Peer Node C :=
  { p with predicate := true, state := true }

/-- `update_page`, when the page comes with `RECV_PAGE`. -/
def updatePage (p : Peer Node C) (owner : Node) (page : C) : Peer Node C :=
  let p := memoryLockReset { p with owner := owner, content := page }
  if p.predicate then p else signalPageNoLock p

/-- `transfer_page`; `init_PAGE_message` resets the protection after it has copied the page. -/
def transferPage (me : Node) (p : Peer Node C) (requester : Node) :
    Peer Node C × List (Msg Node C) :=
  (memoryLockReset p, [.recvPage requester me p.content])

def askPageHandler (me : Node) (p : Peer Node C) (requester : Node) :
    Peer Node C × List (Msg Node C) :=
  if p.owner = me then transferPage me p requester else (p, [.askPage p.owner requester])

/-! ## The page fault -/

/-- `sync_page`, up to its return or its wait. -/
def syncPage (me : Node) (p : Peer Node C) (writing : Bool) : Peer Node C × List (Msg Node C) :=
  if p.owner = me ∨ p.state then ({ p with thread := .synced writing }, [])
  else ({ p with predicate := false, thread := .syncing writing }, [.askPage p.owner me])

/-- `sigsev_handler` up to `sync_page`, on an access that the protection does not let through. The
assertions abort the program outside the critical section and on a write in a `READ` section. -/
def sigsevHandler (me : Node) (p : Peer Node C) (writing : Bool) :
    Option (Peer Node C × List (Msg Node C)) :=
  if p.thread = .running ∧ p.prot.allows writing = false ∧ p.mode ≠ .none ∧
      (p.mode = .reading → writing = false) then
    some (syncPage me p writing)
  else none

/-- The thread in `sync_page` finds the predicate set and returns. -/
def wake (p : Peer Node C) : Option (Peer Node C) :=
  match p.thread with
  | .syncing writing =>
    if p.predicate then some { p with predicate := true, thread := .synced writing } else none
  | _ => none

/-- `sigsev_handler`: `memory_protect` after the page has been synced. -/
def protect (p : Peer Node C) : Option (Peer Node C) :=
  match p.thread with
  | .synced writing =>
    if writing ∧ p.mode = .writing then
      some { memoryProtect p .readWrite with thread := .writable }
    else some { memoryProtect p .read with thread := .running }
  | _ => none

/-- `sigsev_handler`: `set_new_owner` and `send_invalidation` at the end of a write fault. -/
def publish (me : Node) (nodeList : List Node) (p : Peer Node C) :
    Option (Peer Node C × List (Msg Node C)) :=
  if p.thread = .writable then
    some ({ setNewOwner me p me with thread := .running }, sendInvalidation me nodeList)
  else none

/-! ## The critical section and the accesses -/

/-- `lock_read` and `lock_write`: `exclude_others` protects the page and calls `ask_lock`, which
does nothing if the node already has the lock. -/
def lock (p : Peer Node C) (k : LockType) : Option (Peer Node C) :=
  if p.thread = .running then
    if p.mode = .none then some { memoryLock p with mode := k.toStatus, thread := .asking }
    else some (memoryLock p)
  else none

/-- `ask_lock` returns. -/
def grant (p : Peer Node C) : Option (Peer Node C) :=
  if p.thread = .asking then some { p with thread := .running } else none

/-- `unlock_read` and `unlock_write`. -/
def unlock (p : Peer Node C) : Option (Peer Node C) :=
  if p.thread = .running ∧ p.mode ≠ .none then some { memoryLock p with mode := .none } else none

/-- A write inside the critical section that leaves `page` as the content. -/
def write (p : Peer Node C) (page : C) : Option (Peer Node C) :=
  if p.thread = .running ∧ p.mode ≠ .none ∧ p.prot.allows true then
    some { p with content := page }
  else none

/-- A read inside the critical section that finds `page` as the content. -/
def read [DecidableEq C] (p : Peer Node C) (page : C) : Option (Peer Node C) :=
  if p.thread = .running ∧ p.mode ≠ .none ∧ p.prot.allows false ∧ p.content = page then some p
  else none

/-! ## The nodes together -/

/-- What the application thread of a node does. -/
inductive Action (C : Type) where
  | lock (k : LockType)
  | grant
  | unlock
  | sigsevHandler (writing : Bool)
  | wake
  | protect
  | publish
  | write (page : C)
  | read (page : C)
  deriving DecidableEq, Repr

/-- One step of the application thread; `nodeList` is the `node_list` of the node. -/
def act [DecidableEq C] (nodeList : List Node) (me : Node) (p : Peer Node C) :
    Action C → Option (Peer Node C × List (Msg Node C))
  | .lock k => (lock p k).map fun p => (p, [])
  | .grant => (grant p).map fun p => (p, [])
  | .unlock => (unlock p).map fun p => (p, [])
  | .sigsevHandler writing => sigsevHandler me p writing
  | .wake => (wake p).map fun p => (p, [])
  | .protect => (protect p).map fun p => (p, [])
  | .publish => publish me nodeList p
  | .write page => (write p page).map fun p => (p, [])
  | .read page => (read p page).map fun p => (p, [])

/-- The handler of one message. -/
def handle (me : Node) (p : Peer Node C) : Msg Node C → Peer Node C × List (Msg Node C)
  | .invalidation _ sender => (invalidationHandler me p sender, [])
  | .askPage _ requester => askPageHandler me p requester
  | .recvPage _ owner page => (updatePage p owner page, [])

/-- The nodes that share the page; `nodeList n` is the `node_list` of `n`. -/
def protocol [DecidableEq C] (nodeList : Node → List Node) :
    Network.Protocol Node (Peer Node C) (Msg Node C) (Action C) where
  dest := Msg.dest
  act := fun i => act (nodeList i) i
  handle := fun i p m => some (handle i p m)

/-- The nodes and the messages in flight. -/
abbrev Net (Node C : Type) := Network.Net Node (Peer Node C) (Msg Node C)

/-- A step of the data transfer. -/
abbrev Event (Node C : Type) := Network.Event Node (Msg Node C) (Action C)

/-- One step of the data transfer. -/
def step [DecidableEq C] (nodeList : Node → List Node) :
    Net Node C → Event Node C → Option (Net Node C) :=
  Network.step (protocol nodeList)

/-- A node after `init_sigsegv`, `init_core` and `init_data_transfer`: `owners` is `none` in
`Init_DSM`, and the entry that the contact sent in `join_DSM`. -/
def initDataTransfer (me : Node) (owners : Option Node) (page : C) : Peer Node C where
  owner := owners.getD me
  state := owners.isNone
  predicate := true
  content := page
  prot := if owners.isNone then .read else .none
  mode := .none
  thread := .running

/-- The node `o` has called `Init_DSM` and all others have joined; `page n` is what the memory of
`n` holds. -/
def initNet (o : Node) (page : Node → C) : Net Node C :=
  ⟨fun n => initDataTransfer n (if n = o then none else some o) (page n), []⟩

/-! ## What the lock layer promises -/

/-- The node is in its critical section. -/
def Peer.inside (p : Peer Node C) : Bool := p.mode ≠ .none ∧ p.thread ≠ .asking

/-- The lock is granted to a writer when no other node is in its critical section, and to a reader
when all others there are readers. -/
def exclusive [Fintype Node] (s : Net Node C) : Event Node C → Bool
  | .act i .grant => ∀ j, j ≠ i → (s.node j).inside →
      (s.node i).mode = .reading ∧ (s.node j).mode = .reading
  | _ => true

end DataTransfer
