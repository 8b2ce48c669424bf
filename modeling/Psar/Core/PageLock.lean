import Psar.Library.Network

/-!
# The page lock of `core.c`

Every page is protected by a reader/writer lock that the nodes pass around. This file follows one
page: `CoreInfo` is the entry of `core_info` for it, and each function below is the part of the
source function of the same name that runs under the page mutex, as a function of the entry that
returns the new entry and the messages sent. The field `page` of the messages is the page itself and
is left out.

`request` is the kernel-style list of `list.h`, the entry after the list head first: `list_add`
inserts there, `list_for_each_entry` walks the list from there and `list_for_each_entry_reverse`
starts at the other end.
-/

namespace PageLock

variable {Node : Type} [DecidableEq Node]

/-- `enum lock_type`. -/
inductive LockType where
  | read
  | write
  deriving DecidableEq, Repr

/-- `enum lock_status`: `READING = READ`, `WRITING = WRITE`, `NONE`. -/
inductive LockStatus where
  | reading
  | writing
  | none
  deriving DecidableEq, Repr

/-- The cast `(enum lock_status)request_mode`. -/
def LockType.toStatus : LockType → LockStatus
  | .read => .reading
  | .write => .writing

/-- `struct request`. -/
structure Request (Node : Type) where
  mode : LockType
  who : Node
  deriving DecidableEq, Repr

/-- `struct core_info`, the entry of one page. The mutex and the condition of `cond` are the steps
of the model; its predicate is a field. -/
structure CoreInfo (Node : Type) where
  mode : LockStatus
  request : List (Request Node)
  haveToken : Node
  /-- The value of the semaphore `write_auto_lock`. -/
  writeAutoLock : ℕ
  /-- `cond.predicate`. -/
  predicate : Bool
  deriving DecidableEq, Repr

/-- The messages about the page. `sender` is the header field that `send_message` overwrites with
the node that sends, at every hop. -/
inductive Msg (Node : Type) where
  /-- `ASK_LOCK`. -/
  | askLock (dest sender initiator : Node) (mode : LockType)
  /-- `GET_LOCK`. -/
  | getLock (dest sender initiator : Node) (mode : LockType)
  /-- `UNLOCK`. -/
  | unlock (dest sender initiator : Node) (mode : LockType)
  /-- `SEND_STATE`: the request list of the page, if the sender holds its token. -/
  | sendState (dest sender : Node) (requests : Option (List (Request Node)))
  /-- `DELEGATE`. -/
  | delegate (dest sender delegate : Node)
  /-- `DELEGATE_ACK`. -/
  | delegateAck (dest sender : Node)
  deriving DecidableEq, Repr

/-- The node a message is sent to. -/
def Msg.dest : Msg Node → Node
  | .askLock d _ _ _ => d
  | .getLock d _ _ _ => d
  | .unlock d _ _ _ => d
  | .sendState d _ _ => d
  | .delegate d _ _ => d
  | .delegateAck d _ => d

/-! ## The request list -/

def addRequest (c : CoreInfo Node) (who : Node) (mode : LockType) : CoreInfo Node :=
  { c with request := ⟨mode, who⟩ :: c.request }

def removeRequest (c : CoreInfo Node) (who : Node) : CoreInfo Node :=
  { c with request := c.request.eraseP fun r => r.who = who }

def cleanRequests (c : CoreInfo Node) : CoreInfo Node :=
  { c with request := [] }

def findLastWriter (c : CoreInfo Node) : Option (Request Node) :=
  c.request.reverse.find? fun r => r.mode = .write

/-- `unserialize_requests` on the entries that `serialize_requests` wrote, in their order. -/
def unserializeRequests (c : CoreInfo Node) (rs : List (Request Node)) : CoreInfo Node :=
  rs.foldl (fun c r => addRequest c r.who r.mode) c

/-! ## Releasing the lock -/

def handleLocalUnlock (me : Node) (c : CoreInfo Node) (fr : Node) :
    CoreInfo Node × List (Msg Node) :=
  let c := removeRequest c fr
  match c.request with
  | [] => (c, [])
  | first :: _ =>
    match first.mode with
    | .write =>
      if first.who ≠ me then
        (removeRequest { c with haveToken := first.who } first.who,
          [.getLock first.who me me .write])
      else
        -- the branch `unlock me` of the source is empty
        (removeRequest c first.who, [])
    | .read => (c, [])

/-- `none` is the result `-1`. -/
def unlockInternal (me : Node) (c : CoreInfo Node) : Option (CoreInfo Node × List (Msg Node)) :=
  match c.mode with
  | .writing =>
    match c.request with
    | [] => some ({ c with mode := .none }, [])
    | first :: _ =>
      match first.mode with
      | .read =>
        some ({ c with mode := .none },
          (c.request.takeWhile fun r => r.mode = .read).map fun r => .getLock r.who me me .read)
      | .write =>
        some ({ removeRequest { c with haveToken := first.who } first.who with mode := .none },
          [.getLock first.who me me .write])
  | .reading =>
    if c.haveToken = me then
      let r := handleLocalUnlock me c me
      some ({ r.1 with mode := .none }, r.2)
    else
      some ({ c with mode := .none }, [.unlock c.haveToken me me .read])
  | .none => none

/-! ## The handlers -/

def handleAskLock (me : Node) (c : CoreInfo Node) (initiator : Node) (mode : LockType) :
    CoreInfo Node × List (Msg Node) :=
  match findLastWriter c with
  | some lastWriter =>
    if lastWriter.who = me then (addRequest c initiator mode, [])
    else (c, [.askLock lastWriter.who me initiator mode])
  | none =>
    if c.haveToken = me then
      if c.mode = .none then
        match mode with
        | .write =>
          if c.request = [] then
            ({ c with haveToken := initiator }, [.getLock initiator me me .write])
          else (addRequest c initiator mode, [])
        | .read => (addRequest c initiator mode, [.getLock initiator me me mode])
      else
        (addRequest c initiator mode,
          if c.mode = .reading ∧ mode = .read then [.getLock initiator me me mode] else [])
    else
      (if mode = .write then { c with haveToken := initiator } else c,
        [.askLock c.haveToken me initiator mode])

def handleGetLock (me : Node) (c : CoreInfo Node) (sender : Node) (mode : LockType) :
    CoreInfo Node :=
  let c :=
    if c.mode ≠ .none then
      match mode with
      | .write => { c with haveToken := me }
      | .read => { c with haveToken := sender }
    else c
  { c with predicate := true }

def handleUnlock (me : Node) (c : CoreInfo Node) (sender initiator : Node) (mode : LockType) :
    CoreInfo Node × List (Msg Node) :=
  if c.haveToken ≠ me then (c, [.unlock c.haveToken me initiator mode])
  else handleLocalUnlock me c sender

/-- The entry of the page in the loop of `handle_DELEGATE`. -/
def handleDelegate (c : CoreInfo Node) (sender delegate : Node) : CoreInfo Node :=
  { c with
    haveToken := if c.haveToken = sender then delegate else c.haveToken
    request := c.request.filter fun r => r.who ≠ sender }

/-- The entry of the page in the loop of `handle_SEND_STATE`. -/
def handleSendState (c : CoreInfo Node) (requests : Option (List (Request Node))) : CoreInfo Node :=
  match requests with
  | some rs => unserializeRequests c rs
  | none => c

/-! ## One node -/

/-- The application thread of a node. -/
inductive Thread (Node : Type) where
  /-- Not in a call, the page not locked by it. -/
  | idle
  /-- In `ask_lock`, at the `sem_wait` on `write_auto_lock`. -/
  | semWait
  /-- In `ask_lock(m)`, in the waiting loop of `send_wait_message_nolock`. -/
  | condWait (m : LockType)
  /-- An `ask_lock` has returned and `unlock` has not been called since; `m` is `WRITE` when one of
  the calls that returned asked for it. -/
  | returned (m : LockType)
  /-- In `leave_core(delegate)`, waiting for the acknowledgements; `locked` tells whether the page
  mutex is kept. -/
  | leaving (delegate : Node) (locked : Bool)
  /-- `leave_core` has released the pages. -/
  | left
  deriving DecidableEq, Repr

/-- A node: its entry for the page, its application thread and `DELEGATE_ACK_counter`. -/
structure Peer (Node : Type) where
  core : CoreInfo Node
  thread : Thread Node
  delegateAckCounter : ℤ
  deriving DecidableEq, Repr

/-- What the application thread of a node does. -/
inductive Action (Node : Type) where
  /-- The call of `ask_lock`, up to its return or its first wait. -/
  | askLock (m : LockType)
  /-- The end of the waiting loop of `send_wait_message_nolock`. -/
  | resume
  /-- The end of the `sem_wait`. -/
  | semWake
  /-- The call of `unlock`. -/
  | unlock
  /-- The call of `leave_core`, up to the wait for the acknowledgements. -/
  | leaveCore (delegate : Node)
  /-- The rest of `leave_core`, once all acknowledgements are there. -/
  | leaveFinish
  deriving DecidableEq, Repr

/-- The stronger of two lock types. -/
def LockType.max : LockType → LockType → LockType
  | .read, .read => .read
  | _, _ => .write

/-- `ask_lock`, up to its return or its first wait. The waiting loop is left at once when the
predicate is already set. -/
def askLockBody (me : Node) (c : CoreInfo Node) (m : LockType) :
    CoreInfo Node × Thread Node × List (Msg Node) :=
  let c := { c with mode := m.toStatus }
  if c.haveToken = me then
    if c.request ≠ [] ∨ m = .read then
      (addRequest c me m, if m = .write then .semWait else .returned m, [])
    else (c, .returned m, [])
  else if c.predicate then
    ({ c with predicate := false }, .returned m, [.askLock c.haveToken me me m])
  else (c, .condWait m, [.askLock c.haveToken me me m])

/-- The strongest lock type asked for by the calls that have returned, with one more call of
`ask_lock(m)`. -/
def Thread.held (m : LockType) : Thread Node → LockType
  | .returned m' => m.max m'
  | _ => m

/-- `ask_lock`. A call on a page that is already locked returns without doing anything. The flag
`leaving` is only set while the application thread is in `leave_core`. -/
def askLock (me : Node) (p : Peer Node) (m : LockType) : Option (Peer Node × List (Msg Node)) :=
  match p.thread with
  | .idle | .returned _ =>
    if p.core.mode = .none then
      let r := askLockBody me p.core m
      some ({ p with core := r.1, thread := r.2.1 }, r.2.2)
    else some ({ p with thread := .returned (p.thread.held m) }, [])
  | _ => none

/-- `unlock`; a failing assertion ends the program and is no step. -/
def unlock (me : Node) (p : Peer Node) : Option (Peer Node × List (Msg Node)) :=
  match p.thread with
  | .returned _ =>
    (unlockInternal me p.core).map fun r => ({ p with core := r.1, thread := .idle }, r.2)
  | _ => none

/-- The first part of `leave_core`: a page in use is unlocked, the mutex of the page is kept if the
node has its token, and the request list and the new delegate are announced. -/
def leaveCore (me : Node) (nodeList : List Node) (p : Peer Node) (delegate : Node) :
    Option (Peer Node × List (Msg Node)) :=
  match p.thread with
  | .idle | .returned _ =>
    let r := if p.core.mode ≠ .none then (unlockInternal me p.core).getD (p.core, [])
      else (p.core, [])
    let locked : Bool := r.1.haveToken = me
    some ({ core := r.1, thread := .leaving delegate locked,
            delegateAckCounter := p.delegateAckCounter + nodeList.length },
      r.2 ++ .sendState delegate me (if locked then some r.1.request else none) ::
        nodeList.map fun n => .delegate n me delegate)
  | _ => none

/-- The second part of `leave_core`, after `wait_on_counter(&DELEGATE_ACK_counter)`. -/
def leaveFinish (me : Node) (p : Peer Node) : Option (Peer Node × List (Msg Node)) :=
  match p.thread with
  | .leaving delegate _ =>
    if p.delegateAckCounter = 0 then
      some ({ p with
        core :=
          if p.core.haveToken = me then
            { cleanRequests { p.core with haveToken := delegate } with mode := .none }
          else p.core
        thread := .left }, [])
    else none
  | _ => none

/-- What a node does on its own; `nodeList` is its `node_list`. -/
def act (nodeList : List Node) (me : Node) (p : Peer Node) :
    Action Node → Option (Peer Node × List (Msg Node))
  | .askLock m => askLock me p m
  | .resume =>
    match p.thread with
    | .condWait m =>
      if p.core.predicate then
        some ({ p with core := { p.core with predicate := false }, thread := .returned m }, [])
      else none
    | _ => none
  | .semWake =>
    match p.thread with
    | .semWait =>
      if 0 < p.core.writeAutoLock then
        some ({ p with
          core := { p.core with writeAutoLock := p.core.writeAutoLock - 1 }
          thread := .returned .write }, [])
      else none
    | _ => none
  | .unlock => unlock me p
  | .leaveCore delegate => leaveCore me nodeList p delegate
  | .leaveFinish => leaveFinish me p

/-- The page mutex is kept by `leave_core`. -/
def Peer.locked (p : Peer Node) : Bool :=
  match p.thread with
  | .leaving _ locked => locked
  | _ => false

/-- A handler that takes the page mutex: it waits while `leave_core` keeps it. -/
def underMutex (p : Peer Node) (r : CoreInfo Node × List (Msg Node)) :
    Option (Peer Node × List (Msg Node)) :=
  if p.locked then none else some ({ p with core := r.1 }, r.2)

/-- The handler thread of one message. After `leave_core` has released the page mutex, the handlers
that were waiting for it still run. -/
def handle (me : Node) (p : Peer Node) : Msg Node → Option (Peer Node × List (Msg Node))
  | .askLock _ _ initiator mode => underMutex p (handleAskLock me p.core initiator mode)
  | .getLock _ sender _ mode => underMutex p (handleGetLock me p.core sender mode, [])
  | .unlock _ sender initiator mode => underMutex p (handleUnlock me p.core sender initiator mode)
  | .sendState _ _ requests => underMutex p (handleSendState p.core requests, [])
  | .delegate _ sender delegate =>
    underMutex p (handleDelegate p.core sender delegate, [.delegateAck sender me])
  | .delegateAck _ _ => some ({ p with delegateAckCounter := p.delegateAckCounter - 1 }, [])

/-! ## The nodes together -/

/-- The nodes of the page lock; `nodeList n` is the `node_list` of `n`. -/
def protocol (nodeList : Node → List Node) :
    Network.Protocol Node (Peer Node) (Msg Node) (Action Node) where
  dest := Msg.dest
  act := fun i p a => act (nodeList i) i p a
  handle := handle

/-- The nodes of the page lock and the messages in flight. -/
abbrev Net (Node : Type) := Network.Net Node (Peer Node) (Msg Node)

/-- A step of the page lock. -/
abbrev Event (Node : Type) := Network.Event Node (Msg Node) (Action Node)

/-- One step of the page lock. -/
def step (nodeList : Node → List Node) : Net Node → Event Node → Option (Net Node) :=
  Network.step (protocol nodeList)

/-- The entry of the page after `init_core(nbpages, have_token)`. -/
def initCore (haveToken : Node) : CoreInfo Node :=
  ⟨.none, [], haveToken, 0, false⟩

/-- All nodes after `init_core`, with `owner` as the node that has the token. -/
def initNet (owner : Node) : Net Node :=
  ⟨fun _ => ⟨initCore owner, .idle, 0⟩, []⟩

end PageLock
