import Psar.Core.PageLock

/-!
# The handlers of a node that leaves

`leave_core` waits for the acknowledgements of `DELEGATE` and then for `handler_counter`, and frees
`core_info`. This file follows the node that leaves, with all its pages: the messages of the lock
layer on their way to it, the handler threads, of which some count themselves in `handler_counter`,
and the stages of `leave_core`. The other nodes may send any message of the lock layer; what the
node sends to them is followed only as far as they acknowledge it.

A handler takes the mutex of one page after the other; what it does with an entry is the function of
the page lock.
-/

namespace HandlerCounter

open PageLock (LockType CoreInfo Request)

variable {Node Page : Type}

/-! ## Messages and handlers -/

/-- The messages that are handled on `core_info`. -/
inductive LockMsg (Node Page : Type) where
  | askLock (sender initiator : Node) (mode : LockType) (page : Page)
  | getLock (sender : Node) (mode : LockType) (page : Page)
  | unlock (sender initiator : Node) (mode : LockType) (page : Page)
  | delegate (sender delegate : Node)
  | sendState (sender : Node) (state : List (Page × List (Request Node)))
  deriving DecidableEq, Repr

def LockMsg.sender : LockMsg Node Page → Node
  | .askLock sender _ _ _ => sender
  | .getLock sender _ _ => sender
  | .unlock sender _ _ _ => sender
  | .delegate sender _ => sender
  | .sendState sender _ => sender

/-- The handlers that call `incr_counter(&handler_counter)` first and `decr_counter` last. -/
def LockMsg.counted : LockMsg Node Page → Bool
  | .askLock .. => true
  | .getLock .. => true
  | .unlock .. => true
  | .delegate .. => false
  | .sendState .. => false

/-- The pages whose entries the handler works on, one after the other; `pages` are all pages. -/
def LockMsg.pages (pages : List Page) : LockMsg Node Page → List Page
  | .askLock _ _ _ page => [page]
  | .getLock _ _ page => [page]
  | .unlock _ _ _ page => [page]
  | .delegate _ _ => pages
  | .sendState _ state => state.map Prod.fst

/-- What the handler does with the entry of a page, under its mutex. -/
def LockMsg.body [DecidableEq Node] [DecidableEq Page] (me : Node) (c : CoreInfo Node) (page : Page) :
    LockMsg Node Page → CoreInfo Node
  | .askLock _ initiator mode _ => (PageLock.handleAskLock me c initiator mode).1
  | .getLock sender mode _ => PageLock.handleGetLock me c sender mode
  | .unlock sender initiator mode _ => (PageLock.handleUnlock me c sender initiator mode).1
  | .delegate sender d => PageLock.handleDelegate c sender d
  | .sendState _ state => PageLock.handleSendState c (state.lookup page)

inductive Msg (Node Page : Type) where
  | lock (m : LockMsg Node Page)
  | delegateAck (sender : Node)
  deriving DecidableEq, Repr

/-- The acknowledgements. -/
def Msg.isAck : Msg Node Page → Bool
  | .lock _ => false
  | .delegateAck _ => true

/-- How far a handler thread has got: `server_thread` has created it, or it has begun (and counted
itself) and works on the entries of the pages `todo`. -/
inductive Progress (Page : Type) where
  | created
  | pages (todo : List Page)
  deriving DecidableEq, Repr

structure Handler (Node Page : Type) where
  msg : LockMsg Node Page
  progress : Progress Page
  deriving DecidableEq, Repr

/-- The handler is counted in `handler_counter`. -/
def Handler.covered (h : Handler Node Page) : Bool :=
  match h.progress with
  | .created => false
  | .pages _ => h.msg.counted

/-! ## The node that leaves -/

/-- Where the application thread is in `leave_core`. -/
inductive Leave (Node Page : Type) where
  | idle
  /-- Taking the mutexes of the pages. -/
  | lockPages (delegate : Node) (todo : List Page)
  /-- Waiting for `DELEGATE_ACK_counter`. -/
  | waitAcks (delegate : Node)
  /-- Releasing the mutexes of the pages, then waiting for `handler_counter`. -/
  | unlockPages (delegate : Node) (todo : List Page)
  /-- `clean_core` has been called. -/
  | cleaned
  deriving DecidableEq, Repr

structure State (Node Page : Type) where
  /-- `core_info`; `none` is `NULL`. -/
  core : Option (Page → CoreInfo Node)
  /-- The mutexes that `leave_core` keeps. -/
  kept : Page → Bool
  handlerCounter : ℤ
  delegateAckCounter : ℤ
  leave : Leave Node Page
  /-- The handler threads that have not finished. -/
  handlers : List (Handler Node Page)
  /-- The messages to the node that have not been delivered. -/
  msgs : List (Msg Node Page)
  /-- The nodes that have not handled `DELEGATE` yet. -/
  delegates : List Node
  /-- A handler has dereferenced `core_info` after `clean_core`. -/
  fault : Bool

inductive Event (Node Page : Type) where
  /-- Another node sends a message. -/
  | send (m : LockMsg Node Page)
  /-- Another node handles `DELEGATE` and sends `DELEGATE_ACK`. -/
  | ack (n : Node)
  /-- `handle_DELEGATE_ACK`. -/
  | handleDelegateAck (n : Node)
  /-- `server_thread` reads a message and creates its handler thread. -/
  | create (m : LockMsg Node Page)
  /-- A handler begins, with `incr_counter` if it counts itself. -/
  | begin (h : Handler Node Page)
  /-- A handler works on the entry of the next page. -/
  | page (h : Handler Node Page)
  /-- A handler ends, with `decr_counter` if it counts itself. -/
  | finish (h : Handler Node Page)
  /-- `ask_lock` and `unlock` of the application thread leave `c` as the entry of the page. -/
  | app (page : Page) (c : CoreInfo Node)
  /-- `leave_core(delegate)`. -/
  | leaveCore (delegate : Node)
  /-- `leave_core` takes the mutex of the next page. -/
  | lockPage
  /-- `leave_core` sends `SEND_STATE` and `DELEGATE`. -/
  | announce
  /-- `wait_on_counter(&DELEGATE_ACK_counter)` returns. -/
  | acked
  /-- `leave_core` releases the mutex of the next page. -/
  | unlockPage
  /-- `wait_on_counter(&handler_counter)` returns, and `clean_core`. -/
  | cleanCore
  deriving DecidableEq, Repr

/-! ## Steps -/

section Steps

variable [DecidableEq Node] [DecidableEq Page]

/-- The handler `h` goes on as `h'`. -/
def State.replace (s : State Node Page) (h h' : Handler Node Page) : State Node Page :=
  { s with handlers := h' :: s.handlers.erase h }

def State.addCounter (s : State Node Page) (h : Handler Node Page) (k : ℤ) : State Node Page :=
  { s with handlerCounter := if h.msg.counted then s.handlerCounter + k else s.handlerCounter }

/-- A step of the handler thread `h`. -/
def handlerPage (me : Node) (s : State Node Page) (h : Handler Node Page) :
    Option (State Node Page) :=
  match h.progress, s.core with
  | .pages (q :: todo), some core =>
    if s.kept q then none
    else some { s.replace h ⟨h.msg, .pages todo⟩ with
      core := some (Function.update core q (h.msg.body me (core q) q)) }
  | .pages (_ :: _), none => some { s with fault := true }
  | _, _ => none

/-- `leave_core` takes the mutex of a page, unlocks the page if it is in use, and keeps the mutex if
the node has the token. -/
def lockPage (me : Node) (s : State Node Page) : Option (State Node Page) :=
  match s.leave, s.core with
  | .lockPages d (q :: todo), some core =>
    let c := if (core q).mode ≠ .none then
        ((PageLock.unlockInternal me (core q)).getD (core q, [])).1
      else core q
    some { s with
      core := some (Function.update core q c)
      kept := Function.update s.kept q (c.haveToken = me)
      leave := .lockPages d todo }
  | _, _ => none

/-- `leave_core` releases the mutex of a page. -/
def unlockPage (me : Node) (s : State Node Page) : Option (State Node Page) :=
  match s.leave, s.core with
  | .unlockPages d (q :: todo), some core =>
    if (core q).haveToken = me then
      some { s with
        core := some (Function.update core q
          { PageLock.cleanRequests { core q with haveToken := d } with mode := .none })
        kept := Function.update s.kept q false
        leave := .unlockPages d todo }
    else some { s with leave := .unlockPages d todo }
  | _, _ => none

/-- One step; `nodeList` is the `node_list` of the node and `pages` are all pages. -/
def step (me : Node) (nodeList : List Node) (pages : List Page) (s : State Node Page) :
    Event Node Page → Option (State Node Page)
  | .send m => some { s with msgs := s.msgs ++ [.lock m] }
  | .ack n =>
    if n ∈ s.delegates then
      some { s with delegates := s.delegates.erase n, msgs := s.msgs ++ [.delegateAck n] }
    else none
  | .handleDelegateAck n =>
    if .delegateAck n ∈ s.msgs then
      some { s with
        msgs := s.msgs.erase (.delegateAck n)
        delegateAckCounter := s.delegateAckCounter - 1 }
    else none
  | .create m =>
    if .lock m ∈ s.msgs then
      some { s with msgs := s.msgs.erase (.lock m), handlers := ⟨m, .created⟩ :: s.handlers }
    else none
  | .begin h =>
    if h ∈ s.handlers ∧ h.progress = .created then
      some ((s.replace h ⟨h.msg, .pages (h.msg.pages pages)⟩).addCounter h 1)
    else none
  | .page h => if h ∈ s.handlers then handlerPage me s h else none
  | .finish h =>
    if h ∈ s.handlers ∧ h.progress = .pages [] then
      some ({ s with handlers := s.handlers.erase h }.addCounter h (-1))
    else none
  | .app q c =>
    match s.leave, s.core with
    | .idle, some core => some { s with core := some (Function.update core q c) }
    | _, _ => none
  | .leaveCore d =>
    match s.leave with
    | .idle => some { s with leave := .lockPages d pages }
    | _ => none
  | .lockPage => lockPage me s
  | .announce =>
    match s.leave with
    | .lockPages d [] => some { s with
        leave := .waitAcks d
        delegates := nodeList
        delegateAckCounter := s.delegateAckCounter + nodeList.length }
    | _ => none
  | .acked =>
    match s.leave with
    | .waitAcks d =>
      if s.delegateAckCounter = 0 then some { s with leave := .unlockPages d pages } else none
    | _ => none
  | .unlockPage => unlockPage me s
  | .cleanCore =>
    match s.leave with
    | .unlockPages _ [] =>
      if s.handlerCounter = 0 then some { s with core := none, leave := .cleaned } else none
    | _ => none

/-- After `init_core`. -/
def initState (core : Page → CoreInfo Node) : State Node Page :=
  ⟨some core, fun _ => false, 0, 0, .idle, [], [], [], false⟩

end Steps

/-! ## Which steps are safe -/

/-- `leave_core` has sent `DELEGATE`. -/
def Leave.announced : Leave Node Page → Bool
  | .idle => false
  | .lockPages _ _ => false
  | _ => true

/-- A message of the lock layer that `n` has sent. -/
def Msg.isLockOf [DecidableEq Node] (n : Node) : Msg Node Page → Bool
  | .lock m => m.sender = n
  | .delegateAck _ => false

/-- The steps after which `handler_counter` covers all handlers: a message to the node is sent by a
node of its list that has not acknowledged `DELEGATE`; and the acknowledgement of a node is handled
when all its messages have been delivered and their handlers have counted themselves or ended. -/
def coverOk [DecidableEq Node] (nodeList : List Node) (s : State Node Page) :
    Event Node Page → Bool
  | .send m => if s.leave.announced then m.sender ∈ s.delegates else m.sender ∈ nodeList
  | .handleDelegateAck n =>
    (∀ m ∈ s.msgs, m.isLockOf n = false) ∧ ∀ h ∈ s.handlers, h.msg.sender = n → h.covered
  | _ => true

/-! ## The invariant -/

/-- The node has not acknowledged `DELEGATE`, or its acknowledgement has not been handled. -/
def Owes (nodeList : List Node) (s : State Node Page) (n : Node) : Prop :=
  if s.leave.announced then n ∈ s.delegates ∨ .delegateAck n ∈ s.msgs else n ∈ nodeList

/-- All acknowledgements have been handled. -/
def Leave.acked : Leave Node Page → Bool
  | .unlockPages _ _ => true
  | .cleaned => true
  | _ => false

structure Inv (nodeList : List Node) (s : State Node Page) : Prop where
  counter : s.handlerCounter = s.handlers.countP Handler.covered
  acks : s.delegateAckCounter = s.delegates.length + s.msgs.countP Msg.isAck
  msgs : ∀ m, .lock m ∈ s.msgs → Owes nodeList s m.sender
  handlers : ∀ h ∈ s.handlers, h.covered = false → Owes nodeList s h.msg.sender
  early : s.leave.announced = false → s.delegateAckCounter = 0
  acked : s.leave.acked = true → s.delegateAckCounter = 0
  cleaned : s.leave = .cleaned → s.handlers = []
  core : s.core = none → s.leave = .cleaned
  fault : s.fault = false

end HandlerCounter
