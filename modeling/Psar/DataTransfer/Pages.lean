import Psar.DataTransfer.Page

/-!
# The transfer of all pages, with leaves

`data_transfer.c` and `data_transfer_utils.h` with all pages of a node, any number of application
threads in `sync_page`, and `leave_data_transfer`. The threads are not named: a node has a list of
those that are in a page fault, with the page and whether it is a write.

`exec_handler` looks the callback up before it runs it, so an `ASK_PAGE` is first fetched by a
handler thread, which then takes and releases the mutex of the page, and then answers or passes the
request on. The handlers of `RECV_PAGE_LEAVE` and `DT_LEAVE` work on one page after the other. The
mutexes of the pages that `leave_data_transfer` has found to be its own are kept until it returns,
and hold up whatever needs them.
-/

namespace PageTransfer

open PageLock (LockType LockStatus)
open DataTransfer (Prot)

variable {Node Page C : Type}

/-! ## One page at one node -/

/-- What a node has of a page. -/
structure Entry (Node C : Type) where
  /-- `page_owners[page_id]`. -/
  owner : Node
  /-- `page_state[page_id]`. -/
  state : Bool
  /-- `page_cv[page_id].predicate`. -/
  predicate : Bool
  content : C
  prot : Prot
  /-- What `get_lock_status` returns. -/
  mode : LockStatus
  /-- `ask_lock` has returned and `unlock` has not been called. -/
  inside : Bool
  deriving DecidableEq, Repr

def Entry.memoryLockReset (e : Entry Node C) : Entry Node C :=
  { e with prot := match e.mode with
    | .none => .none
    | .reading => .read
    | .writing => .read }

def Entry.setNewOwner [DecidableEq Node] (me : Node) (e : Entry Node C) (newOwner : Node) :
    Entry Node C :=
  { e with owner := newOwner, state := newOwner = me }

def Entry.signalPageNoLock (e : Entry Node C) : Entry Node C :=
  { e with predicate := true, state := true }

/-- `update_page` with a page that is taken over. -/
def Entry.updatePage (e : Entry Node C) (owner : Node) (page : C) : Entry Node C :=
  let e := Entry.memoryLockReset { e with owner := owner, content := page }
  if e.predicate then e else e.signalPageNoLock

/-- What a node of `Psar.DataTransfer.Page` has of its page. -/
def ofPeer (p : DataTransfer.Peer Node C) : Entry Node C :=
  ⟨p.owner, p.state, p.predicate, p.content, p.prot, p.mode, p.mode ≠ .none ∧ p.thread ≠ .asking⟩

/-! ## One node -/

inductive Msg (Node Page C : Type) where
  /-- `INVALIDATION`. -/
  | invalidation (dest sender : Node) (page : Page)
  /-- `ASK_PAGE`. -/
  | askPage (dest : Node) (page : Page) (requester : Node)
  /-- `RECV_PAGE`. -/
  | recvPage (dest : Node) (page : Page) (owner : Node) (content : C)
  /-- `RECV_PAGE_LEAVE`: the pages that `sender` hands over. -/
  | recvPageLeave (dest sender newOwner : Node) (pages : List (Page × C))
  /-- `DT_LEAVE`. -/
  | dtLeave (dest sender newOwner : Node) (pages : List Page)
  /-- `ACK_RECV_PAGE`. -/
  | ackRecvPage (dest sender : Node)
  deriving DecidableEq, Repr

/-- The node a message is sent to. -/
def Msg.dest : Msg Node Page C → Node
  | .invalidation d _ _ => d
  | .askPage d _ _ => d
  | .recvPage d _ _ _ => d
  | .recvPageLeave d _ _ _ => d
  | .dtLeave d _ _ _ => d
  | .ackRecvPage d _ => d

/-- A thread in `ASK_PAGE_handler`; `passed` once it has released the mutex of the page. -/
structure Ask (Node Page : Type) where
  page : Page
  requester : Node
  passed : Bool
  deriving DecidableEq, Repr

/-- A thread in `RECV_PAGE_LEAVE_handler` or `DT_LEAVE_handler`, with the pages it has still to work
on. A page of `RECV_PAGE_LEAVE` comes with its content. -/
structure Hand (Node Page C : Type) where
  leaver : Node
  newOwner : Node
  todo : List (Page × Option C)
  deriving DecidableEq, Repr

/-- Where the application thread is in `leave_data_transfer(new_owner)`; `owned` is `index_pages`.
-/
inductive Leave (Node Page : Type) where
  /-- The handler of `RECV_PAGE` has been removed. -/
  | removeAsk (newOwner : Node)
  /-- Looking for the pages that the node owns. -/
  | lockPages (newOwner : Node) (todo owned : List Page)
  /-- Waiting for the acknowledgement of the new owner. -/
  | waitOwner (newOwner : Node) (owned : List Page)
  /-- Waiting for the acknowledgement of `n`, with `rest` still to be informed. -/
  | waitNode (newOwner : Node) (owned : List Page) (n : Node) (rest : List Node)
  | returned (newOwner : Node) (owned : List Page)
  deriving DecidableEq, Repr

/-- The mutexes that `leave_data_transfer` keeps. -/
def Leave.held : Leave Node Page → List Page
  | .removeAsk _ => []
  | .lockPages _ _ owned => owned
  | .waitOwner _ owned => owned
  | .waitNode _ owned _ _ => owned
  | .returned _ _ => []

structure Peer (Node Page C : Type) where
  entry : Page → Entry Node C
  /-- The threads that wait in `sync_page`, with `curr_writing` of `sigsev_handler`. -/
  syncing : List (Page × Bool)
  /-- The threads in `sigsev_handler` that are back from `sync_page`. -/
  synced : List (Page × Bool)
  /-- The threads in `sigsev_handler` that have set the write permission. -/
  writable : List Page
  asks : List (Ask Node Page)
  hands : List (Hand Node Page C)
  /-- `dt_cv.predicate`. -/
  dtCv : Bool
  /-- The handler of `RECV_PAGE` is registered. -/
  recvOn : Bool
  /-- The handler of `ASK_PAGE` is registered. -/
  askOn : Bool
  /-- `node_list`. -/
  nodeList : List Node
  leave : Option (Leave Node Page)

variable [DecidableEq Node] [DecidableEq Page]

/-- The mutex of the page is free. -/
def Peer.free (p : Peer Node Page C) (q : Page) : Bool :=
  match p.leave with
  | none => true
  | some l => q ∉ l.held

def Peer.setEntry (p : Peer Node Page C) (q : Page) (e : Entry Node C) : Peer Node Page C :=
  { p with entry := Function.update p.entry q e }

/-! ## The critical section -/

/-- `lock_read` and `lock_write`, up to the wait for the lock. -/
def lock (p : Peer Node Page C) (q : Page) (k : LockType) : Peer Node Page C :=
  let e := p.entry q
  p.setEntry q { e with
    prot := .none
    mode := if e.mode = .none then k.toStatus else e.mode }

/-- `ask_lock` returns. -/
def grant (p : Peer Node Page C) (q : Page) : Option (Peer Node Page C) :=
  let e := p.entry q
  if e.mode ≠ .none ∧ e.inside = false then some (p.setEntry q { e with inside := true }) else none

/-- `unlock_read` and `unlock_write`. -/
def unlock (p : Peer Node Page C) (q : Page) : Option (Peer Node Page C) :=
  let e := p.entry q
  if e.inside then some (p.setEntry q { e with prot := .none, mode := .none, inside := false })
  else none

/-- A write that leaves `page` as the content. -/
def write (p : Peer Node Page C) (q : Page) (page : C) : Option (Peer Node Page C) :=
  let e := p.entry q
  if e.inside ∧ e.mode = .writing ∧ e.prot.allows true then
    some (p.setEntry q { e with content := page })
  else none

/-! ## Page faults -/

/-- A thread calls `sync_page`, from `sigsev_handler` on a write or otherwise. A write fault passes
the assertions of `sigsev_handler`. -/
def syncPage (me : Node) (p : Peer Node Page C) (q : Page) (writing : Bool) :
    Option (Peer Node Page C × List (Msg Node Page C)) :=
  let e := p.entry q
  if p.free q ∧ (writing → e.inside ∧ e.mode = .writing ∧ e.prot.allows true = false) then
    if e.owner = me ∨ e.state then some ({ p with synced := (q, writing) :: p.synced }, [])
    else some ({ p.setEntry q { e with predicate := false } with
      syncing := (q, writing) :: p.syncing }, [.askPage e.owner q me])
  else none

/-- The threads in `sync_page` are pairs of a page and a flag, which have a decidable equality. -/
local instance lawfulBEq_flagged : LawfulBEq (Page × Bool) := inferInstance

/-- A thread leaves the waiting loop of `sync_page`. -/
def wake (p : Peer Node Page C) (q : Page) (writing : Bool) : Option (Peer Node Page C) :=
  let e := p.entry q
  if (q, writing) ∈ p.syncing ∧ e.predicate ∧ p.free q then
    some { p with syncing := p.syncing.erase (q, writing), synced := (q, writing) :: p.synced }
  else none

/-- `sigsev_handler`: `memory_protect`. -/
def protect (p : Peer Node Page C) (q : Page) (writing : Bool) : Option (Peer Node Page C) :=
  let e := p.entry q
  if (q, writing) ∈ p.synced then
    let p := { p with synced := p.synced.erase (q, writing) }
    if writing then some { p.setEntry q { e with prot := .readWrite } with
      writable := q :: p.writable }
    else some (p.setEntry q { e with prot := .read })
  else none

/-- `sigsev_handler`: `set_new_owner` and `send_invalidation` at the end of a write fault. -/
def publish (me : Node) (p : Peer Node Page C) (q : Page) :
    Option (Peer Node Page C × List (Msg Node Page C)) :=
  if q ∈ p.writable ∧ p.free q then
    some ({ p.setEntry q ((p.entry q).setNewOwner me me) with writable := p.writable.erase q },
      p.nodeList.map fun n => .invalidation n me q)
  else none

/-! ## Handlers -/

/-- `ASK_PAGE_handler` takes and releases the mutex of the page. -/
def askPass (p : Peer Node Page C) (a : Ask Node Page) : Option (Peer Node Page C) :=
  if a ∈ p.asks ∧ a.passed = false ∧ p.free a.page then
    some { p with asks := { a with passed := true } :: p.asks.erase a }
  else none

/-- The rest of `ASK_PAGE_handler`: `transfer_page` at the owner, elsewhere the request goes on. -/
def askAnswer (me : Node) (p : Peer Node Page C) (a : Ask Node Page) :
    Option (Peer Node Page C × List (Msg Node Page C)) :=
  let e := p.entry a.page
  if a ∈ p.asks ∧ a.passed then
    let p := { p with asks := p.asks.erase a }
    if e.owner = me then
      some (p.setEntry a.page e.memoryLockReset, [.recvPage a.requester a.page me e.content])
    else some (p, [.askPage e.owner a.page a.requester])
  else none

/-- A handler of `RECV_PAGE_LEAVE` or `DT_LEAVE` works on its next page. The page is taken over only
if it was the leaver's; a thread that waits for it is woken by the page, and asks the new owner
otherwise. -/
def handPage [DecidableEq C] (me : Node) (p : Peer Node Page C) (h : Hand Node Page C) :
    Option (Peer Node Page C × List (Msg Node Page C)) :=
  match h.todo with
  | [] => none
  | (q, page) :: todo =>
    let e := p.entry q
    if h ∈ p.hands ∧ p.free q then
      let p := { p with hands := { h with todo := todo } :: p.hands.erase h }
      if e.owner = h.leaver then
        match page with
        | some page => some (p.setEntry q (e.updatePage h.newOwner page), [])
        | none => some (p.setEntry q { e with owner := h.newOwner },
            if e.predicate then [] else [.askPage h.newOwner q me])
      else some (p, [])
    else none

/-- A handler of `RECV_PAGE_LEAVE` or `DT_LEAVE` sends its acknowledgement and removes the leaver
from the list. -/
def handAck [DecidableEq C] (me : Node) (p : Peer Node Page C) (h : Hand Node Page C) :
    Option (Peer Node Page C × List (Msg Node Page C)) :=
  if h ∈ p.hands ∧ h.todo = [] then
    some ({ p with hands := p.hands.erase h, nodeList := p.nodeList.erase h.leaver },
      [.ackRecvPage h.leaver me])
  else none

/-- The handler of a message, up to the first point at which it gives up the mutex of a page. -/
def handle (me : Node) (p : Peer Node Page C) :
    Msg Node Page C → Option (Peer Node Page C × List (Msg Node Page C))
  | .invalidation _ sender q =>
    if p.free q then
      some (p.setEntry q (Entry.setNewOwner me { p.entry q with prot := .none } sender), [])
    else none
  | .askPage _ q requester =>
    some (if p.askOn then { p with asks := ⟨q, requester, false⟩ :: p.asks } else p, [])
  | .recvPage _ q owner page =>
    if p.recvOn then
      if p.free q then some (p.setEntry q ((p.entry q).updatePage owner page), []) else none
    else some (p, [])
  | .recvPageLeave _ sender newOwner pages =>
    some ({ p with hands := ⟨sender, newOwner, pages.map fun x => (x.1, some x.2)⟩ :: p.hands }, [])
  | .dtLeave _ sender newOwner pages =>
    some ({ p with hands := ⟨sender, newOwner, pages.map fun q => (q, none)⟩ :: p.hands }, [])
  | .ackRecvPage _ _ => some ({ p with dtCv := true }, [])

/-! ## `leave_data_transfer` -/

/-- The loop over `node_list`: `DT_LEAVE` to the next node that is not the new owner. -/
def dtLeaveLoop (me : Node) (p : Peer Node Page C) (newOwner : Node) (owned : List Page) :
    List Node → Peer Node Page C × List (Msg Node Page C)
  | [] => ({ p with leave := some (.returned newOwner owned) }, [])
  | n :: rest =>
    if n = newOwner then dtLeaveLoop me p newOwner owned rest
    else ({ p with dtCv := false, leave := some (.waitNode newOwner owned n rest) },
      [.dtLeave n me newOwner owned])

/-- What the application thread does in `leave_data_transfer`. -/
inductive LeaveStep (Node : Type) where
  /-- The call, with the removal of the handler of `RECV_PAGE`. -/
  | call (newOwner : Node)
  /-- The removal of the handler of `ASK_PAGE`. -/
  | removeAsk
  /-- The next turn of the loop over the pages. -/
  | lockPage
  /-- `RECV_PAGE_LEAVE` is sent to the new owner. -/
  | sendPages
  /-- The wait for an acknowledgement ends. -/
  | resume
  deriving DecidableEq, Repr

/-- The pages that are handed over: `init_PAGE_message` resets their protection. -/
def resetPages (p : Peer Node Page C) (owned : List Page) : Peer Node Page C :=
  { p with entry := fun q => if q ∈ owned then (p.entry q).memoryLockReset else p.entry q }

def leaveDataTransfer (pages : List Page) (me : Node) (p : Peer Node Page C) :
    LeaveStep Node → Option (Peer Node Page C × List (Msg Node Page C))
  | .call newOwner =>
    match p.leave with
    | none => some ({ p with recvOn := false, leave := some (.removeAsk newOwner) }, [])
    | some _ => none
  | .removeAsk =>
    match p.leave with
    | some (.removeAsk newOwner) =>
      some ({ p with askOn := false, leave := some (.lockPages newOwner pages []) }, [])
    | _ => none
  | .lockPage =>
    match p.leave with
    | some (.lockPages newOwner (q :: todo) owned) =>
      some ({ p with leave := some (.lockPages newOwner todo
        (if (p.entry q).owner = me then owned ++ [q] else owned)) }, [])
    | _ => none
  | .sendPages =>
    match p.leave with
    | some (.lockPages newOwner [] owned) =>
      some ({ resetPages p owned with dtCv := false, leave := some (.waitOwner newOwner owned) },
        [.recvPageLeave newOwner me newOwner (owned.map fun q => (q, (p.entry q).content))])
    | _ => none
  | .resume =>
    match p.leave with
    | some (.waitOwner newOwner owned) =>
      if p.dtCv then some (dtLeaveLoop me { p with dtCv := false } newOwner owned p.nodeList)
      else none
    | some (.waitNode newOwner owned _ rest) =>
      if p.dtCv then some (dtLeaveLoop me { p with dtCv := false } newOwner owned rest) else none
    | _ => none

/-! ## The nodes together -/

inductive Action (Node Page C : Type) where
  | lock (q : Page) (k : LockType)
  | grant (q : Page)
  | unlock (q : Page)
  | write (q : Page) (page : C)
  | syncPage (q : Page) (writing : Bool)
  | wake (q : Page) (writing : Bool)
  | protect (q : Page) (writing : Bool)
  | publish (q : Page)
  | askPass (a : Ask Node Page)
  | askAnswer (a : Ask Node Page)
  | handPage (h : Hand Node Page C)
  | handAck (h : Hand Node Page C)
  | leave (l : LeaveStep Node)
  deriving DecidableEq, Repr

/-- What a node does on its own; `pages` are all pages. -/
def act [DecidableEq C] (pages : List Page) (me : Node) (p : Peer Node Page C) :
    Action Node Page C → Option (Peer Node Page C × List (Msg Node Page C))
  | .lock q k => some (lock p q k, [])
  | .grant q => (grant p q).map fun p => (p, [])
  | .unlock q => (unlock p q).map fun p => (p, [])
  | .write q page => (write p q page).map fun p => (p, [])
  | .syncPage q writing => syncPage me p q writing
  | .wake q writing => (wake p q writing).map fun p => (p, [])
  | .protect q writing => (protect p q writing).map fun p => (p, [])
  | .publish q => publish me p q
  | .askPass a => (askPass p a).map fun p => (p, [])
  | .askAnswer a => askAnswer me p a
  | .handPage h => handPage me p h
  | .handAck h => handAck me p h
  | .leave l => leaveDataTransfer pages me p l

def protocol [DecidableEq C] (pages : List Page) :
    Network.Protocol Node (Peer Node Page C) (Msg Node Page C) (Action Node Page C) where
  dest := Msg.dest
  act := act pages
  handle := handle

abbrev Net (Node Page C : Type) := Network.Net Node (Peer Node Page C) (Msg Node Page C)

abbrev Event (Node Page C : Type) := Network.Event Node (Msg Node Page C) (Action Node Page C)

def step [DecidableEq C] (pages : List Page) :
    Net Node Page C → Event Node Page C → Option (Net Node Page C) :=
  Network.step (protocol pages)

/-- A node after `init_data_transfer`: `owners` is `none` in `Init_DSM`, and what the contact sent
in `join_DSM`. -/
def initDataTransfer (me : Node) (owners : Option (Page → Node)) (page : Page → C)
    (nodeList : List Node) : Peer Node Page C where
  entry := fun q =>
    { owner := (owners.map fun o => o q).getD me
      state := owners.isNone
      predicate := true
      content := page q
      prot := if owners.isNone then .read else .none
      mode := .none
      inside := false }
  syncing := []
  synced := []
  writable := []
  asks := []
  hands := []
  dtCv := true
  recvOn := true
  askOn := true
  nodeList := nodeList
  leave := none

/-- The node `o` has called `Init_DSM` and all others have joined; `page n` is what the memory of
`n` holds and `nodes` lists all nodes. -/
def initNet (o : Node) (nodes : List Node) (page : Node → Page → C) : Net Node Page C :=
  ⟨fun n => initDataTransfer n (if n = o then none else some fun _ => o) (page n)
    (nodes.filter fun k => k ≠ n), []⟩

/-- No message is in flight, no handler runs and no node leaves; no node has itself in its list. -/
structure Idle (s : Net Node Page C) : Prop where
  msgs : s.msgs = []
  asks : ∀ n, (s.node n).asks = []
  hands : ∀ n, (s.node n).hands = []
  leave : ∀ n, (s.node n).leave = none
  recvOn : ∀ n, (s.node n).recvOn = true
  askOn : ∀ n, (s.node n).askOn = true
  lists : ∀ n, n ∉ (s.node n).nodeList

/-! ## What the lock layer promises -/

/-- The lock is granted to a writer when no other node is in its critical section, and to a reader
when all others there are readers. -/
def exclusive [Fintype Node] (s : Net Node Page C) : Event Node Page C → Bool
  | .act i (.grant q) => ∀ j, j ≠ i → ((s.node j).entry q).inside = true →
      ((s.node i).entry q).mode = .reading ∧ ((s.node j).entry q).mode = .reading
  | _ => true

end PageTransfer
