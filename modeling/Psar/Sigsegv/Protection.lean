import Psar.DataTransfer.Page

/-!
# The protection of a page

The page lock of `core.c` and the page transfer of `data_transfer.c` at one node, joined by the
calls of `library.c` and by `sigsev_handler`. `lock_read`, `lock_write`, `unlock_read` and
`unlock_write` go through `exclude_others`, which protects the page with `memory_lock` and then
calls `ask_lock` or `unlock`; other steps may come in between. `get_lock_status` is the mode of the
page lock.

A run starts when `Init_DSM` or `join_DSM` has returned at every node. From then on `INVALIDATION`
is handled by `INVALIDATION_handler`.
-/

namespace Sigsegv

open PageLock (LockType LockStatus)
open DataTransfer (Prot memoryProtect memoryLock setNewOwner sendInvalidation)

variable {Node C : Type} [DecidableEq Node]

/-! ## One node -/

/-- The library call that the application thread is in. -/
inductive Call where
  /-- `exclude_others` of `lock_read` or `lock_write`, about to call `ask_lock`. -/
  | askLock (k : LockType)
  /-- `exclude_others` of `unlock_read` or `unlock_write`, about to call `unlock`. -/
  | unlock
  /-- `sigsev_handler`, with the `lock_status` that it has read. -/
  | sigsegv (lockStatus : LockStatus)
  deriving DecidableEq, Repr

/-- A node: its entry of the page lock, its entry of the page transfer, and the call its application
thread is in. What `get_lock_status` returns to the page transfer is the mode of the page lock. -/
structure Peer (Node C : Type) where
  lock : PageLock.Peer Node
  data : DataTransfer.Peer Node C
  call : Option Call
  mode_eq : data.mode = lock.core.mode

/-- A step of the page lock. -/
def Peer.withLock (p : Peer Node C) (lock : PageLock.Peer Node) : Peer Node C :=
  { p with lock := lock, data := { p.data with mode := lock.core.mode }, mode_eq := rfl }

/-- A step of the page transfer, which does not change the lock status. -/
def Peer.withData (p : Peer Node C) (data : DataTransfer.Peer Node C) : Peer Node C :=
  { p with data := { data with mode := p.lock.core.mode }, mode_eq := rfl }

/-- The application thread is in the program itself. -/
def Peer.running (p : Peer Node C) : Bool :=
  p.call = none && p.data.thread = .running && match p.lock.thread with
    | .idle => true
    | .returned _ => true
    | _ => false

/-! ## `library.c` -/

/-- `exclude_others` up to the call of `ask_lock` or `unlock`: `memory_lock`. -/
def excludeOthers (p : Peer Node C) (call : Call) : Option (Peer Node C) :=
  if p.running then some { p.withData (memoryLock p.data) with call := some call } else none

/-- `ask_lock`, up to its return or its first wait. -/
def askLock (me : Node) (p : Peer Node C) : Option (Peer Node C × List (PageLock.Msg Node)) :=
  match p.call with
  | some (.askLock k) =>
    (PageLock.askLock me p.lock k).map fun r => ({ p.withLock r.1 with call := none }, r.2)
  | _ => none

/-- `unlock`. -/
def unlock (me : Node) (p : Peer Node C) : Option (Peer Node C × List (PageLock.Msg Node)) :=
  match p.call with
  | some .unlock => (PageLock.unlock me p.lock).map fun r => ({ p.withLock r.1 with call := none }, r.2)
  | _ => none

/-! ## `sigsegv.c` -/

/-- `sigsev_handler`, up to the return of `sync_page` or its wait. -/
def sigsevHandler (me : Node) (p : Peer Node C) (writing : Bool) :
    Option (Peer Node C × List (DataTransfer.Msg Node C)) :=
  if p.running then
    (DataTransfer.sigsevHandler me p.data writing).map fun r =>
      ({ p.withData r.1 with call := some (.sigsegv p.data.mode) }, r.2)
  else none

/-- `sigsev_handler` after `sync_page`: the permission, and on a write the new owner and the
`INVALIDATION`s. -/
def sigsevReturn (me : Node) (nodeList : List Node) (p : Peer Node C) :
    Option (Peer Node C × List (DataTransfer.Msg Node C)) :=
  match p.call, p.data.thread with
  | some (.sigsegv lockStatus), .synced writing =>
    if writing ∧ lockStatus = .writing then
      some ({ p.withData { setNewOwner me (memoryProtect p.data .readWrite) me with
          thread := .running } with call := none }, sendInvalidation me nodeList)
    else some ({ p.withData { memoryProtect p.data .read with thread := .running } with
        call := none }, [])
  | _, _ => none

/-- A write to the page that the protection lets through. -/
def store (p : Peer Node C) (page : C) : Option (Peer Node C) :=
  if p.running ∧ p.data.prot.allows true then some (p.withData { p.data with content := page })
  else none

/-- A read of the page that the protection lets through. -/
def load (p : Peer Node C) : Option (Peer Node C) :=
  if p.running ∧ p.data.prot.allows false then some p else none

/-! ## The nodes together -/

/-- What the application thread of a node does. -/
inductive Action (C : Type) where
  /-- `lock_read` and `lock_write`: `memory_lock`. -/
  | lock (k : LockType)
  | askLock
  /-- The end of the wait in `ask_lock`. -/
  | resume
  | semWake
  /-- `unlock_read` and `unlock_write`: `memory_lock`. -/
  | release
  | unlock
  | sigsevHandler (writing : Bool)
  /-- The end of the wait in `sync_page`. -/
  | wake
  | sigsevReturn
  | store (page : C)
  | load
  deriving DecidableEq, Repr

/-- The messages of the page lock and of the page transfer. -/
inductive Msg (Node C : Type) where
  | lock (m : PageLock.Msg Node)
  | data (m : DataTransfer.Msg Node C)
  deriving DecidableEq, Repr

def Msg.dest : Msg Node C → Node
  | .lock m => m.dest
  | .data m => m.dest

/-- One step of the application thread; `nodeList` is the `node_list` of the node. -/
def act (nodeList : List Node) (me : Node) (p : Peer Node C) :
    Action C → Option (Peer Node C × List (Msg Node C))
  | .lock k => (excludeOthers p (.askLock k)).map fun p => (p, [])
  | .askLock => (askLock me p).map fun r => (r.1, r.2.map .lock)
  | .resume => (PageLock.act nodeList me p.lock .resume).map fun r => (p.withLock r.1, r.2.map .lock)
  | .semWake =>
    (PageLock.act nodeList me p.lock .semWake).map fun r => (p.withLock r.1, r.2.map .lock)
  | .release => (excludeOthers p .unlock).map fun p => (p, [])
  | .unlock => (unlock me p).map fun r => (r.1, r.2.map .lock)
  | .sigsevHandler writing => (sigsevHandler me p writing).map fun r => (r.1, r.2.map .data)
  | .wake => (DataTransfer.wake p.data).map fun d => (p.withData d, [])
  | .sigsevReturn => (sigsevReturn me nodeList p).map fun r => (r.1, r.2.map .data)
  | .store page => (store p page).map fun p => (p, [])
  | .load => (load p).map fun p => (p, [])

/-- The handler of one message. -/
def handle (me : Node) (p : Peer Node C) : Msg Node C → Option (Peer Node C × List (Msg Node C))
  | .lock m => (PageLock.handle me p.lock m).map fun r => (p.withLock r.1, r.2.map .lock)
  | .data m =>
    let r := DataTransfer.handle me p.data m
    some (p.withData r.1, r.2.map .data)

/-- The nodes that share the page; `nodeList n` is the `node_list` of `n`. -/
def protocol (nodeList : Node → List Node) :
    Network.Protocol Node (Peer Node C) (Msg Node C) (Action C) where
  dest := Msg.dest
  act := fun i => act (nodeList i) i
  handle := handle

abbrev Net (Node C : Type) := Network.Net Node (Peer Node C) (Msg Node C)

abbrev Event (Node C : Type) := Network.Event Node (Msg Node C) (Action C)

def step [DecidableEq C] (nodeList : Node → List Node) :
    Net Node C → Event Node C → Option (Net Node C) :=
  Network.step (protocol nodeList)

/-- `Init_DSM` or `join_DSM` has returned at every node: nothing is locked and no page is writable.
What the nodes know of the page and of the lock, and what is in flight, may be anything. -/
def Started (s : Net Node C) : Prop :=
  ∀ n, (s.node n).lock.thread = .idle ∧ (s.node n).lock.core.mode = .none ∧
    (s.node n).data.thread = .running ∧ (s.node n).call = none ∧
    (s.node n).data.prot ≠ .readWrite

/-- The node `o` has called `Init_DSM` and all others have joined; `page n` is what the memory of
`n` holds. -/
def initNet (o : Node) (page : Node → C) : Net Node C where
  node := fun n =>
    { lock := ⟨PageLock.initCore o, .idle, 0⟩
      data := DataTransfer.initDataTransfer n (if n = o then none else some o) (page n)
      call := none
      mode_eq := rfl }
  msgs := []

/-! ## The invariant -/

/-- A writable page is locked for writing, owned, and in no call; and the lock status that
`sigsev_handler` has read is still the one. -/
structure PeerInv (n : Node) (p : Peer Node C) : Prop where
  writable : p.data.prot = .readWrite →
    p.lock.core.mode = .writing ∧ p.data.owner = n ∧ p.call = none
  status : ∀ lockStatus, p.call = some (.sigsegv lockStatus) → p.lock.core.mode = lockStatus

/-- The step is a call of `ask_lock` by `n`. -/
def Event.isAskLock (n : Node) : Event Node C → Prop
  | .act i .askLock => i = n
  | _ => False

/-- In the run `es` from `s₀`, the node `n` has sent `INVALIDATION` to every node of its list after
its last call of `ask_lock`. -/
def Broadcast [DecidableEq C] (nodeList : Node → List Node) (s₀ : Net Node C)
    (es : List (Event Node C)) (n : Node) : Prop :=
  ∃ es₁ es₂ s₁ s₂, es = es₁ ++ .act n .sigsevReturn :: es₂ ∧
    Network.run (step nodeList) s₀ es₁ = some s₁ ∧
    step nodeList s₁ (.act n .sigsevReturn) = some s₂ ∧
    s₂.msgs = s₁.msgs ++ (nodeList n).map (fun i => .data (.invalidation i n)) ∧
    ∀ e ∈ es₂, ¬ Event.isAskLock n e

end Sigsegv
