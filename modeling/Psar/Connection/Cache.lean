import Psar.Library.Network

/-!
# The cache of connections

`connection_buffer` and the threads that use it (`find_connection`, `add_connection`,
`replace_socket`, `server_thread` and `send_message` in `network.c`). Descriptors are numbers. The
operating system gives out any number that is closed; entries of the cache are never removed.

A call of the system is one step. `find_connection`, `add_connection` and `replace_socket` run
inside `con_buff_lock` and are one step each. What a call returns is part of the step.
-/

namespace ConnectionCache

variable {Node Thread : Type}

/-! ## Descriptors -/

/-- What a descriptor number stands for: nothing, something that is not connected (a new socket, the
listening socket, a file), or a connection to a peer. -/
inductive Sock (Node : Type) where
  | closed
  | opened
  | connected (peer : Node)
  deriving DecidableEq, Repr

/-- `send` fails on a descriptor that is not connected. -/
def Sock.isConnected : Sock Node → Bool
  | .connected _ => true
  | _ => false

/-! ## Threads -/

/-- Where a thread is in `send_message_internal`. -/
inductive Part where
  | lock
  | size
  | body
  deriving DecidableEq, Repr

/-- Where a thread is in `send_message`. `found` says whether `find_connection` has found a
descriptor (`sock != -1`). -/
inductive Stage where
  /-- `send_message_internal` on `fd`; `first` until the first attempt has failed. -/
  | write (fd : ℕ) (first : Bool) (part : Part)
  /-- About to call `socket`. -/
  | socket (found : Bool)
  /-- About to call `connect` on `sockfd`. -/
  | connect (found : Bool) (sockfd : ℕ)
  /-- About to call `epoll_ctl`. -/
  | epoll (found : Bool) (sockfd : ℕ)
  /-- About to call `add_connection` or `replace_socket`. -/
  | cache (found : Bool) (sockfd : ℕ)
  /-- About to close `sockfd`, as the cache has `fd` for the node. -/
  | close (fd sockfd : ℕ)
  deriving DecidableEq, Repr

structure Send (Node : Type) where
  dest : Node
  stage : Stage
  deriving DecidableEq, Repr

/-- Where `server_thread` is: it waits for an event, it has read end-of-file or an error on `fd` and
is about to close it, or it has read a message of `sender` on `fd` and is about to call
`add_connection`. -/
inductive Server (Node : Type) where
  | wait
  | close (fd : ℕ)
  | received (fd : ℕ) (sender : Node)
  deriving DecidableEq, Repr

structure State (Node Thread : Type) where
  sock : ℕ → Sock Node
  /-- `connection_buffer`. -/
  buffer : List (Node × ℕ)
  /-- The thread that holds `lock_send`. -/
  lockSend : Option Thread
  /-- The calls of `send_message` that have not returned. -/
  send : Thread → Option (Send Node)
  server : Server Node

/-- After `start_server`, whatever descriptors the process has. -/
def initState (sock : ℕ → Sock Node) : State Node Thread := ⟨sock, [], none, fun _ => none, .wait⟩

/-! ## The functions on `connection_buffer` -/

section Buffer

variable [DecidableEq Node]

def findConnection (buffer : List (Node × ℕ)) (node : Node) : Option ℕ :=
  (buffer.find? fun x => x.1 = node).map Prod.snd

/-- The new buffer, and the descriptor of the node in it. -/
def addConnection (buffer : List (Node × ℕ)) (node : Node) (socket : ℕ) : List (Node × ℕ) × ℕ :=
  match findConnection buffer node with
  | some sock => (buffer, sock)
  | none => (buffer ++ [(node, socket)], socket)

/-- Puts `socket` in the place of the descriptor of the node if `fcntl` finds that number closed. -/
def replaceSocket (sock : ℕ → Sock Node) (node : Node) (socket : ℕ) :
    List (Node × ℕ) → List (Node × ℕ) × ℕ
  | [] => ([], socket)
  | x :: buffer =>
    if x.1 = node then
      match sock x.2 with
      | .closed => ((x.1, socket) :: buffer, socket)
      | _ => (x :: buffer, x.2)
    else
      let r := replaceSocket sock node socket buffer
      (x :: r.1, r.2)

/-- What `send_message` does with its new connection: `replace_socket` if it had found a descriptor,
else `add_connection`. -/
def cacheConnection (sock : ℕ → Sock Node) (buffer : List (Node × ℕ)) (dest : Node) (found : Bool)
    (sockfd : ℕ) : List (Node × ℕ) × ℕ :=
  if found then replaceSocket sock dest sockfd buffer else addConnection buffer dest sockfd

end Buffer

/-! ## Steps -/

inductive Event (Node Thread : Type) where
  /-- `send_message(dest)`, up to the return of `find_connection`. -/
  | send (t : Thread) (dest : Node)
  /-- `lock_send` is taken. -/
  | lock (t : Thread)
  /-- `send_all` of the size or of the body, without an error or with one. -/
  | write (t : Thread) (ok : Bool)
  /-- `socket` returns a number, or an error. -/
  | socket (t : Thread) (sockfd : Option ℕ)
  /-- `inet_pton` rejects the address. -/
  | badAddress (t : Thread)
  | connect (t : Thread) (ok : Bool)
  | epollCtl (t : Thread) (ok : Bool)
  /-- `add_connection` or `replace_socket`. -/
  | cache (t : Thread)
  /-- `close(sockfd)` of the connection that is not needed. -/
  | close (t : Thread)
  /-- `accept` returns `fd`, a connection from `peer`. -/
  | accept (fd : ℕ) (peer : Node)
  /-- `Recv_all` of `server_thread` reads end-of-file or an error on `fd`. The events come from an
  earlier `epoll_wait`, so `fd` may be any number. -/
  | readFail (fd : ℕ)
  /-- `server_thread` closes the descriptor. -/
  | serverClose
  /-- `server_thread` has read a message on `fd`; its sender is the peer. -/
  | receive (fd : ℕ)
  /-- `add_connection` of `server_thread`. -/
  | add
  deriving DecidableEq, Repr

variable [DecidableEq Node] [DecidableEq Thread]

/-- The thread `t` goes on at `stage`. -/
def State.goto (s : State Node Thread) (t : Thread) (dest : Node) (stage : Stage) :
    State Node Thread :=
  { s with send := Function.update s.send t (some ⟨dest, stage⟩) }

/-- `send_message` of the thread `t` returns. -/
def State.return_ (s : State Node Thread) (t : Thread) : State Node Thread :=
  { s with send := Function.update s.send t none }

def State.close (s : State Node Thread) (fd : ℕ) : State Node Thread :=
  { s with sock := Function.update s.sock fd .closed }

/-- `send_message_internal` fails: the descriptor is closed and `lock_send` released. After the
first attempt `send_message` opens a new connection. -/
def writeFails (s : State Node Thread) (t : Thread) (dest : Node) (fd : ℕ) (first : Bool) :
    State Node Thread :=
  let s := { s.close fd with lockSend := none }
  if first then s.goto t dest (.socket true) else s.return_ t

/-- What the thread `t` does next in `send_message`. -/
def sendStep (s : State Node Thread) (t : Thread) (c : Send Node) :
    Event Node Thread → Option (State Node Thread)
  | .lock _ =>
    match c.stage, s.lockSend with
    | .write fd first .lock, none =>
      some { s.goto t c.dest (.write fd first .size) with lockSend := some t }
    | _, _ => none
  | .write _ true =>
    match c.stage with
    | .write fd first .size =>
      if (s.sock fd).isConnected then some (s.goto t c.dest (.write fd first .body)) else none
    | .write fd _ .body =>
      if (s.sock fd).isConnected then some { s.return_ t with lockSend := none } else none
    | _ => none
  | .write _ false =>
    match c.stage with
    | .write fd first .size => some (writeFails s t c.dest fd first)
    | .write fd first .body => some (writeFails s t c.dest fd first)
    | _ => none
  | .socket _ (some sockfd) =>
    match c.stage, s.sock sockfd with
    | .socket found, .closed =>
      some ({ s with sock := Function.update s.sock sockfd .opened }.goto t c.dest
        (.connect found sockfd))
    | _, _ => none
  | .socket _ none =>
    match c.stage with
    | .socket _ => some (s.return_ t)
    | _ => none
  | .badAddress _ =>
    match c.stage with
    | .connect _ _ => some (s.return_ t)
    | _ => none
  | .connect _ true =>
    match c.stage with
    | .connect found sockfd =>
      match s.sock sockfd with
      | .opened => some ({ s with sock := Function.update s.sock sockfd (.connected c.dest) }.goto t
          c.dest (.epoll found sockfd))
      | _ => none
    | _ => none
  | .connect _ false =>
    match c.stage with
    | .connect _ sockfd => some ((s.close sockfd).return_ t)
    | _ => none
  | .epollCtl _ true =>
    match c.stage with
    | .epoll found sockfd => some (s.goto t c.dest (.cache found sockfd))
    | _ => none
  | .epollCtl _ false =>
    match c.stage with
    | .epoll _ sockfd => some ((s.close sockfd).return_ t)
    | _ => none
  | .cache _ =>
    match c.stage with
    | .cache found sockfd =>
      let r := cacheConnection s.sock s.buffer c.dest found sockfd
      some ({ s with buffer := r.1 }.goto t c.dest
        (if r.2 = sockfd then .write r.2 false .lock else .close r.2 sockfd))
    | _ => none
  | .close _ =>
    match c.stage with
    | .close fd sockfd => some ((s.close sockfd).goto t c.dest (.write fd false .lock))
    | _ => none
  | _ => none

/-- The thread whose step an event is. -/
def Event.thread : Event Node Thread → Option Thread
  | .lock t => some t
  | .write t _ => some t
  | .socket t _ => some t
  | .badAddress t => some t
  | .connect t _ => some t
  | .epollCtl t _ => some t
  | .cache t => some t
  | .close t => some t
  | _ => none

def step (s : State Node Thread) (e : Event Node Thread) : Option (State Node Thread) :=
  match e with
  | .send t dest =>
    match s.send t with
    | none => some (s.goto t dest (match findConnection s.buffer dest with
        | some sock => .write sock true .lock
        | none => .socket false))
    | some _ => none
  | .accept fd peer =>
    match s.server, s.sock fd with
    | .wait, .closed => some { s with sock := Function.update s.sock fd (.connected peer) }
    | _, _ => none
  | .readFail fd =>
    match s.server with
    | .wait => some { s with server := .close fd }
    | _ => none
  | .serverClose =>
    match s.server with
    | .close fd => some { s.close fd with server := .wait }
    | _ => none
  | .receive fd =>
    match s.server, s.sock fd with
    | .wait, .connected peer => some { s with server := .received fd peer }
    | _, _ => none
  | .add =>
    match s.server with
    | .received fd sender => some { s with
        buffer := (addConnection s.buffer sender fd).1
        server := .wait }
    | _ => none
  | e => e.thread.bind fun t => (s.send t).bind fun c => sendStep s t c e

/-! ## Which steps are safe -/

/-- The descriptor that a thread keeps for its node. -/
def Stage.keeps : Stage → Option ℕ
  | .write fd _ _ => some fd
  | .socket _ => none
  | .connect _ _ => none
  | .epoll _ sockfd => some sockfd
  | .cache _ sockfd => some sockfd
  | .close fd _ => some fd

/-- `fd` is taken for a connection to the node: by the cache, by a thread inside `send_message`, or
by `server_thread` between a message and `add_connection`. -/
def State.Refers (s : State Node Thread) (node : Node) (fd : ℕ) : Prop :=
  (node, fd) ∈ s.buffer ∨
  (∃ t, ∃ c ∈ s.send t, c.dest = node ∧ c.stage.keeps = some fd) ∨
  s.server = .received fd node

/-- A number becomes a connection to a node only if nobody takes it for a connection to another
one. -/
def reuseOk (s : State Node Thread) : Event Node Thread → Prop
  | .accept fd peer => ∀ node, s.Refers node fd → node = peer
  | .connect t true => ∀ c ∈ s.send t, ∀ found sockfd, c.stage = .connect found sockfd →
      ∀ node, s.Refers node sockfd → node = c.dest
  | _ => True

/-- The thread `t` writes to `dest` on `fd`. -/
def State.Writes (s : State Node Thread) (t : Thread) (dest : Node) (fd : ℕ) : Prop :=
  ∃ first part, s.send t = some ⟨dest, .write fd first part⟩

/-! ## The invariant -/

/-- What is taken for a connection to a node is not a connection to another one. -/
def Routed (s : State Node Thread) : Prop :=
  ∀ node fd, s.Refers node fd → ∀ peer, s.sock fd = .connected peer → peer = node

end ConnectionCache
