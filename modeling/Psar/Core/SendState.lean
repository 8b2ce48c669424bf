import Psar.Connection.Framing
import Psar.Core.PageLock
import Psar.Library.Buffer

/-!
# The bytes of `SEND_STATE`

A node that leaves sends the request lists of the pages whose token it holds in one message:
`leave_core` computes its size and writes it, and `handle_SEND_STATE` reads it at the delegate. The
entries of the leaver are those after the first loop of `leave_core` has unlocked the pages in use.

`i` is an `int` in the loops of `leave_core` and of `unserialize_requests`. An `i++` that would make
it overflow is undefined in C and gives `none` here.
-/

namespace SendState

open Buffer (Cursor)
open Connection (leBytes ofLeBytes)
open PageLock (CoreInfo LockType Request)

/-! ## Node ids and requests -/

/-- `struct node_id`: `char host[INET6_ADDRSTRLEN]` and `int port`. -/
structure NodeId where
  host : List UInt8
  port : BitVec 32
  length_host : host.length = 46
  deriving DecidableEq, Repr

/-- `node_equal`: `strcmp` compares the hosts up to the first zero. -/
def nodeEqual (node1 node2 : NodeId) : Bool :=
  node1.port = node2.port ∧
    node1.host.takeWhile (· ≠ 0) = node2.host.takeWhile (· ≠ 0)

def serializeNodeid (dest : Cursor UInt8) (src : NodeId) : Option (Cursor UInt8) :=
  (dest.put src.host).bind fun cursor => cursor.put (leBytes 4 src.port.toNat)

def unserializeNodeid (src : Cursor UInt8) : Option (NodeId × Cursor UInt8) :=
  (src.get 46).bind fun host =>
    (host.2.get 4).bind fun port =>
      if h : host.1.length = 46 then
        some (⟨host.1, BitVec.ofNat 32 (ofLeBytes port.1), h⟩, port.2)
      else none

/-- The value of an `enum lock_type`. -/
def lockTypeValue : LockType → ℕ
  | .read => 0
  | .write => 1

def lockTypeOfValue : ℕ → Option LockType
  | 0 => some .read
  | 1 => some .write
  | _ => none

def serializeRequest (dest : Cursor UInt8) (src : Request NodeId) : Option (Cursor UInt8) :=
  (dest.put (leBytes 4 (lockTypeValue src.mode))).bind fun cursor => serializeNodeid cursor src.who

def unserializeRequest (src : Cursor UInt8) : Option (Request NodeId × Cursor UInt8) :=
  (src.get 4).bind fun mode =>
    (unserializeNodeid mode.2).bind fun who =>
      (lockTypeOfValue (ofLeBytes mode.1)).map fun m => (⟨m, who.1⟩, who.2)

/-! ## Loops -/

/-- `i++` for an `int`. -/
def incrInt (i : ℕ) : Option ℕ := if i + 1 < 2 ^ 31 then some (i + 1) else none

/-- `for (int i = 0; i < n; i++)` over an array of `n` elements, from `i` on. -/
def forInt {α σ : Type} (body : σ → α → Option σ) : List α → ℕ → σ → Option σ
  | [], _, s => some s
  | a :: as, i, s => (body s a).bind fun s => (incrInt i).bind fun i => forInt body as i s

/-! ## Request lists -/

/-- The number of requests is written when the loop has counted them. -/
def serializeRequests (dest : Cursor UInt8) (src : CoreInfo NodeId) : Option (Cursor UInt8) :=
  (src.request.foldlM serializeRequest (dest.skip 8)).bind fun cursor =>
    cursor.store dest.pos (leBytes 8 src.request.length)

def unserializeRequests (dest : CoreInfo NodeId) (src : Cursor UInt8) :
    Option (CoreInfo NodeId × Cursor UInt8) :=
  (src.get 8).bind fun size =>
    forInt (fun st _ => (unserializeRequest st.2).map fun req =>
        (PageLock.addRequest st.1 req.1.who req.1.mode, req.2))
      (List.range (ofLeBytes size.1)) 0 (dest, size.2)

/-! ## `leave_core` -/

/-- `sizeof(struct message)`: the type, the sender and their padding. -/
def sizeofMessage : ℕ := 64

/-- `REQUEST_SIZE`. -/
def requestSize : ℕ := 54

/-- The value of `SEND_STATE` in `enum message_type`. -/
def sendStateType : ℕ := 12

/-- The pages whose token the node holds. -/
def held (me : NodeId) (coreSize : ℕ) (core : ℕ → CoreInfo NodeId) : List ℕ :=
  (List.range coreSize).filter fun i => nodeEqual (core i).haveToken me

/-- The first loop, which fills `pages_lock`. -/
def pagesLock (me : NodeId) (coreSize : ℕ) (core : ℕ → CoreInfo NodeId) : Option (List ℕ) :=
  forInt (fun pages i =>
      some (if nodeEqual (core i).haveToken me then pages ++ [i] else pages))
    (List.range coreSize) 0 []

/-- `message_data_size`, a `size_t`. -/
def messageDataSize (core : ℕ → CoreInfo NodeId) (pages : List ℕ) : Option ℕ :=
  forInt (fun size page =>
      some ((core page).request.foldl (fun size _ => (size + requestSize) % 2 ^ 64) size))
    pages 0 ((8 + pages.length * (8 + 8)) % 2 ^ 64)

/-- One turn of the loop that writes the message. -/
def serializePage (core : ℕ → CoreInfo NodeId) (cursor : Cursor UInt8) (page : ℕ) :
    Option (Cursor UInt8) :=
  (cursor.put (leBytes 8 page)).bind fun cursor => serializeRequests cursor (core page)

/-- `send_message` writes the sender into the header. -/
def sendMessage (me : NodeId) (message : List UInt8) : List UInt8 :=
  Buffer.overwrite (Buffer.overwrite message 8 me.host) 56 (leBytes 4 me.port.toNat)

/-- What `leave_core` has computed, written and sent. -/
structure Sent where
  messageSize : ℕ
  /-- After the loop that writes the message. -/
  cursor : Cursor UInt8
  message : List UInt8

/-- `leave_core` up to the `send_message`; `garbage` is what `malloc` returns. -/
def leaveCore (garbage : ℕ → UInt8) (me : NodeId) (coreSize : ℕ) (core : ℕ → CoreInfo NodeId) :
    Option Sent :=
  (pagesLock me coreSize core).bind fun pages =>
    (messageDataSize core pages).bind fun dataSize =>
      let messageSize := (sizeofMessage + dataSize) % 2 ^ 64
      let message := (List.range messageSize).map garbage
      let message := Buffer.overwrite message 0 (leBytes 8 sendStateType)
      (Cursor.put ⟨message, sizeofMessage, []⟩ (leBytes 8 pages.length)).bind fun cursor =>
        (forInt (serializePage core) pages 0 cursor).map fun cursor =>
          ⟨messageSize, cursor, sendMessage me cursor.mem⟩

/-! ## `handle_SEND_STATE` -/

/-- What `handle_SEND_STATE` leaves behind: the entries of the delegate, and the cursor. -/
structure Received where
  core : ℕ → CoreInfo NodeId
  cursor : Cursor UInt8

/-- One turn of the loop. -/
def unserializePage (st : Received) : Option Received :=
  (st.cursor.get 8).bind fun page =>
    (unserializeRequests (st.core (ofLeBytes page.1)) page.2).map fun r =>
      ⟨Function.update st.core (ofLeBytes page.1) r.1, r.2⟩

def handleSendState (core : ℕ → CoreInfo NodeId) (message : List UInt8) : Option Received :=
  (Cursor.get ⟨message, sizeofMessage, []⟩ 8).bind fun numberPages =>
    (List.range (ofLeBytes numberPages.1)).foldlM (fun st _ => unserializePage st)
      ⟨core, numberPages.2⟩

/-! ## What the message is for -/

/-- The size that `leave_core` computes is the number of bytes that it writes, and the delegate
reads as many bytes, and every field where it was written. -/
def Exact (garbage : ℕ → UInt8) (me : NodeId) (coreSize : ℕ)
    (core delegateCore : ℕ → CoreInfo NodeId) : Prop :=
  ∃ sent, leaveCore garbage me coreSize core = some sent ∧
    sent.messageSize = sizeofMessage + (sent.cursor.log.map fun a => a.bytes.length).sum ∧
    sent.messageSize = sent.cursor.pos ∧
    ∃ received, handleSendState delegateCore sent.message = some received ∧
      received.cursor.pos = sent.cursor.pos ∧ received.cursor.log.Perm sent.cursor.log

/-- The same mode and the same node. -/
def sameRequest (r r' : Request NodeId) : Prop :=
  r.mode = r'.mode ∧ nodeEqual r.who r'.who

/-- The delegate gets the request lists of the leaver, and nothing else changes. -/
def KeepsOrder (garbage : ℕ → UInt8) (me : NodeId) (coreSize : ℕ)
    (core delegateCore : ℕ → CoreInfo NodeId) : Prop :=
  ∃ sent received, leaveCore garbage me coreSize core = some sent ∧
    handleSendState delegateCore sent.message = some received ∧
    (∀ page ∈ held me coreSize core,
      List.Forall₂ sameRequest (received.core page).request (core page).request) ∧
    ∀ page, page ∉ held me coreSize core →
      (received.core page).request = (delegateCore page).request

/-- The bytes of the message behind the header. -/
def dataSize (core : ℕ → CoreInfo NodeId) (pages : List ℕ) : ℕ :=
  8 + (pages.map fun page => 16 + (core page).request.length * requestSize).sum

/-- The counters of the loops and the size do not overflow. -/
structure Fits (me : NodeId) (coreSize : ℕ) (core : ℕ → CoreInfo NodeId) : Prop where
  pages : coreSize < 2 ^ 31
  requests : ∀ page ∈ held me coreSize core, (core page).request.length < 2 ^ 31
  size : sizeofMessage + dataSize core (held me coreSize core) < 2 ^ 64

/-! ## The fields of the message -/

def requestFields (r : Request NodeId) : List (List UInt8) :=
  [leBytes 4 (lockTypeValue r.mode), r.who.host, leBytes 4 r.who.port.toNat]

def requestsFields (rs : List (Request NodeId)) : List (List UInt8) :=
  leBytes 8 rs.length :: rs.flatMap requestFields

def pageFields (core : ℕ → CoreInfo NodeId) (page : ℕ) : List (List UInt8) :=
  leBytes 8 page :: requestsFields (core page).request

def stateFields (core : ℕ → CoreInfo NodeId) (pages : List ℕ) : List (List UInt8) :=
  leBytes 8 pages.length :: pages.flatMap (pageFields core)

end SendState
