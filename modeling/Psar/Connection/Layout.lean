import Psar.Core.SendState
import Psar.Library.Record

/-!
# The structures of `message.h` in memory

`struct node_id` has two bytes of padding between its host and its port, and `struct message` four
behind the sender. `node_copy` leaves padding alone, while `memcpy` of a whole structure copies it.
-/

namespace Layout

open Connection (leBytes ofLeBytes)
open Record (Piece Prog get put skip)
open SendState (NodeId sizeofMessage)

/-! ## Numbers -/

/-- Writes a number of `width` bytes: 8 for a `size_t`, 4 for an `unsigned int` or an `int`. -/
def putNat (width n : ℕ) : Prog UInt8 Unit := put (leBytes width n)

def getNat (width : ℕ) : Prog UInt8 ℕ := do
  let bs ← get width
  return ofLeBytes bs

/-! ## Node ids -/

/-- `sizeof(struct node_id)`. -/
def sizeofNodeId : ℕ := 52

/-- `node_copy` to the position. -/
def putNode (src : NodeId) : Prog UInt8 Unit := do
  put src.host
  skip 2
  putNat 4 src.port.toNat

/-- The host and the port of the `struct node_id` at the position. -/
def getNode : Prog UInt8 NodeId := do
  let host ← get 46
  skip 2
  let port ← getNat 4
  if h : host.length = 46 then return ⟨host, BitVec.ofNat 32 port, h⟩ else failure

def nodePieces (n : NodeId) : List (Piece UInt8) :=
  [.field n.host, .padding 2, .field (leBytes 4 n.port.toNat)]

/-- A `struct node_id` in memory, with its padding. -/
structure Slot where
  node : NodeId
  padding : List UInt8
  length_padding : padding.length = 2
  deriving DecidableEq, Repr

/-- What `memcpy` copies. -/
def Slot.bytes (s : Slot) : List UInt8 := s.node.host ++ s.padding ++ leBytes 4 s.node.port.toNat

/-- The `struct node_id` that 52 bytes are. -/
def Slot.ofBytes (bs : List UInt8) : Option Slot :=
  if h : (bs.take 46).length = 46 ∧ ((bs.drop 46).take 2).length = 2 then
    some ⟨⟨bs.take 46, BitVec.ofNat 32 (ofLeBytes (bs.drop 48)), h.1⟩, (bs.drop 46).take 2, h.2⟩
  else none

/-- The array of `n` structures that the bytes are. -/
def slotsOfBytes : ℕ → List UInt8 → Option (List Slot)
  | 0, _ => some []
  | n + 1, bs =>
    (Slot.ofBytes (bs.take sizeofNodeId)).bind fun s =>
      (slotsOfBytes n (bs.drop sizeofNodeId)).map fun ss => s :: ss

/-- A node with this port. -/
def nodeOf (port : BitVec 32) : NodeId := ⟨List.replicate 46 1, port, List.length_replicate⟩

/-! ## The header -/

/-- `message_type`, and the position behind the header; the sender comes with `send_message`. -/
def putHeader (messageType : ℕ) : Prog UInt8 Unit := do
  putNat 8 messageType
  skip (sizeofMessage - 8)

/-- The header of a message that has been received. -/
structure Header where
  messageType : ℕ
  sender : NodeId
  deriving DecidableEq, Repr

/-- Reads the header, and moves behind it. -/
def getHeader : Prog UInt8 Header := do
  let messageType ← getNat 8
  let sender ← getNode
  skip (sizeofMessage - 8 - sizeofNodeId)
  return ⟨messageType, sender⟩

def headerPieces (messageType : ℕ) (sender : NodeId) : List (Piece UInt8) :=
  .field (leBytes 8 messageType) :: (nodePieces sender ++ [.padding 4])

/-! ## Messages -/

/-- A message that has been built: the size that is announced, and the cursor at the end. -/
structure Built where
  size : ℕ
  cursor : Buffer.Cursor UInt8

/-- Allocates `sz` bytes, a `size_t`, and writes a message to them; `garbage` is what `malloc`
returns. -/
def build (garbage : ℕ → UInt8) (sz : ℕ) (f : Prog UInt8 Unit) : Option Built :=
  (f ⟨(List.range (sz % 2 ^ 64)).map garbage, 0, []⟩).map fun r => ⟨sz % 2 ^ 64, r.2⟩

/-- The message as its handler gets it from the node `me`. -/
def Built.received (b : Built) (me : NodeId) : Buffer.Cursor UInt8 :=
  ⟨SendState.sendMessage me b.cursor.mem, 0, []⟩

/-- All writes are in the allocated memory, and the last byte written is the last one announced. -/
def Built.Exact (b : Built) : Prop :=
  b.cursor.mem.length = b.size ∧ b.cursor.pos = b.size ∧
    ∀ a ∈ b.cursor.log, a.offset + a.bytes.length ≤ b.size

/-- The handler `f` of the message, sent by the node `me`, returns `a`, and it reads no byte that is
not announced. -/
def Handles {α : Type} (b : Built) (me : NodeId) (f : Prog UInt8 α) (a : α) : Prop :=
  ∃ c, f (b.received me) = some (a, c) ∧ ∀ x ∈ c.log, x.offset + x.bytes.length ≤ b.size

end Layout
