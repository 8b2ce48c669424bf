import Psar.Connection.SendAll
import Psar.DataTransfer.PageMessage
import Psar.Dsm.Size

/-!
# The message that hands the pages over

`leave_data_transfer` looks for the pages that the node owns and sends all of them to the new owner
in one message. The locks of the pages are left out.
-/

namespace LeavePages

open Layout (Built)
open PageMessage (pageSize buildMultiplePageMessage)
open SendState (NodeId nodeEqual)

/-- `index_pages` after the first loop. -/
def indexPages (me : NodeId) (nbPages : BitVec 32) (pageOwners : ℕ → NodeId) : List ℕ :=
  (List.range nbPages.toNat).foldl
    (fun pages i => if nodeEqual (pageOwners i) me then pages ++ [i] else pages) []

/-- The message, and the size that is sent with it. -/
def leaveMessage (garbage : ℕ → UInt8) (dsm : List UInt8) (me : NodeId) (nbPages : BitVec 32)
    (pageOwners : ℕ → NodeId) (newOwner : NodeId) : Option Built :=
  buildMultiplePageMessage garbage dsm (indexPages me nbPages pageOwners) newOwner .recvPageLeave

/-! ## What fits -/

/-- The memory that `Init_DSM` has mapped for `nb_pages` pages, of less than `2 ^ 32` bytes. -/
structure Created (nbPages : BitVec 32) (dsm : List UInt8) : Prop where
  fits : nbPages.toNat * pageSize < 2 ^ 32
  mapped : dsm.length = Dsm.mapped (Dsm.length nbPages)

/-- The number of pages whose owner is the node. -/
def nbOwnedPages (me : NodeId) (nbPages : BitVec 32) (pageOwners : ℕ → NodeId) : ℕ :=
  (List.range nbPages.toNat).countP fun i => nodeEqual (pageOwners i) me

/-- The message is built, and the cursors of its transfer fit. -/
def LeaveFits (garbage : ℕ → UInt8) (dsm : List UInt8) (me : NodeId) (nbPages : BitVec 32)
    (pageOwners : ℕ → NodeId) (newOwner : NodeId) : Prop :=
  ∃ b, leaveMessage garbage dsm me nbPages pageOwners newOwner = some b ∧
    Transfer.MessageFits (BitVec.ofNat 64 b.size)

end LeavePages
