import Psar.Connection.Layout
import Psar.DataTransfer.Pages

/-!
# The bytes of the page messages

`RECV_PAGE` carries one page, `RECV_PAGE_LEAVE` the pages of a node that leaves, and `DT_LEAVE`
their ids (`data_transfer_utils.h`). The handlers are modelled up to the acknowledgement. Every call
of `update_page`, and every turn of the loop of `DT_LEAVE_handler`, is recorded together with what
it does. The protection of the pages is left out.
-/

namespace PageMessage

open Connection (leBytes)
open Layout
open Record (Piece Prog get loop put stride)
open SendState (NodeId nodeEqual sizeofMessage)

/-- `PAGE_SIZE`. -/
def pageSize : ℕ := 4096

/-- The types that a message with a page has. -/
inductive RecvType where
  /-- `RECV_PAGE`. -/
  | recvPage
  /-- `RECV_PAGE_LEAVE`. -/
  | recvPageLeave
  deriving DecidableEq, Repr

/-- The values in `enum message_type`. -/
def RecvType.value : RecvType → ℕ
  | .recvPage => 7
  | .recvPageLeave => 8

def RecvType.ofValue : ℕ → Option RecvType
  | 7 => some .recvPage
  | 8 => some .recvPageLeave
  | _ => none

/-- The value of `DT_LEAVE`. -/
def dtLeaveType : ℕ := 9

/-! ## Building -/

/-- The page at `dsm + PAGE_SIZE * page_id`. -/
def pageAt (dsm : List UInt8) (pageId : ℕ) : List UInt8 :=
  (dsm.drop (pageSize * pageId)).take pageSize

/-- `memcpy` of a page to the position. -/
def copyPage (dsm : List UInt8) (pageId : ℕ) : Prog UInt8 Unit :=
  if pageSize * pageId + pageSize ≤ dsm.length then put (pageAt dsm pageId) else failure

def initPageMessage (dsm : List UInt8) (pageId : ℕ) (owner : NodeId) : Prog UInt8 Unit := do
  putNat 8 pageId
  stride sizeofNodeId (putNode owner)
  copyPage dsm pageId

def buildPageMessage (garbage : ℕ → UInt8) (dsm : List UInt8) (pageId : ℕ) (owner : NodeId)
    (recvType : RecvType) : Option Built :=
  build garbage (sizeofMessage + 8 + sizeofNodeId + pageSize) do
    putHeader recvType.value
    initPageMessage dsm pageId owner

def pageMsgSz : ℕ := 8 + sizeofNodeId + pageSize

def buildMultiplePageMessage (garbage : ℕ → UInt8) (dsm : List UInt8) (pageIds : List ℕ)
    (newOwner : NodeId) (recvType : RecvType) : Option Built :=
  build garbage (sizeofMessage + 8 + pageIds.length * pageMsgSz) do
    putHeader recvType.value
    putNat 8 pageIds.length
    pageIds.forM fun pageId => stride pageMsgSz (initPageMessage dsm pageId newOwner)

def buildDtLeaveMessage (garbage : ℕ → UInt8) (pageIds : List ℕ) (newOwner : NodeId) :
    Option Built :=
  build garbage (sizeofMessage + sizeofNodeId + 8 * (pageIds.length + 1)) do
    putHeader dtLeaveType
    stride sizeofNodeId (putNode newOwner)
    putNat 8 pageIds.length
    pageIds.forM fun pageId => putNat 8 pageId

/-! ## Handling -/

/-- The pages at a node. -/
structure Pages where
  dsm : List UInt8
  pageOwners : ℕ → NodeId
  pageState : ℕ → Bool
  /-- `page_cv[page_id].predicate`. -/
  predicate : ℕ → Bool

/-- The arguments of `update_page`, with what its pointers point to. -/
structure Update where
  pageId : ℕ
  owner : NodeId
  sender : NodeId
  page : List UInt8
  recvType : RecvType
  deriving DecidableEq, Repr

def signalPageNoLock (p : Pages) (pageId : ℕ) : Pages :=
  { p with
    predicate := Function.update p.predicate pageId true
    pageState := Function.update p.pageState pageId true }

def updatePage (p : Pages) (u : Update) : Pages :=
  if u.recvType = .recvPage ∨ nodeEqual u.sender (p.pageOwners u.pageId) then
    let p := { p with
      pageOwners := Function.update p.pageOwners u.pageId u.owner
      dsm := Buffer.overwrite p.dsm (u.pageId * pageSize) u.page }
    if p.predicate u.pageId then p else signalPageNoLock p u.pageId
  else p

/-- What the node has of one page; the protection and the lock status are no bytes of a message. -/
def Pages.entry (p : Pages) (prot : DataTransfer.Prot) (mode : PageLock.LockStatus) (inside : Bool)
    (pageId : ℕ) : PageTransfer.Entry NodeId (List UInt8) :=
  ⟨p.pageOwners pageId, p.pageState pageId, p.predicate pageId, pageAt p.dsm pageId, prot, mode,
    inside⟩

/-- The pages after some calls of `update_page`, and the calls. -/
structure Updated where
  pages : Pages
  calls : List Update

def Updated.update (s : Updated) (u : Update) : Updated :=
  ⟨updatePage s.pages u, s.calls ++ [u]⟩

/-- The page id, the owner and the page at the position. -/
def getUpdate (sender : NodeId) (recvType : RecvType) : Prog UInt8 Update := do
  let pageId ← getNat 8
  let owner ← stride sizeofNodeId getNode
  let page ← get pageSize
  return ⟨pageId, owner, sender, page, recvType⟩

def pageHandler (p : Pages) : Prog UInt8 Updated := do
  let header ← getHeader
  match RecvType.ofValue header.messageType with
  | some recvType =>
    let u ← getUpdate header.sender recvType
    return Updated.update ⟨p, []⟩ u
  | none => failure

def recvPageLeaveHandler (p : Pages) : Prog UInt8 Updated := do
  let header ← getHeader
  let nbIds ← getNat 8
  loop (fun s => do
    let u ← stride pageMsgSz (getUpdate header.sender .recvPageLeave)
    return s.update u) nbIds ⟨p, []⟩

/-- One turn of the loop of `DT_LEAVE_handler`. -/
structure Visit where
  pageId : ℕ
  newOwner : NodeId
  deriving DecidableEq, Repr

/-- The pages after some turns, the turns, and the pages that `ASK_PAGE` was sent for, with the node
it was sent to. -/
structure Visited where
  pages : Pages
  visits : List Visit
  asked : List (ℕ × NodeId)

def Visited.visit (sender : NodeId) (s : Visited) (v : Visit) : Visited :=
  let visits := s.visits ++ [v]
  if nodeEqual (s.pages.pageOwners v.pageId) sender then
    let pages := { s.pages with
      pageOwners := Function.update s.pages.pageOwners v.pageId v.newOwner }
    if pages.predicate v.pageId then ⟨pages, visits, s.asked⟩
    else ⟨pages, visits, s.asked ++ [(v.pageId, v.newOwner)]⟩
  else ⟨s.pages, visits, s.asked⟩

def dtLeaveHandler (p : Pages) : Prog UInt8 Visited := do
  let header ← getHeader
  let newOwner ← stride sizeofNodeId getNode
  let nbIds ← getNat 8
  loop (fun s => do
    let pageId ← getNat 8
    return s.visit header.sender ⟨pageId, newOwner⟩) nbIds ⟨p, [], []⟩

/-! ## The records -/

def pagePieces (dsm : List UInt8) (owner : NodeId) (pageId : ℕ) : List (Piece UInt8) :=
  .field (leBytes 8 pageId) :: (nodePieces owner ++ [.field (pageAt dsm pageId)])

/-- The arguments for the page `pageId` of `dsm`. -/
def updateOf (dsm : List UInt8) (owner sender : NodeId) (recvType : RecvType) (pageId : ℕ) :
    Update :=
  ⟨pageId, owner, sender, pageAt dsm pageId, recvType⟩

/-- The pages after `update_page` has been called with `us`, one after the other. -/
def updated (p : Pages) (us : List Update) : Updated := ⟨us.foldl updatePage p, us⟩

/-- The pages after the turns `vs` of the loop of `DT_LEAVE_handler`. -/
def visited (p : Pages) (sender : NodeId) (vs : List Visit) : Visited :=
  vs.foldl (Visited.visit sender) ⟨p, [], []⟩

end PageMessage
