import Psar.Connection.Layout

/-!
# The bytes of `INFO_DSM`

The contact of a node that joins sends it the members and the owners of the pages in one message
(`build_INFO_DSM_message` in `library_messages.h`), and `INFO_DSM_handler` takes them over: the
members with `add_to_nodes`, the owners through `init_data_transfer`. The two arrays follow each
other, and only the number of members says where the second one starts.
-/

namespace InfoDSM

open Layout
open Record (Piece Prog get loop put skip stride)
open SendState (NodeId sizeofMessage)

/-- `sizeof(struct INFO_DSM_message)`: the header, `nb_pages` and `nb_nodes`. -/
def sizeofInfoDSM : ℕ := sizeofMessage + 4 + 4

/-- The value of `INFO_DSM` in `enum message_type`. -/
def infoDSMType : ℕ := 4

/-! ## The contact -/

/-- What the contact sends. -/
structure Member where
  /-- The entries of `node_list`, from its head. -/
  nodeList : List Slot
  nbNodees : BitVec 32
  nbPages : BitVec 32
  pageOwners : List Slot

/-- `memcpy` of `nb_pages` entries of the table. -/
def getPageOwners (m : Member) : Prog UInt8 Unit :=
  if m.nbPages.toNat ≤ m.pageOwners.length then
    put ((m.pageOwners.take m.nbPages.toNat).flatMap Slot.bytes)
  else failure

def buildInfoDSMMessage (garbage : ℕ → UInt8) (m : Member) : Option Built :=
  build garbage
    (sizeofInfoDSM + m.nbNodees.toNat * sizeofNodeId + m.nbPages.toNat * sizeofNodeId) do
      putHeader infoDSMType
      putNat 4 m.nbPages.toNat
      putNat 4 m.nbNodees.toNat
      m.nodeList.forM fun n => stride sizeofNodeId (put n.bytes)
      getPageOwners m

/-! ## The node that joins -/

/-- What `init_data_transfer` sets up. -/
structure Tables where
  pageOwners : List Slot
  /-- Whether a page is up to date. -/
  pageState : List Bool
  /-- `page_cv[i].predicate`: false while the page is being synchronised. -/
  predicate : List Bool
  /-- `dt_cv.predicate`. -/
  dtCv : Bool

/-- What the arrays of `init_data_transfer` hold after `malloc`. -/
structure Heap where
  owner : ℕ → Slot
  state : ℕ → Bool
  predicate : ℕ → Bool

def Heap.tables (heap : Heap) (n : ℕ) : Tables where
  pageOwners := (List.range n).map heap.owner
  pageState := (List.range n).map heap.state
  predicate := (List.range n).map heap.predicate
  dtCv := true

/-- One turn of the loop of `init_data_transfer`; `owners` says that the argument is not `NULL`. -/
def initPage (me : NodeId) (owners : Bool) (t : Tables) (i : ℕ) : Tables :=
  { t with
    predicate := t.predicate.set i true
    pageState := t.pageState.set i (!owners)
    pageOwners :=
      if owners then t.pageOwners else t.pageOwners.modify i fun s => { s with node := me } }

/-- `init_data_transfer`; if `owners` is not `NULL`, the table is at the position. -/
def initDataTransfer (heap : Heap) (me : NodeId) (nbPages : ℕ) (owners : Bool) :
    Prog UInt8 Tables := do
  let t := (List.range nbPages).foldl (initPage me owners) (heap.tables nbPages)
  if owners then
    let bs ← get (sizeofNodeId * nbPages)
    match slotsOfBytes nbPages bs with
    | some slots => return { t with pageOwners := slots }
    | none => failure
  else return t

structure Joiner where
  /-- `node_list`, from its head. -/
  nodeList : List NodeId
  nbNodees : BitVec 32
  nbPages : BitVec 32
  /-- Set up by `init_data_transfer`. -/
  tables : Option Tables
  inDsm : Bool

def addToNodes (j : Joiner) (n : NodeId) : Joiner :=
  { j with nodeList := n :: j.nodeList, nbNodees := j.nbNodees + 1 }

def infoDSMHandler (heap : Heap) (me : NodeId) (j : Joiner) : Prog UInt8 Joiner := do
  skip sizeofMessage
  let nbPages ← getNat 4
  let nbNodes ← getNat 4
  let j ← loop (fun j => do
    let n ← stride sizeofNodeId getNode
    return addToNodes j n) nbNodes { j with nbPages := BitVec.ofNat 32 nbPages }
  let t ← initDataTransfer heap me j.nbPages.toNat true
  return { j with tables := some t, inDsm := true }

/-! ## The record -/

/-- The record behind the header, where `pieces` are those of one member. -/
def infoPieces (pieces : Slot → List (Piece UInt8)) (m : Member) : List (Piece UInt8) :=
  [.field (Connection.leBytes 4 m.nbPages.toNat)] ++
    ([.field (Connection.leBytes 4 m.nbNodees.toNat)] ++
      (m.nodeList.flatMap pieces ++ [.field (m.pageOwners.flatMap Slot.bytes)]))

end InfoDSM
