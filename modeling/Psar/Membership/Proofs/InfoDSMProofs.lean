import Psar.Connection.Proofs.LayoutProofs
import Psar.Membership.InfoDSM

/-!
# Proofs: the bytes of `INFO_DSM`

The contact copies whole structures and the handler reads the host and the port of each: both see
the same record. `add_to_nodes` inserts at the head of the list, so the order of the members is
turned around.
-/

namespace InfoDSM

open Connection (leBytes length_leBytes)
open Layout
open Record
open SendState (NodeId sizeofMessage)

variable {m : Member}

/-! ## The message -/

theorem size_infoPieces {pieces : Slot → List (Piece UInt8)}
    (hpieces : ∀ s, size (pieces s) = sizeofNodeId)
    (hcount : m.nbNodees.toNat = m.nodeList.length)
    (howners : m.pageOwners.length = m.nbPages.toNat) :
    size (infoPieces pieces m) =
      8 + m.nbNodees.toNat * sizeofNodeId + m.nbPages.toNat * sizeofNodeId := by
  simp only [infoPieces, size_append, size_cons, size_nil, Piece.size, length_leBytes,
    length_flatMap_bytes, size_flatMap fun s _ => hpieces s, ← hcount, howners]
  omega

theorem size_slotPieces (s : Slot) : size [.field s.bytes] = sizeofNodeId := by
  simp [Piece.size, s.length_bytes]

theorem writes_getPageOwners (howners : m.pageOwners.length = m.nbPages.toNat) :
    Writes (getPageOwners m) [.field (m.pageOwners.flatMap Slot.bytes)] := by
  unfold getPageOwners
  rw [if_pos howners.ge, ← howners, List.take_length]
  exact writes_put _

/-- What `build_INFO_DSM_message` writes behind the header. -/
theorem buildInfoDSMMessage_spec (garbage : ℕ → UInt8)
    (hcount : m.nbNodees.toNat = m.nodeList.length)
    (howners : m.pageOwners.length = m.nbPages.toNat) :
    ∃ b, buildInfoDSMMessage garbage m = some b ∧
      b.size = sizeofInfoDSM + m.nbNodees.toNat * sizeofNodeId + m.nbPages.toNat * sizeofNodeId ∧
      b.Exact ∧ ∀ me, Holds (b.received me).mem 0
        (headerPieces infoDSMType me ++ infoPieces (fun s => [.field s.bytes]) m) := by
  have hmembers : Writes (m.nodeList.forM fun n => stride sizeofNodeId (put n.bytes))
      (m.nodeList.flatMap fun s => [.field s.bytes]) :=
    writes_forM fun s _ => (writes_put s.bytes).stride (size_slotPieces s)
  have hbody := (writes_putNat 4 m.nbPages.toNat).bind ((writes_putNat 4 m.nbNodees.toNat).bind
    (hmembers.bind (writes_getPageOwners howners)))
  refine build_spec garbage ((writes_putHeader infoDSMType).bind hbody) ?_ ?_
  · show _ = sizeofMessage + size (infoPieces (fun s => [.field s.bytes]) m)
    rw [size_infoPieces size_slotPieces hcount howners]
    unfold sizeofInfoDSM
    omega
  · have hnodes := m.nbNodees.isLt
    have hpages := m.nbPages.isLt
    unfold sizeofInfoDSM sizeofMessage sizeofNodeId
    omega

/-- The handler finds the members in the copies. -/
theorem holds_infoPieces {mem : List UInt8} {off : ℕ}
    (h : Holds mem off (infoPieces (fun s => [.field s.bytes]) m)) :
    Holds mem off (infoPieces (fun s => nodePieces s.node) m) := by
  have hsize : ∀ s : Slot, size [.field s.bytes] = size (nodePieces s.node) := by
    intro s
    rw [size_slotPieces, size_nodePieces]
  obtain ⟨hpages, h⟩ := holds_append.mp h
  obtain ⟨hnodes, h⟩ := holds_append.mp h
  obtain ⟨hmembers, howners⟩ := holds_append.mp h
  refine holds_append.mpr ⟨hpages, holds_append.mpr ⟨hnodes, holds_append.mpr ⟨?_, ?_⟩⟩⟩
  · exact hmembers.flatMap (fun s off hs => holds_nodePieces hs) hsize
  · rw [size_flatMap fun s _ => size_nodePieces s.node]
    rw [size_flatMap fun s _ => size_slotPieces s] at howners
    exact howners

/-! ## The tables -/

theorem set_length_append {α : Type} (l : List α) (x y : α) (r : List α) :
    (l ++ y :: r).set l.length x = l ++ x :: r := by
  rw [List.set_append_right _ _ le_rfl, Nat.sub_self]
  rfl

/-- The loop of `init_data_transfer` after `k` turns. -/
theorem foldl_initPage (me : NodeId) {t : Tables} {k : ℕ} (hstate : k ≤ t.pageState.length)
    (hpredicate : k ≤ t.predicate.length) :
    (List.range k).foldl (initPage me true) t =
      { t with
        pageState := List.replicate k false ++ t.pageState.drop k
        predicate := List.replicate k true ++ t.predicate.drop k } := by
  induction k with
  | zero => rfl
  | succ k ih =>
    rw [List.range_succ, List.foldl_append, ih (by omega) (by omega), List.foldl_cons,
      List.foldl_nil]
    have hset : ∀ {l : List Bool} (b : Bool), k < l.length →
        (List.replicate k b ++ l.drop k).set k b = List.replicate (k + 1) b ++ l.drop (k + 1) := by
      intro l b hk
      have h := set_length_append (List.replicate k b) b l[k] (l.drop (k + 1))
      rw [List.length_replicate] at h
      rw [List.drop_eq_getElem_cons hk, h, List.replicate_succ', List.append_assoc]
      rfl
    simp only [initPage, Bool.not_true, if_true, hset false hstate, hset true hpredicate]

/-- `init_data_transfer` with the table that the contact has sent. -/
theorem reads_initDataTransfer (heap : Heap) (me : NodeId) (owners : List Slot) :
    Reads (initDataTransfer heap me owners.length true) [.field (owners.flatMap Slot.bytes)]
      ⟨owners, List.replicate owners.length false, List.replicate owners.length true, true⟩ := by
  have htables : (List.range owners.length).foldl (initPage me true) (heap.tables owners.length) =
      ⟨(List.range owners.length).map heap.owner, List.replicate owners.length false,
        List.replicate owners.length true, true⟩ := by
    rw [foldl_initPage] <;> simp [Heap.tables]
  have hlen : (owners.flatMap Slot.bytes).length = sizeofNodeId * owners.length := by
    rw [length_flatMap_bytes, Nat.mul_comm]
  unfold initDataTransfer
  rw [htables]
  refine (reads_get hlen).bind ?_
  rw [slotsOfBytes_flatMap]
  exact reads_pure _

/-! ## The handler -/

theorem foldl_addToNodes (ns : List NodeId) (j : Joiner) :
    ns.foldl addToNodes j = { j with
      nodeList := ns.reverse ++ j.nodeList
      nbNodees := j.nbNodees + BitVec.ofNat 32 ns.length } := by
  induction ns generalizing j with
  | nil => simp
  | cons n ns ih =>
    have hcount : j.nbNodees + 1#32 + BitVec.ofNat 32 ns.length =
        j.nbNodees + BitVec.ofNat 32 (ns.length + 1) := by
      rw [BitVec.ofNat_add, BitVec.add_assoc, BitVec.add_comm 1#32]
    rw [List.foldl_cons, ih]
    simp [addToNodes, hcount]

/-- The joiner after `INFO_DSM_handler`. -/
def joined (m : Member) (j : Joiner) : Joiner where
  nodeList := (m.nodeList.map Slot.node).reverse ++ j.nodeList
  nbNodees := j.nbNodees + m.nbNodees
  nbPages := m.nbPages
  tables := some ⟨m.pageOwners, List.replicate m.nbPages.toNat false,
    List.replicate m.nbPages.toNat true, true⟩
  inDsm := true

theorem reads_infoDSMHandler (heap : Heap) (me : NodeId) (j : Joiner)
    (hcount : m.nbNodees.toNat = m.nodeList.length)
    (howners : m.pageOwners.length = m.nbPages.toNat) :
    Reads (infoDSMHandler heap me j)
      ([.padding sizeofMessage] ++ infoPieces (fun s => nodePieces s.node) m) (joined m j) := by
  have hpages : BitVec.ofNat 32 m.nbPages.toNat = m.nbPages := by
    rw [BitVec.ofNat_toNat, BitVec.setWidth_eq]
  refine (reads_skip sizeofMessage).bind ((reads_getNat m.nbPages.isLt).bind
    ((reads_getNat m.nbNodees.isLt).bind ?_))
  rw [hcount, hpages]
  have hmembers : Reads (loop (fun j => do
        let n ← stride sizeofNodeId getNode
        return addToNodes j n) m.nodeList.length { j with nbPages := m.nbPages })
      (m.nodeList.flatMap fun s => nodePieces s.node)
      (m.nodeList.foldl (fun j s => addToNodes j s.node) { j with nbPages := m.nbPages }) := by
    refine reads_loop ?_ _
    intro j s _
    exact ((reads_getNode s.node).stride (size_nodePieces s.node)).bind (reads_pure _)
  refine hmembers.bind ?_
  rw [← List.foldl_map, foldl_addToNodes]
  have htables := reads_initDataTransfer heap me m.pageOwners
  rw [howners] at htables
  have hjoined : j.nbNodees + BitVec.ofNat 32 (m.nodeList.map Slot.node).length =
      j.nbNodees + m.nbNodees := by
    rw [List.length_map, ← hcount, BitVec.ofNat_toNat, BitVec.setWidth_eq]
  rw [hjoined]
  exact htables.bind (reads_pure _)

/-- The joiner gets the members and the owners of the pages: it has the nodes that it had, the
contact among them, and those of the contact, and no page is up to date or being synchronised. -/
theorem infoDSM_round_trip (garbage : ℕ → UInt8) (heap : Heap) (contact me : NodeId) (j : Joiner)
    (hcount : m.nbNodees.toNat = m.nodeList.length)
    (howners : m.pageOwners.length = m.nbPages.toNat) :
    ∃ b j' t, buildInfoDSMMessage garbage m = some b ∧
      b.size = sizeofInfoDSM + m.nodeList.length * sizeofNodeId +
        m.pageOwners.length * sizeofNodeId ∧
      b.Exact ∧ Handles b contact (infoDSMHandler heap me j) j' ∧
      j'.nodeList.Perm (j.nodeList ++ m.nodeList.map Slot.node) ∧ j'.nbPages = m.nbPages ∧
      j'.tables = some t ∧ t.pageOwners = m.pageOwners ∧
      t.pageState = List.replicate m.nbPages.toNat false ∧
      t.predicate = List.replicate m.nbPages.toNat true := by
  obtain ⟨b, hbuild, hsz, hexact, hholds⟩ := buildInfoDSMMessage_spec garbage hcount howners
  have hbody := (holds_append.mp (hholds contact)).2
  rw [size_headerPieces] at hbody
  have hrecord : Holds (b.received contact).mem 0
      ([.padding sizeofMessage] ++ infoPieces (fun s => nodePieces s.node) m) :=
    holds_append.mpr ⟨holds_padding _ _ _, holds_infoPieces hbody⟩
  have hsize : size ([.padding sizeofMessage] ++ infoPieces (fun s => nodePieces s.node) m) ≤
      b.size := by
    rw [hsz, size_append, size_infoPieces (fun s => size_nodePieces s.node) hcount howners]
    simp only [size_cons, size_nil, Piece.size]
    unfold sizeofInfoDSM
    omega
  refine ⟨b, joined m j, _, hbuild, ?_, hexact, ?_, ?_, rfl, rfl, rfl, rfl, rfl⟩
  · rw [hsz, hcount, howners]
  · exact handles_of_reads (reads_infoDSMHandler heap me j hcount howners) hrecord hsize
  · show ((m.nodeList.map Slot.node).reverse ++ j.nodeList).Perm _
    exact (List.perm_append_comm).trans ((List.reverse_perm _).append_left _)

/-- The entry of a node with this port. -/
def slotOf (port : BitVec 32) : Slot := ⟨nodeOf port, [0, 0], rfl⟩

/-- A contact with one other member, and a memory of two pages. -/
theorem infoDSM_round_trip_two :
    ∃ b j' t,
      buildInfoDSMMessage (fun _ => 0) ⟨[slotOf 80], 1, 2, [slotOf 81, slotOf 80]⟩ = some b ∧
      b.size = 72 + 1 * 52 + 2 * 52 ∧
      Handles b (slotOf 81).node (infoDSMHandler ⟨fun _ => slotOf 0, fun _ => true, fun _ => false⟩
        (slotOf 82).node ⟨[(slotOf 81).node], 1, 0, none, false⟩) j' ∧
      j'.nodeList.Perm [(slotOf 81).node, (slotOf 80).node] ∧ j'.tables = some t ∧
      t.pageOwners = [slotOf 81, slotOf 80] ∧ t.pageState = [false, false] := by
  obtain ⟨b, j', t, hbuild, hsize, -, hhandles, hnodes, -, htables, howners, hstate, -⟩ :=
    @infoDSM_round_trip ⟨[slotOf 80], 1, 2, [slotOf 81, slotOf 80]⟩ (fun _ => 0)
      ⟨fun _ => slotOf 0, fun _ => true, fun _ => false⟩ (slotOf 81).node (slotOf 82).node
      ⟨[(slotOf 81).node], 1, 0, none, false⟩ rfl rfl
  exact ⟨b, j', t, hbuild, hsize, hhandles, hnodes, htables, howners, hstate⟩

end InfoDSM
