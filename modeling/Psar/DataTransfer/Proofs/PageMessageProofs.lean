import Psar.Connection.Proofs.LayoutProofs
import Psar.DataTransfer.PageMessage

/-!
# Proofs: the bytes of the page messages

Each of the three layouts is one record, which the function that builds the message writes and the
handler reads.
-/

namespace PageMessage

open Connection (leBytes length_leBytes)
open Layout
open Record
open SendState (NodeId nodeEqual sizeofMessage)

variable {dsm : List UInt8} {nbPages : BitVec 32} {pageIds : List ℕ}

/-! ## One page -/

/-- A page of the memory. -/
theorem page_le (hdsm : dsm.length = nbPages.toNat * pageSize) {pageId : ℕ}
    (hid : pageId < nbPages.toNat) : pageSize * pageId + pageSize ≤ dsm.length := by
  rw [hdsm, ← Nat.mul_succ, Nat.mul_comm]
  exact Nat.mul_le_mul_right pageSize hid

theorem id_lt {pageId : ℕ} (hid : pageId < nbPages.toNat) : pageId < 256 ^ 8 := by
  have hpages := nbPages.isLt
  omega

theorem length_pageAt {pageId : ℕ} (h : pageSize * pageId + pageSize ≤ dsm.length) :
    (pageAt dsm pageId).length = pageSize := by
  unfold pageAt
  rw [List.length_take, List.length_drop]
  omega

/-- The page that `memcpy` has written. -/
theorem pageAt_overwrite_self {pageId : ℕ} {page : List UInt8} (hpage : page.length = pageSize)
    (h : pageSize * pageId + pageSize ≤ dsm.length) :
    pageAt (Buffer.overwrite dsm (pageId * pageSize) page) pageId = page := by
  have hroom : pageId * pageSize + page.length ≤ dsm.length := by
    rw [hpage, Nat.mul_comm]
    exact h
  obtain ⟨before, after, heq, hlen⟩ := Buffer.at_overwrite hroom
  rw [heq, pageAt, Nat.mul_comm, ← hlen, List.append_assoc, List.drop_left, ← hpage, List.take_left]

/-- The other pages stay. -/
theorem pageAt_overwrite_ne {pageId q : ℕ} {page : List UInt8} (hpage : page.length = pageSize)
    (h : pageSize * pageId + pageSize ≤ dsm.length) (hq : q ≠ pageId) :
    pageAt (Buffer.overwrite dsm (pageId * pageSize) page) q = pageAt dsm q := by
  have hroom : pageId * pageSize + page.length ≤ dsm.length := by
    rw [hpage, Nat.mul_comm]
    exact h
  apply List.ext_getElem?
  intro i
  simp only [pageAt, List.getElem?_take, List.getElem?_drop]
  split
  · rename_i hi
    refine Buffer.overwrite_getElem? hroom ?_
    rw [hpage]
    unfold pageSize at hi ⊢
    omega
  · rfl

/-- `update_page` of `Psar.DataTransfer.Pages` does the same to the page, whose protection is reset,
if the page is taken over; the other pages stay. -/
theorem entry_updatePage {p : Pages} {u : Update} (hpage : u.page.length = pageSize)
    (hdsm : pageSize * u.pageId + pageSize ≤ p.dsm.length)
    (htaken : u.recvType = .recvPage ∨ nodeEqual u.sender (p.pageOwners u.pageId) = true)
    (prot : DataTransfer.Prot) (mode : PageLock.LockStatus) (inside : Bool) :
    (p.entry prot mode inside u.pageId).updatePage u.owner u.page =
        (updatePage p u).entry (p.entry prot mode inside u.pageId).memoryLockReset.prot mode inside
          u.pageId ∧
      ∀ q, q ≠ u.pageId →
        (updatePage p u).entry prot mode inside q = p.entry prot mode inside q := by
  have hself := pageAt_overwrite_self hpage hdsm
  constructor
  · cases hpred : p.predicate u.pageId <;>
      simp [updatePage, htaken, Pages.entry, PageTransfer.Entry.updatePage,
        PageTransfer.Entry.memoryLockReset, PageTransfer.Entry.signalPageNoLock, signalPageNoLock,
        hpred, hself]
  · intro q hq
    have hother := pageAt_overwrite_ne hpage hdsm hq
    cases hpred : p.predicate u.pageId <;>
      simp [updatePage, htaken, Pages.entry, signalPageNoLock, hpred, hother, hq]

theorem size_pagePieces (owner : NodeId) {pageId : ℕ}
    (h : pageSize * pageId + pageSize ≤ dsm.length) :
    size (pagePieces dsm owner pageId) = pageMsgSz := by
  simp only [pagePieces, size_cons, size_append, size_nil, Piece.size, size_nodePieces,
    length_pageAt h, length_leBytes, pageMsgSz]
  omega

theorem writes_initPageMessage (owner : NodeId) {pageId : ℕ}
    (h : pageSize * pageId + pageSize ≤ dsm.length) :
    Writes (initPageMessage dsm pageId owner) (pagePieces dsm owner pageId) := by
  have hpage : Writes (copyPage dsm pageId) [.field (pageAt dsm pageId)] := by
    unfold copyPage
    rw [if_pos h]
    exact writes_put _
  exact (writes_putNat 8 pageId).bind
    (((writes_putNode owner).stride (size_nodePieces owner)).bind hpage)

theorem reads_getUpdate (owner sender : NodeId) (recvType : RecvType) {pageId : ℕ}
    (hid : pageId < 256 ^ 8) (h : pageSize * pageId + pageSize ≤ dsm.length) :
    Reads (getUpdate sender recvType) (pagePieces dsm owner pageId)
      (updateOf dsm owner sender recvType pageId) :=
  (reads_getNat hid).bind (((reads_getNode owner).stride (size_nodePieces owner)).bind
    ((reads_get (length_pageAt h)).bind (reads_pure _)))

theorem RecvType.ofValue_value (t : RecvType) : RecvType.ofValue t.value = some t := by
  cases t with
  | recvPage => rfl
  | recvPageLeave => rfl

theorem RecvType.value_lt (t : RecvType) : t.value < 2 ^ 64 := by
  cases t with
  | recvPage => simp [RecvType.value]
  | recvPageLeave => simp [RecvType.value]

/-- `build_PAGE_message` and `PAGE_handler`. -/
theorem pageHandler_buildPageMessage (garbage : ℕ → UInt8) (owner me : NodeId) (recvType : RecvType)
    (p : Pages) {pageId : ℕ} (hid : pageId < 256 ^ 8)
    (h : pageSize * pageId + pageSize ≤ dsm.length) :
    ∃ b, buildPageMessage garbage dsm pageId owner recvType = some b ∧ b.Exact ∧
      Handles b me (pageHandler p) (updated p [updateOf dsm owner me recvType pageId]) := by
  have hsize := size_pagePieces owner h
  obtain ⟨b, hbuild, hsz, hexact, hholds⟩ := build_spec garbage
    ((writes_putHeader recvType.value).bind (writes_initPageMessage owner h))
    (show sizeofMessage + 8 + sizeofNodeId + pageSize = _ by rw [hsize]; rfl) (by decide)
  have hreads : Reads (pageHandler p)
      (headerPieces recvType.value me ++ pagePieces dsm owner pageId)
      (updated p [updateOf dsm owner me recvType pageId]) := by
    refine (reads_getHeader recvType.value_lt me).bind ?_
    simp only [RecvType.ofValue_value]
    exact (reads_getUpdate owner me recvType hid h).bind (reads_pure _)
  refine ⟨b, hbuild, hexact, handles_of_reads hreads (hholds me) ?_⟩
  rw [size_append, size_headerPieces, hsize, hsz]
  exact le_rfl

/-! ## The pages of a node that leaves -/

theorem foldl_update (us : List Update) (s : Updated) :
    us.foldl Updated.update s = ⟨us.foldl updatePage s.pages, s.calls ++ us⟩ := by
  induction us generalizing s with
  | nil => simp
  | cons u us ih =>
    rw [List.foldl_cons, ih]
    simp [Updated.update]

/-- `build_multiple_PAGE_message` and the loop of `RECV_PAGE_LEAVE_handler`. -/
theorem recvPageLeaveHandler_buildMultiplePageMessage (garbage : ℕ → UInt8) (newOwner me : NodeId)
    (recvType : RecvType) (p : Pages)
    (hids : ∀ id ∈ pageIds, id < 256 ^ 8 ∧ pageSize * id + pageSize ≤ dsm.length)
    (hsize : sizeofMessage + 8 + pageIds.length * pageMsgSz < 2 ^ 64) :
    ∃ b, buildMultiplePageMessage garbage dsm pageIds newOwner recvType = some b ∧ b.Exact ∧
      Handles b me (recvPageLeaveHandler p)
        (updated p (pageIds.map (updateOf dsm newOwner me .recvPageLeave))) := by
  have hpieces : ∀ id ∈ pageIds, size (pagePieces dsm newOwner id) = pageMsgSz :=
    fun id hid => size_pagePieces newOwner (hids id hid).2
  have hbody : size (.field (leBytes 8 pageIds.length) ::
      pageIds.flatMap (pagePieces dsm newOwner)) = 8 + pageIds.length * pageMsgSz := by
    rw [size_cons, size_flatMap hpieces, Piece.size, length_leBytes]
  have hloop : Writes (pageIds.forM fun id => stride pageMsgSz (initPageMessage dsm id newOwner))
      (pageIds.flatMap (pagePieces dsm newOwner)) := by
    apply writes_forM
    intro id hid
    exact (writes_initPageMessage newOwner (hids id hid).2).stride (hpieces id hid)
  obtain ⟨b, hbuild, hsz, hexact, hholds⟩ := build_spec garbage
    ((writes_putHeader recvType.value).bind ((writes_putNat 8 pageIds.length).bind hloop))
    (show sizeofMessage + 8 + pageIds.length * pageMsgSz = _ by
      rw [List.singleton_append, hbody, Nat.add_assoc]) hsize
  have hcount : pageIds.length < 256 ^ 8 := by
    have hle : pageIds.length ≤ pageIds.length * pageMsgSz :=
      Nat.le_mul_of_pos_right _ (Nat.succ_pos _)
    omega
  have hreads : Reads (recvPageLeaveHandler p) (headerPieces recvType.value me ++
      ([.field (leBytes 8 pageIds.length)] ++ pageIds.flatMap (pagePieces dsm newOwner)))
      (updated p (pageIds.map (updateOf dsm newOwner me .recvPageLeave))) := by
    refine (reads_getHeader recvType.value_lt me).bind ((reads_getNat hcount).bind ?_)
    have hupdated : updated p (pageIds.map (updateOf dsm newOwner me .recvPageLeave)) =
        pageIds.foldl (fun s id => s.update (updateOf dsm newOwner me .recvPageLeave id))
          ⟨p, []⟩ := by
      rw [← List.foldl_map, foldl_update]
      rfl
    rw [hupdated]
    refine reads_loop ?_ _
    intro s id hid
    exact ((reads_getUpdate newOwner me .recvPageLeave (hids id hid).1 (hids id hid).2).stride
      (hpieces id hid)).bind (reads_pure _)
  refine ⟨b, hbuild, hexact, handles_of_reads hreads (hholds me) ?_⟩
  rw [size_append, size_headerPieces, List.singleton_append, hbody, hsz, Nat.add_assoc]

/-! ## The ids -/

theorem visits_foldl (sender : NodeId) (vs : List Visit) (s : Visited) :
    (vs.foldl (Visited.visit sender) s).visits = s.visits ++ vs := by
  induction vs generalizing s with
  | nil => simp
  | cons v vs ih =>
    have hvisit : (Visited.visit sender s v).visits = s.visits ++ [v] := by
      unfold Visited.visit
      dsimp only
      split_ifs <;> rfl
    rw [List.foldl_cons, ih, hvisit, List.append_assoc, List.singleton_append]

/-- `build_DT_LEAVE_message` and the loop of `DT_LEAVE_handler`. -/
theorem dtLeaveHandler_buildDtLeaveMessage (garbage : ℕ → UInt8) (newOwner me : NodeId) (p : Pages)
    (hids : ∀ id ∈ pageIds, id < 256 ^ 8)
    (hsize : sizeofMessage + sizeofNodeId + 8 * (pageIds.length + 1) < 2 ^ 64) :
    ∃ b, buildDtLeaveMessage garbage pageIds newOwner = some b ∧ b.Exact ∧
      Handles b me (dtLeaveHandler p) (visited p me (pageIds.map fun id => ⟨id, newOwner⟩)) := by
  obtain ⟨ids, hidsEq⟩ : ∃ ids : List (Piece UInt8),
      ids = pageIds.flatMap fun id => [.field (leBytes 8 id)] := ⟨_, rfl⟩
  have hbody : size (nodePieces newOwner ++ ([.field (leBytes 8 pageIds.length)] ++ ids)) =
      sizeofNodeId + 8 * (pageIds.length + 1) := by
    rw [hidsEq, size_append, size_append, size_nodePieces, size_flatMap (n := 8)]
    · simp only [size_cons, size_nil, Piece.size, length_leBytes]
      omega
    · intro id _
      simp [Piece.size, length_leBytes]
  have hloop : Writes (pageIds.forM fun id => putNat 8 id) ids := by
    rw [hidsEq]
    exact writes_forM fun id _ => writes_putNat 8 id
  obtain ⟨b, hbuild, hsz, hexact, hholds⟩ := build_spec garbage
    ((writes_putHeader dtLeaveType).bind
      (((writes_putNode newOwner).stride (size_nodePieces newOwner)).bind
        ((writes_putNat 8 pageIds.length).bind hloop)))
    (show sizeofMessage + sizeofNodeId + 8 * (pageIds.length + 1) = _ by
      rw [hbody, Nat.add_assoc]) hsize
  have hcount : pageIds.length < 256 ^ 8 := by omega
  have hreads : Reads (dtLeaveHandler p) (headerPieces dtLeaveType me ++
      (nodePieces newOwner ++ ([.field (leBytes 8 pageIds.length)] ++ ids)))
      (visited p me (pageIds.map fun id => ⟨id, newOwner⟩)) := by
    refine (reads_getHeader (by decide) me).bind
      (((reads_getNode newOwner).stride (size_nodePieces newOwner)).bind
        ((reads_getNat hcount).bind ?_))
    unfold visited
    rw [List.foldl_map, hidsEq]
    refine reads_loop ?_ _
    intro s id hid
    exact (reads_getNat (hids id hid)).bind (reads_pure _)
  refine ⟨b, hbuild, hexact, handles_of_reads hreads (hholds me) ?_⟩
  rw [size_append, size_headerPieces, hbody, hsz, Nat.add_assoc]

/-- What the three handlers get is what was sent, and each message has the size that is announced.
-/
theorem page_messages_round_trip (garbage : ℕ → UInt8) (newOwner me : NodeId) (recvType : RecvType)
    (p : Pages) (hdsm : dsm.length = nbPages.toNat * pageSize)
    (hids : ∀ id ∈ pageIds, id < nbPages.toNat)
    (hsize : sizeofMessage + 8 + pageIds.length * pageMsgSz < 2 ^ 64) :
    (∃ b, buildMultiplePageMessage garbage dsm pageIds newOwner recvType = some b ∧ b.Exact ∧
      Handles b me (recvPageLeaveHandler p)
        (updated p (pageIds.map (updateOf dsm newOwner me .recvPageLeave)))) ∧
    (∃ b v, buildDtLeaveMessage garbage pageIds newOwner = some b ∧ b.Exact ∧
      Handles b me (dtLeaveHandler p) v ∧ v.visits = pageIds.map (fun id => ⟨id, newOwner⟩) ∧
      v = v.visits.foldl (Visited.visit me) ⟨p, [], []⟩) ∧
    ∀ pageId < nbPages.toNat,
      ∃ b, buildPageMessage garbage dsm pageId newOwner recvType = some b ∧ b.Exact ∧
        Handles b me (pageHandler p) (updated p [updateOf dsm newOwner me recvType pageId]) := by
  refine ⟨?_, ?_, ?_⟩
  · exact recvPageLeaveHandler_buildMultiplePageMessage garbage newOwner me recvType p
      (fun id hid => ⟨id_lt (hids id hid), page_le hdsm (hids id hid)⟩) hsize
  · obtain ⟨b, hbuild, hexact, hhandles⟩ := dtLeaveHandler_buildDtLeaveMessage garbage newOwner me p
      (fun id hid => id_lt (hids id hid))
      (by
        unfold sizeofMessage sizeofNodeId
        unfold sizeofMessage pageMsgSz sizeofNodeId pageSize at hsize
        omega)
    have hvisits := visits_foldl me (pageIds.map fun id => ⟨id, newOwner⟩) ⟨p, [], []⟩
    refine ⟨b, _, hbuild, hexact, hhandles, hvisits, ?_⟩
    unfold visited
    rw [hvisits]
    rfl
  · intro pageId hid
    exact pageHandler_buildPageMessage garbage newOwner me recvType p (id_lt hid) (page_le hdsm hid)

/-- A memory of two pages, both of which the node that leaves owns. -/
theorem page_messages_round_trip_two :
    ∃ b, buildMultiplePageMessage (fun _ => 0) (List.replicate (2 * pageSize) 7) [0, 1] (nodeOf 80)
        .recvPageLeave = some b ∧ b.Exact ∧
      Handles b (nodeOf 81)
        (recvPageLeaveHandler ⟨[], fun _ => nodeOf 81, fun _ => false, fun _ => true⟩)
        (updated ⟨[], fun _ => nodeOf 81, fun _ => false, fun _ => true⟩ ([0, 1].map
          (updateOf (List.replicate (2 * pageSize) 7) (nodeOf 80) (nodeOf 81) .recvPageLeave))) := by
  have hids : ∀ id ∈ [0, 1], id < (2 : BitVec 32).toNat := by
    intro id hid
    rcases List.mem_pair.mp hid with rfl | rfl
    · exact Nat.zero_lt_two
    · exact Nat.one_lt_two
  exact (@page_messages_round_trip (List.replicate (2 * pageSize) 7) 2 [0, 1] (fun _ => 0)
    (nodeOf 80) (nodeOf 81) .recvPageLeave ⟨[], fun _ => nodeOf 81, fun _ => false, fun _ => true⟩
    List.length_replicate hids (by decide)).1

end PageMessage
