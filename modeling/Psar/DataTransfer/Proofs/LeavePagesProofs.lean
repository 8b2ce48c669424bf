import Psar.Connection.Proofs.SendAllProofs
import Psar.Core.Proofs.SendStateProofs
import Psar.DataTransfer.LeavePages
import Psar.DataTransfer.Proofs.PageMessageProofs
import Psar.Dsm.Proofs.SizeProofs

/-!
# Proofs: the message that hands the pages over

The message has 72 bytes and 4156 for every page, so 516718 pages are the most that a transfer can
take.
-/

namespace LeavePages

open Layout (sizeofNodeId nodeOf)
open PageMessage (pageSize pageMsgSz)
open SendState (NodeId nodeEqual sizeofMessage)

variable {me : NodeId} {nbPages : BitVec 32} {pageOwners : ℕ → NodeId} {dsm : List UInt8}

/-! ## The pages -/

theorem indexPages_eq : indexPages me nbPages pageOwners =
    (List.range nbPages.toNat).filter fun i => nodeEqual (pageOwners i) me := by
  unfold indexPages
  rw [SendState.foldl_filter, List.nil_append]

theorem lt_of_mem_indexPages {i : ℕ} (hi : i ∈ indexPages me nbPages pageOwners) :
    i < nbPages.toNat := by
  rw [indexPages_eq] at hi
  exact List.mem_range.mp (List.mem_of_mem_filter hi)

theorem length_indexPages :
    (indexPages me nbPages pageOwners).length = nbOwnedPages me nbPages pageOwners := by
  rw [indexPages_eq, nbOwnedPages, List.countP_eq_length_filter]

theorem nbOwnedPages_le (me : NodeId) (nbPages : BitVec 32) (pageOwners : ℕ → NodeId) :
    nbOwnedPages me nbPages pageOwners ≤ nbPages.toNat := by
  have hle := List.countP_le_length (p := fun i => nodeEqual (pageOwners i) me)
    (l := List.range nbPages.toNat)
  rwa [List.length_range] at hle

theorem nbOwnedPages_const (me : NodeId) (nbPages : BitVec 32) :
    nbOwnedPages me nbPages (fun _ => me) = nbPages.toNat := by
  unfold nbOwnedPages
  rw [List.countP_eq_length.mpr, List.length_range]
  intro i _
  exact decide_eq_true ⟨rfl, rfl⟩

theorem Created.length_eq (h : Created nbPages dsm) : dsm.length = nbPages.toNat * pageSize := by
  rw [h.mapped, Dsm.mapped_length, Dsm.toNat_length]
  exact Nat.mod_eq_of_lt h.fits

theorem created_replicate {n : ℕ} (hn : n * pageSize < 2 ^ 32) :
    Created (BitVec.ofNat 32 n) (List.replicate (n * pageSize) 0) := by
  have hnat : (BitVec.ofNat 32 n).toNat = n := by
    rw [BitVec.toNat_ofNat]
    unfold pageSize at hn
    omega
  constructor
  · rwa [hnat]
  · rw [List.length_replicate, Dsm.mapped_length, Dsm.toNat_length, hnat]
    exact (Nat.mod_eq_of_lt hn).symm

/-! ## The size -/

theorem messageSize_eq (n : ℕ) : sizeofMessage + 8 + n * pageMsgSz = 72 + 4156 * n := by
  unfold sizeofMessage pageMsgSz sizeofNodeId pageSize
  omega

/-- `msg` and `ms_sz` of `leave_data_transfer`. -/
theorem leaveMessage_size (garbage : ℕ → UInt8) (me : NodeId) (pageOwners : ℕ → NodeId)
    (newOwner : NodeId) (h : Created nbPages dsm) :
    ∃ b, leaveMessage garbage dsm me nbPages pageOwners newOwner = some b ∧
      b.size = 72 + 4156 * nbOwnedPages me nbPages pageOwners ∧
      (BitVec.ofNat 64 b.size).toNat = b.size := by
  have hpages : ∀ id ∈ indexPages me nbPages pageOwners,
      id < 256 ^ 8 ∧ pageSize * id + pageSize ≤ dsm.length := by
    intro id hid
    have hlt := lt_of_mem_indexPages hid
    exact ⟨PageMessage.id_lt hlt, PageMessage.page_le h.length_eq hlt⟩
  have hsize : sizeofMessage + 8 + (indexPages me nbPages pageOwners).length * pageMsgSz =
      72 + 4156 * nbOwnedPages me nbPages pageOwners := by
    rw [messageSize_eq, length_indexPages]
  have hlt : 72 + 4156 * nbOwnedPages me nbPages pageOwners < 2 ^ 64 := by
    have hle := nbOwnedPages_le me nbPages pageOwners
    have hpages := nbPages.isLt
    omega
  obtain ⟨b, hb, -⟩ := PageMessage.recvPageLeaveHandler_buildMultiplePageMessage garbage newOwner
    me .recvPageLeave ⟨dsm, pageOwners, fun _ => true, fun _ => true⟩ hpages (by rwa [hsize])
  have hbsize : b.size = 72 + 4156 * nbOwnedPages me nbPages pageOwners := by
    rw [Layout.size_of_build hb, hsize, Nat.mod_eq_of_lt hlt]
  refine ⟨b, hb, hbsize, ?_⟩
  rw [hbsize, BitVec.toNat_ofNat, Nat.mod_eq_of_lt hlt]

theorem leaveFits_iff (garbage : ℕ → UInt8) (newOwner : NodeId) (h : Created nbPages dsm) :
    LeaveFits garbage dsm me nbPages pageOwners newOwner ↔
      72 + 4156 * nbOwnedPages me nbPages pageOwners < 2 ^ 31 := by
  obtain ⟨b, hb, hsize, hnat⟩ := leaveMessage_size garbage me pageOwners newOwner h
  rw [← hsize, ← hnat, ← Transfer.messageFits_iff]
  constructor
  · rintro ⟨b', hb', hfits⟩
    rw [hb] at hb'
    cases hb'
    exact hfits
  · intro hfits
    exact ⟨b, hb, hfits⟩

/-- With more pages, no call of `send_all` sends the message. -/
theorem leaveMessage_not_sent (garbage : ℕ → UInt8) (newOwner : NodeId) (h : Created nbPages dsm)
    (howned : 516718 < nbOwnedPages me nbPages pageOwners) :
    ∃ b, leaveMessage garbage dsm me nbPages pageOwners newOwner = some b ∧
      ∀ send, (∀ k n, send k = .count n → n < 2 ^ 31) →
        ∀ k, Transfer.sendAll (BitVec.ofNat 64 b.size) send k ≠ .returned 0 := by
  obtain ⟨b, hb, hsize, hnat⟩ := leaveMessage_size garbage me pageOwners newOwner h
  refine ⟨b, hb, ?_⟩
  intro send hcount
  exact Transfer.sendAll_not_returned_zero hcount (by omega)

/-- The cursors of the transfer fit if and only if the node owns at most 516718 pages. -/
theorem leave_transfer_fits_iff (garbage : ℕ → UInt8) (newOwner : NodeId)
    (h : Created nbPages dsm) :
    LeaveFits garbage dsm me nbPages pageOwners newOwner ↔
      nbOwnedPages me nbPages pageOwners ≤ 516718 := by
  rw [leaveFits_iff garbage newOwner h]
  omega

/-- A node that owns both pages of a memory. -/
theorem leave_transfer_fits_two :
    LeaveFits (fun _ => 0) (List.replicate (2 * pageSize) 0) (nodeOf 80) 2#32 (fun _ => nodeOf 80)
      (nodeOf 81) := by
  refine (leave_transfer_fits_iff (fun _ => 0) (nodeOf 81) (created_replicate ?_)).mpr ?_
  · unfold pageSize
    omega
  · rw [nbOwnedPages_const]
    show 2 ≤ 516718
    omega

/-- A memory of 2116481024 bytes, all of whose pages the node owns. -/
theorem leave_transfer_overflows :
    Created 516719#32 (List.replicate (516719 * pageSize) 0) ∧
      (∃ b, leaveMessage (fun _ => 0) (List.replicate (516719 * pageSize) 0) (nodeOf 80) 516719#32
        (fun _ => nodeOf 80) (nodeOf 81) = some b ∧ b.size = 2147484236) ∧
      ¬LeaveFits (fun _ => 0) (List.replicate (516719 * pageSize) 0) (nodeOf 80) 516719#32
        (fun _ => nodeOf 80) (nodeOf 81) := by
  have hcreated : Created 516719#32 (List.replicate (516719 * pageSize) 0) := by
    apply created_replicate
    unfold pageSize
    omega
  have howned : nbOwnedPages (nodeOf 80) 516719#32 (fun _ => nodeOf 80) = 516719 :=
    nbOwnedPages_const (nodeOf 80) 516719#32
  refine ⟨hcreated, ?_, ?_⟩
  · obtain ⟨b, hb, hsize, -⟩ := leaveMessage_size (fun _ => 0) (nodeOf 80) (fun _ => nodeOf 80)
      (nodeOf 81) hcreated
    rw [howned] at hsize
    exact ⟨b, hb, hsize⟩
  · rw [leaveFits_iff (fun _ => 0) (nodeOf 81) hcreated, howned]
    omega

end LeavePages
