import Psar.Connection.Layout
import Psar.Core.Proofs.SendStateProofs
import Psar.Library.Proofs.RecordProofs

/-!
# Proofs: the structures of `message.h` in memory

What `build` writes arrives at the handler: `send_message` writes to the header only, and a handler
that reads the record that was written stays inside it.
-/

namespace Layout

open Buffer (At overwrite)
open Connection (leBytes ofLeBytes length_leBytes)
open Record
open SendState (NodeId ofLeBytes_eq sizeofMessage sendMessage)

/-! ## Numbers -/

theorem writes_putNat (width n : ℕ) : Writes (putNat width n) [.field (leBytes width n)] :=
  writes_put _

theorem reads_getNat {width n : ℕ} (h : n < 256 ^ width) :
    Reads (getNat width) [.field (leBytes width n)] n := by
  have hvalue := ofLeBytes_eq h
  have hread : Reads (pure (ofLeBytes (leBytes width n)) : Prog UInt8 ℕ) [] n := by
    rw [hvalue]
    exact reads_pure n
  exact (reads_get (length_leBytes width n)).bind hread

/-! ## Node ids -/

theorem size_nodePieces (n : NodeId) : size (nodePieces n) = sizeofNodeId := by
  simp [nodePieces, Piece.size, n.length_host, length_leBytes, sizeofNodeId]

theorem writes_putNode (n : NodeId) : Writes (putNode n) (nodePieces n) :=
  (writes_put n.host).bind ((writes_skip 2).bind (writes_putNat 4 n.port.toNat))

theorem reads_getNode (n : NodeId) : Reads getNode (nodePieces n) n := by
  have hnode : Reads (if h : n.host.length = 46 then
        return ⟨n.host, BitVec.ofNat 32 n.port.toNat, h⟩
      else failure : Prog UInt8 NodeId) [] n := by
    rw [dif_pos n.length_host, BitVec.ofNat_toNat, BitVec.setWidth_eq]
    exact reads_pure n
  exact (reads_get n.length_host).bind ((reads_skip 2).bind ((reads_getNat n.port.isLt).bind hnode))

theorem Slot.length_bytes (s : Slot) : s.bytes.length = sizeofNodeId := by
  simp [Slot.bytes, s.node.length_host, s.length_padding, length_leBytes, sizeofNodeId]

theorem Slot.ofBytes_bytes (s : Slot) : Slot.ofBytes s.bytes = some s := by
  have hhost : s.bytes.take 46 = s.node.host := by
    unfold Slot.bytes
    rw [List.append_assoc]
    exact List.take_left' s.node.length_host
  have hrest : s.bytes.drop 46 = s.padding ++ leBytes 4 s.node.port.toNat := by
    unfold Slot.bytes
    rw [List.append_assoc]
    exact List.drop_left' s.node.length_host
  have hpadding : (s.bytes.drop 46).take 2 = s.padding := by
    rw [hrest]
    exact List.take_left' s.length_padding
  have hport : s.bytes.drop 48 = leBytes 4 s.node.port.toNat := by
    rw [show 48 = 46 + 2 from rfl, ← List.drop_drop, hrest]
    exact List.drop_left' s.length_padding
  have hvalue : BitVec.ofNat 32 (ofLeBytes (leBytes 4 s.node.port.toNat)) = s.node.port := by
    rw [ofLeBytes_eq s.node.port.isLt, BitVec.ofNat_toNat, BitVec.setWidth_eq]
  unfold Slot.ofBytes
  simp only [hhost, hpadding, hport, hvalue]
  exact dif_pos ⟨s.node.length_host, s.length_padding⟩

theorem length_flatMap_bytes (ss : List Slot) :
    (ss.flatMap Slot.bytes).length = ss.length * sizeofNodeId := by
  rw [List.length_flatMap, List.map_congr_left fun s _ => s.length_bytes, List.map_const',
    List.sum_replicate, smul_eq_mul]

theorem slotsOfBytes_flatMap (ss : List Slot) :
    slotsOfBytes ss.length (ss.flatMap Slot.bytes) = some ss := by
  induction ss with
  | nil => rfl
  | cons s ss ih =>
    rw [List.flatMap_cons, List.length_cons, slotsOfBytes, List.take_left' s.length_bytes,
      List.drop_left' s.length_bytes, s.ofBytes_bytes, ih]
    rfl

/-- A structure that was copied as a whole has its host and its port in their places. -/
theorem holds_nodePieces {mem : List UInt8} {off : ℕ} {s : Slot}
    (h : Holds mem off [.field s.bytes]) : Holds mem off (nodePieces s.node) := by
  obtain ⟨hfront, hport⟩ := Buffer.at_append.mp (holds_field.mp h)
  have hhost := (Buffer.at_append.mp hfront).1
  refine List.forall_mem_cons.mpr ⟨hhost, List.forall_mem_singleton.mpr ?_⟩
  rw [List.length_append, s.length_padding, ← Nat.add_assoc] at hport
  exact hport

/-! ## The header -/

theorem writes_putHeader (messageType : ℕ) :
    Writes (putHeader messageType) [.field (leBytes 8 messageType), .padding 56] :=
  (writes_putNat 8 messageType).bind (writes_skip 56)

theorem size_headerPieces (messageType : ℕ) (sender : NodeId) :
    size (headerPieces messageType sender) = sizeofMessage := by
  simp [headerPieces, size_nodePieces, Piece.size, length_leBytes, sizeofMessage, sizeofNodeId]

theorem reads_getHeader {messageType : ℕ} (h : messageType < 2 ^ 64) (sender : NodeId) :
    Reads getHeader (headerPieces messageType sender) ⟨messageType, sender⟩ := by
  have htype : messageType < 256 ^ 8 := by simpa using h
  exact (reads_getNat htype).bind ((reads_getNode sender).bind ((reads_skip 4).bind
    (reads_pure (Header.mk messageType sender))))

/-- Writing into the header leaves the bytes behind it alone. -/
theorem holds_overwrite {mem bs : List UInt8} {off off' : ℕ} {ps : List (Piece UInt8)}
    (h : Holds mem off ps) (hle : off' + bs.length ≤ off) : Holds (overwrite mem off' bs) off ps :=
  fun a ha => (h a ha).overwrite_before (hle.trans (le_of_mem_accesses ha).1)

/-- `send_message` adds the sender. -/
theorem holds_sendMessage {mem : List UInt8} {messageType : ℕ} {body : List (Piece UInt8)}
    (h : Holds mem 0 ([.field (leBytes 8 messageType), .padding 56] ++ body))
    (hlen : sizeofMessage ≤ mem.length) (me : NodeId) :
    Holds (sendMessage me mem) 0 (headerPieces messageType me ++ body) := by
  have hhost := me.length_host
  have hport := length_leBytes 4 me.port.toNat
  unfold sizeofMessage at hlen
  obtain ⟨hheader, hbody⟩ := holds_append.mp h
  have htype : At mem 0 (leBytes 8 messageType) := hheader _ List.mem_cons_self
  have hfirst : (overwrite mem 8 me.host).length = mem.length :=
    length_overwrite_of_le (by omega)
  refine holds_append.mpr ⟨?_, ?_⟩
  · refine List.forall_mem_cons.mpr ⟨?_, List.forall_mem_cons.mpr ⟨?_, ?_⟩⟩
    · show At (sendMessage me mem) 0 (leBytes 8 messageType)
      have hlen8 := length_leBytes 8 messageType
      exact at_overwrite_behind (at_overwrite_behind htype (by omega)) (by omega)
    · show At (sendMessage me mem) (0 + (leBytes 8 messageType).length) me.host
      rw [length_leBytes]
      exact at_overwrite_behind (Buffer.at_overwrite (by omega)) (by omega)
    · refine List.forall_mem_singleton.mpr ?_
      show At (sendMessage me mem) (0 + (leBytes 8 messageType).length + me.host.length + 2) _
      rw [length_leBytes, hhost]
      exact Buffer.at_overwrite (by omega)
  · rw [size_headerPieces]
    have hbody' : Holds mem sizeofMessage body := by
      simpa [Piece.size, length_leBytes, sizeofMessage] using hbody
    refine holds_overwrite (holds_overwrite hbody' ?_) ?_ <;> unfold sizeofMessage <;> omega

/-! ## Messages -/

/-- A message is built if its size is that of what is written. -/
theorem build_spec (garbage : ℕ → UInt8) {sz messageType : ℕ} {f : Prog UInt8 Unit}
    {body : List (Piece UInt8)}
    (hf : Writes f ([.field (leBytes 8 messageType), .padding 56] ++ body))
    (hsz : sz = sizeofMessage + size body) (hlt : sz < 2 ^ 64) :
    ∃ b, build garbage sz f = some b ∧ b.size = sz ∧ b.Exact ∧
      ∀ me, Holds (b.received me).mem 0 (headerPieces messageType me ++ body) := by
  obtain ⟨ps, hps⟩ : ∃ ps, ps = [.field (leBytes 8 messageType), .padding 56] ++ body := ⟨_, rfl⟩
  have hsize : size ps = sz := by
    rw [hps, hsz]
    simp only [List.cons_append, List.nil_append, size_cons, Piece.size, length_leBytes,
      sizeofMessage]
    omega
  have hlen : ((List.range sz).map garbage).length = sz := by
    rw [List.length_map, List.length_range]
  rw [← hps] at hf
  have hroom : 0 + size ps ≤ ((List.range sz).map garbage).length := by omega
  have hwritten := hf ⟨(List.range sz).map garbage, 0, []⟩ hroom
  have hmem := length_writeAll_accesses hroom
  refine ⟨⟨sz, written ⟨(List.range sz).map garbage, 0, []⟩ ps⟩, ?_, rfl, ⟨?_, ?_, ?_⟩, ?_⟩
  · unfold build
    rw [Nat.mod_eq_of_lt hlt, hwritten]
    rfl
  · exact hmem.trans hlen
  · show 0 + size ps = sz
    omega
  · intro a ha
    have hle := (le_of_mem_accesses (show a ∈ accesses 0 ps from ha)).2
    show a.offset + a.bytes.length ≤ sz
    omega
  · intro me
    refine holds_sendMessage ?_ ?_ me
    · rw [← hps]
      exact holds_writeAll hroom
    · show sizeofMessage ≤ (writeAll _ (accesses 0 ps)).length
      rw [hmem, hlen, hsz]
      exact Nat.le_add_right _ _

theorem size_of_build {garbage : ℕ → UInt8} {sz : ℕ} {f : Prog UInt8 Unit} {b : Built}
    (h : build garbage sz f = some b) : b.size = sz % 2 ^ 64 := by
  obtain ⟨r, -, rfl⟩ := Option.map_eq_some_iff.mp h
  rfl

/-- A handler that reads what was written. -/
theorem handles_of_reads {α : Type} {b : Built} {me : NodeId} {f : Prog UInt8 α} {a : α}
    {ps : List (Piece UInt8)} (hf : Reads f ps a) (h : Holds (b.received me).mem 0 ps)
    (hsize : size ps ≤ b.size) : Handles b me f a := by
  refine ⟨_, hf _ h, ?_⟩
  intro x hx
  have hle := (le_of_mem_accesses (show x ∈ accesses 0 ps from hx)).2
  omega

end Layout
