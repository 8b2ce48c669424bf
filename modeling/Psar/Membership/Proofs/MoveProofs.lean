import Psar.Membership.Join
import Psar.Library.Proofs.NetworkProofs

/-!
# Proofs: what the functions of the members do to the entries

Each step moves one node; `Move` says that it neither creates nor loses an entry. Only the beginning
of the loop of a handler makes a new member.
-/

namespace Membership

variable {Node : Type} [DecidableEq Node]

/-! ## Handlers -/

section Handlers

/-- A handler that does not hold `umtx` owes nobody an entry. -/
theorem Handler.owed_of_not_busy {h : Handler Node} (hb : h.busy = false) (a b i : Node)
    (l : List Node) : h.owed a b i l = 0 := by
  obtain ⟨joiner, stage⟩ := h
  cases stage with
  | waitAcked rest => cases hb
  | adding => cases hb
  | _ => rfl

theorem sum_owed_of_not_busy {hs : List (Handler Node)} (hb : ∀ h ∈ hs, h.busy = false)
    (a b i : Node) (l : List Node) : (hs.map (Handler.owed a b i l)).sum = 0 := by
  apply List.sum_eq_zero
  intro n hn
  obtain ⟨h, hh, rfl⟩ := List.mem_map.mp hn
  exact Handler.owed_of_not_busy (hb h hh) a b i l

omit [DecidableEq Node] in
theorem not_busy_of_sum {hs : List (Handler Node)}
    (h0 : (hs.map fun h => h.busy.toNat).sum = 0) : ∀ h ∈ hs, h.busy = false := by
  intro h hh
  have hle := List.single_le_sum (fun _ _ => Nat.zero_le _) _
    (List.mem_map_of_mem (f := fun h : Handler Node => h.busy.toNat) hh)
  cases hb : h.busy with
  | false => rfl
  | true =>
    simp only [hb, Bool.toNat_true] at hle
    omega

omit [DecidableEq Node] in
theorem umtxFree_not_busy {p : Peer Node} (h : umtxFree p = true) :
    ∀ h ∈ p.handlers, h.busy = false := by
  simp only [umtxFree, Bool.and_eq_true, Bool.not_eq_true', List.any_eq_false] at h
  intro x hx
  simpa using h.1 x hx

/-- A weight of the handlers of a node, one of them apart. -/
theorem sum_erase {hs : List (Handler Node)} {h : Handler Node} (hh : h ∈ hs)
    (w : Handler Node → ℕ) : (hs.map w).sum = w h + ((hs.erase h).map w).sum := by
  have hsum := ((List.perm_cons_erase hh).map w).sum_eq
  simpa using hsum

end Handlers

/-! ## Moves -/

/-- The node `i` moves from `p` to `p'`, consumes the messages `ms` and sends `out`; nobody becomes
a member. -/
structure Move (S : Finset Node) (i : Node) (p : Option (Peer Node)) (ms : List (Msg Node))
    (p' : Option (Peer Node)) (out : List (Msg Node)) : Prop where
  local_ : ∀ q ∈ p', LocalInv q
  msgs : ∀ m ∈ out, MsgInv m
  busy : busyAt i p' ≤ busyAt i p
  ack : ackAt i p' + (out.map ackMsg).sum + waitsAt i p = ackAt i p + (ms.map ackMsg).sum + waitsAt i p'
  early : ∀ a, earlyAt a i p' + (out.map (earlyMsg a)).sum = earlyAt a i p + (ms.map (earlyMsg a)).sum
  phase : ∀ a, phaseAt a i p' + (out.map (phaseMsg a)).sum = phaseAt a i p + (ms.map (phaseMsg a)).sum
  member : ∀ a b, a ∈ S → entriesAt a b i p' + (out.map (entriesMsg a b)).sum =
    entriesAt a b i p + (ms.map (entriesMsg a b)).sum
  joiner : ∀ a b, a ∉ S → entriesAt a b i p' + (out.map (entriesMsg a b)).sum +
      (contactAt a b i p + (ms.map (contactMsg a b)).sum) =
    entriesAt a b i p + (ms.map (entriesMsg a b)).sum +
      (contactAt a b i p' + (out.map (contactMsg a b)).sum)

/-- The node `i` sends no `NEW_NODE`, or takes as many as it sends. -/
def NewsMove (i : Node) (p : Option (Peer Node)) (ms : List (Msg Node)) (p' : Option (Peer Node))
    (out : List (Msg Node)) : Prop :=
  ∀ n, (out.map (newNodeMsg n)).sum + loopsAt n i p ≤ (ms.map (newNodeMsg n)).sum + loopsAt n i p'

section Fire

variable [Fintype Node] {S : Finset Node} {l : Node} {gone : Finset Node} {s : Net Node}

theorem news_fire (h : Inv S l gone s) {i : Node} {ms rest : List (Msg Node)}
    (hp : s.msgs.Perm (ms ++ rest)) {r : Option (Peer Node) × List (Msg Node)}
    (hm : NewsMove i (s.node i) ms r.1 r.2) (n : Node) :
    ((s.fire i rest r).msgs.map (newNodeMsg n)).sum ≤
      (s.fire i rest r).weight (loopsAt n) fun _ => 0 := by
  have h1 := Network.weight_fire (loopsAt n) (fun _ => 0) (i := i) hp r
  have h2 := (hp.map (newNodeMsg n)).sum_eq
  have h3 := h.news n
  have h4 := hm n
  simp only [List.map_append, List.sum_append] at h2
  simp only [List.map_const', List.sum_replicate, smul_zero, Nat.add_zero] at h1
  simp only [Network.fire_msgs, List.map_append, List.sum_append]
  omega

/-- The critical section stays exclusive, if the node does not enter it beside another one. -/
theorem cs_fire (h : Inv S l gone s) {i : Node} {rest : List (Msg Node)}
    {r : Option (Peer Node) × List (Msg Node)}
    (hcs : ∀ q ∈ r.1, inCS q = true → (∃ p ∈ s.node i, inCS p = true) ∨
      ∀ j, j ≠ i → ∀ p ∈ s.node j, inCS p = false) :
    ∀ j k, ∀ p ∈ (s.fire i rest r).node j, ∀ q ∈ (s.fire i rest r).node k,
      inCS p = true → inCS q = true → j = k := by
  have hself : ∀ j, j ≠ i → ∀ q ∈ r.1, ∀ p ∈ s.node j, inCS q = true → inCS p = true → False := by
    intro j hj q hq p hp hqcs hpcs
    rcases hcs q hq hqcs with ⟨p', hp', hcs'⟩ | hothers
    · exact hj (h.cs j i p hp p' hp' hpcs hcs')
    · rw [hothers j hj p hp] at hpcs
      cases hpcs
  intro j k p hpj q hqk hpcs hqcs
  by_cases hj : j = i
  · by_cases hk : k = i
    · exact hj.trans hk.symm
    · subst hj
      rw [Network.fire_node_self] at hpj
      rw [Network.fire_node_ne _ _ _ hk] at hqk
      exact (hself k hk p hpj q hqk hpcs hqcs).elim
  · rw [Network.fire_node_ne _ _ _ hj] at hpj
    by_cases hk : k = i
    · subst hk
      rw [Network.fire_node_self] at hqk
      exact (hself j hj q hqk p hpj hqcs hpcs).elim
    · rw [Network.fire_node_ne _ _ _ hk] at hqk
      exact h.cs j k p hpj q hqk hpcs hqcs

/-- A `Move` keeps the invariant, if the node does not enter the critical section beside another
one. -/
theorem inv_fire (h : Inv S l gone s) {i : Node} {ms rest : List (Msg Node)}
    (hp : s.msgs.Perm (ms ++ rest)) {r : Option (Peer Node) × List (Msg Node)}
    (hm : Move S i (s.node i) ms r.1 r.2)
    (hcs : ∀ q ∈ r.1, inCS q = true → (∃ p ∈ s.node i, inCS p = true) ∨
      ∀ j, j ≠ i → ∀ p ∈ s.node j, inCS p = false)
    (hnews : ∀ n, ((s.fire i rest r).msgs.map (newNodeMsg n)).sum ≤
      (s.fire i rest r).weight (loopsAt n) fun _ => 0) :
    Inv S l gone (s.fire i rest r) where
  local_ := Network.forall_node_fire (L := fun _ p => ∀ q ∈ p, LocalInv q) h.local_ hm.local_
  msgs := Network.forall_msgs_fire h.msgs hp hm.msgs
  cs := cs_fire h hcs
  busy := by
    have h1 := Network.weight_fire busyAt (fun _ => 0) (i := i) hp r
    have h2 := hm.busy
    have h3 := h.busy
    simp only [List.map_const', List.sum_replicate, smul_zero, Nat.add_zero] at h1
    omega
  ack := by
    have h1 := Network.weight_fire ackAt ackMsg (i := i) hp r
    have h2 := Network.weight_fire waitsAt (fun _ => 0) (i := i) hp r
    have h3 := hm.ack
    have h4 := h.ack
    simp only [List.map_const', List.sum_replicate, smul_zero, Nat.add_zero] at h2
    omega
  news := hnews
  early := by
    intro a
    have h1 := Network.weight_fire (earlyAt a) (earlyMsg a) (i := i) hp r
    have h2 := hm.early a
    have h3 := h.early a
    omega
  phase := by
    intro a
    have h1 := Network.weight_fire (phaseAt a) (phaseMsg a) (i := i) hp r
    have h2 := hm.phase a
    have h3 := h.phase a
    omega
  gone_subset := h.gone_subset
  pair := by
    intro a b
    have h1 := Network.weight_fire (entriesAt a b) (entriesMsg a b) (i := i) hp r
    have h2 := Network.weight_fire (contactAt a b) (contactMsg a b) (i := i) hp r
    have h3 := h.pair a b
    unfold target at h3 ⊢
    by_cases ha : a ∈ S
    · have h4 := hm.member a b ha
      simp only [if_pos ha] at h3 ⊢
      omega
    · have h4 := hm.joiner a b ha
      simp only [if_neg ha] at h3 ⊢
      omega

end Fire

/-! ### The moves of a node -/

section Moves

variable {S : Finset Node} {i : Node} {p : Peer Node}

attribute [local simp] earlyAt earlyMsg contactAt contactMsg phaseAt phaseMsg entriesAt entriesMsg
  busyAt waitsAt ackAt ackMsg loopsAt newNodeMsg Handler.early Handler.loops Handler.owed
  Handler.busy Handler.waits

omit [DecidableEq Node] in
/-- The messages of a leave carry no entry and no part of a join. -/
theorem sum_ofLeave {w : Msg Node → ℕ} (hw : ∀ m : Msg Node, m.ofLeave = true → w m = 0)
    {ms : List (Msg Node)} (hms : ∀ m ∈ ms, m.ofLeave = true) : (ms.map w).sum = 0 := by
  apply List.sum_eq_zero
  intro n hn
  obtain ⟨m, hm, rfl⟩ := List.mem_map.mp hn
  exact hw m (hms m hm)

theorem ofLeave_weights {m : Msg Node} (hm : m.ofLeave = true) :
    ackMsg m = 0 ∧ (∀ a, earlyMsg a m = 0) ∧ (∀ a, phaseMsg a m = 0) ∧
      (∀ a b, entriesMsg a b m = 0) ∧ (∀ a b, contactMsg a b m = 0) ∧ ∀ n, newNodeMsg n m = 0 := by
  cases m with
  | recvPageLeave d c => simp
  | dtLeave d c n => simp
  | ackRecvPage d c => simp
  | _ => cases hm

/-- Nothing that is counted changes. -/
theorem move_of_eq (hp : LocalInv p) {p' : Peer Node} (ms : List (Msg Node))
    {out : List (Msg Node)}
    (heq : p'.nodeList = p.nodeList ∧ p'.nbNodees = p.nbNodees ∧ p'.inDsm = p.inDsm ∧
      p'.acked = p.acked ∧ p'.handlers = p.handlers)
    (hms : ∀ m ∈ ms, m.ofLeave = true) (hout : ∀ m ∈ out, m.ofLeave = true) :
    Move S i (some p) ms (some p') out ∧ NewsMove i (some p) ms (some p') out := by
  obtain ⟨h1, h2, h3, h4, h5⟩ := heq
  refine ⟨⟨?_, ?_, ?_, ?_, ?_, ?_, ?_, ?_⟩, ?_⟩
  · intro q hq
    cases hq
    refine ⟨?_, ?_⟩
    · rw [h1, h2]
      exact hp.nb
    · rw [h3, h5]
      exact hp.ready
  · intro m hm
    have hmsg := hout m hm
    cases m with
    | infoDSM d c k nodes => cases hmsg
    | _ => trivial
  · simp [h5]
  · have hw : ∀ m : Msg Node, m.ofLeave = true → ackMsg m = 0 := fun m hm => (ofLeave_weights hm).1
    rw [sum_ofLeave hw hms, sum_ofLeave hw hout]
    simp [h4, h5]
  · intro a
    have hw : ∀ m : Msg Node, m.ofLeave = true → earlyMsg a m = 0 :=
      fun m hm => (ofLeave_weights hm).2.1 a
    rw [sum_ofLeave hw hms, sum_ofLeave hw hout]
    simp [h5]
  · intro a
    have hw : ∀ m : Msg Node, m.ofLeave = true → phaseMsg a m = 0 :=
      fun m hm => (ofLeave_weights hm).2.2.1 a
    rw [sum_ofLeave hw hms, sum_ofLeave hw hout]
    simp [h3, h5]
  · intro a b _
    have hw : ∀ m : Msg Node, m.ofLeave = true → entriesMsg a b m = 0 :=
      fun m hm => (ofLeave_weights hm).2.2.2.1 a b
    rw [sum_ofLeave hw hms, sum_ofLeave hw hout]
    simp [h1, h5]
  · intro a b _
    have hw : ∀ m : Msg Node, m.ofLeave = true → entriesMsg a b m = 0 :=
      fun m hm => (ofLeave_weights hm).2.2.2.1 a b
    have hw' : ∀ m : Msg Node, m.ofLeave = true → contactMsg a b m = 0 :=
      fun m hm => (ofLeave_weights hm).2.2.2.2.1 a b
    rw [sum_ofLeave hw hms, sum_ofLeave hw hout, sum_ofLeave hw' hms, sum_ofLeave hw' hout]
    simp [h1, h5]
  · intro n
    have hw : ∀ m : Msg Node, m.ofLeave = true → newNodeMsg n m = 0 :=
      fun m hm => (ofLeave_weights hm).2.2.2.2.2 n
    rw [sum_ofLeave hw hms, sum_ofLeave hw hout]
    simp [h5]

/-- A node that has not started joins. -/
theorem move_joinDSM (hi : i ∉ S) (contact : Node) :
    Move S i none [] (some (joinDSM i contact).1) (joinDSM i contact).2 ∧
      NewsMove i none [] (some (joinDSM i contact).1) (joinDSM i contact).2 := by
  refine ⟨⟨?_, ?_, ?_, ?_, ?_, ?_, ?_, ?_⟩, ?_⟩
  · intro q hq
    cases hq
    exact ⟨rfl, by simp [joinDSM, addToNodes]⟩
  · simp [joinDSM, MsgInv]
  · simp [joinDSM, addToNodes]
  · simp [joinDSM, addToNodes]
  · intro a
    simp [joinDSM, addToNodes]
  · intro a
    simp [joinDSM, addToNodes]
  · intro a b ha
    have hia : i ≠ a := by
      rintro rfl
      exact hi ha
    simp [joinDSM, addToNodes, hia]
  · intro a b _
    by_cases hia : i = a <;> by_cases hb : contact = b <;> simp [joinDSM, addToNodes, hia, hb]
  · intro n
    simp [joinDSM, addToNodes]

/-- The handlers `hs` count as much as the handler `h`. -/
structure Replaces (i : Node) (h : Handler Node) (hs : List (Handler Node)) : Prop where
  busy : (hs.map fun x => x.busy.toNat).sum = h.busy.toNat
  waits : (hs.map Handler.waits).sum = h.waits
  early : ∀ a, (hs.map (Handler.early a)).sum = h.early a
  loops : ∀ a, (hs.map (Handler.loops a)).sum = h.loops a
  owed : ∀ a b l, (hs.map (Handler.owed a b i l)).sum = h.owed a b i l

/-- A handler goes on without a change of what it is counted for. -/
theorem move_stage (hp : LocalInv p) {h : Handler Node} (hh : h ∈ p.handlers)
    (hs : List (Handler Node)) (hready : ∀ x ∈ hs, x.stage ≠ .waitInDsm → p.inDsm = true)
    (hr : Replaces i h hs) :
    Move S i (some p) [] (some { p with handlers := hs ++ p.handlers.erase h }) [] ∧
      NewsMove i (some p) [] (some { p with handlers := hs ++ p.handlers.erase h }) [] := by
  have hsum : ∀ w : Handler Node → ℕ, (hs.map w).sum = w h →
      ((hs ++ p.handlers.erase h).map w).sum = (p.handlers.map w).sum := by
    intro w hw
    rw [List.map_append, List.sum_append, hw, sum_erase hh w]
  have hbusy := hsum _ hr.busy
  have hwaits := hsum _ hr.waits
  have hearly := fun a => hsum _ (hr.early a)
  have hloops := fun a => hsum _ (hr.loops a)
  have howed := fun a b l => hsum _ (hr.owed a b l)
  refine ⟨⟨?_, by simp, ?_, ?_, ?_, ?_, ?_, ?_⟩, ?_⟩
  · intro q hq
    cases hq
    refine ⟨hp.nb, ?_⟩
    intro x hx
    rcases List.mem_append.mp hx with hx | hx
    · exact hready x hx
    · exact hp.ready x (List.mem_of_mem_erase hx)
  · exact hbusy.le
  · simp only [ackAt, waitsAt, hwaits]
  · intro a
    simp only [earlyAt, hearly]
  · intro a
    simp only [phaseAt, hloops]
  · intro a b _
    simp only [entriesAt, howed]
  · intro a b _
    simp only [entriesAt, contactAt, howed, hearly]
  · intro n
    simp only [loopsAt, hloops]
    exact le_refl _

/-- `JOIN_DSM` starts a handler. -/
theorem move_joinDSMMsg (hp : LocalInv p) (sender : Node) :
    Move S i (some p) [.joinDSM i sender]
        (some { p with handlers := ⟨sender, .waitInDsm⟩ :: p.handlers }) [] ∧
      NewsMove i (some p) [.joinDSM i sender]
        (some { p with handlers := ⟨sender, .waitInDsm⟩ :: p.handlers }) [] := by
  refine ⟨⟨?_, by simp, by simp, by simp, ?_, by simp, by simp, ?_⟩, by simp [NewsMove]⟩
  · intro q hq
    cases hq
    refine ⟨hp.nb, ?_⟩
    intro x hx hne
    rcases List.mem_cons.mp hx with rfl | hx
    · exact absurd rfl hne
    · exact hp.ready x hx hne
  · intro a
    simp [Nat.add_comm]
  · intro a b _
    by_cases hib : i = b <;> by_cases hs : sender = a <;> simp [hib, hs, Nat.add_comm]

/-- The list of a node without a handler in its loop grows by `n`. -/
theorem entriesAt_cons (hfree : ∀ h ∈ p.handlers, h.busy = false) (n a b : Node) (k : ℕ) :
    entriesAt a b i (some { p with nodeList := n :: p.nodeList, nbNodees := k }) =
      entriesAt a b i (some p) + if i = a ∧ n = b then 1 else 0 := by
  simp only [entriesAt, sum_owed_of_not_busy hfree, List.count_cons, beq_iff_eq]
  by_cases hia : i = a <;> by_cases hnb : n = b <;> simp [hia, hnb]

theorem move_newNodeHandler (hp : LocalInv p) {sender n : Node} {r : Peer Node × List (Msg Node)}
    (h : newNodeHandler i p sender n = some r) :
    Move S i (some p) [.newNode i sender n] (some r.1) r.2 ∧
      NewsMove i (some p) [.newNode i sender n] (some r.1) r.2 := by
  unfold newNodeHandler at h
  split at h
  · rename_i hfree
    cases h
    have hentries := fun a b => entriesAt_cons (i := i) (umtxFree_not_busy hfree) n a b (p.nbNodees + 1)
    refine ⟨⟨?_, by simp [MsgInv], by simp [addToNodes], ?_, by simp [addToNodes],
      by simp [addToNodes], ?_, ?_⟩, by simp [NewsMove, addToNodes]⟩
    · intro q hq
      cases hq
      exact ⟨by simp [addToNodes, hp.nb], hp.ready⟩
    · simp [addToNodes]
    · intro a b _
      unfold addToNodes
      rw [hentries]
      simp
    · intro a b _
      unfold addToNodes
      rw [hentries]
      simp
  · cases h

/-- `ACK_NODE` is handled while `acked` is not set. -/
theorem move_ackNodeHandler (hp : LocalInv p) (hacked : p.acked = false) (sender : Node) :
    Move S i (some p) [.ackNode i sender] (some (ackNodeHandler p)) [] ∧
      NewsMove i (some p) [.ackNode i sender] (some (ackNodeHandler p)) [] := by
  refine ⟨⟨?_, by simp, by simp [ackNodeHandler], ?_, by simp [ackNodeHandler],
    by simp [ackNodeHandler], by simp [ackNodeHandler], by simp [ackNodeHandler]⟩,
    by simp [NewsMove, ackNodeHandler]⟩
  · intro q hq
    cases hq
    exact ⟨hp.nb, hp.ready⟩
  · simp [ackNodeHandler, hacked]

omit [DecidableEq Node] in
/-- The nodes of `INFO_DSM` are added one after the other. -/
theorem foldl_addToNodes (p : Peer Node) (nodes : List Node) :
    nodes.foldl addToNodes p =
      { p with nodeList := nodes.reverse ++ p.nodeList, nbNodees := p.nbNodees + nodes.length } := by
  induction nodes generalizing p with
  | nil => rfl
  | cons n nodes ih =>
    rw [List.foldl_cons, ih]
    simp [addToNodes, Nat.add_assoc, Nat.add_comm 1]

/-- `INFO_DSM` is handled while `in_dsm` is not set. -/
theorem move_infoDSMHandler (hp : LocalInv p) (hdsm : p.inDsm = false) (sender : Node) {k : ℕ}
    {nodes : List Node} {p' : Peer Node} (h : infoDSMHandler p k nodes = some p') :
    Move S i (some p) [.infoDSM i sender k nodes] (some p') [] ∧
      NewsMove i (some p) [.infoDSM i sender k nodes] (some p') [] := by
  unfold infoDSMHandler at h
  split at h
  · rename_i hfree
    cases h
    have hbusy := umtxFree_not_busy hfree
    rw [foldl_addToNodes]
    refine ⟨⟨?_, by simp, by simp, by simp, by simp, ?_, ?_, ?_⟩, by simp [NewsMove]⟩
    · intro q hq
      cases hq
      exact ⟨by simp [hp.nb, Nat.add_comm], fun _ _ _ => rfl⟩
    · intro a
      by_cases hia : i = a <;> simp [hia, hdsm, Nat.add_comm]
    · intro a b _
      by_cases hia : i = a <;>
        simp [hia, sum_owed_of_not_busy hbusy, -Handler.owed, List.count_append, Nat.add_comm]
    · intro a b _
      by_cases hia : i = a <;>
        simp [hia, sum_owed_of_not_busy hbusy, -Handler.owed, List.count_append, Nat.add_comm]
  · cases h

/-- A handler adds the new node to the list; it is the only one that holds `umtx`. -/
theorem move_adding (hp : LocalInv p) {j : Node} (hh : ⟨j, .adding⟩ ∈ p.handlers)
    (hbusy : busyAt i (some p) ≤ 1) :
    Move S i (some p) [] (some (addToNodes
        { p with handlers := ⟨j, .releaseCS⟩ :: p.handlers.erase ⟨j, .adding⟩ } j)) [] ∧
      NewsMove i (some p) [] (some (addToNodes
        { p with handlers := ⟨j, .releaseCS⟩ :: p.handlers.erase ⟨j, .adding⟩ } j)) [] := by
  have hothers : ∀ x ∈ p.handlers.erase ⟨j, .adding⟩, x.busy = false := by
    apply not_busy_of_sum
    simp only [busyAt, sum_erase hh fun x => x.busy.toNat] at hbusy
    simp only [Handler.busy, Bool.toNat_true] at hbusy ⊢
    omega
  have howed := fun a b l => sum_owed_of_not_busy hothers a b i l
  have hdsm := hp.ready _ hh (by simp)
  refine ⟨⟨?_, by simp, ?_, ?_, ?_, ?_, ?_, ?_⟩, ?_⟩
  · intro q hq
    cases hq
    exact ⟨by simp [addToNodes, hp.nb], fun _ _ _ => hdsm⟩
  · simp only [busyAt, addToNodes, sum_erase hh fun x => x.busy.toNat]
    simp
  · simp only [waitsAt, addToNodes, sum_erase hh Handler.waits]
    simp
  · intro a
    simp only [earlyAt, addToNodes, sum_erase hh (Handler.early a)]
    simp
  · intro a
    simp only [phaseAt, addToNodes, sum_erase hh (Handler.loops a)]
    simp
  · intro a b _
    simp only [entriesAt, addToNodes, sum_erase hh (Handler.owed a b i _), List.map_cons,
      List.sum_cons, howed, List.count_cons, Handler.owed]
    by_cases hia : i = a <;> by_cases hjb : j = b <;> simp [hia, hjb]
  · intro a b _
    simp only [entriesAt, contactAt, addToNodes, sum_erase hh (Handler.owed a b i _),
      sum_erase hh (Handler.early a), List.map_cons, List.sum_cons, howed, List.count_cons,
      Handler.owed, Handler.early]
    by_cases hia : i = a <;> by_cases hjb : j = b <;> simp [hia, hjb]
  · intro n
    simp only [loopsAt, addToNodes, sum_erase hh (Handler.loops n)]
    simp

/-- A handler that has got its acknowledgement announces the new node to the next one. -/
theorem move_waitAcked_cons (hp : LocalInv p) {j n : Node} {rest : List Node}
    (hh : ⟨j, .waitAcked (n :: rest)⟩ ∈ p.handlers) (hacked : p.acked = true) :
    Move S i (some p) [] (some { p with
      acked := false
      handlers := ⟨j, .waitAcked rest⟩ :: p.handlers.erase ⟨j, .waitAcked (n :: rest)⟩ })
      [.newNode n i j] := by
  have hdsm := hp.ready _ hh (by simp)
  refine ⟨?_, by simp [MsgInv], ?_, ?_, ?_, ?_, ?_, ?_⟩
  · intro q hq
    cases hq
    exact ⟨hp.nb, fun _ _ _ => hdsm⟩
  · simp only [busyAt, sum_erase hh fun x => x.busy.toNat]
    simp
  · simp only [waitsAt, ackAt, sum_erase hh Handler.waits]
    simp [hacked]
  · intro a
    simp only [earlyAt, sum_erase hh (Handler.early a)]
    simp
  · intro a
    simp only [phaseAt, sum_erase hh (Handler.loops a)]
    simp
  · intro a b _
    simp only [entriesAt, sum_erase hh (Handler.owed a b i _), List.map_cons, List.sum_cons,
      Handler.owed, List.count_cons, entriesMsg, List.map_nil, List.sum_nil, beq_iff_eq]
    by_cases hna : n = a <;> by_cases hjb : j = b <;> simp [hna, hjb]
    omega
  · intro a b _
    simp only [entriesAt, contactAt, sum_erase hh (Handler.owed a b i _),
      sum_erase hh (Handler.early a), List.map_cons, List.sum_cons,
      Handler.owed, Handler.early, List.count_cons, entriesMsg, contactMsg, List.map_nil,
      List.sum_nil, beq_iff_eq]
    by_cases hna : n = a <;> by_cases hjb : j = b <;> simp [hna, hjb]
    omega

/-- A handler that has got its last acknowledgement sends `INFO_DSM`. -/
theorem move_waitAcked_nil (hp : LocalInv p) {j : Node}
    (hh : ⟨j, .waitAcked []⟩ ∈ p.handlers) (hacked : p.acked = true) :
    Move S i (some p) [] (some { p with
      acked := false
      handlers := ⟨j, .adding⟩ :: p.handlers.erase ⟨j, .waitAcked []⟩ })
      [.infoDSM j i p.nbNodees p.nodeList] := by
  have hdsm := hp.ready _ hh (by simp)
  have htake : p.nodeList.take p.nbNodees = p.nodeList := by
    rw [hp.nb]
    exact List.take_length
  refine ⟨?_, by simp [MsgInv, hp.nb], ?_, ?_, ?_, ?_, ?_, ?_⟩
  · intro q hq
    cases hq
    exact ⟨hp.nb, fun _ _ _ => hdsm⟩
  · simp only [busyAt, sum_erase hh fun x => x.busy.toNat]
    simp
  · simp only [waitsAt, ackAt, sum_erase hh Handler.waits]
    simp [hacked]
  · intro a
    simp only [earlyAt, sum_erase hh (Handler.early a)]
    simp
  · intro a
    simp only [phaseAt, sum_erase hh (Handler.loops a)]
    simp [Nat.add_comm, Nat.add_left_comm]
  · intro a b _
    simp only [entriesAt, sum_erase hh (Handler.owed a b i _), List.map_cons, List.sum_cons,
      Handler.owed, entriesMsg, List.map_nil, List.sum_nil, htake, List.count_nil, ite_self]
    omega
  · intro a b _
    simp only [entriesAt, contactAt, sum_erase hh (Handler.owed a b i _),
      sum_erase hh (Handler.early a), List.map_cons, List.sum_cons, Handler.owed, Handler.early,
      entriesMsg, contactMsg, List.map_nil, List.sum_nil, htake, List.count_nil, ite_self]
    omega

omit [DecidableEq Node] in
/-- The loop of `JOIN_DSM_handler` sends one `NEW_NODE`, or `INFO_DSM` at its end. -/
theorem newNodeLoop_cases (me : Node) (p : Peer Node) (j : Node) (l : List Node) :
    (l = [] ∧ newNodeLoop me p j l = ({ p with handlers := ⟨j, .adding⟩ :: p.handlers },
      [.infoDSM j me p.nbNodees p.nodeList])) ∨
    ∃ n rest, l = n :: rest ∧ newNodeLoop me p j l =
      ({ p with handlers := ⟨j, .waitAcked rest⟩ :: p.handlers }, [.newNode n me j]) := by
  cases l with
  | nil => exact Or.inl ⟨rfl, rfl⟩
  | cons n rest => exact Or.inr ⟨n, rest, rfl, rfl⟩

/-- A handler takes `umtx` and begins its loop over the list. -/
theorem newNodeLoop_weights {j : Node} (hh : ⟨j, .lockUmtx⟩ ∈ p.handlers)
    {r : Peer Node × List (Msg Node)}
    (hr : r = newNodeLoop i { p with handlers := p.handlers.erase ⟨j, .lockUmtx⟩ } j p.nodeList) :
    (∀ a, earlyAt a i (some r.1) + (r.2.map (earlyMsg a)).sum + (if j = a then 1 else 0) =
      earlyAt a i (some p)) ∧
    (∀ a, phaseAt a i (some r.1) + (r.2.map (phaseMsg a)).sum =
      phaseAt a i (some p) + if j = a then 1 else 0) ∧
    (∀ a b, contactAt a b i (some r.1) + (r.2.map (contactMsg a b)).sum +
      (if j = a ∧ i = b then 1 else 0) = contactAt a b i (some p)) ∧
    ∀ a b, entriesAt a b i (some r.1) + (r.2.map (entriesMsg a b)).sum =
      entriesAt a b i (some p) + (if j = b then p.nodeList.count a else 0) +
        (if j = a then p.nodeList.count b else 0) + if i = a ∧ j = b then 1 else 0 := by
  rcases newNodeLoop_cases i { p with handlers := p.handlers.erase ⟨j, .lockUmtx⟩ } j p.nodeList with
    ⟨hl, heq⟩ | ⟨n, rest, hl, heq⟩ <;> rw [hr, heq]
  · refine ⟨?_, ?_, ?_, ?_⟩
    · intro a
      simp only [earlyAt, sum_erase hh (Handler.early a)]
      simp [Nat.add_comm]
    · intro a
      simp only [phaseAt, sum_erase hh (Handler.loops a)]
      simp
    · intro a b
      simp only [contactAt, sum_erase hh (Handler.early a)]
      by_cases hib : i = b <;> simp [hib, Nat.add_comm]
    · intro a b
      simp only [entriesAt, sum_erase hh (Handler.owed a b i _)]
      simp [hl]
      omega
  · refine ⟨?_, ?_, ?_, ?_⟩
    · intro a
      simp only [earlyAt, sum_erase hh (Handler.early a)]
      simp [Nat.add_comm]
    · intro a
      simp only [phaseAt, sum_erase hh (Handler.loops a)]
      simp
      omega
    · intro a b
      simp only [contactAt, sum_erase hh (Handler.early a)]
      by_cases hib : i = b <;> simp [hib, Nat.add_comm]
    · intro a b
      simp only [entriesAt, sum_erase hh (Handler.owed a b i _)]
      simp [hl, List.count_cons]
      by_cases hna : n = a <;> by_cases hjb : j = b <;> simp [hna, hjb] <;> omega

end Moves

end Membership
