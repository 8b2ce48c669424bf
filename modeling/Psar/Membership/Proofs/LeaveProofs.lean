import Psar.Membership.Leave
import Psar.Membership.Proofs.JoinProofs

/-!
# Proofs: forgetting the node that leaves

While a node leaves, handlers of `JOIN_DSM` run at that node alone. Once it has taken `umtx` for the
broadcast its list is complete, so every member is asked to remove it.
-/

namespace Membership

variable {Node : Type} [DecidableEq Node]

section Removal

variable [Fintype Node] {S : Finset Node} {l : Node} {gone : Finset Node} {s : Net Node}

omit [DecidableEq Node] [Fintype Node] in
theorem inCS_of_leave {p : Peer Node} (h : p.leave ≠ none) : inCS p = true := by
  simp only [inCS, Bool.or_eq_true]
  right
  cases hl : p.leave with
  | none => exact absurd hl h
  | some x => rfl

/-- A member has no handler of `JOIN_DSM` in its loop. -/
theorem Inv.loops_of_inDsm (h : Inv S l gone s) {i : Node} {p : Peer Node} (hi : s.node i = some p)
    (hdsm : p.inDsm = true) : s.weight (loopsAt i) (fun _ => 0) = 0 := by
  have hphase := h.phase i
  rw [if_pos (h.mem_of_inDsm hi hdsm).1] at hphase
  -- the member itself is counted once
  have hle : s.weight (fun k x => loopsAt i k x + if k = i then 1 else 0) (fun _ => 0) ≤
      s.weight (phaseAt i) (phaseMsg i) := by
    apply Network.weight_le
    · intro k
      by_cases hk : k = i
      · subst hk
        rw [hi]
        simp [loopsAt, phaseAt, hdsm, Nat.add_comm]
      · cases s.node k with
        | none => simp [loopsAt, hk]
        | some q => simp [loopsAt, phaseAt, hk]
    · intro m _
      exact Nat.zero_le _
  have hadd := Network.weight_add (loopsAt i) (fun k _ => if k = i then 1 else 0)
    (fun _ => 0) (fun _ : Msg Node => 0) s
  have hone : s.weight (fun k _ => if k = i then 1 else 0) (fun _ => 0) = 1 := by
    simp [Network.Net.weight]
  simp only [Nat.add_zero] at hadd
  omega

/-- A handler in its loop is counted for the node that joins. -/
theorem loops_of_mem {k j : Node} {q : Peer Node} (hk : s.node k = some q) {rest : List Node}
    (hx : ⟨j, .waitAcked rest⟩ ∈ q.handlers) : 1 ≤ s.weight (loopsAt j) fun _ => 0 := by
  have h1 := Network.le_weight_node (loopsAt j) (fun _ => 0) s k
  rw [hk] at h1
  simp only [loopsAt, sum_erase hx (Handler.loops j), Handler.loops, if_true] at h1
  omega

/-- While `l` is inside, the entries for `l` of a member are those of its list. -/
theorem Inv.count_leaver (h : Inv S l gone s) {i : Node} {p q : Peer Node} (hil : i ≠ l)
    (hi : s.node i = some p) (hdsm : p.inDsm = true) (hl : s.node l = some q)
    (hcs : inCS q = true) (hdsm' : q.inDsm = true) :
    s.weight (entriesAt i l) (entriesMsg i l) = p.nodeList.count l := by
  have hloops := h.loops_of_inDsm hi hdsm
  have hloops' := h.loops_of_inDsm hl hdsm'
  have hinfo := (h.mem_of_inDsm hi hdsm).2
  have hmsgs : (s.msgs.map (entriesMsg i l)).sum = 0 := by
    apply List.sum_eq_zero
    intro n hn
    obtain ⟨m, hm, rfl⟩ := List.mem_map.mp hn
    cases m with
    | newNode d c n' =>
      have h1 := h.news l
      have h2 := List.single_le_sum (fun _ _ => Nat.zero_le _) _
        (List.mem_map_of_mem (f := newNodeMsg l) hm)
      simp only [newNodeMsg] at h2
      have hne : n' ≠ l := by
        rintro rfl
        simp only [if_true] at h2
        omega
      simp [entriesMsg, hne]
    | infoDSM d c k nodes =>
      have hd : d ≠ i := by
        rintro rfl
        exact hinfo c k nodes hm
      simp [entriesMsg, hd]
    | _ => rfl
  have howed : ∀ k q', s.node k = some q' → ∀ x ∈ q'.handlers, x.owed i l k q'.nodeList = 0 := by
    intro k q' hk x hx
    cases hb : x.busy with
    | false => exact Handler.owed_of_not_busy hb _ _ _ _
    | true =>
      -- a handler that holds `umtx` is one of the leaver, and serves a third node
      obtain rfl := h.cs k l q' hk q hl (inCS_of_busy hx hb) hcs
      obtain ⟨j, stage⟩ := x
      cases stage with
      | waitAcked rest =>
        have hj := loops_of_mem hk hx
        have hjl : j ≠ k := by
          rintro rfl
          omega
        have hji : j ≠ i := by
          rintro rfl
          omega
        simp [Handler.owed, hjl, hji]
      | adding => simp [Handler.owed, Ne.symm hil]
      | _ => cases hb
  have hnodes : ∀ k, entriesAt i l k (s.node k) = if k = i then p.nodeList.count l else 0 := by
    intro k
    cases hk : s.node k with
    | none =>
      have hki : k ≠ i := by
        rintro rfl
        rw [hi] at hk
        cases hk
      simp [entriesAt, hki]
    | some q' =>
      have hzero : (q'.handlers.map (Handler.owed i l k q'.nodeList)).sum = 0 := by
        apply List.sum_eq_zero
        intro n hn
        obtain ⟨x, hx, rfl⟩ := List.mem_map.mp hn
        exact howed k q' hk x hx
      by_cases hki : k = i
      · subst hki
        rw [hi] at hk
        cases hk
        simp [entriesAt, hzero]
      · simp [entriesAt, hki, hzero]
  simp [Network.Net.weight, hmsgs, hnodes]

/-- A member removes the leaver. -/
theorem inv_removeNode (h : Inv S l gone s) {i : Node} {p q : Peer Node} (hil : i ≠ l)
    (hi : s.node i = some p) (hdsm : p.inDsm = true) (hl : s.node l = some q)
    (hcs : inCS q = true) (hdsm' : q.inDsm = true) (removing : List (Node × Bool)) :
    Inv S l (insert i gone) (s.fire i s.msgs
      (started (removeNode { p with removing := removing } l, []))) := by
  have hcount := h.count_leaver hil hi hdsm hl hcs hdsm'
  have hiS := (h.mem_of_inDsm hi hdsm).1
  have hlS := (h.mem_of_inDsm hl hdsm').1
  have hlocal := h.local_ i p hi
  -- the handlers of the node do not hold `umtx`
  have hnb : ∀ x ∈ p.handlers, x.busy = false := by
    intro x hx
    cases hb : x.busy with
    | false => rfl
    | true => exact absurd (h.cs i l p hi q hl (inCS_of_busy hx hb) hcs) hil
  set p' := removeNode { p with removing := removing } l with hp'
  have hfields : p'.inDsm = p.inDsm ∧ p'.acked = p.acked ∧ p'.handlers = p.handlers ∧
      p'.leave = p.leave := by
    simp only [hp', removeNode]
    split <;> exact ⟨rfl, rfl, rfl, rfl⟩
  obtain ⟨hf1, hf2, hf3, hf4⟩ := hfields
  have hlist : p'.nodeList = p.nodeList.erase l ∧ p'.nbNodees = p'.nodeList.length := by
    simp only [hp', removeNode]
    split
    · rename_i hin
      refine ⟨rfl, ?_⟩
      simp [List.length_erase_of_mem hin, hlocal.nb]
    · rename_i hin
      exact ⟨(List.erase_of_not_mem hin).symm, hlocal.nb⟩
  have hfire : ∀ (f : Node → Option (Peer Node) → ℕ) (g : Msg Node → ℕ),
      f i (some p') = f i (some p) →
      (s.fire i s.msgs (started (p', []))).weight f g = s.weight f g := by
    intro f g hf
    have hw := Network.weight_fire f g (i := i) (Network.perm_act s.msgs) (started (p', []))
    rw [hi] at hw
    simp only [started, List.map_nil, List.sum_nil, Nat.add_zero, hf] at hw
    exact Nat.add_right_cancel hw
  refine ⟨?_, ?_, ?_, ?_, ?_, ?_, ?_, ?_, ?_, ?_⟩
  · refine Network.forall_node_fire (L := fun _ p => ∀ q ∈ p, LocalInv q) h.local_ ?_
    intro r hr
    cases hr
    refine ⟨hlist.2, ?_⟩
    rw [hf3, hf1]
    exact hlocal.ready
  · exact Network.forall_msgs_fire h.msgs (Network.perm_act s.msgs) (by simp [started])
  · refine cs_fire h (hcs_of_imp hi ?_)
    simp only [inCS, hf3, hf4]
    exact id
  · rw [hfire _ _ (by simp [busyAt, hf3])]
    exact h.busy
  · rw [hfire _ _ (by simp [ackAt, hf2]), hfire _ _ (by simp [waitsAt, hf3])]
    exact h.ack
  · intro n
    rw [hfire _ _ (by simp [loopsAt, hf3])]
    simpa [started] using h.news n
  · intro a
    rw [hfire _ _ (by simp [earlyAt, hf3])]
    exact h.early a
  · intro a
    rw [hfire _ _ (by simp [phaseAt, hf1, hf3])]
    exact h.phase a
  · intro a ha
    rcases Finset.mem_insert.mp ha with rfl | ha
    · exact hiS
    · exact h.gone_subset ha
  · intro a b
    have h1 := h.pair a b
    rw [hfire (contactAt a b) _ (by simp [contactAt, hf3])]
    by_cases hab : a = i ∧ b = l
    · obtain ⟨rfl, rfl⟩ := hab
      have hw := Network.weight_fire (entriesAt a b) (entriesMsg a b) (i := a)
        (Network.perm_act s.msgs) (started (p', []))
      rw [hi] at hw
      simp only [started, entriesAt, if_true, hf3, hlist.1, sum_owed_of_not_busy hnb,
        List.count_erase_self, List.map_nil, List.sum_nil, Nat.add_zero] at hw
      rw [hcount] at hw h1
      simp only [target, if_pos hiS, hlS, true_and, if_pos hil] at h1 ⊢
      simp only [Finset.mem_insert_self, if_true]
      simp only [started]
      omega
    · have hkeep : entriesAt a b i (some p') = entriesAt a b i (some p) := by
        simp only [entriesAt, hf3, sum_owed_of_not_busy hnb, hlist.1]
        by_cases hia : i = a
        · have hbl : b ≠ l := fun hbl => hab ⟨hia.symm, hbl⟩
          simp [hia, List.count_erase_of_ne hbl]
        · simp [hia]
      have hiff : (b = l ∧ a ∈ insert i gone) ↔ (b = l ∧ a ∈ gone) := by
        constructor
        · rintro ⟨hbl, hmem'⟩
          rcases Finset.mem_insert.mp hmem' with rfl | hg
          · exact absurd ⟨rfl, hbl⟩ hab
          · exact ⟨hbl, hg⟩
        · rintro ⟨hbl, hg⟩
          exact ⟨hbl, Finset.mem_insert_of_mem hg⟩
      rw [hfire _ _ hkeep]
      simp only [hiff]
      exact h1

end Removal

/-! ## Steps of a leave -/

section Steps

variable [Fintype Node] {S : Finset Node} {l newOwner : Node} {gone : Finset Node} {s s' : Net Node}

/-- The leaver is inside the critical section. -/
theorem LeaveInv.inside (h : LeaveInv S l newOwner gone s) :
    ∃ p, s.node l = some p ∧ p.inDsm = true ∧ inCS p = true ∧ LeaveStage S l newOwner gone p := by
  obtain ⟨p, hp, hdsm, hstage⟩ := h.leaver
  refine ⟨p, hp, hdsm, inCS_of_leave ?_, hstage⟩
  intro hnone
  simp [LeaveStage, hnone] at hstage

/-- A step of a join: it consumes and sends no message of the leave. -/
theorem leaveInv_of_join (h : LeaveInv S l newOwner gone s) {i : Node} {ms rest : List (Msg Node)}
    (hp : s.msgs.Perm (ms ++ rest)) {r : Peer Node × List (Msg Node)} {S' : Finset Node}
    (hinv : Inv S' l gone (s.fire i rest (started r)))
    (hS : S' = S ∨ ∃ p o, s.node l = some p ∧ p.leave = some (.waitOwner o))
    (hsome : ∀ p, s.node i = some p → r.1.leave = p.leave ∧ r.1.removing = p.removing ∧
      (p.inDsm = true → r.1.inDsm = true) ∧ (i = l → r.1.dtCv = p.dtCv))
    (hnone : s.node i = none → r.1.leave = none ∧ r.1.removing = [])
    (hms : ∀ m ∈ ms, m.ofLeave = false) (hout : ∀ m ∈ r.2, m.ofLeave = false) :
    LeaveInv S' l newOwner gone (s.fire i rest (started r)) := by
  obtain ⟨pl, hpl, hdsm, hstage⟩ := h.leaver
  -- the leaver keeps its stage
  have hl : ∃ q, (s.fire i rest (started r)).node l = some q ∧ q.leave = pl.leave ∧
      q.dtCv = pl.dtCv ∧ q.inDsm = true := by
    by_cases hil : l = i
    · subst hil
      obtain ⟨h1, -, h3, h4⟩ := hsome pl hpl
      rw [Network.fire_node_self]
      exact ⟨r.1, rfl, h1, h4 rfl, h3 hdsm⟩
    · rw [Network.fire_node_ne _ _ _ hil]
      exact ⟨pl, hpl, rfl, rfl, hdsm⟩
  obtain ⟨q, hq, hleave, hcv, hqdsm⟩ := hl
  have hawaited : ((s.fire i rest (started r)).node l).bind awaited = (s.node l).bind awaited := by
    rw [hq, hpl]
    simp [awaited, hleave]
  have hmono : ∀ c x, (∃ p ∈ s.node c, x ∈ p.removing) →
      ∃ p ∈ (s.fire i rest (started r)).node c, x ∈ p.removing := by
    rintro c x ⟨p, hpc, hx⟩
    by_cases hci : c = i
    · subst hci
      rw [Network.fire_node_self]
      refine ⟨r.1, rfl, ?_⟩
      rw [(hsome p hpc).2.1]
      exact hx
    · rw [Network.fire_node_ne _ _ _ hci]
      exact ⟨p, hpc, hx⟩
  refine ⟨hinv, ⟨q, hq, hqdsm, ?_⟩, ?_, ?_, ?_, ?_⟩
  · unfold LeaveStage at hstage ⊢
    rw [hleave, hcv]
    rcases hS with rfl | ⟨p, o, hp', ho⟩
    · exact hstage
    · rw [hpl] at hp'
      cases hp'
      rw [ho] at hstage ⊢
      exact hstage
  · intro k hk p hpk
    by_cases hki : k = i
    · subst hki
      rw [Network.fire_node_self] at hpk
      cases hpk
      cases hn : s.node k with
      | none => exact (hnone hn).1
      | some p =>
        rw [(hsome p hn).1]
        exact h.others k hk p hn
    · rw [Network.fire_node_ne _ _ _ hki] at hpk
      exact h.others k hk p hpk
  · intro k p hpk x hx
    by_cases hki : k = i
    · subst hki
      rw [Network.fire_node_self] at hpk
      cases hpk
      cases hn : s.node k with
      | none =>
        rw [(hnone hn).2] at hx
        cases hx
      | some p =>
        obtain ⟨-, h2, h3, -⟩ := hsome p hn
        rw [h2] at hx
        obtain ⟨hx1, hx2, hx3⟩ := h.removing k p hn x hx
        exact ⟨hx1, hx2, h3 hx3⟩
    · rw [Network.fire_node_ne _ _ _ hki] at hpk
      exact h.removing k p hpk x hx
  · intro m hm
    rcases List.mem_append.mp hm with hm | hm
    · have hmsg := h.leaveMsgs m (hp.symm.subset (List.mem_append_right _ hm))
      cases m with
      | recvPageLeave d c =>
        rw [LeaveMsg, hawaited]
        exact hmsg
      | dtLeave d c o =>
        rw [LeaveMsg, hawaited]
        exact hmsg
      | ackRecvPage d c =>
        obtain ⟨h1, h2, h3⟩ := hmsg
        refine ⟨h1, hawaited.trans h2, ?_⟩
        rcases h3 with h3 | ⟨p, hpc, x, hx, hxl⟩
        · exact Or.inl h3
        · obtain ⟨p', hp', hx'⟩ := hmono c x ⟨p, hpc, hx⟩
          exact Or.inr ⟨p', hp', x, hx', hxl⟩
      | _ => trivial
    · have hmsg := hout m hm
      cases m with
      | recvPageLeave d c => cases hmsg
      | dtLeave d c o => cases hmsg
      | ackRecvPage d c => cases hmsg
      | _ => trivial
  · have hw := Network.weight_fire (dtCvAt l) leaveMsg (i := i) hp (started r)
    have h1 := h.single
    have hzero : ∀ ms : List (Msg Node), (∀ m ∈ ms, m.ofLeave = false) →
        (ms.map leaveMsg).sum = 0 := by
      intro ms hms
      apply List.sum_eq_zero
      intro n hn
      obtain ⟨m, hm, rfl⟩ := List.mem_map.mp hn
      simp [leaveMsg, hms m hm]
    have hcv' : dtCvAt l i (some r.1) = dtCvAt l i (s.node i) := by
      by_cases hil : i = l
      · subst hil
        rw [hpl]
        simp [dtCvAt, (hsome pl hpl).2.2.2 rfl]
      · cases s.node i <;> simp [dtCvAt, hil]
    rw [hzero ms hms] at hw
    simp only [started, hzero r.2 hout, hcv'] at hw
    simp only [started]
    omega

/-- `leave_data_transfer` of `l` starts. -/
theorem leaveInv_start (h : Inv S l ∅ s) (hstays : Stays s) {p : Peer Node}
    (hl : s.node l = some p) (hN : newOwner ∈ p.nodeList)
    (hok : ∀ j, j ≠ l → (s.node j).all fun p => !inCS p) {r : Peer Node × List (Msg Node)}
    (hr : leaveDataTransfer l p newOwner = some r) :
    LeaveInv S l newOwner ∅ (s.fire l s.msgs (started r)) := by
  unfold leaveDataTransfer at hr
  split at hr
  · rename_i hcond
    cases hr
    have hNl : newOwner ≠ l := by
      rintro rfl
      have h1 := Network.le_weight_node (entriesAt newOwner newOwner)
        (entriesMsg newOwner newOwner) s newOwner
      have h2 := h.pair newOwner newOwner
      have h3 : 1 ≤ entriesAt newOwner newOwner newOwner (s.node newOwner) := by
        rw [hl]
        simp only [entriesAt, if_true]
        have := List.count_pos_iff.mpr hN
        omega
      simp only [target, if_pos (h.mem_of_inDsm hl hcond.1).1, ne_eq, not_true_eq_false, and_false,
        if_false] at h2
      omega
    have hmove : Move S l (some p) [] (some { p with
          dtCv := false, leave := some (.waitOwner newOwner) }) [.recvPageLeave newOwner l] ∧
        NewsMove l (some p) [] (some { p with
          dtCv := false, leave := some (.waitOwner newOwner) }) [.recvPageLeave newOwner l] :=
      move_of_eq (h.local_ l p hl) [] ⟨rfl, rfl, rfl, rfl, rfl⟩ (by simp) (by simp [Msg.ofLeave])
    rw [← hl] at hmove
    refine ⟨?_, ?_, ?_, ?_, ?_, ?_⟩
    · refine inv_fire h (Network.perm_act s.msgs) hmove.1 ?_
        (news_fire h (Network.perm_act s.msgs) hmove.2)
      intro q _ _
      right
      intro j hj q' hq'
      have hall := hok j hj
      rw [hq'] at hall
      simpa using hall
    · rw [Network.fire_node_self]
      exact ⟨_, rfl, hcond.1, rfl, by simp⟩
    · intro i hi q hq
      rw [Network.fire_node_ne _ _ _ hi] at hq
      exact (hstays.peers i q hq).1
    · intro i q hq x hx
      have hrem : q.removing = [] := by
        by_cases hi : i = l
        · subst hi
          rw [Network.fire_node_self] at hq
          cases hq
          exact (hstays.peers i p hl).2
        · rw [Network.fire_node_ne _ _ _ hi] at hq
          exact (hstays.peers i q hq).2
      rw [hrem] at hx
      cases hx
    · intro m hm
      rcases List.mem_append.mp hm with hm | hm
      · have hmsg := hstays.msgs m hm
        cases m with
        | recvPageLeave d c => cases hmsg
        | dtLeave d c o => cases hmsg
        | ackRecvPage d c => cases hmsg
        | _ => trivial
      · cases List.mem_singleton.mp hm
        exact ⟨rfl, hNl, by simp [started, awaited]⟩
    · have hzero : (s.msgs.map leaveMsg).sum = 0 := by
        apply List.sum_eq_zero
        intro n hn
        obtain ⟨m, hm, rfl⟩ := List.mem_map.mp hn
        simp [leaveMsg, hstays.msgs m hm]
      have hnode : ∀ i, dtCvAt l i ((s.fire l s.msgs (started ({ p with
          dtCv := false, leave := some (.waitOwner newOwner) },
          [.recvPageLeave newOwner l]))).node i) = 0 := by
        intro i
        by_cases hi : i = l
        · subst hi
          rw [Network.fire_node_self]
          simp [started, dtCvAt]
        · rw [Network.fire_node_ne _ _ _ hi]
          cases s.node i <;> simp [dtCvAt, hi]
      rw [Network.Net.weight, Finset.sum_eq_zero fun i _ => hnode i]
      simp [started, hzero, leaveMsg, Msg.ofLeave]
  · cases hr

omit [DecidableEq Node] [Fintype Node] in
theorem ofLeave_of_sum {ms : List (Msg Node)} (h : (ms.map leaveMsg).sum = 0) :
    ∀ m ∈ ms, m.ofLeave = false := by
  intro m hm
  have hle := List.single_le_sum (fun _ _ => Nat.zero_le _) _ (List.mem_map_of_mem (f := leaveMsg) hm)
  cases hm' : m.ofLeave with
  | false => rfl
  | true =>
    simp only [leaveMsg, hm', Bool.toNat_true] at hle
    omega

/-- A message of the leave in flight is the only one, and `dt_cv.predicate` is not set. -/
theorem LeaveInv.single_msg (h : LeaveInv S l newOwner gone s) {m : Msg Node} (hm : m ∈ s.msgs)
    (hleave : m.ofLeave = true) :
    (∀ m' ∈ s.msgs.erase m, m'.ofLeave = false) ∧ ∀ p, s.node l = some p → p.dtCv = false := by
  have h1 := Network.le_weight_msgs (dtCvAt l) leaveMsg s l
  have h2 := h.single
  have h3 := ((Network.perm_deliver hm).map leaveMsg).sum_eq
  simp only [List.singleton_append, List.map_cons, List.sum_cons] at h3
  have h4 : leaveMsg m = 1 := by simp [leaveMsg, hleave]
  constructor
  · apply ofLeave_of_sum
    omega
  · intro p hp
    rw [hp] at h1
    cases hcv : p.dtCv with
    | false => rfl
    | true =>
      simp only [dtCvAt, if_true, hcv, Bool.toNat_true] at h1
      omega

omit [DecidableEq Node] [Fintype Node] in
/-- A message that is not of the leave needs nothing. -/
theorem leaveMsg_of_false {m : Msg Node} (hm : m.ofLeave = false) {t : Net Node} :
    LeaveMsg l gone t m := by
  cases m with
  | recvPageLeave d c => cases hm
  | dtLeave d c o => cases hm
  | ackRecvPage d c => cases hm
  | _ => trivial

omit [Fintype Node] in
/-- The loop of `leave_data_transfer` skips the new owner. -/
theorem dtLeaveLoop_spec (me : Node) (p : Peer Node) (newOwner : Node) (nodes : List Node) :
    (dtLeaveLoop me p newOwner nodes = ({ p with leave := some .returned }, []) ∧
      ∀ b ∈ nodes, b = newOwner) ∨
    ∃ n rest, dtLeaveLoop me p newOwner nodes =
        ({ p with dtCv := false, leave := some (.waitNode newOwner n rest) },
          [.dtLeave n me newOwner]) ∧
      n ∈ nodes ∧ rest ⊆ nodes ∧ ∀ b ∈ nodes, b = newOwner ∨ b = n ∨ b ∈ rest := by
  induction nodes with
  | nil => exact Or.inl ⟨rfl, by simp⟩
  | cons x nodes ih =>
    by_cases hx : x = newOwner
    · have heq : dtLeaveLoop me p newOwner (x :: nodes) = dtLeaveLoop me p newOwner nodes := by
        simp [dtLeaveLoop, hx]
      rw [heq]
      rcases ih with ⟨h1, h2⟩ | ⟨n, rest, h1, h2, h3, h4⟩
      · refine Or.inl ⟨h1, ?_⟩
        intro b hb
        rcases List.mem_cons.mp hb with rfl | hb
        · exact hx
        · exact h2 b hb
      · refine Or.inr ⟨n, rest, h1, List.mem_cons_of_mem x h2, List.subset_cons_of_subset x h3, ?_⟩
        intro b hb
        rcases List.mem_cons.mp hb with rfl | hb
        · exact Or.inl hx
        · exact h4 b hb
    · refine Or.inr ⟨x, nodes, by simp [dtLeaveLoop, hx], List.mem_cons_self,
        List.subset_cons_self x nodes, ?_⟩
      intro b hb
      rcases List.mem_cons.mp hb with rfl | hb
      · exact Or.inr (Or.inl rfl)
      · exact Or.inr (Or.inr hb)

/-- The leaver has its acknowledgement and goes on with the nodes that are left. -/
theorem leaveInv_loop (h : LeaveInv S l newOwner gone s) {p : Peer Node} (hl : s.node l = some p)
    (hcv : p.dtCv = true) (hleave : p.leave ≠ none) (hN : newOwner ∈ gone) {nodes : List Node}
    (hself : l ∉ nodes) (hnodes : ∀ b ∈ S, b ≠ l → b ∈ gone ∨ b ∈ nodes) :
    LeaveInv S l newOwner gone (s.fire l s.msgs
      (started (dtLeaveLoop l { p with dtCv := false } newOwner nodes))) := by
  obtain ⟨pl, hpl, hdsm, -⟩ := h.leaver
  rw [hl] at hpl
  cases hpl
  have hmsgs : (s.msgs.map leaveMsg).sum = 0 := by
    have h1 := Network.le_weight_msgs (dtCvAt l) leaveMsg s l
    have h2 := h.single
    rw [hl] at h1
    simp only [dtCvAt, if_true, hcv, Bool.toNat_true] at h1
    omega
  have hspec := dtLeaveLoop_spec l { p with dtCv := false } newOwner nodes
  set r := dtLeaveLoop l { p with dtCv := false } newOwner nodes with hr
  have hfields : r.1.nodeList = p.nodeList ∧ r.1.nbNodees = p.nbNodees ∧ r.1.inDsm = p.inDsm ∧
      r.1.acked = p.acked ∧ r.1.handlers = p.handlers ∧ r.1.removing = p.removing ∧
      r.1.dtCv = false ∧ ∀ m ∈ r.2, m.ofLeave = true := by
    rcases hspec with ⟨heq, -⟩ | ⟨n, rest, heq, -⟩ <;> rw [heq] <;> simp [Msg.ofLeave]
  obtain ⟨hf1, hf2, hf3, hf4, hf5, hf6, hf7, hf8⟩ := hfields
  have hmove := move_of_eq (S := S) (i := l) (h.local_ l p hl) [] ⟨hf1, hf2, hf3, hf4, hf5⟩
    (by simp) hf8
  rw [← hl] at hmove
  refine ⟨?_, ?_, ?_, ?_, ?_, ?_⟩
  · exact inv_fire h.toInv (Network.perm_act s.msgs) hmove.1
      (hcs_of_imp hl fun _ => inCS_of_leave hleave)
      (news_fire h.toInv (Network.perm_act s.msgs) hmove.2)
  · rw [Network.fire_node_self]
    refine ⟨r.1, rfl, hf3.trans hdsm, ?_⟩
    rcases hspec with ⟨heq, hall⟩ | ⟨n, rest, heq, hn, hrest, hall⟩
    · rw [heq]
      show ∀ b ∈ S, b ≠ l → b ∈ gone
      intro b hb hbl
      rcases hnodes b hb hbl with hg | hmem
      · exact hg
      · rw [hall b hmem]
        exact hN
    · rw [heq]
      refine ⟨rfl, hN, fun hmem => hself (hrest hmem), by simp, ?_⟩
      intro b hb hbl
      rcases hnodes b hb hbl with hg | hmem
      · exact Or.inl hg
      · rcases hall b hmem with rfl | hcase
        · exact Or.inl hN
        · exact Or.inr hcase
  · intro i hi q hq
    rw [Network.fire_node_ne _ _ _ hi] at hq
    exact h.others i hi q hq
  · intro i q hq x hx
    by_cases hi : i = l
    · subst hi
      rw [Network.fire_node_self] at hq
      cases hq
      rw [hf6] at hx
      exact absurd rfl (h.removing i p hl x hx).2.1
    · rw [Network.fire_node_ne _ _ _ hi] at hq
      exact h.removing i q hq x hx
  · intro m hm
    rcases List.mem_append.mp hm with hm | hm
    · exact leaveMsg_of_false (ofLeave_of_sum hmsgs m hm)
    · rcases hspec with ⟨heq, -⟩ | ⟨n, rest, heq, hn, -, -⟩
      · simp [started, heq] at hm
      · simp only [started, heq, List.mem_singleton] at hm
        subst hm
        refine ⟨rfl, ?_, ?_⟩
        · rintro rfl
          exact hself hn
        · rw [Network.fire_node_self]
          simp [started, heq, awaited]
  · have hw := Network.weight_fire (dtCvAt l) leaveMsg (i := l) (Network.perm_act s.msgs) (started r)
    have h2 := h.single
    have h3 : (r.2.map leaveMsg).sum ≤ 1 := by
      rcases hspec with ⟨heq, -⟩ | ⟨n, rest, heq, -⟩ <;> rw [heq] <;> simp [leaveMsg, Msg.ofLeave]
    rw [hl] at hw
    simp only [started, dtCvAt, if_true, hcv, hf7, Bool.toNat_true, Bool.toNat_false,
      List.map_nil, List.sum_nil, Nat.add_zero] at hw
    simp only [started]
    omega

/-- `leave_data_transfer` goes on. -/
theorem leaveInv_resume (h : LeaveInv S l newOwner gone s) {p : Peer Node} (hl : s.node l = some p)
    {r : Peer Node × List (Msg Node)} (hr : leaveResume l p = some r) :
    LeaveInv S l newOwner gone (s.fire l s.msgs (started r)) := by
  obtain ⟨pl, hpl, hdsm, hcs, hstage⟩ := h.inside
  rw [hl] at hpl
  cases hpl
  unfold leaveResume at hr
  unfold LeaveStage at hstage
  split at hr
  · rename_i o hleave
    rw [hleave] at hstage
    obtain ⟨rfl, hgone⟩ := hstage
    split at hr
    · rename_i hcond
      cases hr
      -- the list is complete
      have hcount := h.count_nodeList hl hcs (umtxFree_not_busy hcond.2) hdsm (Or.inr rfl)
      refine leaveInv_loop h hl hcond.1 (by simp [hleave]) (hgone hcond.1) ?_ ?_
      · rw [← List.count_eq_zero, hcount l]
        simp
      · intro b hb hbl
        right
        rw [← List.count_pos_iff, hcount b, if_pos ⟨hb, hbl.symm⟩]
        omega
    · cases hr
  · rename_i o n rest hleave
    rw [hleave] at hstage
    obtain ⟨rfl, hN, hself, hn, hall⟩ := hstage
    split at hr
    · rename_i hcv
      cases hr
      refine leaveInv_loop h hl hcv (by simp [hleave]) hN hself ?_
      intro b hb hbl
      rcases hall b hb hbl with hg | rfl | hmem
      · exact Or.inl hg
      · exact Or.inl (hn hcv)
      · exact Or.inr hmem
    · cases hr
  · cases hr

/-- A node handles the message of the leave that is in flight. -/
theorem leaveInv_handler (h : LeaveInv S l newOwner gone s) {m : Msg Node} (hm : m ∈ s.msgs)
    {d : Node} {p : Peer Node} (hd : s.node d = some p) (hdl : d ≠ l)
    (hawaited : (s.node l).bind awaited = some d) (hleave : m.ofLeave = true) (locks : Bool) :
    LeaveInv S l newOwner gone (s.fire d (s.msgs.erase m) (started (leaveHandler d p l locks))) := by
  obtain ⟨hothers, -⟩ := h.single_msg hm hleave
  have hperm := Network.perm_deliver hm
  obtain ⟨pl, hpl, hdsm, hstage⟩ := h.leaver
  set r := leaveHandler d p l locks with hr
  have hcases : (p.inDsm = true ∧ r = ({ p with removing := (l, locks) :: p.removing },
      [.ackRecvPage l d])) ∨ r = (p, []) := by
    rw [hr, leaveHandler]
    split
    · rename_i hdsm
      exact Or.inl ⟨hdsm, rfl⟩
    · exact Or.inr rfl
  have hfields : r.1.nodeList = p.nodeList ∧ r.1.nbNodees = p.nbNodees ∧ r.1.inDsm = p.inDsm ∧
      r.1.acked = p.acked ∧ r.1.handlers = p.handlers ∧ r.1.leave = p.leave ∧
      ∀ m ∈ r.2, m.ofLeave = true := by
    rcases hcases with ⟨-, heq⟩ | heq <;> rw [heq] <;> simp [Msg.ofLeave]
  obtain ⟨hf1, hf2, hf3, hf4, hf5, hf6, hf7⟩ := hfields
  have hmove := move_of_eq (S := S) (i := d) (h.local_ d p hd) [m] ⟨hf1, hf2, hf3, hf4, hf5⟩
    (by simpa using hleave) hf7
  rw [← hd] at hmove
  have hnodel : (s.fire d (s.msgs.erase m) (started r)).node l = s.node l :=
    Network.fire_node_ne _ _ _ hdl.symm
  refine ⟨?_, ?_, ?_, ?_, ?_, ?_⟩
  · refine inv_fire h.toInv hperm hmove.1 (hcs_of_imp hd ?_) (news_fire h.toInv hperm hmove.2)
    simp only [inCS, hf5, hf6]
    exact id
  · rw [hnodel]
    exact ⟨pl, hpl, hdsm, hstage⟩
  · intro i hi q hq
    by_cases hid : i = d
    · subst hid
      rw [Network.fire_node_self] at hq
      cases hq
      rw [hf6]
      exact h.others i hi p hd
    · rw [Network.fire_node_ne _ _ _ hid] at hq
      exact h.others i hi q hq
  · intro i q hq x hx
    by_cases hid : i = d
    · subst hid
      rw [Network.fire_node_self] at hq
      cases hq
      rcases hcases with ⟨hdsm', heq⟩ | heq
      · rw [heq] at hx ⊢
        rcases List.mem_cons.mp hx with rfl | hx
        · exact ⟨rfl, hdl, hdsm'⟩
        · exact h.removing i p hd x hx
      · rw [heq] at hx ⊢
        exact h.removing i p hd x hx
    · rw [Network.fire_node_ne _ _ _ hid] at hq
      exact h.removing i q hq x hx
  · intro m' hm'
    rcases List.mem_append.mp hm' with hm' | hm'
    · exact leaveMsg_of_false (hothers m' hm')
    · rcases hcases with ⟨-, heq⟩ | heq
      · simp only [started, heq, List.mem_singleton] at hm'
        subst hm'
        refine ⟨rfl, ?_, Or.inr ⟨r.1, ?_, (l, locks), ?_, rfl⟩⟩
        · rw [hnodel]
          exact hawaited
        · rw [Network.fire_node_self]
          rfl
        · rw [heq]
          exact List.mem_cons_self
      · simp [started, heq] at hm'
  · have hw := Network.weight_fire (dtCvAt l) leaveMsg (i := d) hperm (started r)
    have h2 := h.single
    have h3 : (r.2.map leaveMsg).sum ≤ 1 := by
      rcases hcases with ⟨-, heq⟩ | heq <;> rw [heq] <;> simp [leaveMsg, Msg.ofLeave]
    rw [hd] at hw
    simp only [started, dtCvAt, if_neg hdl, List.map_cons, List.map_nil, List.sum_cons,
      List.sum_nil, Nat.add_zero] at hw
    have h4 : leaveMsg m = 1 := by simp [leaveMsg, hleave]
    simp only [started]
    omega

/-- The leaver handles an acknowledgement of a node that has removed it. -/
theorem leaveInv_ack (h : LeaveInv S l newOwner gone s) {c : Node}
    (hm : Msg.ackRecvPage l c ∈ s.msgs) {p : Peer Node} (hl : s.node l = some p)
    (hok : ackAfterRemoval s (.deliver (.ackRecvPage l c)) = true) :
    LeaveInv S l newOwner gone (s.fire l (s.msgs.erase (.ackRecvPage l c))
      (started (ackRecvPageHandler p, []))) := by
  obtain ⟨hothers, hcv⟩ := h.single_msg hm rfl
  have hperm := Network.perm_deliver hm
  obtain ⟨pl, hpl, hdsm, hcs, hstage⟩ := h.inside
  rw [hl] at hpl
  cases hpl
  obtain ⟨-, hawaited, hremoved⟩ := h.leaveMsgs _ hm
  have hgone : c ∈ gone := by
    rcases hremoved with hg | ⟨q, hq, x, hx, hxl⟩
    · exact hg
    · simp only [ackAfterRemoval] at hok
      rw [hq] at hok
      simp only [Option.all_some, List.all_eq_true] at hok
      have hne := hok x hx
      simp [hxl] at hne
  have hmove : Move S l (some p) [.ackRecvPage l c] (some (ackRecvPageHandler p)) [] ∧
      NewsMove l (some p) [.ackRecvPage l c] (some (ackRecvPageHandler p)) [] :=
    move_of_eq (h.local_ l p hl) _ ⟨rfl, rfl, rfl, rfl, rfl⟩ (by simp [Msg.ofLeave]) (by simp)
  rw [← hl] at hmove
  refine ⟨?_, ?_, ?_, ?_, ?_, ?_⟩
  · exact inv_fire h.toInv hperm hmove.1 (hcs_of_imp hl id) (news_fire h.toInv hperm hmove.2)
  · rw [Network.fire_node_self]
    refine ⟨_, rfl, hdsm, ?_⟩
    rw [hl] at hawaited
    simp only [Option.bind_some, awaited] at hawaited
    unfold LeaveStage at hstage ⊢
    simp only [ackRecvPageHandler]
    split at hstage
    · rename_i o hleave
      rw [hleave] at hawaited
      cases hawaited
      exact ⟨hstage.1, fun _ => hstage.1 ▸ hgone⟩
    · rename_i o n rest hleave
      rw [hleave] at hawaited
      cases hawaited
      exact ⟨hstage.1, hstage.2.1, hstage.2.2.1, fun _ => hgone, hstage.2.2.2.2⟩
    · rename_i hleave
      rw [hleave] at hawaited
      cases hawaited
    · exact hstage.elim
  · intro i hi q hq
    rw [Network.fire_node_ne _ _ _ hi] at hq
    exact h.others i hi q hq
  · intro i q hq x hx
    by_cases hi : i = l
    · subst hi
      rw [Network.fire_node_self] at hq
      cases hq
      exact h.removing i p hl x hx
    · rw [Network.fire_node_ne _ _ _ hi] at hq
      exact h.removing i q hq x hx
  · intro m' hm'
    rcases List.mem_append.mp hm' with hm' | hm'
    · exact leaveMsg_of_false (hothers m' hm')
    · cases hm'
  · have hw := Network.weight_fire (dtCvAt l) leaveMsg (i := l) hperm
      (started (ackRecvPageHandler p, []))
    have h2 := h.single
    rw [hl] at hw
    have hack : leaveMsg (Msg.ackRecvPage l c : Msg Node) = 1 := rfl
    simp only [started, dtCvAt, if_true, ackRecvPageHandler, hcv p hl, Bool.toNat_true,
      Bool.toNat_false, List.map_cons, List.map_nil, List.sum_cons, List.sum_nil, Nat.add_zero,
      hack] at hw
    simp only [started, ackRecvPageHandler]
    omega

/-- A node removes the leaver. -/
theorem leaveInv_remove (h : LeaveInv S l newOwner gone s) {i : Node} {p p' : Peer Node}
    (hi : s.node i = some p) {x : Node × Bool} (hr : removeLeaver p x = some p') :
    LeaveInv S l newOwner (insert i gone) (s.fire i s.msgs (started (p', []))) := by
  obtain ⟨pl, hpl, hdsm, hcs, hstage⟩ := h.inside
  unfold removeLeaver at hr
  split at hr
  · rename_i hcond
    cases hr
    obtain ⟨hxl, hil, hidsm⟩ := h.removing i p hi x hcond.1
    have hnodel : ∀ r, (s.fire i s.msgs r).node l = s.node l := fun r =>
      Network.fire_node_ne _ _ _ hil.symm
    have hfields : ∀ q : Peer Node, (removeNode q x.1).leave = q.leave ∧
        (removeNode q x.1).removing = q.removing ∧ (removeNode q x.1).inDsm = q.inDsm := by
      intro q
      unfold removeNode
      split <;> exact ⟨rfl, rfl, rfl⟩
    refine ⟨?_, ?_, ?_, ?_, ?_, ?_⟩
    · rw [hxl]
      exact inv_removeNode h.toInv hil hi hidsm hpl hcs hdsm _
    · rw [hnodel]
      refine ⟨pl, hpl, hdsm, ?_⟩
      have hmono : ∀ b, b ∈ gone → b ∈ insert i gone := fun b hb => Finset.mem_insert_of_mem hb
      unfold LeaveStage at hstage ⊢
      split at hstage
      · exact ⟨hstage.1, fun hcv => hmono _ (hstage.2 hcv)⟩
      · exact ⟨hstage.1, hmono _ hstage.2.1, hstage.2.2.1, fun hcv => hmono _ (hstage.2.2.2.1 hcv),
          fun b hb hbl => (hstage.2.2.2.2 b hb hbl).imp_left (hmono b)⟩
      · exact fun b hb hbl => hmono b (hstage b hb hbl)
      · exact hstage.elim
    · intro k hk q hq
      by_cases hki : k = i
      · subst hki
        rw [Network.fire_node_self] at hq
        cases hq
        rw [(hfields _).1]
        exact h.others k hk p hi
      · rw [Network.fire_node_ne _ _ _ hki] at hq
        exact h.others k hk q hq
    · intro k q hq y hy
      by_cases hki : k = i
      · subst hki
        rw [Network.fire_node_self] at hq
        cases hq
        rw [(hfields _).2.1] at hy
        rw [(hfields _).2.2]
        exact h.removing k p hi y (List.mem_of_mem_erase hy)
      · rw [Network.fire_node_ne _ _ _ hki] at hq
        exact h.removing k q hq y hy
    · intro m hm
      rcases List.mem_append.mp hm with hm | hm
      · have hmsg := h.leaveMsgs m hm
        cases m with
        | recvPageLeave d c =>
          rw [LeaveMsg, hnodel]
          exact hmsg
        | dtLeave d c o =>
          rw [LeaveMsg, hnodel]
          exact hmsg
        | ackRecvPage d c =>
          obtain ⟨h1, h2, h3⟩ := hmsg
          refine ⟨h1, ?_, ?_⟩
          · rw [hnodel]
            exact h2
          · by_cases hci : c = i
            · subst hci
              exact Or.inl (Finset.mem_insert_self c gone)
            · rw [Network.fire_node_ne _ _ _ hci]
              exact h3.imp_left Finset.mem_insert_of_mem
        | _ => trivial
      · cases hm
    · have hw := Network.weight_fire (dtCvAt l) leaveMsg (i := i) (Network.perm_act s.msgs)
        (started (removeNode { p with removing := p.removing.erase x } x.1, []))
      have h2 := h.single
      rw [hi] at hw
      simp only [started, dtCvAt, if_neg hil, List.map_nil, List.sum_nil, Nat.add_zero] at hw
      simp only [started]
      omega
  · cases hr

/-- Every step of a leave that meets the two conditions. -/
theorem leaveInv_step {e : Event Node} (h : LeaveInv S l newOwner gone s) (hok : stepOk s e)
    (hack : ackAfterRemoval s e = true) (hjoin : joinBeforeBroadcast s e = true)
    (hstep : step s e = some s') : ∃ S' gone', LeaveInv S' l newOwner gone' s' := by
  obtain ⟨pl, hpl, hdsm, hcs, hstage⟩ := h.inside
  rcases Network.step_cases hstep with ⟨i, a, r, rfl, hr, rfl⟩ | ⟨m, r, rfl, hm, hr, rfl⟩
  · rcases act_eq_some hr with ⟨contact, hi, rfl, rfl⟩ | ⟨p, r', hi, hr', rfl⟩
    · refine ⟨S, gone, leaveInv_of_join h (Network.perm_act s.msgs) (inv_joinDSM h.toInv hi contact)
        (Or.inl rfl) ?_ (fun _ => ⟨rfl, rfl⟩) (by simp) (by simp [joinDSM, Msg.ofLeave])⟩
      intro p hp
      rw [hi] at hp
      cases hp
    · cases a with
      | joinDSM contact => cases hr'
      | resume x =>
        simp only [peerAct] at hr'
        split at hr'
        · rename_i hx
          -- a handler that takes `umtx` is one of the leaver
          have hlock : x.stage = .lockUmtx → i = l := by
            intro hx'
            refine h.cs i l p hi pl hpl ?_ hcs
            simp only [inCS, Bool.or_eq_true, List.any_eq_true]
            exact Or.inl ⟨x, hx, by simp [Handler.inside, hx']⟩
          obtain ⟨S', hinv, hsub, hsame⟩ := inv_resume h.toInv hi hx hok
            (fun hx' => Or.inr (hlock hx')) hr'
          obtain ⟨h1, h2, h4, h5, h3⟩ := joinDSMHandler_leave hr'
          refine ⟨S', gone, leaveInv_of_join h (Network.perm_act s.msgs) hinv ?_ ?_ ?_ (by simp) h3⟩
          · by_cases hx' : x.stage = .lockUmtx
            · right
              obtain rfl := hlock hx'
              rw [hpl] at hi
              cases hi
              obtain ⟨j, stage⟩ := x
              cases hx'
              simp only [joinBeforeBroadcast, hpl, Option.all_some] at hjoin
              split at hjoin
              · rename_i hleave
                simp [LeaveStage, hleave] at hstage
              · rename_i o hleave
                exact ⟨pl, o, hpl, hleave⟩
              · cases hjoin
            · exact Or.inl (hsame hx')
          · intro p' hp'
            rw [hi] at hp'
            cases hp'
            refine ⟨h1, h2, ?_, fun _ => h5⟩
            rw [h4]
            exact id
          · intro hnone
            rw [hi] at hnone
            cases hnone
        · cases hr'
      | leaveDataTransfer o =>
        exfalso
        by_cases hil : i = l
        · subst hil
          rw [hpl] at hi
          cases hi
          simp only [peerAct, leaveDataTransfer] at hr'
          split at hr'
          · rename_i hcond
            simp [LeaveStage, hcond.2] at hstage
          · cases hr'
        · have hall := hok l (Ne.symm hil)
          rw [hpl] at hall
          simp [hcs] at hall
      | leaveResume =>
        by_cases hil : i = l
        · subst hil
          exact ⟨S, gone, leaveInv_resume h hi hr'⟩
        · have hnone := h.others i hil p hi
          simp [peerAct, leaveResume, hnone] at hr'
      | removeLeaver x =>
        obtain ⟨p', hp', rfl⟩ := Option.map_eq_some_iff.mp hr'
        exact ⟨S, insert i gone, leaveInv_remove h hi hp'⟩
  · change (s.node m.dest).bind _ = some r at hr
    obtain ⟨p, hi, hr⟩ := Option.bind_eq_some_iff.mp hr
    obtain ⟨r', hr', rfl⟩ := Option.map_eq_some_iff.mp hr
    cases hleave : m.ofLeave with
    | false =>
      obtain ⟨h1, h2, h4, h5, h3⟩ := peerHandle_leave hleave hr'
      refine ⟨S, gone, leaveInv_of_join h (Network.perm_deliver hm)
        (inv_deliver h.toInv hm hleave hi hr') (Or.inl rfl) ?_ ?_ (by simpa using hleave) h3⟩
      · intro p' hp'
        change s.node m.dest = some p' at hp'
        rw [hi] at hp'
        cases hp'
        refine ⟨h1, h2, h4, ?_⟩
        intro hml
        apply h5
        rintro d c k nodes rfl
        change d = l at hml
        subst hml
        exact (h.mem_of_inDsm hpl hdsm).2 c k nodes hm
      · intro hnone
        change s.node m.dest = none at hnone
        rw [hi] at hnone
        cases hnone
    | true =>
      have hmsg := h.leaveMsgs m hm
      cases m with
      | recvPageLeave d c =>
        cases hr'
        obtain ⟨rfl, hdl, hawaited⟩ := hmsg
        exact ⟨S, gone, leaveInv_handler h hm hi hdl hawaited rfl false⟩
      | dtLeave d c o =>
        cases hr'
        obtain ⟨rfl, hdl, hawaited⟩ := hmsg
        exact ⟨S, gone, leaveInv_handler h hm hi hdl hawaited rfl true⟩
      | ackRecvPage d c =>
        cases hr'
        obtain ⟨rfl, -, -⟩ := hmsg
        exact ⟨S, gone, leaveInv_ack h hm hi hack⟩
      | _ => cases hleave

end Steps

/-! ## Runs -/

section Run

variable [Fintype Node] {s t : Net Node}

/-- The leaver is forgotten: after any joins, the node `l` leaves. In every run from there in which
`l` handles an acknowledgement only after its sender has removed `l`, and no handler of `JOIN_DSM`
takes `umtx` at `l` after the broadcast has begun, once `leave_data_transfer` has returned no other
member has `l` in its list. -/
theorem leaver_forgotten {first l newOwner : Node} {es₀ es : List (Event Node)}
    (hrun₀ : Network.run step (initNet first) es₀ = some s)
    (hok₀ : Network.Meets step (fun s e => stepOk s e ∧ noLeave e = true) (initNet first) es₀)
    {p : Peer Node} (hl : s.node l = some p) (hN : newOwner ∈ p.nodeList)
    (hrun : Network.run step s (.act l (.leaveDataTransfer newOwner) :: es) = some t)
    (hok : Network.Meets step
      (fun s e => stepOk s e ∧ ackAfterRemoval s e = true ∧ joinBeforeBroadcast s e = true) s
      (.act l (.leaveDataTransfer newOwner) :: es))
    {q : Peer Node} (hq : t.node l = some q) (hret : q.leave = some .returned) :
    ∀ i, i ≠ l → ∀ r ∈ t.node i, r.inDsm = true → l ∉ r.nodeList := by
  obtain ⟨⟨S, hinv⟩, hstays⟩ := inv_run hrun₀ hok₀ l
  obtain ⟨s₁, hstart, hrun₁⟩ := Network.run_cons_eq_some.mp hrun
  have h₁ : LeaveInv S l newOwner ∅ s₁ := by
    obtain ⟨r, hr, rfl⟩ := Option.map_eq_some_iff.mp hstart
    change act l (s.node l) _ = some r at hr
    rw [hl] at hr
    obtain ⟨r', hr', rfl⟩ := Option.map_eq_some_iff.mp hr
    exact leaveInv_start hinv hstays hl hN hok.1.1 hr'
  have ht : ∃ S gone, LeaveInv S l newOwner gone t := by
    refine Network.run_invariant (P := fun s => ∃ S gone, LeaveInv S l newOwner gone s) ?_
      ⟨S, ∅, h₁⟩ (hok.2 s₁ hstart) hrun₁
    rintro s e s' ⟨S, gone, h⟩ ⟨hok, hack, hjoin⟩ hstep
    exact leaveInv_step h hok hack hjoin hstep
  obtain ⟨S', gone, h⟩ := ht
  obtain ⟨p', hp', -, -, hstage⟩ := h.inside
  rw [hq] at hp'
  cases hp'
  simp only [LeaveStage, hret] at hstage
  intro i hil r hr hdsm
  -- the entries of a member that has removed `l` are all accounted for
  have hiS := (h.mem_of_inDsm hr hdsm).1
  have hpair := h.pair i l
  have hle := Network.le_weight_node (entriesAt i l) (entriesMsg i l) t i
  rw [if_pos ⟨rfl, hstage i hiS hil⟩] at hpair
  have htarget : target S' (t.weight (contactAt i l) (contactMsg i l)) i l ≤ 1 := by
    unfold target
    rw [if_pos hiS]
    split <;> omega
  rw [hr] at hle
  simp only [entriesAt, if_true] at hle
  rw [← List.count_eq_zero]
  omega

end Run

/-! ## Leaves of two and three nodes -/

/-- The node `b` joins through `a`. -/
def joinRun (a b : Node) : List (Event Node) :=
  [.act b (.joinDSM a), .deliver (.joinDSM a b), .act a (.resume ⟨b, .waitInDsm⟩),
    .act a (.resume ⟨b, .requestCS⟩), .act a (.resume ⟨b, .lockUmtx⟩),
    .act a (.resume ⟨b, .adding⟩), .act a (.resume ⟨b, .releaseCS⟩), .deliver (.infoDSM b a 0 [])]

/-- The node `b` leaves: it serves the join of `c`, waits until `a` has removed it, and tells `c` in
`DT_LEAVE`. -/
def leaveRun (a b c : Node) : List (Event Node) :=
  [.act c (.joinDSM b), .deliver (.joinDSM b c), .act b (.resume ⟨c, .waitInDsm⟩),
    .act b (.resume ⟨c, .requestCS⟩), .act b (.resume ⟨c, .lockUmtx⟩), .deliver (.newNode a b c),
    .deliver (.ackNode b a), .act b (.resume ⟨c, .waitAcked []⟩), .act b (.resume ⟨c, .adding⟩),
    .act b (.resume ⟨c, .releaseCS⟩), .deliver (.infoDSM c b 1 [a]), .deliver (.recvPageLeave a b),
    .act a (.removeLeaver (b, false)), .deliver (.ackRecvPage b a), .act b .leaveResume,
    .deliver (.dtLeave c b a), .act c (.removeLeaver (b, true)), .deliver (.ackRecvPage b c),
    .act b .leaveResume]

theorem leaver_forgotten_leaveRun :
    ∃ s t p, Network.run step (initNet 0) (joinRun (0 : Fin 3) 1) = some s ∧
      Network.run step s (.act 1 (.leaveDataTransfer 0) :: leaveRun (0 : Fin 3) 1 2) = some t ∧
      t.node 2 = some p ∧ p.inDsm = true ∧ p.nodeList = [0] ∧
      ∀ i, i ≠ 1 → ∀ r ∈ t.node i, r.inDsm = true → 1 ∉ r.nodeList := by
  have hrun₀ : Network.run step (initNet 0) (joinRun (0 : Fin 3) 1) = some _ := rfl
  refine ⟨_, _, _, hrun₀, rfl, rfl, rfl, rfl, ?_⟩
  refine @leaver_forgotten (Fin 3) _ _ _ ?t 0 1 0 _ (leaveRun 0 1 2) hrun₀ ?_ _ rfl ?_ ?run ?_ ?q
    ?leaver ?_
  case run => exact rfl
  case leaver => exact rfl
  all_goals first | rfl | decide

/-- The node `b` handles the acknowledgement before `a` has removed it. -/
def ackRun (a b : Node) : List (Event Node) :=
  [.deliver (.recvPageLeave a b), .deliver (.ackRecvPage b a), .act b .leaveResume]

/-- `leave_data_transfer` has returned, and `a` still has `b` in its list. -/
theorem leaver_remembered :
    ∃ s t p q, Network.run step (initNet 0) (joinRun (0 : Fin 2) 1) = some s ∧
      Network.Meets step (fun s e => stepOk s e ∧ noLeave e = true) (initNet 0)
        (joinRun (0 : Fin 2) 1) ∧
      Network.run step s (.act 1 (.leaveDataTransfer 0) :: ackRun (0 : Fin 2) 1) = some t ∧
      Network.Meets step stepOk s (.act 1 (.leaveDataTransfer 0) :: ackRun (0 : Fin 2) 1) ∧
      t.node 1 = some q ∧ q.leave = some .returned ∧
      t.node 0 = some p ∧ p.inDsm = true ∧ 1 ∈ p.nodeList := by
  exact ⟨_, _, _, _, rfl, by decide, rfl, by decide, rfl, rfl, rfl, rfl, by decide⟩

/-- The node `c` joins through `b` while `b` leaves: its handler is inside the critical section
before the broadcast and takes `umtx` after it. -/
def lateJoinRun (a b c : Node) : List (Event Node) :=
  [.act c (.joinDSM b), .deliver (.joinDSM b c), .act b (.resume ⟨c, .waitInDsm⟩),
    .act b (.resume ⟨c, .requestCS⟩), .deliver (.recvPageLeave a b),
    .act a (.removeLeaver (b, false)), .deliver (.ackRecvPage b a), .act b .leaveResume,
    .act b (.resume ⟨c, .lockUmtx⟩), .deliver (.newNode a b c), .deliver (.ackNode b a),
    .act b (.resume ⟨c, .waitAcked []⟩), .deliver (.infoDSM c b 1 [a])]

/-- The new member has the leaver in its list, although every acknowledgement was handled after the
removal. -/
theorem late_joiner_remembers :
    ∃ s t p q, Network.run step (initNet 0) (joinRun (0 : Fin 3) 1) = some s ∧
      Network.run step s (.act 1 (.leaveDataTransfer 0) :: lateJoinRun (0 : Fin 3) 1 2) = some t ∧
      Network.Meets step (fun s e => stepOk s e ∧ ackAfterRemoval s e = true) s
        (.act 1 (.leaveDataTransfer 0) :: lateJoinRun (0 : Fin 3) 1 2) ∧
      t.node 1 = some q ∧ q.leave = some .returned ∧
      t.node 2 = some p ∧ p.inDsm = true ∧ 1 ∈ p.nodeList := by
  exact ⟨_, _, _, _, rfl, rfl, by decide, rfl, rfl, rfl, rfl, by decide⟩

end Membership
