import Psar.DataTransfer.Proofs.TransferProofs

/-!
# Proofs: handing the pages over

The leave hands over the pages at one node after the other, and one message, handler or
acknowledgement of the leave is under way at a time.
-/

namespace PageTransfer

variable {Node Page C : Type}

/-! ## Steps of the leave -/

section Leave

variable {l newOwner : Node} {ow : Page → Node} {c₀ : Page → C} {nodes : List Node}
  {acked acked' : Node → Prop} {s s' : Net Node Page C}

theorem Done.mono {n : Node} (h : Done l newOwner ow acked s n)
    (hmono : ∀ n q, Handed newOwner s n q → Handed newOwner s' n q)
    (hacked : ∀ n, acked n → acked' n) : Done l newOwner ow acked' s' n :=
  ⟨fun q hq => hmono n q (h.1 q hq), hacked n h.2⟩

theorem Todo.mono {n : Node} {todo : List (Page × Option C)} (h : Todo l newOwner ow c₀ s n todo)
    (hmono : ∀ n q, Handed newOwner s n q → Handed newOwner s' n q) :
    Todo l newOwner ow c₀ s' n todo :=
  ⟨h.1, fun q hq => (h.2 q hq).imp_left (hmono n q)⟩

theorem LeaveStage.mono {done done' : Node → Prop} {p p' : Peer Node Page C}
    (h : LeaveStage l newOwner ow nodes done p) (hdone : ∀ n, done n → done' n)
    (hleave : p'.leave = p.leave) (hcv : p'.dtCv = p.dtCv) (hask : p'.askOn = p.askOn) :
    LeaveStage l newOwner ow nodes done' p' := by
  unfold LeaveStage at h ⊢
  rw [hleave, hcv, hask]
  split at h
  · trivial
  · exact h
  · exact h
  · obtain ⟨h1, h2, h3, h4⟩ := h
    exact ⟨h1, h2, h3, fun hcv => hdone _ (h4 hcv)⟩
  · obtain ⟨h1, h2, h3, h4, h5, h6, h7, h8, h9⟩ := h
    exact ⟨h1, h2, h3, hdone _ h4, h5, h6, h7, fun hcv => hdone _ (h8 hcv),
      fun b hb => (h9 b hb).imp_left (hdone b)⟩
  · obtain ⟨h1, h2, h3⟩ := h
    exact ⟨h1, hdone _ h2, fun b hb => hdone b (h3 b hb)⟩

theorem LeaveMsg.mono {done done' : Node → Prop} {m : Msg Node Page C}
    (h : LeaveMsg l newOwner ow c₀ done s m) (hdone : ∀ n, done n → done' n)
    (hmono : ∀ n q, Handed newOwner s n q → Handed newOwner s' n q)
    (hawaited : awaited (s'.node l) = awaited (s.node l)) :
    LeaveMsg l newOwner ow c₀ done' s' m := by
  cases m with
  | recvPageLeave d sender o given =>
    obtain ⟨h1, h2, h3, h4, h5⟩ := h
    exact ⟨h1, h2, h3, hawaited.trans h4, h5.mono hmono⟩
  | dtLeave d sender o given =>
    obtain ⟨h1, h2, h3, h4, h5⟩ := h
    exact ⟨h1, h2, h3, hawaited.trans h4, h5.mono hmono⟩
  | ackRecvPage d sender =>
    obtain ⟨h1, h2, h3⟩ := h
    exact ⟨h1, hawaited.trans h2, hdone _ h3⟩
  | _ => trivial

theorem leaveMsg_of_not_ofLeave {done : Node → Prop} {m : Msg Node Page C}
    (h : m.ofLeave = false) : LeaveMsg l newOwner ow c₀ done s m := by
  cases m with
  | recvPageLeave d sender o given => cases h
  | dtLeave d sender o given => cases h
  | ackRecvPage d sender => cases h
  | _ => trivial

theorem sum_leaveMsg_of_not_ofLeave {out : List (Msg Node Page C)}
    (h : ∀ m ∈ out, m.ofLeave = false) : (out.map leaveMsg).sum = 0 := by
  apply List.sum_eq_zero
  intro k hk
  obtain ⟨m, hm, rfl⟩ := List.mem_map.mp hk
  simp [leaveMsg, h m hm]

/-- While `l` waits for `n`, it takes no requests, and the new owner is done or is `n`. -/
theorem LeaveStage.of_awaited {done : Node → Prop} {p : Peer Node Page C}
    (h : LeaveStage l newOwner ow nodes done p) {n : Node} (hn : awaited p = some n) :
    p.askOn = false ∧ (n = newOwner ∨ done newOwner) := by
  unfold awaited at hn
  unfold LeaveStage at h
  cases hleave : p.leave with
  | none => simp [hleave] at hn
  | some stage =>
    rw [hleave] at h hn
    cases stage with
    | waitOwner o owned =>
      cases hn
      exact ⟨h.2.1, Or.inl h.1⟩
    | waitNode o owned n' rest => exact ⟨h.2.1, Or.inr h.2.2.2.1⟩
    | _ => cases hn

variable [DecidableEq Node] [DecidableEq Page] [Fintype Node] {i : Node}
  {ms rest : List (Msg Node Page C)} {r : Peer Node Page C × List (Msg Node Page C)}

/-- A step that leaves `leave_data_transfer` where it is. -/
theorem handoverInv_fire (h : HandoverInv l newOwner ow c₀ nodes acked s) (hne : newOwner ≠ l)
    (hacked : ∀ n, acked n → acked' n) (hp : s.msgs.Perm (ms ++ rest))
    (hr : TransferMove l newOwner ow c₀ s i ms r)
    (hl : i = l → r.1.leave = (s.node l).leave ∧ r.1.dtCv = (s.node l).dtCv ∧
      r.1.askOn = (s.node l).askOn ∧ r.1.nodeList = (s.node l).nodeList)
    (hhands : ∀ x ∈ r.1.hands, x ∈ (s.node i).hands ∨ (i ≠ l ∧ x.leaver = l ∧
      x.newOwner = newOwner ∧ awaited (s.node l) = some i ∧
      Todo l newOwner ow c₀ (s.fire i rest r) i x.todo))
    (hout : ∀ m ∈ r.2, awaited ((s.fire i rest r).node l) = awaited (s.node l) →
      LeaveMsg l newOwner ow c₀ (Done l newOwner ow acked' (s.fire i rest r)) (s.fire i rest r) m)
    (hcount : r.1.hands.length + (r.2.map leaveMsg).sum ≤
      (s.node i).hands.length + (ms.map leaveMsg).sum) :
    HandoverInv l newOwner ow c₀ nodes acked' (s.fire i rest r) := by
  have hmono : ∀ n q, Handed newOwner s n q → Handed newOwner (s.fire i rest r) n q :=
    fun n q => handed_fire hr
  have hdone : ∀ n, Done l newOwner ow acked s n →
      Done l newOwner ow acked' (s.fire i rest r) n := fun n hn => hn.mono hmono hacked
  have hnode : ((s.fire i rest r).node l).leave = (s.node l).leave ∧
      ((s.fire i rest r).node l).dtCv = (s.node l).dtCv ∧
      ((s.fire i rest r).node l).askOn = (s.node l).askOn ∧
      ((s.fire i rest r).node l).nodeList = (s.node l).nodeList := by
    by_cases hi : l = i
    · subst hi
      rw [Network.fire_node_self]
      exact hl rfl
    · rw [Network.fire_node_ne _ _ _ hi]
      exact ⟨rfl, rfl, rfl, rfl⟩
  have hawaited : awaited ((s.fire i rest r).node l) = awaited (s.node l) := by
    unfold awaited
    rw [hnode.1]
  refine ⟨transferInv_fire h.toTransferInv hne hp hr, ?_, hnode.2.2.2.trans h.list, ?_, ?_, ?_⟩
  · exact h.stage.mono hdone hnode.1 hnode.2.1 hnode.2.2.1
  · intro n x hx
    rw [hawaited]
    -- the handlers of the other nodes, and the old ones of `i`
    have hold : x ∈ (s.node n).hands → n ≠ l ∧ x.leaver = l ∧ x.newOwner = newOwner ∧
        awaited (s.node l) = some n ∧ Todo l newOwner ow c₀ (s.fire i rest r) n x.todo := by
      intro hx
      obtain ⟨h1, h2, h3, h4, h5⟩ := h.hands n x hx
      exact ⟨h1, h2, h3, h4, h5.mono hmono⟩
    by_cases hi : n = i
    · subst hi
      rw [Network.fire_node_self] at hx
      exact (hhands x hx).elim hold id
    · rw [Network.fire_node_ne _ _ _ hi] at hx
      exact hold hx
  · refine Network.forall_msgs_fire ?_ hp (fun m hm => hout m hm hawaited)
    intro m hm
    exact (h.leaveMsgs m hm).mono hdone hmono hawaited
  · have hw := Network.weight_fire (leaveAt l) leaveMsg (i := i) hp r
    have hbit : (if i = l ∧ (awaited r.1).isSome then r.1.dtCv.toNat else 0) =
        if i = l ∧ (awaited (s.node i)).isSome then (s.node i).dtCv.toNat else 0 := by
      by_cases hi : i = l
      · subst hi
        unfold awaited
        rw [(hl rfl).1, (hl rfl).2.1]
      · rw [if_neg (fun hc => hi hc.1), if_neg (fun hc => hi hc.1)]
    have h1 := h.single
    simp only [leaveAt, hbit] at hw ⊢
    omega

/-- A step of the transfer: it does not touch the leave. -/
theorem handoverInv_transfer (h : HandoverInv l newOwner ow c₀ nodes acked s) (hne : newOwner ≠ l)
    (hacked : ∀ n, acked n → acked' n) (hp : s.msgs.Perm (ms ++ rest))
    (hr : TransferMove l newOwner ow c₀ s i ms r)
    (hl : i = l → r.1.leave = (s.node l).leave ∧ r.1.dtCv = (s.node l).dtCv ∧
      r.1.askOn = (s.node l).askOn ∧ r.1.nodeList = (s.node l).nodeList)
    (hhands : r.1.hands = (s.node i).hands) (hout : ∀ m ∈ r.2, m.ofLeave = false) :
    HandoverInv l newOwner ow c₀ nodes acked' (s.fire i rest r) := by
  refine handoverInv_fire h hne hacked hp hr hl ?_ ?_ ?_
  · intro x hx
    rw [hhands] at hx
    exact Or.inl hx
  · intro m hm _
    exact leaveMsg_of_not_ofLeave (hout m hm)
  · rw [hhands, sum_leaveMsg_of_not_ofLeave hout]
    omega

variable [DecidableEq C]

/-- A handler of the leave starts. -/
theorem handoverInv_hand (h : HandoverInv l newOwner ow c₀ nodes acked s) (hne : newOwner ≠ l)
    (hacked : ∀ n, acked n → acked' n) {m : Msg Node Page C} (hm : m ∈ s.msgs) (hi : m.dest = i)
    (hleave : m.ofLeave = true) (hil : i ≠ l) (hawaited : awaited (s.node l) = some i)
    {todo : List (Page × Option C)} (htodo : Todo l newOwner ow c₀ s i todo) :
    HandoverInv l newOwner ow c₀ nodes acked' (s.fire i (s.msgs.erase m)
      ({ s.node i with hands := ⟨l, newOwner, todo⟩ :: (s.node i).hands }, [])) := by
  have hmove : TransferMove l newOwner ow c₀ s i [m]
      ({ s.node i with hands := ⟨l, newOwner, todo⟩ :: (s.node i).hands }, []) :=
    h.frame (fun _ => ⟨rfl, rfl, rfl⟩) rfl (by simp [hi, hleave]) (by simp) id
      fun _ => ⟨rfl, rfl, rfl⟩
  refine handoverInv_fire h hne hacked (Network.perm_deliver hm) hmove (fun hl => absurd hl hil)
    ?_ (by simp) ?_
  · intro x hx
    rcases List.mem_cons.mp hx with rfl | hx
    · exact Or.inr ⟨hil, rfl, rfl, hawaited, htodo.mono fun n q => handed_fire hmove⟩
    · exact Or.inl hx
  · simp [leaveMsg, hleave]

theorem handoverInv_handPage (h : HandoverInv l newOwner ow c₀ nodes acked s)
    (hne : newOwner ≠ l) (hacked : ∀ n, acked n → acked' n) {x : Hand Node Page C}
    (hok : repliesSettled l s (.act i (.handPage x)) = true)
    (hr : handPage i (s.node i) x = some r) :
    HandoverInv l newOwner ow c₀ nodes acked' (s.fire i s.msgs r) := by
  cases htodo : x.todo with
  | nil => simp [handPage, htodo] at hr
  | cons y todo =>
    obtain ⟨q, page⟩ := y
    have hx : x ∈ (s.node i).hands := by
      by_contra hx
      simp [handPage, htodo, hx] at hr
    obtain ⟨hil, hleaver, hnew, hawaited, hpages, hrest⟩ := h.hands i x hx
    rw [htodo] at hpages hrest
    obtain ⟨hq, hpage⟩ := hpages (q, page) List.mem_cons_self
    obtain ⟨hoff, hfirst⟩ := h.stage.of_awaited hawaited
    have hover : HandsOver l newOwner ow s i q := by
      refine ⟨hq, hil, hfirst.imp_right fun hdone => hdone.1 q hq, hoff, ?_⟩
      simpa [repliesSettled, htodo] using hok
    have hmove : TransferMove l newOwner ow c₀ s i [] r :=
      transferMove_handPage h.toTransferInv hnew htodo hpage hover hr
    -- the page is handed over now
    have hnow : Handed newOwner (s.fire i s.msgs r) i q ∧
        r.1.hands = { x with todo := todo } :: (s.node i).hands.erase x ∧
        ∀ m ∈ r.2, m.ofLeave = false := by
      simp only [handPage, htodo] at hr
      unfold Handed
      rw [Network.fire_node_self]
      split at hr
      · split at hr
        · cases page with
          | some page =>
            cases hr
            refine ⟨?_, rfl, by simp⟩
            show (Function.update (s.node i).entry q _ q).owner = newOwner
            rw [Function.update_self, updatePage_owner]
            exact hnew
          | none =>
            cases hr
            refine ⟨?_, rfl, ?_⟩
            · show (Function.update (s.node i).entry q _ q).owner = newOwner
              rw [Function.update_self]
              exact hnew
            · intro m hm
              dsimp only at hm
              split at hm
              · cases hm
              · rw [List.mem_singleton.mp hm]
                rfl
        · rename_i hother
          cases hr
          refine ⟨?_, rfl, by simp⟩
          rcases h.owner i q with ho | ⟨-, -, hn, -⟩
          · exact absurd (ho.trans (hq.trans hleaver.symm)) hother
          · exact hn
      · cases hr
    obtain ⟨hnow, hhands, hout⟩ := hnow
    refine handoverInv_fire h hne hacked (Network.perm_act s.msgs) hmove
      (fun hl => absurd hl hil) ?_ (fun m hm _ => leaveMsg_of_not_ofLeave (hout m hm)) ?_
    · intro y hy
      rw [hhands] at hy
      rcases List.mem_cons.mp hy with rfl | hy
      · refine Or.inr ⟨hil, hleaver, hnew, hawaited, ?_, ?_⟩
        · intro z hz
          exact hpages z (List.mem_cons_of_mem _ hz)
        · intro q' hq'
          rcases hrest q' hq' with hn | ⟨z, hz, rfl⟩
          · exact Or.inl (handed_fire hmove hn)
          · rcases List.mem_cons.mp hz with rfl | hz
            · exact Or.inl hnow
            · exact Or.inr ⟨z, hz, rfl⟩
      · exact Or.inl (List.mem_of_mem_erase hy)
    · have hpos := List.length_pos_of_mem hx
      rw [hhands, sum_leaveMsg_of_not_ofLeave hout, List.length_cons, List.length_erase_of_mem hx]
      omega

theorem handoverInv_handAck (h : HandoverInv l newOwner ow c₀ nodes acked s)
    (hne : newOwner ≠ l) (hacked : ∀ n, acked n → acked' n) {x : Hand Node Page C}
    (hack : x.leaver = l → acked' i) (hr : handAck i (s.node i) x = some r) :
    HandoverInv l newOwner ow c₀ nodes acked' (s.fire i s.msgs r) := by
  unfold handAck at hr
  split at hr
  · rename_i hcond
    obtain ⟨hx, htodo⟩ := hcond
    cases hr
    obtain ⟨hil, hleaver, -, hawaited, hdone⟩ := h.hands i x hx
    have hmove : TransferMove l newOwner ow c₀ s i [] ({ s.node i with
        hands := (s.node i).hands.erase x
        nodeList := (s.node i).nodeList.erase x.leaver }, [.ackRecvPage x.leaver i]) :=
      h.frame (fun _ => ⟨rfl, rfl, rfl⟩) rfl (by simp) (by simp [Msg.ofLeave]) id
        fun _ => ⟨rfl, rfl, rfl⟩
    refine handoverInv_fire h hne hacked (Network.perm_act s.msgs) hmove
      (fun hl => absurd hl hil) (fun y hy => Or.inl (List.mem_of_mem_erase hy)) ?_ ?_
    · intro m hm hsame
      rw [List.mem_singleton.mp hm]
      refine ⟨hleaver, hsame.trans hawaited, ?_, hack hleaver⟩
      intro q hq
      rcases hdone.2 q hq with hn | ⟨z, hz, -⟩
      · exact handed_fire hmove hn
      · rw [htodo] at hz
        cases hz
    · have hpos := List.length_pos_of_mem hx
      simp only [List.length_erase_of_mem hx, leaveMsg, Msg.ofLeave, List.map_cons, List.map_nil,
        List.sum_cons, List.sum_nil, Bool.toNat_true]
      omega
  · cases hr

/-- The leaver gets the acknowledgement that it waits for. -/
theorem handoverInv_ack (h : HandoverInv l newOwner ow c₀ nodes acked s) (hne : newOwner ≠ l)
    (hacked : ∀ n, acked n → acked' n) {n : Node} (hm : .ackRecvPage l n ∈ s.msgs) :
    HandoverInv l newOwner ow c₀ nodes acked' (s.fire l (s.msgs.erase (.ackRecvPage l n))
      ({ s.node l with dtCv := true }, [])) := by
  have hmove : TransferMove l newOwner ow c₀ s l [.ackRecvPage l n]
      ({ s.node l with dtCv := true }, []) :=
    h.frame (fun _ => ⟨rfl, rfl, rfl⟩) rfl (by simp [Msg.dest, Msg.ofLeave]) (by simp) id
      fun _ => ⟨rfl, rfl, rfl⟩
  have hp := Network.perm_deliver hm
  set s' := s.fire l (s.msgs.erase (.ackRecvPage l n)) ({ s.node l with dtCv := true }, []) with hs'
  have hmono : ∀ n q, Handed newOwner s n q → Handed newOwner s' n q := fun n q => handed_fire hmove
  have hdone : ∀ n, Done l newOwner ow acked s n → Done l newOwner ow acked' s' n :=
    fun n hn => hn.mono hmono hacked
  have hnode : s'.node l = { s.node l with dtCv := true } := Network.fire_node_self _ _ _ _
  have hawaited : awaited (s'.node l) = awaited (s.node l) := by
    rw [hnode]
    rfl
  obtain ⟨-, hwait, hack⟩ := h.leaveMsgs _ hm
  refine ⟨transferInv_fire h.toTransferInv hne hp hmove, ?_, ?_, ?_, ?_, ?_⟩
  · rw [hnode]
    have hstage := h.stage
    unfold LeaveStage at hstage ⊢
    unfold awaited at hwait
    cases hleave : (s.node l).leave with
    | none => simp [hleave] at hwait
    | some stage =>
      rw [hleave] at hwait
      rw [hleave] at hstage
      cases stage with
      | waitOwner o owned =>
        cases hwait
        obtain ⟨h1, h2, h3, -⟩ := hstage
        subst h1
        exact ⟨rfl, h2, h3, fun _ => hdone _ hack⟩
      | waitNode o owned n' rest =>
        cases hwait
        obtain ⟨h1, h2, h3, h4, h5, h6, h7, -, h9⟩ := hstage
        exact ⟨h1, h2, h3, hdone _ h4, h5, h6, h7, fun _ => hdone _ hack,
          fun b hb => (h9 b hb).imp_left (hdone b)⟩
      | _ => cases hwait
  · rw [hnode]
    exact h.list
  · intro k x hx
    rw [hawaited]
    have hhands : (s'.node k).hands = (s.node k).hands := by
      by_cases hk : k = l
      · subst hk
        rw [hnode]
      · rw [hs', Network.fire_node_ne _ _ _ hk]
    rw [hhands] at hx
    obtain ⟨h1, h2, h3, h4, h5⟩ := h.hands k x hx
    exact ⟨h1, h2, h3, h4, h5.mono hmono⟩
  · refine Network.forall_msgs_fire ?_ hp (by simp)
    intro m hm
    exact (h.leaveMsgs m hm).mono hdone hmono hawaited
  · have hw := Network.weight_fire (leaveAt l) leaveMsg (i := l) hp
      ({ s.node l with dtCv := true }, [])
    have h1 := h.single
    have hbit : ∀ p : Peer Node Page C, leaveAt l l { p with dtCv := true } ≤ leaveAt l l p + 1 := by
      intro p
      have hcv := Bool.toNat_le true
      simp only [leaveAt]
      split <;> omega
    have hbit := hbit (s.node l)
    have hone : (([.ackRecvPage l n] : List (Msg Node Page C)).map leaveMsg).sum = 1 := rfl
    rw [← hs'] at hw
    simp only [hone, List.map_nil, List.sum_nil] at hw
    omega

/-- Nothing of the leave is under way. -/
def Resting (s : Net Node Page C) : Prop :=
  (∀ n, (s.node n).hands = []) ∧ ∀ m ∈ s.msgs, m.ofLeave = false

omit [DecidableEq C] in
theorem HandoverInv.resting_of_not_awaited (h : HandoverInv l newOwner ow c₀ nodes acked s)
    (hnone : awaited (s.node l) = none) : Resting s := by
  constructor
  · intro n
    apply List.eq_nil_iff_forall_not_mem.mpr
    intro x hx
    have hwait := (h.hands n x hx).2.2.2.1
    rw [hnone] at hwait
    cases hwait
  · intro m hm
    have hmsg := h.leaveMsgs m hm
    cases m with
    | recvPageLeave d sender o given =>
      have hwait := hmsg.2.2.2.1
      rw [hnone] at hwait
      cases hwait
    | dtLeave d sender o given =>
      have hwait := hmsg.2.2.2.1
      rw [hnone] at hwait
      cases hwait
    | ackRecvPage d sender =>
      have hwait := hmsg.2.1
      rw [hnone] at hwait
      cases hwait
    | _ => rfl

omit [DecidableEq C] in
/-- The acknowledgement is all that was under way. -/
theorem HandoverInv.resting_of_dtCv (h : HandoverInv l newOwner ow c₀ nodes acked s) {n : Node}
    (hwait : awaited (s.node l) = some n) (hcv : (s.node l).dtCv = true) : Resting s := by
  have hsingle := h.single
  have hone : 1 ≤ leaveAt l l (s.node l) := by
    simp [leaveAt, hwait, hcv]
  constructor
  · intro k
    by_cases hk : k = l
    · subst hk
      apply List.eq_nil_iff_forall_not_mem.mpr
      intro x hx
      exact (h.hands k x hx).1 rfl
    · have hpair := Network.le_weight_pair (leaveAt l) leaveMsg s hk
      have hlen : (s.node k).hands.length ≤ leaveAt l k (s.node k) := Nat.le_add_right _ _
      exact List.length_eq_zero_iff.mp (by omega)
  · intro m hm
    have hle := Network.le_weight_msg (leaveAt l) leaveMsg s l hm
    cases hleave : m.ofLeave with
    | false => rfl
    | true =>
      simp only [leaveMsg, hleave, Bool.toNat_true] at hle
      omega

omit [DecidableEq C] in
/-- A step of the leaver in `leave_data_transfer`. -/
theorem handoverInv_leaver (h : HandoverInv l newOwner ow c₀ nodes acked s) (hne : newOwner ≠ l)
    (hacked : ∀ n, acked n → acked' n) (hrest : Resting s)
    (hentry : ∀ q, (r.1.entry q).owner = ((s.node l).entry q).owner ∧
      (r.1.entry q).predicate = ((s.node l).entry q).predicate ∧
      (r.1.entry q).content = ((s.node l).entry q).content)
    (hsame : r.1.asks = (s.node l).asks ∧ r.1.hands = (s.node l).hands ∧
      r.1.nodeList = (s.node l).nodeList) (hon : r.1.askOn = true → (s.node l).askOn = true)
    (hstage : ∀ done : Node → Prop, (∀ n, Done l newOwner ow acked s n → done n) →
      LeaveStage l newOwner ow nodes done r.1)
    (hout : r.2 = [] ∨ ∃ m, r.2 = [m] ∧ r.1.dtCv = false ∧ m.ofLeave = true ∧
      ∀ s' : Net Node Page C, s'.node l = r.1 → ∀ done : Node → Prop,
        LeaveMsg l newOwner ow c₀ done s' m) :
    HandoverInv l newOwner ow c₀ nodes acked' (s.fire l s.msgs r) := by
  have hmove : TransferMove l newOwner ow c₀ s l [] r := by
    refine h.frame hentry hsame.1 (by simp) ?_ hon (fun hl => absurd rfl hl)
    intro m hm
    rcases hout with hout | ⟨m', hout, -, hleave, -⟩
    · rw [hout] at hm
      cases hm
    · rw [hout, List.mem_singleton] at hm
      rw [hm]
      exact hleave
  have hp := Network.perm_act s.msgs
  have hdone : ∀ n, Done l newOwner ow acked s n → Done l newOwner ow acked' (s.fire l s.msgs r) n :=
    fun n hn => hn.mono (fun n q => handed_fire hmove) hacked
  have hhands : ∀ k, ((s.fire l s.msgs r).node k).hands = [] := by
    refine Network.forall_node_fire (L := fun _ (p : Peer Node Page C) => p.hands = []) hrest.1 ?_
    rw [hsame.2.1]
    exact hrest.1 l
  refine ⟨transferInv_fire h.toTransferInv hne hp hmove, ?_, ?_, ?_, ?_, ?_⟩
  · rw [Network.fire_node_self]
    exact hstage _ hdone
  · rw [Network.fire_node_self, hsame.2.2]
    exact h.list
  · intro k x hx
    rw [hhands k] at hx
    cases hx
  · refine Network.forall_msgs_fire (fun m hm => leaveMsg_of_not_ofLeave (hrest.2 m hm)) hp ?_
    intro m hm
    rcases hout with hout | ⟨m', hout, -, -, hmsg⟩
    · rw [hout] at hm
      cases hm
    · rw [hout, List.mem_singleton] at hm
      rw [hm]
      exact hmsg _ (Network.fire_node_self _ _ _ _) _
  · have hnodes : ∑ k, leaveAt l k ((s.fire l s.msgs r).node k) = leaveAt l l r.1 := by
      rw [Finset.sum_eq_single l, Network.fire_node_self]
      · intro k _ hk
        simp [leaveAt, hhands k, hk]
      · exact fun hl => absurd (Finset.mem_univ l) hl
    have hmsgs := sum_leaveMsg_of_not_ofLeave hrest.2
    have hzero : r.1.hands.length = 0 := by
      rw [hsame.2.1, hrest.1 l]
      rfl
    unfold Network.Net.weight
    rw [hnodes, Network.fire_msgs, List.map_append, List.sum_append, hmsgs]
    rcases hout with hout | ⟨m, hout, hcv, hleave, -⟩
    · have hcv := Bool.toNat_le r.1.dtCv
      rw [hout]
      simp only [leaveAt, hzero, List.map_nil, List.sum_nil]
      split <;> omega
    · simp [hout, leaveAt, hzero, hcv, leaveMsg, hleave]

omit [Fintype Node] [DecidableEq Page] [DecidableEq C] in
/-- The loop over `node_list` informs the next node that is not the new owner, or has informed all.
-/
theorem dtLeaveLoop_cases (p : Peer Node Page C) (o : Node) (owned : List Page) (list : List Node) :
    (dtLeaveLoop l p o owned list = ({ p with leave := some (.returned o owned) }, []) ∧
      ∀ b ∈ list, b = o) ∨
    ∃ n rest, dtLeaveLoop l p o owned list =
        ({ p with dtCv := false, leave := some (.waitNode o owned n rest) },
          [.dtLeave n l o owned]) ∧
      n ≠ o ∧ n ∈ list ∧ (∀ b ∈ rest, b ∈ list) ∧ ∀ b ∈ list, b = o ∨ b = n ∨ b ∈ rest := by
  induction list with
  | nil => exact Or.inl ⟨rfl, by simp⟩
  | cons n rest ih =>
    unfold dtLeaveLoop
    by_cases hn : n = o
    · rw [if_pos hn]
      rcases ih with ⟨heq, hall⟩ | ⟨k, rest', heq, hk, hmem, hsub, hall⟩
      · refine Or.inl ⟨heq, ?_⟩
        intro b hb
        rcases List.mem_cons.mp hb with rfl | hb
        · exact hn
        · exact hall b hb
      · refine Or.inr ⟨k, rest', heq, hk, List.mem_cons_of_mem _ hmem,
          fun b hb => List.mem_cons_of_mem _ (hsub b hb), ?_⟩
        intro b hb
        rcases List.mem_cons.mp hb with rfl | hb
        · exact Or.inl hn
        · exact hall b hb
    · rw [if_neg hn]
      refine Or.inr ⟨n, rest, rfl, hn, List.mem_cons_self,
        fun b hb => List.mem_cons_of_mem _ hb, ?_⟩
      intro b hb
      exact Or.inr (List.mem_cons.mp hb)

omit [DecidableEq C] in
/-- The wait for an acknowledgement ends, and `list` is left to be informed. -/
theorem handoverInv_loop (h : HandoverInv l newOwner ow c₀ nodes acked s) (hne : newOwner ≠ l)
    (hacked : ∀ n, acked n → acked' n) (hrest : Resting s) (hoff : (s.node l).askOn = false)
    {owned : List Page} (howned : ∀ q, q ∈ owned ↔ ow q = l)
    (hfirst : Done l newOwner ow acked s newOwner) {list : List Node} (hl : l ∉ list)
    (hlist : ∀ b ∈ nodes, Done l newOwner ow acked s b ∨ b ∈ list) {p : Peer Node Page C}
    (hpeer : p = s.node l) :
    HandoverInv l newOwner ow c₀ nodes acked'
      (s.fire l s.msgs (dtLeaveLoop l { p with dtCv := false } newOwner owned list)) := by
  rcases dtLeaveLoop_cases (l := l) { p with dtCv := false } newOwner owned list with
    ⟨heq, hall⟩ | ⟨n, rest, heq, hn, hmem, hsub, hall⟩
  · subst hpeer
    rw [heq]
    refine handoverInv_leaver h hne hacked hrest (fun _ => ⟨rfl, rfl, rfl⟩) ⟨rfl, rfl, rfl⟩ id ?_
      (Or.inl rfl)
    intro done hdone
    refine ⟨rfl, hdone _ hfirst, ?_⟩
    intro b hb
    rcases hlist b hb with hb | hb
    · exact hdone b hb
    · rw [hall b hb]
      exact hdone _ hfirst
  · subst hpeer
    rw [heq]
    have hnl : n ≠ l := by
      rintro rfl
      exact hl hmem
    refine handoverInv_leaver h hne hacked hrest (fun _ => ⟨rfl, rfl, rfl⟩) ⟨rfl, rfl, rfl⟩ id ?_
      (Or.inr ⟨_, rfl, rfl, rfl, ?_⟩)
    · intro done hdone
      refine ⟨rfl, hoff, howned, hdone _ hfirst, hnl, hn, fun hl' => hl (hsub l hl'), ?_, ?_⟩
      · intro hcv
        cases hcv
      · intro b hb
        rcases hlist b hb with hb | hb
        · exact Or.inl (hdone b hb)
        · rcases hall b hb with rfl | hb
          · exact Or.inl (hdone _ hfirst)
          · exact Or.inr hb
    · intro s' hs' done
      refine ⟨rfl, rfl, hnl, ?_, ?_, ?_⟩
      · rw [hs']
        rfl
      · intro x hx
        obtain ⟨q, hq, rfl⟩ := List.mem_map.mp hx
        exact ⟨(howned q).mp hq, fun hnew => absurd hnew hn⟩
      · intro q hq
        exact Or.inr ⟨(q, none), List.mem_map_of_mem ((howned q).mpr hq), rfl⟩

omit [DecidableEq C] in
theorem handoverInv_leave {pages : List Page} (hpages : ∀ q, q ∈ pages)
    (h : HandoverInv l newOwner ow c₀ nodes acked s) (hne : newOwner ≠ l) (hnodes : l ∉ nodes)
    (hacked : ∀ n, acked n → acked' n) {x : LeaveStep Node}
    (hcall : ∀ o, x = .call o → o = newOwner)
    (hr : leaveDataTransfer pages l (s.node l) x = some r) :
    HandoverInv l newOwner ow c₀ nodes acked' (s.fire l s.msgs r) := by
  have hstage := h.stage
  unfold LeaveStage at hstage
  cases x with
  | call o =>
    simp only [leaveDataTransfer] at hr
    split at hr
    · rename_i hleave
      cases hr
      have hrest := h.resting_of_not_awaited (by simp [awaited, hleave])
      refine handoverInv_leaver h hne hacked hrest (fun _ => ⟨rfl, rfl, rfl⟩) ⟨rfl, rfl, rfl⟩ id ?_
        (Or.inl rfl)
      intro done _
      exact hcall o rfl
    · cases hr
  | removeAsk =>
    simp only [leaveDataTransfer] at hr
    split at hr
    · rename_i o hleave
      cases hr
      rw [hleave] at hstage
      have hrest := h.resting_of_not_awaited (by simp [awaited, hleave])
      refine handoverInv_leaver h hne hacked hrest (fun _ => ⟨rfl, rfl, rfl⟩) ⟨rfl, rfl, rfl⟩
        (fun hon => by cases hon) ?_ (Or.inl rfl)
      intro done _
      exact ⟨hstage, rfl, by simp, fun q _ => Or.inr (hpages q)⟩
    · cases hr
  | lockPage =>
    simp only [leaveDataTransfer] at hr
    split at hr
    · rename_i o q todo owned hleave
      cases hr
      rw [hleave] at hstage
      obtain ⟨ho, hoff, hmine, hall⟩ := hstage
      have hrest := h.resting_of_not_awaited (by simp [awaited, hleave])
      -- the node knows its own pages
      have hown : ((s.node l).entry q).owner = ow q := by
        rcases h.owner l q with hq | ⟨-, hll, -⟩
        · exact hq
        · exact absurd rfl hll
      refine handoverInv_leaver h hne hacked hrest (fun _ => ⟨rfl, rfl, rfl⟩) ⟨rfl, rfl, rfl⟩ id ?_
        (Or.inl rfl)
      intro done _
      show _ ∧ _ ∧ _ ∧ _
      rw [hown]
      refine ⟨ho, hoff, ?_, ?_⟩
      · intro q' hq'
        split at hq'
        · rename_i hq
          rcases List.mem_append.mp hq' with hq' | hq'
          · exact hmine q' hq'
          · rw [List.mem_singleton.mp hq']
            exact hq
        · exact hmine q' hq'
      · intro q' hq'
        rcases hall q' hq' with hin | hin
        · left
          split
          · exact List.mem_append_left _ hin
          · exact hin
        · rcases List.mem_cons.mp hin with rfl | hin
          · left
            rw [if_pos hq']
            exact List.mem_append_right _ List.mem_cons_self
          · exact Or.inr hin
    · cases hr
  | sendPages =>
    simp only [leaveDataTransfer] at hr
    split at hr
    · rename_i o owned hleave
      cases hr
      rw [hleave] at hstage
      obtain ⟨rfl, hoff, hmine, hall⟩ := hstage
      have hrest := h.resting_of_not_awaited (by simp [awaited, hleave])
      have howned : ∀ q, q ∈ owned ↔ ow q = l := by
        intro q
        refine ⟨hmine q, fun hq => ?_⟩
        rcases hall q hq with hin | hin
        · exact hin
        · cases hin
      refine handoverInv_leaver h hne hacked hrest ?_ ⟨rfl, rfl, rfl⟩ id ?_
        (Or.inr ⟨_, rfl, rfl, rfl, ?_⟩)
      · intro q
        simp only [resetPages]
        split <;> exact ⟨rfl, rfl, rfl⟩
      · intro done _
        exact ⟨rfl, hoff, howned, fun hcv => by cases hcv⟩
      · intro s' hs' done
        refine ⟨rfl, rfl, hne, ?_, ?_, ?_⟩
        · rw [hs']
          rfl
        · intro x hx
          simp only [List.map_map, List.mem_map, Function.comp_apply] at hx
          obtain ⟨q, hq, rfl⟩ := hx
          refine ⟨hmine q hq, fun _ => ?_⟩
          rw [← (h.content q (hmine q hq)).1]
        · intro q hq
          refine Or.inr ⟨(q, some ((s.node l).entry q).content), ?_, rfl⟩
          simp only [List.map_map, List.mem_map, Function.comp_apply]
          exact ⟨q, (howned q).mpr hq, rfl⟩
    · cases hr
  | resume =>
    simp only [leaveDataTransfer] at hr
    split at hr
    · rename_i o owned hleave
      split at hr
      · rename_i hcv
        cases hr
        rw [hleave] at hstage
        obtain ⟨rfl, hoff, howned, hdone⟩ := hstage
        have hrest := h.resting_of_dtCv (by simp [awaited, hleave]; rfl) hcv
        refine handoverInv_loop h hne hacked hrest hoff howned (hdone hcv) ?_ ?_ rfl
        · rw [h.list]
          exact hnodes
        · rw [h.list]
          exact fun b hb => Or.inr hb
      · cases hr
    · rename_i o owned n rest hleave
      split at hr
      · rename_i hcv
        cases hr
        rw [hleave] at hstage
        obtain ⟨rfl, hoff, howned, hfirst, -, -, hl, hdone, hall⟩ := hstage
        have hrest := h.resting_of_dtCv (by simp [awaited, hleave]; rfl) hcv
        refine handoverInv_loop h hne hacked hrest hoff howned hfirst hl ?_ rfl
        intro b hb
        rcases hall b hb with hb | rfl | hb
        · exact Or.inl hb
        · exact Or.inl (hdone hcv)
        · exact Or.inr hb
      · cases hr
    · cases hr

/-! ## All steps -/

/-- The node is at the same point of the leave. -/
structure SameLeave (p p' : Peer Node Page C) : Prop where
  hands : p'.hands = p.hands
  dtCv : p'.dtCv = p.dtCv
  askOn : p'.askOn = p.askOn
  nodeList : p'.nodeList = p.nodeList
  leave : p'.leave = p.leave

omit [Fintype Node] [DecidableEq C] in
theorem syncPage_sameLeave {p : Peer Node Page C} {q : Page} {writing : Bool}
    (hr : syncPage i p q writing = some r) :
    SameLeave p r.1 ∧ ∀ m ∈ r.2, m.ofLeave = false := by
  simp only [syncPage] at hr
  split at hr
  · split at hr
    · cases hr
      exact ⟨⟨rfl, rfl, rfl, rfl, rfl⟩, by simp⟩
    · cases hr
      exact ⟨⟨rfl, rfl, rfl, rfl, rfl⟩, by simp [Msg.ofLeave]⟩
  · cases hr

omit [Fintype Node] [DecidableEq C] in
theorem askPass_sameLeave {p p' : Peer Node Page C} {a : Ask Node Page}
    (hp' : askPass p a = some p') : SameLeave p p' := by
  unfold askPass at hp'
  split at hp'
  · cases hp'
    exact ⟨rfl, rfl, rfl, rfl, rfl⟩
  · cases hp'

omit [Fintype Node] [DecidableEq C] in
theorem askAnswer_sameLeave {p : Peer Node Page C} {a : Ask Node Page}
    (hr : askAnswer i p a = some r) : SameLeave p r.1 ∧ ∀ m ∈ r.2, m.ofLeave = false := by
  simp only [askAnswer] at hr
  split at hr
  · split at hr <;> cases hr <;> exact ⟨⟨rfl, rfl, rfl, rfl, rfl⟩, by simp [Msg.ofLeave]⟩
  · cases hr

omit [Fintype Node] [DecidableEq C] in
theorem handle_sameLeave {p : Peer Node Page C} {m : Msg Node Page C} (hm : m.ofLeave = false)
    (hr : handle i p m = some r) : SameLeave p r.1 ∧ r.2 = [] := by
  cases m with
  | invalidation d sender q =>
    simp only [handle] at hr
    split at hr
    · cases hr
      exact ⟨⟨rfl, rfl, rfl, rfl, rfl⟩, rfl⟩
    · cases hr
  | askPage d q n =>
    simp only [handle] at hr
    split at hr <;> cases hr <;> exact ⟨⟨rfl, rfl, rfl, rfl, rfl⟩, rfl⟩
  | recvPage d q o page =>
    simp only [handle] at hr
    split at hr
    · split at hr
      · cases hr
        exact ⟨⟨rfl, rfl, rfl, rfl, rfl⟩, rfl⟩
      · cases hr
    · cases hr
      exact ⟨⟨rfl, rfl, rfl, rfl, rfl⟩, rfl⟩
  | _ => cases hm

omit [DecidableEq C] in
/-- A step of the transfer, by what it keeps of the leave. -/
theorem handoverInv_same (h : HandoverInv l newOwner ow c₀ nodes acked s) (hne : newOwner ≠ l)
    (hacked : ∀ n, acked n → acked' n) (hp : s.msgs.Perm (ms ++ rest))
    (hr : TransferMove l newOwner ow c₀ s i ms r) (hsame : SameLeave (s.node i) r.1)
    (hout : ∀ m ∈ r.2, m.ofLeave = false) :
    HandoverInv l newOwner ow c₀ nodes acked' (s.fire i rest r) := by
  refine handoverInv_transfer h hne hacked hp hr ?_ hsame.hands hout
  rintro rfl
  exact ⟨hsame.leave, hsame.dtCv, hsame.askOn, hsame.nodeList⟩

theorem handoverInv_step {pages : List Page} (hpages : ∀ q, q ∈ pages)
    (h : HandoverInv l newOwner ow c₀ nodes acked s) (hne : newOwner ≠ l) (hnodes : l ∉ nodes)
    (hacked : ∀ n, acked n → acked' n) {e : Event Node Page C}
    (hack : ∀ n x, e = .act n (.handAck x) → x.leaver = l → acked' n)
    (hok : handoverOnly l newOwner e = true) (hset : repliesSettled l s e = true)
    (hstep : step pages s e = some s') : HandoverInv l newOwner ow c₀ nodes acked' s' := by
  rcases Network.step_cases hstep with ⟨i, a, r, rfl, hr, rfl⟩ | ⟨m, r, rfl, hm, hr, rfl⟩
  · have hp := Network.perm_act s.msgs
    change act pages i (s.node i) a = some r at hr
    by_cases hlocal : a.isLocal = true
    · obtain ⟨hsent, hsame, hcontent⟩ := act_local hlocal hr
      have hwrite : ∀ q page, a ≠ .write q page := by
        rintro q page rfl
        cases hok
      have hmove : TransferMove l newOwner ow c₀ s i [] r :=
        h.frame (fun q => ⟨hsame.owner q, hsame.predicate q, hcontent hwrite q⟩) hsame.asks
          (by simp) (by simp [hsent]) (fun hon => hsame.askOn ▸ hon)
          fun _ => ⟨hsame.recvOn, hsame.askOn, hsame.leave⟩
      refine handoverInv_same h hne hacked hp hmove ?_ (by simp [hsent])
      exact ⟨hsame.hands, hsame.dtCv, hsame.askOn, hsame.nodeList, hsame.leave⟩
    cases a with
    | syncPage q writing =>
      have hi : i ≠ l := by simpa [handoverOnly] using hok
      obtain ⟨hsame, hout⟩ := syncPage_sameLeave hr
      exact handoverInv_same h hne hacked hp (transferMove_syncPage h.toTransferInv hi hr) hsame hout
    | publish q => cases hok
    | askPass a =>
      obtain ⟨p', hp', rfl⟩ := Option.map_eq_some_iff.mp hr
      exact handoverInv_same h hne hacked hp (transferMove_askPass h.toTransferInv hp')
        (askPass_sameLeave hp') (by simp)
    | askAnswer a =>
      obtain ⟨hsame, hout⟩ := askAnswer_sameLeave hr
      exact handoverInv_same h hne hacked hp (transferMove_askAnswer h.toTransferInv hne hr) hsame
        hout
    | handPage x => exact handoverInv_handPage h hne hacked hset hr
    | handAck x => exact handoverInv_handAck h hne hacked (hack i x rfl) hr
    | leave x =>
      by_cases hi : i = l
      · subst hi
        refine handoverInv_leave hpages h hne hnodes hacked ?_ hr
        rintro o rfl
        simpa [handoverOnly] using hok
      · -- no other node leaves
        have hnone := (h.others i hi).2.2
        cases x with
        | call o => simp [handoverOnly, hi] at hok
        | _ => simp [act, leaveDataTransfer, hnone] at hr
    | _ => exact absurd rfl hlocal
  · have hp := Network.perm_deliver hm
    change handle m.dest (s.node m.dest) m = some r at hr
    have hmsg := h.leaveMsgs m hm
    cases m with
    | invalidation d sender q => exact absurd hm (h.valid d sender q)
    | askPage d q n =>
      obtain ⟨hsame, hout⟩ := handle_sameLeave rfl hr
      exact handoverInv_same h hne hacked hp (transferMove_askPage h.toTransferInv hne hr) hsame
        (by simp [hout])
    | recvPage d q o page =>
      obtain ⟨hsame, hout⟩ := handle_sameLeave rfl hr
      exact handoverInv_same h hne hacked hp (transferMove_recvPage h.toTransferInv hne hm hr) hsame
        (by simp [hout])
    | recvPageLeave d sender o given =>
      cases hr
      obtain ⟨rfl, rfl, hdl, hawaited, htodo⟩ := hmsg
      exact handoverInv_hand h hne hacked hm rfl rfl hdl hawaited htodo
    | dtLeave d sender o given =>
      cases hr
      obtain ⟨rfl, rfl, hdl, hawaited, htodo⟩ := hmsg
      exact handoverInv_hand h hne hacked hm rfl rfl hdl hawaited htodo
    | ackRecvPage d sender =>
      cases hr
      obtain ⟨rfl, -, -⟩ := hmsg
      exact handoverInv_ack h hne hacked hm

end Leave

/-! ## Runs -/

variable [DecidableEq Node] [DecidableEq Page]

theorem handoverInv_idle [Fintype Node] {l newOwner : Node} {ow : Page → Node}
    {acked : Node → Prop} {s : Net Node Page C} (h : Idle s)
    (how : ∀ n q, ((s.node n).entry q).owner = ow q) (hne : newOwner ≠ l) :
    HandoverInv l newOwner ow (fun q => ((s.node l).entry q).content) (s.node l).nodeList acked
      s := by
  have hnot : ∀ n q, ow q = l → ¬ Handed newOwner s n q := by
    intro n q hq hn
    exact hne (hn.symm.trans ((how n q).trans hq))
  have hmsgs : ∀ m, m ∉ s.msgs := by
    rw [h.msgs]
    exact fun m => List.not_mem_nil
  refine ⟨⟨fun n q => Or.inl (how n q), ?_, ?_, ?_, ?_, ?_, ?_, ?_⟩, ?_, rfl, ?_, ?_, ?_⟩
  · rintro d q n (hm | ⟨a, ha, -⟩)
    · exact absurd hm (hmsgs _)
    · rw [h.asks] at ha
      cases ha
  · intro n q o page hm
    exact absurd hm (hmsgs _)
  · intro n q hq hn
    exact absurd hn (hnot n q hq)
  · intro q hq
    exact ⟨rfl, fun hn => absurd hn (hnot newOwner q hq)⟩
  · intro n q hq hn
    exact absurd hn (hnot n q hq)
  · exact fun d sender q => hmsgs _
  · exact fun n _ => ⟨h.recvOn n, h.askOn n, h.leave n⟩
  · unfold LeaveStage
    rw [h.leave]
    trivial
  · intro n x hx
    rw [h.hands] at hx
    cases hx
  · intro m hm
    exact absurd hm (hmsgs m)
  · simp [Network.Net.weight, leaveAt, awaited, h.msgs, h.hands, h.leave]

/-- The pages are handed over: all nodes agree on the owners, and `l` runs
`leave_data_transfer(new_owner)` while the others synchronise pages. If a page is handed over at a
node only when that node expects no reply of `l` for it, then once `leave_data_transfer` has
returned the new owner has the contents of `l`, and every node of the list has sent its
acknowledgement, names the new owner for the pages of `l` and the old one for all others, and if it
waits for a page of `l`, its request is on its way to the new owner or there, or the reply is on its
way. -/
theorem pages_handed_over [Fintype Node] [DecidableEq C] {pages : List Page}
    (hpages : ∀ q, q ∈ pages) {l newOwner : Node} (hne : newOwner ≠ l) {ow : Page → Node}
    {s t : Net Node Page C} (hidle : Idle s) (how : ∀ n q, ((s.node n).entry q).owner = ow q)
    {es : List (Event Node Page C)} (hrun : Network.run (step pages) s es = some t)
    (hok : Network.Meets (step pages)
      (fun s e => handoverOnly l newOwner e = true ∧ repliesSettled l s e = true) s es)
    {o : Node} {owned : List Page} (hret : (t.node l).leave = some (.returned o owned)) :
    (∀ q, ow q = l → ((t.node newOwner).entry q).content = ((t.node l).entry q).content) ∧
    ∀ n, n = newOwner ∨ n ∈ (s.node l).nodeList →
      Acked l es n ∧
      (∀ q, ((t.node n).entry q).owner = if ow q = l then newOwner else ow q) ∧
      ∀ q, ow q = l → Blocked (t.node n) q → AskedAt t newOwner q n ∨ Replied t n q := by
  have hinv : HandoverInv l newOwner ow (fun q => ((s.node l).entry q).content)
      (s.node l).nodeList (Acked l es) t := by
    refine Network.run_history (R := fun t es => HandoverInv l newOwner ow
      (fun q => ((s.node l).entry q).content) (s.node l).nodeList (Acked l es) t) ?_
      (handoverInv_idle hidle how hne) hok hrun
    rintro s₁ es₁ e s₂ h ⟨honly, hset⟩ hstep
    refine handoverInv_step hpages h hne (hidle.lists l) ?_ ?_ honly hset hstep
    · rintro n ⟨x, hx, hl⟩
      exact ⟨x, List.mem_append_left _ hx, hl⟩
    · rintro n x rfl hl
      exact ⟨x, List.mem_append_right _ List.mem_cons_self, hl⟩
  have hstage := hinv.stage
  rw [LeaveStage, hret] at hstage
  obtain ⟨-, hfirst, hall⟩ := hstage
  constructor
  · intro q hq
    obtain ⟨hl, hnew⟩ := hinv.content q hq
    exact (hnew (hfirst.1 q hq)).trans hl.symm
  · intro n hn
    have hdone : Done l newOwner ow (Acked l es) t n := by
      rcases hn with rfl | hn
      · exact hfirst
      · exact hall n hn
    refine ⟨hdone.2, ?_, ?_⟩
    · intro q
      split
      · rename_i hq
        exact hdone.1 q hq
      · rename_i hq
        rcases hinv.owner n q with ho | ⟨hq', -⟩
        · exact ho
        · exact absurd hq' hq
    · intro q hq hblocked
      exact hinv.pending n q hq (hdone.1 q hq) hblocked.2

/-! ## Leaves among three nodes -/

/-- Three nodes share one page, which `0` owns. -/
def tripleNet : Net (Fin 3) Unit ℕ := initNet 0 [0, 1, 2] fun n _ => n + 7

theorem tripleNet_idle : Idle tripleNet := by
  constructor <;> first | rfl | decide

/-- The node `0` hands the page over to `1`. -/
def handoverRun : List (Event (Fin 3) Unit ℕ) :=
  [.act 0 (.leave (.call 1)), .act 0 (.leave .removeAsk), .act 0 (.leave .lockPage),
    .act 0 (.leave .sendPages), .deliver (.recvPageLeave 1 0 1 [((), 7)]),
    .act 1 (.handPage ⟨0, 1, [((), some 7)]⟩), .act 1 (.handAck ⟨0, 1, []⟩)]

/-- The node `0` informs `2` and returns. -/
def informRun : List (Event (Fin 3) Unit ℕ) :=
  [.deliver (.ackRecvPage 0 1), .act 0 (.leave .resume), .deliver (.dtLeave 2 0 1 [()]),
    .act 2 (.handPage ⟨0, 1, [((), none)]⟩), .act 2 (.handAck ⟨0, 1, []⟩),
    .deliver (.ackRecvPage 0 2), .act 0 (.leave .resume)]

/-- The request of the node `2` does not reach `0` before the leave, and goes to `1` then. -/
theorem pages_handed_over_informRun :
    ∃ t, Network.run (step [()]) tripleNet
        (.act 2 (.syncPage () false) :: (handoverRun ++ informRun)) = some t ∧
      ((t.node 1).entry ()).content = ((t.node 0).entry ()).content ∧
      ((t.node 2).entry ()).owner = 1 ∧ Blocked (t.node 2) () ∧
      (AskedAt t 1 () 2 ∨ Replied t 2 ()) := by
  have hrun : Network.run (step [()]) tripleNet
      (.act 2 (.syncPage () false) :: (handoverRun ++ informRun)) = some _ := rfl
  obtain ⟨hcontent, hnodes⟩ := @pages_handed_over (Fin 3) Unit ℕ _ _ _ _ [()]
    (fun _ => List.mem_cons_self) 0 1 (by decide) (fun _ => 0) tripleNet _ tripleNet_idle
    (by decide) _ hrun (by decide) _ _ rfl
  obtain ⟨-, howner, hwait⟩ := hnodes 2 (by decide)
  refine ⟨_, hrun, hcontent () rfl, howner (), ?_, hwait () rfl ?_⟩ <;>
    exact ⟨⟨false, List.mem_cons_self⟩, rfl⟩

/-- The node `1` asks `0` for the page, and `0` answers after it has handed the page over. -/
def lateReplyRun : List (Event (Fin 3) Unit ℕ) :=
  [.act 1 (.syncPage () false), .deliver (.askPage 0 () 1), .act 0 (.askPass ⟨(), 1, false⟩)] ++
    handoverRun ++ [.act 0 (.askAnswer ⟨(), 1, true⟩)] ++ informRun ++
    [.deliver (.recvPage 1 () 0 7)]

/-- After the leave of `0`, the new owner names `0` as the owner of the page. -/
theorem page_handed_back :
    Idle tripleNet ∧ (∀ n q, ((tripleNet.node n).entry q).owner = 0) ∧
      ∃ t, Network.run (step [()]) tripleNet lateReplyRun = some t ∧
        Network.Meets (step [()]) (fun _ e => handoverOnly 0 1 e = true) tripleNet lateReplyRun ∧
        (t.node 0).leave = some (.returned 1 [()]) ∧ 1 ∈ (tripleNet.node 0).nodeList ∧
        ((t.node 1).entry ()).owner = 0 :=
  ⟨tripleNet_idle, by decide, _, rfl, by decide, rfl, by decide, rfl⟩

end PageTransfer
