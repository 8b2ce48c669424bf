import Psar.Core.Leave
import Psar.Core.Proofs.PageLockProofs
import Psar.Library.Proofs.NetworkProofs
import Psar.Library.Proofs.PointersProofs

/-!
# Proofs: leaving with the token

`DELEGATE` replaces the leaver by the delegate wherever it is named, so the pointers end at the
delegate exactly if the delegate pointed to the leaver itself.
-/

namespace PageLock

variable {Node : Type} [DecidableEq Node]

/-! ## The messages of a leave -/

theorem retarget_retarget {l d : Node} (hd : d ≠ l) (n : Node) :
    retarget l d (retarget l d n) = retarget l d n := by
  by_cases hn : n = l
  · simp [retarget, hn, hd]
  · simp [retarget, hn]

omit [DecidableEq Node] in
/-- The entries are added one by one, so the last one comes first. -/
theorem unserializeRequests_eq (c : CoreInfo Node) (rs : List (Request Node)) :
    unserializeRequests c rs = { c with request := rs.reverse ++ c.request } := by
  induction rs generalizing c with
  | nil => rfl
  | cons e rs ih =>
    have h : unserializeRequests c (e :: rs) =
        unserializeRequests (addRequest c e.who e.mode) rs := rfl
    rw [h, ih]
    simp [addRequest]

omit [DecidableEq Node] in
theorem mem_unserializeRequests {c : CoreInfo Node} {rs : List (Request Node)} {r : Request Node} :
    r ∈ (unserializeRequests c rs).request ↔ r ∈ c.request ∨ r ∈ rs := by
  simp [unserializeRequests_eq, or_comm]

section Run

variable {nodeList : Node → List Node} {l d : Node} {s t t' : Net Node}

/-- `leave_core` of a node that has the token and does not use it. -/
theorem leaveCore_quiescent (hs : Quiescent nodeList l s) (d : Node) :
    step nodeList s (.act l (.leaveCore d)) = some (s.fire l [] ({ s.node l with
      thread := .leaving d true
      delegateAckCounter := (nodeList l).length },
      .sendState d l (some (s.node l).core.request) ::
        (nodeList l).map fun n => .delegate n l d)) := by
  have hown : (s.node l).core.haveToken = l := hs.root.self
  have h : leaveCore l (nodeList l) (s.node l) d = some ({ s.node l with
      thread := .leaving d true
      delegateAckCounter := (nodeList l).length },
      .sendState d l (some (s.node l).core.request) ::
        (nodeList l).map fun n => .delegate n l d) := by
    rw [leaveCore_idle (hs.thread l) (hs.mode l) hown d, hs.acks, zero_add]
  show (leaveCore l (nodeList l) (s.node l) d).map (s.fire l s.msgs) = _
  rw [h, hs.msgs]
  rfl

theorem leaveInv_start (hs : Quiescent nodeList l s)
    (hstep : step nodeList s (.act l (.leaveCore d)) = some t) : LeaveInv l d s t := by
  rw [leaveCore_quiescent hs d] at hstep
  cases hstep
  have hdel : ∀ n, n ≠ l → Msg.delegate n l d ∈ Msg.sendState d l (some (s.node l).core.request) ::
      (nodeList l).map fun n => Msg.delegate n l d := fun n hn =>
    List.mem_cons_of_mem _ (List.mem_map_of_mem ((hs.peers n).mpr hn))
  refine ⟨Or.inl (by simp), ?_, ?_, fun n hn => Or.inr ⟨?_, hdel n hn⟩,
    fun n hn r hr hw => Or.inr (hdel n hn), ?_⟩
  · intro n hn
    rw [Network.fire_node_ne _ _ _ hn]
    exact hs.thread n
  · simp only [Network.fire_node_self, Network.fire_msgs, List.nil_append, List.countP_cons,
      List.countP_map]
    simp [awaited, Function.comp_def]
  · simp only [owner, Network.fire_node_ne _ _ _ hn]
  · intro m hm
    simp only [Network.fire_msgs, List.nil_append, List.mem_cons, List.mem_map] at hm
    rcases hm with h | ⟨n, hn, rfl⟩
    · exact Or.inl h
    · exact Or.inr (Or.inl ⟨n, (hs.peers n).mp hn, rfl⟩)

/-- A message in flight other than the one that is handled stays in flight. -/
theorem mem_fire_of_ne {m m' : Msg Node} (h : m' ∈ t.msgs) (hne : m' ≠ m) {i : Node}
    {r : Peer Node × List (Msg Node)} : m' ∈ (t.fire i (t.msgs.erase m) r).msgs :=
  List.mem_append_left _ ((List.mem_erase_of_ne hne).mpr h)

/-- The number of messages of one kind in flight, after the handling of a message. -/
theorem countP_fire (p : Msg Node → Bool) {m : Msg Node} (hm : m ∈ t.msgs) {i : Node}
    {r : Peer Node × List (Msg Node)} :
    (t.fire i (t.msgs.erase m) r).msgs.countP p + (if p m then 1 else 0) =
      t.msgs.countP p + r.2.countP p := by
  rw [Network.fire_msgs, List.countP_append, List.countP_erase]
  cases hp : p m with
  | false => simp
  | true =>
    have hpos : 0 < t.msgs.countP p := List.countP_pos_iff.mpr ⟨m, hm, hp⟩
    simp only [hm, and_self, if_true]
    omega

/-- A node other than the leaver handles a message of the leave. -/
theorem leaveInv_other (h : LeaveInv l d s t) {m : Msg Node} (hm : m ∈ t.msgs) (hn : m.dest ≠ l)
    {r : Peer Node × List (Msg Node)} (hth : r.1.thread = .idle)
    (hacks : r.2.countP awaited = if awaited m then 1 else 0)
    (hmsgs : ∀ m' ∈ r.2, ∃ n, m' = .delegateAck l n)
    (htoken : r.1.core.haveToken = retarget l d (owner s m.dest) ∨
      (r.1.core.haveToken = owner t m.dest ∧ m ≠ .delegate m.dest l d))
    (hreq : ∀ e ∈ r.1.core.request, e.who = l →
      e ∈ (s.node l).core.request ∨ (e ∈ (t.node m.dest).core.request ∧ m ≠ .delegate m.dest l d)) :
    LeaveInv l d s (t.fire m.dest (t.msgs.erase m) r) := by
  have hl := Network.fire_node_ne t (t.msgs.erase m) r hn.symm
  have hdel : ∀ n, m ≠ .delegate n l d → .delegate n l d ∈ t.msgs →
      .delegate n l d ∈ (t.fire m.dest (t.msgs.erase m) r).msgs := fun n hne hmem =>
    mem_fire_of_ne hmem hne.symm
  have hdest : ∀ n, n ≠ m.dest → m ≠ .delegate n l d := by
    rintro n hne rfl
    exact hne rfl
  refine ⟨?_, ?_, ?_, ?_, ?_, ?_⟩
  · rw [hl]
    exact h.leaver
  · intro n hnl
    by_cases hnd : n = m.dest
    · subst hnd
      rw [Network.fire_node_self]
      exact hth
    · rw [Network.fire_node_ne _ _ _ hnd]
      exact h.others n hnl
  · rw [hl, h.acks]
    have hc := countP_fire awaited hm (i := m.dest) (r := r)
    rw [hacks] at hc
    exact congrArg _ (Nat.add_right_cancel hc).symm
  · intro n hnl
    by_cases hnd : n = m.dest
    · subst hnd
      simp only [owner, Network.fire_node_self]
      rcases htoken with h1 | ⟨h1, h2⟩
      · exact Or.inl h1
      · rw [h1]
        rcases h.token m.dest hnl with h3 | ⟨h3, h4⟩
        · exact Or.inl h3
        · exact Or.inr ⟨h3, hdel _ h2 h4⟩
    · simp only [owner, Network.fire_node_ne _ _ _ hnd]
      rcases h.token n hnl with h3 | ⟨h3, h4⟩
      · exact Or.inl h3
      · exact Or.inr ⟨h3, hdel n (hdest n hnd) h4⟩
  · intro n hnl e he hw
    by_cases hnd : n = m.dest
    · subst hnd
      rw [Network.fire_node_self] at he
      rcases hreq e he hw with h1 | ⟨h1, h2⟩
      · exact Or.inl h1
      · exact (h.requests _ hnl e h1 hw).imp id (hdel _ h2)
    · rw [Network.fire_node_ne _ _ _ hnd] at he
      exact (h.requests n hnl e he hw).imp id (hdel n (hdest n hnd))
  · refine Network.forall_msgs_fire h.msgs (Network.perm_deliver hm) ?_
    intro m' hm'
    exact Or.inr (Or.inr (hmsgs m' hm'))

/-- The leaver takes a step on its own or handles an acknowledgement. -/
theorem leaveInv_leaver (h : LeaveInv l d s t) {r : Peer Node × List (Msg Node)} (hout : r.2 = [])
    {rest : List (Msg Node)} (hrest : rest ⊆ t.msgs)
    (hdel : ∀ n, .delegate n l d ∈ t.msgs → .delegate n l d ∈ rest)
    (hth : r.1.thread = .leaving d true ∨ r.1.thread = .left ∧ r.1.delegateAckCounter = 0)
    (hacks : r.1.delegateAckCounter = rest.countP awaited) : LeaveInv l d s (t.fire l rest r) := by
  have hmsgs : (t.fire l rest r).msgs = rest := by simp [hout]
  refine ⟨?_, ?_, ?_, ?_, ?_, ?_⟩
  · rw [Network.fire_node_self]
    exact hth
  · intro n hn
    rw [Network.fire_node_ne _ _ _ hn]
    exact h.others n hn
  · rw [Network.fire_node_self, hmsgs]
    exact hacks
  · intro n hn
    simp only [owner, Network.fire_node_ne _ _ _ hn, hmsgs]
    exact (h.token n hn).imp id fun h1 => ⟨h1.1, hdel n h1.2⟩
  · intro n hn e he hw
    rw [Network.fire_node_ne _ _ _ hn] at he
    rw [hmsgs]
    exact (h.requests n hn e he hw).imp id (hdel n)
  · intro m hm
    rw [hmsgs] at hm
    exact h.msgs m (hrest hm)

/-- The leaver handles an acknowledgement. -/
theorem leaveInv_ack (h : LeaveInv l d s t) {n : Node} (hm : .delegateAck l n ∈ t.msgs) :
    LeaveInv l d s (t.fire l (t.msgs.erase (.delegateAck l n))
      ({ t.node l with delegateAckCounter := (t.node l).delegateAckCounter - 1 }, [])) := by
  have hpos : 0 < t.msgs.countP awaited := List.countP_pos_iff.mpr ⟨_, hm, rfl⟩
  have hacks := h.acks
  refine leaveInv_leaver h rfl List.erase_subset (fun n' hn' => ?_) ?_ ?_
  · exact (List.mem_erase_of_ne (by simp)).mpr hn'
  · -- an acknowledgement is in flight only while the leaver waits
    rcases h.leaver with hth | ⟨-, h0⟩
    · exact Or.inl hth
    · omega
  · rw [List.countP_erase, if_pos ⟨hm, rfl⟩]
    show (t.node l).delegateAckCounter - 1 = _
    omega

/-- The leaver has all acknowledgements. -/
theorem leaveInv_finish (h : LeaveInv l d s t) {i : Node} {r : Peer Node × List (Msg Node)}
    (hr : leaveFinish i (t.node i) = some r) : LeaveInv l d s (t.fire i t.msgs r) := by
  obtain ⟨d', b, hth, h0, hleft, h0', hout, -⟩ := leaveFinish_eq_some hr
  obtain rfl : i = l := by
    by_contra hil
    exact absurd (hth.symm.trans (h.others i hil)) (by simp)
  refine leaveInv_leaver h hout (List.Subset.refl _) (fun n hn => hn) (Or.inr ⟨hleft, h0'⟩) ?_
  rw [h0', ← h0]
  exact h.acks

/-- Every step of a leave keeps its invariant. -/
theorem leaveInv_step (hd : d ≠ l) {e : Event Node} (h : LeaveInv l d s t)
    (he : leaveEvent e = true) (hstep : step nodeList t e = some t') : LeaveInv l d s t' := by
  rcases Network.step_cases hstep with ⟨i, a, r, rfl, hr, rfl⟩ | ⟨m, r, rfl, hm, hr, rfl⟩
  · cases a with
    | leaveFinish => exact leaveInv_finish h hr
    | _ => simp [leaveEvent] at he
  · change handle m.dest (t.node m.dest) m = some r at hr
    rcases h.msgs m hm with rfl | ⟨n, hn, rfl⟩ | ⟨n, rfl⟩
    · obtain ⟨-, rfl⟩ := underMutex_eq_some hr
      refine leaveInv_other h hm hd (h.others d hd) rfl (by simp) (Or.inr ⟨?_, by simp⟩) ?_
      · simp [handleSendState, unserializeRequests_eq, owner, Msg.dest]
      · intro e he hw
        rcases mem_unserializeRequests.mp he with he | he
        · exact Or.inr ⟨he, by simp⟩
        · exact Or.inl he
    · obtain ⟨-, rfl⟩ := underMutex_eq_some hr
      refine leaveInv_other h hm hn (h.others n hn) rfl (by simp) (Or.inl ?_) ?_
      · -- the entry is replaced, or has been replaced before
        show retarget l d (owner t n) = retarget l d (owner s n)
        rcases h.token n hn with h1 | ⟨h1, -⟩
        · rw [h1, retarget_retarget hd]
        · rw [h1]
      · intro e he hw
        simp [handleDelegate, hw] at he
    · cases hr
      exact leaveInv_ack h hm

/-- The pointers and lists at the end of a leave. -/
theorem LeaveInv.of_left (h : LeaveInv l d s t) (hleft : (t.node l).thread = .left) {n : Node}
    (hn : n ≠ l) : owner t n = retarget l d (owner s n) ∧
      ∀ e ∈ (t.node n).core.request, e.who = l → e ∈ (s.node l).core.request := by
  have h0 : t.msgs.countP awaited = 0 := by
    rcases h.leaver with hth | ⟨-, h0⟩
    · exact absurd (hth.symm.trans hleft) (by simp)
    · have := h.acks
      omega
  have hdel : ∀ n, Msg.delegate n l d ∉ t.msgs := fun n hmem => by
    have := List.countP_eq_zero.mp h0 _ hmem
    simp [awaited] at this
  constructor
  · rcases h.token n hn with h1 | ⟨-, h1⟩
    · exact h1
    · exact absurd h1 (hdel n)
  · intro e he hw
    rcases h.requests n hn e he hw with h1 | h1
    · exact h1
    · exact absurd h1 (hdel n)

variable (nodeList) in
/-- A `DELEGATE` or an acknowledgement in flight can be handled. -/
theorem leave_deliver (h : LeaveInv l d s t) {m : Msg Node} (hm : m ∈ t.msgs)
    (hw : awaited m = true) : ∃ t', step nodeList t (.deliver m) = some t' ∧
      (t'.msgs.map remaining).sum < (t.msgs.map remaining).sum ∧
      ∀ m' ∈ t.msgs, m' ≠ m → m' ∈ t'.msgs := by
  have hlt : ∀ r : Peer Node × List (Msg Node), handle m.dest (t.node m.dest) m = some r →
      (r.2.map remaining).sum < remaining m →
      ∃ t', step nodeList t (.deliver m) = some t' ∧
      (t'.msgs.map remaining).sum < (t.msgs.map remaining).sum ∧
      ∀ m' ∈ t.msgs, m' ≠ m → m' ∈ t'.msgs := by
    intro r hr hsum
    refine ⟨t.fire m.dest (t.msgs.erase m) r, Network.step_deliver hm hr, ?_,
      fun m' hm' hne => mem_fire_of_ne hm' hne⟩
    have herase := List.sum_map_erase remaining hm
    rw [Network.fire_msgs, List.map_append, List.sum_append]
    omega
  rcases h.msgs m hm with rfl | ⟨n, hn, rfl⟩ | ⟨n, rfl⟩
  · simp [awaited] at hw
  · -- the page mutex of a node that does not leave is free
    have hfree : (t.node n).locked = false := by simp [Peer.locked, h.others n hn]
    refine hlt ({ t.node n with core := handleDelegate (t.node n).core l d }, [.delegateAck l n]) ?_
      (by simp [remaining])
    simp [handle, underMutex, Msg.dest, hfree]
  · exact hlt _ rfl (by simp [remaining])

variable (nodeList) in
/-- A leave can be completed, with `SEND_STATE` still in flight. -/
theorem leave_completes (hd : d ≠ l) (h : LeaveInv l d s t) {m : Msg Node} (hm : m ∈ t.msgs)
    (hw : awaited m = false) :
    ∃ es t', Network.run (step nodeList) t es = some t' ∧ (∀ e ∈ es, leaveEvent e = true) ∧
      LeaveInv l d s t' ∧ (t'.node l).thread = .left ∧ m ∈ t'.msgs := by
  induction hn : (t.msgs.map remaining).sum using Nat.strongRecOn generalizing t with
  | ind n ih =>
    by_cases hex : ∃ m' ∈ t.msgs, awaited m' = true
    · obtain ⟨m', hm', hw'⟩ := hex
      obtain ⟨t1, hstep, hlt, hmem⟩ := leave_deliver nodeList h hm' hw'
      have h1 := leaveInv_step hd h (e := .deliver m') rfl hstep
      have hne : m ≠ m' := by
        rintro rfl
        exact absurd (hw.symm.trans hw') (by simp)
      obtain ⟨es, t', hrun, hes, h', hleft, hmem'⟩ := ih _ (hn ▸ hlt) h1 (hmem m hm hne) rfl
      refine ⟨.deliver m' :: es, t', Network.run_cons_eq_some.mpr ⟨t1, hstep, hrun⟩, ?_, h', hleft,
        hmem'⟩
      intro e he
      rcases List.mem_cons.mp he with rfl | he
      · rfl
      · exact hes e he
    · rcases h.leaver with hth | ⟨hleft, -⟩
      · -- all acknowledgements are there
        have h0 : (t.node l).delegateAckCounter = 0 := by
          rw [h.acks, List.countP_eq_zero.mpr fun m' hm' hw' => hex ⟨m', hm', hw'⟩]
          rfl
        obtain ⟨r, hr⟩ : ∃ r, leaveFinish l (t.node l) = some r := by
          simp [leaveFinish, hth, h0]
        obtain ⟨-, -, -, -, hleft, -, hout, -⟩ := leaveFinish_eq_some hr
        have hstep : step nodeList t (.act l .leaveFinish) = some (t.fire l t.msgs r) :=
          Network.step_act hr
        refine ⟨[.act l .leaveFinish], _, Network.run_cons_eq_some.mpr ⟨_, hstep, rfl⟩, by
          simp [leaveEvent], leaveInv_finish h hr, ?_, List.mem_append_left _ hm⟩
        rw [Network.fire_node_self]
        exact hleft
      · exact ⟨[], t, rfl, by simp, h, hleft, hm⟩

/-- A leave can be completed with `SEND_STATE` handled last. -/
theorem leave_sendState_last (hs : Quiescent nodeList l s) (hd : d ≠ l) :
    ∃ es t, Network.run (step nodeList) s (.act l (.leaveCore d) :: es) = some t ∧
      (∀ e ∈ es, leaveEvent e = true) ∧ LeaveInv l d s t ∧ (t.node l).thread = .left ∧
      ∀ e ∈ (s.node l).core.request, e ∈ (t.node d).core.request := by
  have hstart := leaveCore_quiescent hs d
  have h0 := leaveInv_start hs hstart
  obtain ⟨es, t, hrun, hes, h, hleft, hm⟩ := leave_completes nodeList hd h0
    (List.mem_cons_self : Msg.sendState d l (some (s.node l).core.request) ∈ _) rfl
  have hfree : (t.node d).locked = false := by simp [Peer.locked, h.others d hd]
  obtain ⟨r, hr, hreq⟩ : ∃ r,
      handle d (t.node d) (.sendState d l (some (s.node l).core.request)) = some r ∧
      ∀ e ∈ (s.node l).core.request, e ∈ r.1.core.request := by
    simp only [handle, underMutex, hfree, Bool.false_eq_true, if_false]
    exact ⟨_, rfl, fun e he => mem_unserializeRequests.mpr (Or.inr he)⟩
  have hstep : step nodeList t (.deliver (.sendState d l (some (s.node l).core.request))) =
      some (t.fire d (t.msgs.erase (.sendState d l (some (s.node l).core.request))) r) :=
    Network.step_deliver hm hr
  refine ⟨es ++ [.deliver (.sendState d l (some (s.node l).core.request))], _, ?_, ?_,
    leaveInv_step hd h rfl hstep, ?_, ?_⟩
  · refine Network.run_cons_eq_some.mpr ⟨_, hstart, ?_⟩
    rw [Network.run_append, hrun]
    exact Network.run_cons_eq_some.mpr ⟨_, hstep, rfl⟩
  · intro e he
    rcases List.mem_append.mp he with he | he
    · exact hes e he
    · rw [List.mem_singleton.mp he]
      rfl
  · rw [Network.fire_node_ne _ _ _ hd.symm]
    exact hleft
  · intro e he
    rw [Network.fire_node_self]
    exact hreq e he

/-- The token is handed over by every leave of `l`, in whatever order its messages are handled,
exactly if the delegate names `l` in `have_token` and the list of `l` does not name `l`. -/
theorem leave_hands_over_iff (hs : Quiescent nodeList l s) (hd : d ≠ l) :
    (∀ es t, Network.run (step nodeList) s (.act l (.leaveCore d) :: es) = some t →
      (∀ e ∈ es, leaveEvent e = true) → (t.node l).thread = .left → HandedOver l t) ↔
    (s.node d).core.haveToken = l ∧ ∀ r ∈ (s.node l).core.request, r.who ≠ l := by
  constructor
  · intro hall
    obtain ⟨es, t, hrun, hes, h, hleft, hlist⟩ := leave_sendState_last (d := d) hs hd
    have hpost := hall es t hrun hes hleft
    refine ⟨?_, fun e he => hpost.requests d hd e (hlist e he)⟩
    obtain ⟨c, hc⟩ := hpost.root
    have hself : retarget l d (owner s c) = c := (h.of_left hleft hc.mem).1.symm.trans hc.self
    by_cases hcl : owner s c = l
    · rw [retarget, if_pos hcl] at hself
      exact hself ▸ hcl
    · rw [retarget, if_neg hcl] at hself
      exact absurd (hs.root.unique c trivial hself) hc.mem
  · rintro ⟨hdl, hlist⟩ es t hrun hes hleft
    obtain ⟨t0, hstart, hrun'⟩ := Network.run_cons_eq_some.mp hrun
    have h : LeaveInv l d s t := Network.run_invariant
      (fun s e s' h he hstep => leaveInv_step hd h he hstep) (leaveInv_start hs hstart)
      (Network.meets_of_forall hes _) hrun'
    have htok : ∀ n, n ≠ l → owner t n = if owner s n = l then d else owner s n := fun n hn =>
      (h.of_left hleft hn).1
    have hne : ∀ n, n ≠ l → owner t n ≠ l := by
      intro n hn heq
      rw [htok n hn] at heq
      by_cases hnl : owner s n = l
      · rw [if_pos hnl] at heq
        exact hd heq
      · rw [if_neg hnl] at heq
        exact hnl heq
    refine ⟨⟨d, hd, ?_, ?_, ?_⟩, hne, ?_⟩
    · rw [htok d hd]
      exact if_pos hdl
    · intro n hn hself
      rw [htok n hn] at hself
      by_cases hnl : owner s n = l
      · rw [if_pos hnl] at hself
        exact hself.symm
      · rw [if_neg hnl] at hself
        exact absurd (hs.root.unique n trivial hself) hn
    · intro n hn
      exact (hs.root.leads n trivial).retarget htok hn
    · intro n hn e he hw
      exact hlist e ((h.of_left hleft hn).2 e he hw) hw

end Run

/-! ## Leaves of three nodes -/

/-- Every node knows the other two. -/
def others (n : Fin 3) : List (Fin 3) := (List.finRange 3).filter fun m => m ≠ n

/-- The node `b` gets the token from `a`, and nobody else learns about it. -/
def acquireRun (a b : Node) : List (Event Node) :=
  [.act b (.askLock .write), .deliver (.askLock a b b .write), .deliver (.getLock b a a .write),
    .act b .resume, .act b .unlock]

theorem quiescent_acquireRun {s : Net (Fin 3)}
    (hrun : Network.run (step others) (initNet 0) (acquireRun 0 1) = some s) :
    Quiescent others 1 s := by
  cases hrun
  refine ⟨by decide, by decide, by decide, by decide, ⟨trivial, by decide, ?_, ?_⟩, by decide⟩
  · intro n _
    revert n
    decide
  · intro n _
    refine ⟨2, ?_⟩
    revert n
    decide

/-- The node `b` leaves and names the node `c` as its delegate. -/
def leaveRun (a b c : Node) : List (Event Node) :=
  [.act b (.leaveCore c), .deliver (.sendState c b (some [])), .deliver (.delegate a b c),
    .deliver (.delegate c b c), .deliver (.delegateAck b a), .deliver (.delegateAck b c),
    .act b .leaveFinish]

/-- The node 1 leaves with the delegate 0, which names it, while the node 2 still names 0. -/
theorem leave_hands_over_acquireRun :
    ∃ s t, Network.run (step others) (initNet 0) (acquireRun 0 1) = some s ∧ owner s 2 = 0 ∧
      Network.run (step others) s (leaveRun 2 1 0) = some t ∧ (t.node 1).thread = .left ∧
      HandedOver 1 t := by
  have hacquire : Network.run (step others) (initNet 0) (acquireRun 0 1) = some _ := rfl
  have hquiescent := quiescent_acquireRun hacquire
  have hall := (leave_hands_over_iff (d := 0) hquiescent (by decide)).mpr ⟨rfl, by decide⟩
  refine ⟨_, _, hacquire, rfl, rfl, by decide, ?_⟩
  exact hall (leaveRun 2 1 0).tail _ rfl (by decide) (by decide)

/-- After the leave, the nodes 0 and 2 name each other. -/
theorem leave_loses_token :
    ∃ s t, Network.run (step others) (initNet 0) (acquireRun 0 1) = some s ∧ Quiescent others 1 s ∧
      Network.run (step others) s (leaveRun 0 1 2) = some t ∧ t.msgs = [] ∧
      (t.node 1).thread = .left ∧ ¬ HandedOver 1 t := by
  have hacquire : Network.run (step others) (initNet 0) (acquireRun 0 1) = some _ := rfl
  refine ⟨_, _, hacquire, quiescent_acquireRun hacquire, rfl, by decide, by decide, ?_⟩
  rintro ⟨⟨c, hmem, hself, -, -⟩, -, -⟩
  change c ≠ 1 at hmem
  revert c
  decide

end PageLock
