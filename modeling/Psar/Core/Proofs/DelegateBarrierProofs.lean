import Psar.Core.DelegateBarrier
import Psar.Library.Proofs.NetworkProofs

/-!
# Proofs: the barrier of `DELEGATE`

A node of the list is to be sent `DELEGATE`, has it on the way, has its answer on the way, or has
been answered; the counter is the number of nodes that have not been. So it is 0 again only when all
of them have been.
-/

namespace DelegateBarrier

variable {Node : Type}

/-! ## Histories -/

theorem delegated_append (es es' : List (Event Node)) :
    delegated (es ++ es') = delegated es ++ delegated es' := by
  induction es with
  | nil => rfl
  | cons e es ih => cases e <;> simp [delegated, ih]

theorem acked_append (es es' : List (Event Node)) : acked (es ++ es') = acked es ++ acked es' := by
  induction es with
  | nil => rfl
  | cons e es ih => cases e <;> simp [acked, ih]

/-! ## The messages -/

variable [DecidableEq Node]

omit [DecidableEq Node] in
theorem delegates_append (l l' : List (Msg Node)) :
    delegates (l ++ l') = delegates l ++ delegates l' := List.filterMap_append

omit [DecidableEq Node] in
theorem acks_append (l l' : List (Msg Node)) : acks (l ++ l') = acks l ++ acks l' :=
  List.filterMap_append

/-- A `DELEGATE` that is handled. -/
theorem erase_delegate {l : List (Msg Node)} {n : Node} (h : .delegate n ∈ l) :
    (delegates l).Perm (n :: delegates (l.erase (.delegate n))) ∧
      (acks l).Perm (acks (l.erase (.delegate n))) :=
  ⟨(List.perm_cons_erase h).filterMap _, (List.perm_cons_erase h).filterMap _⟩

/-- A `DELEGATE_ACK` that is handled. -/
theorem erase_delegateAck {l : List (Msg Node)} {n : Node} (h : .delegateAck n ∈ l) :
    (delegates l).Perm (delegates (l.erase (.delegateAck n))) ∧
      (acks l).Perm (n :: acks (l.erase (.delegateAck n))) :=
  ⟨(List.perm_cons_erase h).filterMap _, (List.perm_cons_erase h).filterMap _⟩

/-! ## Steps -/

omit [DecidableEq Node] in
/-- The call. -/
theorem during_broadcastWait {s : State Node} {nodeList : List Node} {nbNodees : BitVec 32}
    (h : Quiet s) (hcount : nbNodees.toNat = nodeList.length) :
    During nodeList [] [] { setCounter s nbNodees with thread := .sending nodeList } := by
  constructor
  · intro houtside
    cases houtside
  · show (delegates s.msgs ++ [] ++ nodeList).Perm nodeList
    rw [h.msgs]
    exact List.Perm.refl nodeList
  · show (acks s.msgs ++ []).Perm []
    rw [h.msgs]
    exact List.Perm.refl []
  · show s.delegateAckCounter + nbNodees = BitVec.ofNat 32 nodeList.length - BitVec.ofNat 32 0
    rw [h.counter, ← hcount, BitVec.ofNat_toNat, BitVec.setWidth_eq]
    bv_omega

section Step

variable {nodeList handled answered : List Node} {s : State Node}

omit [DecidableEq Node] in
/-- A node moves from the rest of the list to those on the way. -/
theorem during_sendMessage (h : During nodeList handled answered s) {n : Node} {rest : List Node}
    (hthread : s.thread = .sending (n :: rest)) :
    During nodeList handled answered
      { s with thread := .sending rest, msgs := s.msgs ++ [.delegate n] } := by
  have hsent := h.sent
  rw [hthread] at hsent
  constructor
  · intro houtside
    cases houtside
  · refine List.Perm.trans ?_ hsent
    show (delegates (s.msgs ++ [Msg.delegate n]) ++ handled ++ rest).Perm
      (delegates s.msgs ++ handled ++ n :: rest)
    rw [delegates_append]
    have hmove :
        (delegates s.msgs ++ [n] ++ handled).Perm (delegates s.msgs ++ handled ++ [n]) := by
      rw [List.append_assoc, List.append_assoc]
      exact List.Perm.append_left _ List.perm_append_comm
    have hrest := hmove.append_right rest
    rwa [List.append_assoc _ [n] rest] at hrest
  · show (acks (s.msgs ++ [Msg.delegate n]) ++ answered).Perm handled
    rw [acks_append]
    show (acks s.msgs ++ [] ++ answered).Perm handled
    rw [List.append_nil]
    exact h.answers
  · exact h.counter

omit [DecidableEq Node] in
theorem during_waitOnCounter (h : During nodeList handled answered s)
    (hthread : s.thread = .sending []) :
    During nodeList handled answered { s with thread := .waiting } := by
  have hsent := h.sent
  rw [hthread] at hsent
  refine ⟨?_, hsent, h.answers, h.counter⟩
  intro houtside
  cases houtside

/-- A node moves from those on the way to those that have handled `DELEGATE`. -/
theorem during_handleDelegate (h : During nodeList handled answered s) {n : Node}
    (hmem : .delegate n ∈ s.msgs) :
    During nodeList (handled ++ [n]) answered
      { s with msgs := s.msgs.erase (.delegate n) ++ [.delegateAck n] } := by
  obtain ⟨hdelegates, hacks⟩ := erase_delegate hmem
  refine ⟨h.inside, ?_, ?_, h.counter⟩
  · refine List.Perm.trans (List.Perm.append_right _ ?_) h.sent
    show (delegates (s.msgs.erase (.delegate n) ++ [Msg.delegateAck n]) ++ (handled ++ [n])).Perm _
    rw [delegates_append]
    show (delegates (s.msgs.erase (.delegate n)) ++ [] ++ (handled ++ [n])).Perm _
    rw [List.append_nil, ← List.append_assoc]
    exact (List.perm_append_singleton n _).trans (hdelegates.symm.append_right handled)
  · show (acks (s.msgs.erase (.delegate n) ++ [Msg.delegateAck n]) ++ answered).Perm
      (handled ++ [n])
    rw [acks_append]
    have hmove : (acks (s.msgs.erase (.delegate n)) ++ [n] ++ answered).Perm
        (acks (s.msgs.erase (.delegate n)) ++ answered ++ [n]) := by
      rw [List.append_assoc, List.append_assoc]
      exact List.Perm.append_left _ List.perm_append_comm
    have hkeep := (hacks.symm.append_right answered).trans h.answers
    exact hmove.trans (hkeep.append_right [n])

/-- A node is answered. -/
theorem during_handleDelegateAck (h : During nodeList handled answered s) {n : Node}
    (hmem : .delegateAck n ∈ s.msgs) :
    During nodeList handled (answered ++ [n])
      { decrCounter s with msgs := s.msgs.erase (.delegateAck n) } := by
  obtain ⟨hdelegates, hacks⟩ := erase_delegateAck hmem
  refine ⟨h.inside, ?_, ?_, ?_⟩
  · refine List.Perm.trans ?_ h.sent
    exact (hdelegates.symm.append_right handled).append_right s.thread.rest
  · refine List.Perm.trans ?_ h.answers
    show (acks (s.msgs.erase (.delegateAck n)) ++ (answered ++ [n])).Perm _
    rw [← List.append_assoc]
    exact (List.perm_append_singleton n _).trans (hacks.symm.append_right answered)
  · show s.delegateAckCounter - 1 = _
    rw [h.counter, List.length_append, List.length_singleton, BitVec.ofNat_add]
    bv_omega

end Step

/-- What a step during a call does. -/
theorem During.step {nodeList handled answered : List Node} {s s' : State Node} {e : Event Node}
    (h : During nodeList handled answered s) (he : e ≠ .returned)
    (hstep : DelegateBarrier.step s e = some s') :
    During nodeList (handled ++ delegated [e]) (answered ++ acked [e]) s' := by
  cases e with
  | broadcastWait =>
    exfalso
    simp only [DelegateBarrier.step] at hstep
    split at hstep
    · exact h.inside ‹_›
    · cases hstep
  | returned => exact absurd rfl he
  | sendMessage =>
    simp only [DelegateBarrier.step] at hstep
    split at hstep
    · cases hstep
      simpa [delegated, acked] using during_sendMessage h ‹_›
    · cases hstep
  | waitOnCounter =>
    simp only [DelegateBarrier.step] at hstep
    split at hstep
    · cases hstep
      simpa [delegated, acked] using during_waitOnCounter h ‹_›
    · cases hstep
  | handleDelegate n =>
    simp only [DelegateBarrier.step] at hstep
    split_ifs at hstep with hmem
    cases hstep
    simpa [delegated, acked] using during_handleDelegate h hmem
  | handleDelegateAck n =>
    simp only [DelegateBarrier.step] at hstep
    split_ifs at hstep with hmem
    cases hstep
    simpa [delegated, acked] using during_handleDelegateAck h hmem

/-- The counter is 0 only when all nodes have been answered. -/
theorem During.returned {nodeList handled answered : List Node} {s s' : State Node}
    (h : During nodeList handled answered s) (hlen : nodeList.length < 2 ^ 32)
    (hstep : DelegateBarrier.step s .returned = some s') :
    handled.Perm nodeList ∧ answered.Perm nodeList ∧ Quiet s' := by
  simp only [DelegateBarrier.step] at hstep
  split at hstep
  · rename_i hthread
    split_ifs at hstep with hzero
    cases hstep
    have hsent := h.sent
    rw [hthread] at hsent
    have hsentlen := hsent.length_eq
    have hackslen := h.answers.length_eq
    simp only [List.length_append, Thread.rest, List.length_nil] at hsentlen hackslen
    have hcount : nodeList.length = answered.length := by
      have heq : BitVec.ofNat 32 nodeList.length = BitVec.ofNat 32 answered.length := by
        have hsub := h.counter.symm.trans hzero
        bv_omega
      have hnat := congrArg BitVec.toNat heq
      rw [BitVec.toNat_ofNat, BitVec.toNat_ofNat] at hnat
      omega
    have hdelegates : delegates s.msgs = [] := List.length_eq_zero_iff.mp (by omega)
    have hacks : acks s.msgs = [] := List.length_eq_zero_iff.mp (by omega)
    have hmsgs : s.msgs = [] := by
      rw [List.eq_nil_iff_forall_not_mem]
      intro m hm
      cases m with
      | delegate n =>
        have hn : n ∈ delegates s.msgs := List.mem_filterMap.mpr ⟨_, hm, rfl⟩
        rw [hdelegates] at hn
        cases hn
      | delegateAck n =>
        have hn : n ∈ acks s.msgs := List.mem_filterMap.mpr ⟨_, hm, rfl⟩
        rw [hacks] at hn
        cases hn
    rw [hdelegates] at hsent
    have hhandled : handled.Perm nodeList := by simpa [Thread.rest] using hsent
    have hanswered : answered.Perm handled := by simpa [hacks] using h.answers
    exact ⟨hhandled, hanswered.trans hhandled, rfl, hzero, hmsgs⟩
  · cases hstep

/-! ## Runs -/

/-- Between calls, or in a call on a list that is counted. -/
def Inv (s : State Node) : Prop :=
  Quiet s ∨ ∃ nodeList handled answered, nodeList.length < 2 ^ 32 ∧
    During nodeList handled answered s

theorem inv_step {s s' : State Node} {e : Event Node} (h : Inv s) (he : e.Counted)
    (hstep : step s e = some s') : Inv s' := by
  rcases h with h | ⟨nodeList, handled, answered, hlen, h⟩
  · cases e with
    | broadcastWait nodeList nbNodees =>
      have hcount : nbNodees.toNat = nodeList.length := he
      simp only [step, h.thread] at hstep
      cases hstep
      exact Or.inr ⟨nodeList, [], [], hcount ▸ nbNodees.isLt, during_broadcastWait h hcount⟩
    | sendMessage | waitOnCounter | returned =>
      simp only [step, h.thread] at hstep
      cases hstep
    | handleDelegate | handleDelegateAck =>
      simp only [step, h.msgs, List.not_mem_nil, if_false] at hstep
      cases hstep
  · by_cases hreturned : e = .returned
    · subst hreturned
      exact Or.inl (h.returned hlen hstep).2.2
    · exact Or.inr ⟨nodeList, _, _, hlen, h.step hreturned hstep⟩

/-- `broadcast_wait_message` returns only when every node of the list has handled `DELEGATE` and its
acknowledgement has been handled, and then the counter has its value from before the call. -/
theorem broadcastWait_returned {es₁ es₂ : List (Event Node)} {nodeList : List Node}
    {nbNodees : BitVec 32} {s t u : State Node}
    (hcounted : ∀ e ∈ es₁, e.Counted) (hcount : nbNodees.toNat = nodeList.length)
    (hinside : .returned ∉ es₂) (hbefore : Network.run step initState es₁ = some s)
    (hcall : Network.run step s (.broadcastWait nodeList nbNodees :: es₂) = some t)
    (hreturn : step t .returned = some u) :
    (delegated es₂).Perm nodeList ∧ (acked es₂).Perm nodeList ∧
      u.delegateAckCounter = s.delegateAckCounter := by
  obtain ⟨s', hs', hcall⟩ := Network.run_cons_eq_some.mp hcall
  have hinv : Inv s := by
    refine Network.run_invariant (fun s e s' => inv_step) (Or.inl ⟨rfl, rfl, rfl⟩) ?_ hbefore
    exact Network.meets_of_forall hcounted initState
  have hquiet : Quiet s := by
    rcases hinv with h | ⟨_, _, _, _, h⟩
    · exact h
    · exfalso
      simp only [step] at hs'
      split at hs'
      · exact h.inside ‹_›
      · cases hs'
  simp only [step, hquiet.thread] at hs'
  cases hs'
  have hduring : During nodeList (delegated es₂) (acked es₂) t := by
    refine @Network.run_history _ _ step (fun _ e => e ≠ .returned)
      (fun s es => During nodeList (delegated es) (acked es) s) ?_ _ t es₂
      (during_broadcastWait hquiet hcount) (Network.meets_of_forall ?_ _) hcall
    · intro s es e s' h he hstep
      rw [delegated_append, acked_append]
      exact h.step he hstep
    · intro e he heq
      exact hinside (heq ▸ he)
  obtain ⟨hdelegated, hacked, hafter⟩ := hduring.returned (hcount ▸ nbNodees.isLt) hreturn
  exact ⟨hdelegated, hacked, hafter.counter.trans hquiet.counter.symm⟩

/-- The steps of a call on the list of two nodes behind `set_counter`; the first node answers before
`DELEGATE` is sent to the other one. -/
def answersEarly (m n : Node) : List (Event Node) :=
  [.sendMessage, .handleDelegate m, .handleDelegateAck m, .sendMessage, .waitOnCounter,
    .handleDelegate n, .handleDelegateAck n]

/-- The second time that the process leaves. -/
theorem broadcastWait_returned_twice :
    ∃ s t u, Network.run step initState
        (.broadcastWait [1, 2] 2 :: (answersEarly 1 (2 : ℕ) ++ [.returned])) = some s ∧
      Network.run step s (.broadcastWait [3, 4] 2 :: answersEarly 3 4) = some t ∧
      step t .returned = some u ∧ (delegated (answersEarly 3 (4 : ℕ))).Perm [3, 4] ∧
      (acked (answersEarly 3 (4 : ℕ))).Perm [3, 4] ∧
      u.delegateAckCounter = s.delegateAckCounter := by
  refine ⟨initState, ⟨.waiting, 0, []⟩, initState, rfl, rfl, rfl, ?_⟩
  refine @broadcastWait_returned ℕ _ (.broadcastWait [1, 2] 2 :: (answersEarly 1 2 ++ [.returned]))
    (answersEarly 3 4) [3, 4] 2 initState ⟨.waiting, 0, []⟩ initState ?_ rfl ?_ rfl rfl rfl
  · intro e he
    simp only [answersEarly, List.cons_append, List.nil_append, List.mem_cons, List.not_mem_nil,
      or_false] at he
    rcases he with rfl | rfl | rfl | rfl | rfl | rfl | rfl | rfl | rfl
    · exact rfl
    all_goals exact trivial
  · simp [answersEarly]

end DelegateBarrier
