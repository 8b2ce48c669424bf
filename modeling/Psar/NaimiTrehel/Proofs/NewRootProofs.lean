import Psar.NaimiTrehel.NewRoot
import Psar.NaimiTrehel.Proofs.CriticalSectionProofs
import Psar.Library.Proofs.NetworkProofs

/-!
# Proofs: the barrier of `NEW_ROOT_CS_handler`

`acked` is set by the first acknowledgement and not reset in the loop. So the new root waits for the
first node of its list only: for a list of one node this is the barrier, and for a longer one there
is a run in which the leaver goes after one acknowledgement.
-/

namespace NaimiTrehel

variable {Node : Type} [DecidableEq Node] {nodeList : Node → List Node} {r l a : Node}

theorem acksHandled_append (es es' : List (Event Node)) :
    acksHandled r (es ++ es') = acksHandled r es ++ acksHandled r es' := by
  induction es with
  | nil => rfl
  | cons e es ih =>
    cases e with
    | act => exact ih
    | deliver m =>
      cases m with
      | ackCS d sender =>
        simp only [List.cons_append, acksHandled]
        split_ifs
        · rw [ih, List.cons_append]
        · exact ih
      | _ => exact ih

/-! ## One node in the list -/

theorem waitInv_fire {s : Net Node} (h : WaitInv r l a s) {i : Node} {ms rest : List (Msg Node)}
    (hperm : s.msgs.Perm (ms ++ rest)) {x : Peer Node × List (Msg Node)}
    (hroot : i = r → WaitLocal l x.1) (hout : ∀ m ∈ x.2, WaitMsg r l a m) :
    WaitInv r l a (s.fire i rest x) := by
  refine ⟨?_, Network.forall_msgs_fire h.msgs hperm hout⟩
  by_cases hi : r = i
  · subst hi
    rw [Network.fire_node_self]
    exact hroot rfl
  · rw [Network.fire_node_ne s rest x hi]
    exact h.root

/-- What a function does that has nothing to do with the reset. -/
theorem waitInv_fire_of_eq {s : Net Node} (h : WaitInv r l a s) {i : Node}
    {ms rest : List (Msg Node)} (hperm : s.msgs.Perm (ms ++ rest)) {x : Peer Node × List (Msg Node)}
    (hsame : x.1.resetting = (s.node i).resetting ∧ x.1.acked = (s.node i).acked)
    (hout : ∀ m ∈ x.2, WaitMsg r l a m) : WaitInv r l a (s.fire i rest x) := by
  refine waitInv_fire h hperm ?_ hout
  rintro rfl
  exact ⟨hsame.1.trans h.root.1, hsame.2.trans h.root.2⟩

omit [DecidableEq Node] in
/-- Another node resets its own list. -/
theorem waitMsg_resetLoop {i : Node} (hi : i ≠ r) (p : Peer Node) (leaver : Node)
    (rest : List Node) : ∀ m ∈ (resetLoop i p leaver rest).2, WaitMsg r l a m := by
  intro m hm
  rcases (resetLoop_spec i p leaver rest).2 m hm with rfl | ⟨n, -, rfl⟩
  · exact fun h => hi h.2
  · exact fun h => absurd h hi

/-- As long as `r` waits for `a`, a step keeps it waiting, or it is the answer of `a`. -/
theorem waitInv_step {s s' : Net Node} {e : Event Node} (h : WaitInv r l a s)
    (he : ∀ sender, e ≠ .deliver (.newRootCS r sender)) (hstep : step nodeList s e = some s') :
    a ∈ acksHandled r [e] ∨ WaitInv r l a s' := by
  rcases Network.step_cases hstep with ⟨i, act', x, rfl, hx, rfl⟩ | ⟨m, x, rfl, hm, hx, rfl⟩
  · right
    change act i (s.node i) act' = some x at hx
    cases act' with
    | requestCS =>
      cases hx
      rcases requestCS_cases i (s.node i) with ⟨-, heq⟩ | ⟨-, -, heq⟩ | ⟨f, -, -, heq⟩ <;>
        rw [heq] <;>
        exact waitInv_fire_of_eq h (Network.perm_act _) ⟨rfl, rfl⟩ (by simp [WaitMsg])
    | wake =>
      obtain ⟨p', hp', rfl⟩ := Option.map_eq_some_iff.mp hx
      obtain ⟨-, -, rfl⟩ := wake_eq_some hp'
      exact waitInv_fire_of_eq h (Network.perm_act _) ⟨rfl, rfl⟩ (by simp)
    | releaseCS =>
      rcases (releaseCS_cases hx).2 with ⟨-, rfl⟩ | ⟨-, -, rfl⟩ | ⟨n, -, -, rfl⟩ <;>
        exact waitInv_fire_of_eq h (Network.perm_act _) ⟨rfl, rfl⟩ (by simp [WaitMsg])
    | leaveCS newRoot =>
      obtain ⟨-, rfl⟩ := leaveCS_eq_some hx
      exact waitInv_fire_of_eq h (Network.perm_act _) ⟨rfl, rfl⟩ (by simp [WaitMsg])
    | resumeReset reset =>
      simp only [act] at hx
      split_ifs at hx with hcond
      cases hx
      have hi : i ≠ r := by
        rintro rfl
        rw [h.root.2] at hcond
        exact Bool.false_ne_true hcond.2
      exact waitInv_fire h (Network.perm_act _) (fun hir => absurd hir hi)
        (waitMsg_resetLoop hi _ _ _)
  · have hmsg := h.msgs m hm
    have hperm := Network.perm_deliver hm
    change handle nodeList m.dest (s.node m.dest) m = some x at hx
    cases m with
    | requestCS d sender y =>
      right
      cases hx
      rcases requestCSHandler_cases d (s.node d) y with ⟨-, heq⟩ | ⟨-, -, -, heq⟩ | ⟨-, -, -, heq⟩ |
        ⟨f, -, -, heq⟩ <;>
        exact waitInv_fire_of_eq h hperm (by rw [Msg.dest, heq]; exact ⟨rfl, rfl⟩)
          (by rw [Msg.dest, heq]; simp [WaitMsg])
    | getCS d sender | leaveCS d sender =>
      right
      cases hx
      exact waitInv_fire_of_eq h hperm ⟨rfl, rfl⟩ (by simp)
    | newRootCS d sender =>
      right
      cases hx
      have hd : d ≠ r := by
        rintro rfl
        exact he sender rfl
      exact waitInv_fire h hperm (fun hdr => absurd hdr hd) (waitMsg_resetLoop hd _ _ _)
    | resetCS d sender =>
      right
      cases hx
      have hack : WaitMsg r l a (.ackCS sender d) := hmsg
      rcases resetCSHandler_cases d (s.node d) sender with ⟨-, heq⟩ | ⟨-, heq⟩
      · refine waitInv_fire h hperm ?_ ?_
        · rintro rfl
          rw [Msg.dest, heq]
          exact ⟨h.root.1, rfl⟩
        · rw [Msg.dest, heq]
          simpa [WaitMsg] using hack
      · refine waitInv_fire h hperm ?_ ?_
        · rintro rfl
          rw [Msg.dest, heq]
          exact ⟨h.root.1, rfl⟩
        · rw [Msg.dest, heq]
          simpa [WaitMsg] using hack
    | ackCS d sender =>
      cases hx
      by_cases hd : d = r
      · left
        rw [acksHandled, if_pos hd, hmsg hd]
        exact List.mem_cons_self
      · right
        exact waitInv_fire h hperm (fun hdr => absurd hdr hd) (by simp)

/-- `NEW_ROOT_CS_handler` sends the first `RESET_CS` and waits. -/
theorem step_newRootCS {s : Net Node} (h : Announced r l s) {rest : List Node}
    (hlist : nodeList r = a :: rest) :
    step nodeList s (.deliver (.newRootCS r l)) =
      some (s.fire r (s.msgs.erase (.newRootCS r l))
        ({ initInternalData (s.node r) none true (s.node r).requesting with
          resetting := [⟨l, rest⟩] }, [.resetCS a r])) := by
  have hhandle : newRootCSHandler r (nodeList r) (s.node r) l =
      ({ initInternalData (s.node r) none true (s.node r).requesting with
        resetting := [⟨l, rest⟩] }, [.resetCS a r]) := by
    unfold newRootCSHandler
    rw [hlist]
    simp [resetLoop, initInternalData, h.resetting]
  exact Network.step_deliver h.newRoot (congrArg some hhandle)

/-- `NEW_ROOT_CS_handler` for a list of one node. -/
theorem waitInv_start {s s' : Net Node} (h : Announced r l s) (hlist : nodeList r = [a])
    (hstep : step nodeList s (.deliver (.newRootCS r l)) = some s') : WaitInv r l a s' := by
  rw [step_newRootCS h hlist] at hstep
  cases hstep
  refine ⟨?_, Network.forall_msgs_fire ?_ (Network.perm_deliver h.newRoot) ?_⟩
  · rw [Network.fire_node_self]
    exact ⟨rfl, rfl⟩
  · intro m hm
    cases m with
    | resetCS d sender =>
      rintro rfl
      exact absurd hm (h.resetCS d)
    | ackCS d sender =>
      rintro rfl
      exact absurd hm (h.ackCS sender)
    | leaveCS d sender =>
      rintro ⟨rfl, rfl⟩
      exact h.leaveCS hm
    | _ => trivial
  · simp [WaitMsg]

theorem barrier_of_single {s : Net Node} (h : Announced r l s) (hlist : nodeList r = [a]) :
    Barrier nodeList r l s := by
  intro s' es t hstep hes hrun hleave
  have hinv : a ∈ acksHandled r es ∨ WaitInv r l a t := by
    refine @Network.run_history _ _ (step nodeList) (fun _ e => ∀ x, e ≠ .deliver (.newRootCS r x))
      (fun s es => a ∈ acksHandled r es ∨ WaitInv r l a s) ?_ s' t es
      (Or.inr (waitInv_start h hlist hstep)) (Network.meets_of_forall ?_ s') hrun
    · intro s es e s' hs he hstep
      rw [acksHandled_append]
      rcases hs with hs | hs
      · exact Or.inl (List.mem_append_left _ hs)
      · exact (waitInv_step hs he hstep).imp_left (List.mem_append_right _)
    · rintro e he x rfl
      exact hes x he
  rw [hlist, List.singleton_subperm_iff]
  rcases hinv with hinv | hinv
  · exact hinv
  · exact absurd ⟨rfl, rfl⟩ (hinv.msgs _ hleave)

/-! ## Two or more nodes in the list -/

omit [DecidableEq Node] in
/-- Once `acked` is set the loop runs to its end. -/
theorem leaveCS_mem_resetLoop {i leaver : Node} {p : Peer Node} (h : p.acked = true)
    (rest : List Node) : .leaveCS leaver i ∈ (resetLoop i p leaver rest).2 := by
  induction rest with
  | nil => exact List.mem_singleton_self _
  | cons n rest ih =>
    have heq : (resetLoop i p leaver (n :: rest)).2 =
        .resetCS n i :: (resetLoop i p leaver rest).2 := by
      simp [resetLoop, h]
    rw [heq]
    exact List.mem_cons_of_mem _ ih

omit [DecidableEq Node] in
/-- Either branch of `RESET_CS_handler` answers, and leaves the loops of its node alone. -/
theorem resetCSHandler_answer (i : Node) (p : Peer Node) (sender : Node) :
    (resetCSHandler i p sender).1.resetting = p.resetting ∧
      .ackCS sender i ∈ (resetCSHandler i p sender).2 := by
  rcases resetCSHandler_cases i p sender with ⟨-, heq⟩ | ⟨-, heq⟩ <;> rw [heq] <;>
    exact ⟨rfl, List.mem_cons_self⟩

/-- One acknowledgement, and the new root lets the leaver go. -/
theorem exists_early_leave {s : Net Node} (h : Announced r l s) {rest : List Node}
    (hlist : nodeList r = a :: rest) :
    ∃ s' t, step nodeList s (.deliver (.newRootCS r l)) = some s' ∧
      Network.run (step nodeList) s' (firstAnswer r l a rest) = some t ∧ .leaveCS l r ∈ t.msgs := by
  -- the new root waits for `a`
  obtain ⟨s₁, hfirst, hroot₁, hreset⟩ : ∃ s₁,
      step nodeList s (.deliver (.newRootCS r l)) = some s₁ ∧
      (s₁.node r).resetting = [⟨l, rest⟩] ∧ .resetCS a r ∈ s₁.msgs := by
    refine ⟨_, step_newRootCS h hlist, ?_, ?_⟩
    · rw [Network.fire_node_self]
    · rw [Network.fire_msgs]
      exact List.mem_append_right _ (List.mem_singleton_self _)
  -- `a` answers
  obtain ⟨s₂, hsecond, hroot₂, hack⟩ : ∃ s₂,
      step nodeList s₁ (.deliver (.resetCS a r)) = some s₂ ∧
      (s₂.node r).resetting = [⟨l, rest⟩] ∧ .ackCS r a ∈ s₂.msgs := by
    have hanswer := resetCSHandler_answer a (s₁.node a) r
    refine ⟨s₁.fire a (s₁.msgs.erase (.resetCS a r)) (resetCSHandler a (s₁.node a) r),
      Network.step_deliver hreset rfl, ?_, ?_⟩
    · by_cases har : r = a
      · subst har
        rw [Network.fire_node_self, hanswer.1, hroot₁]
      · rw [Network.fire_node_ne _ _ _ har, hroot₁]
    · rw [Network.fire_msgs]
      exact List.mem_append_right _ hanswer.2
  -- the answer is handled
  obtain ⟨s₃, hthird, hnode₃⟩ : ∃ s₃, step nodeList s₂ (.deliver (.ackCS r a)) = some s₃ ∧
      s₃.node r = ackCSHandler (s₂.node r) := by
    refine ⟨s₂.fire r (s₂.msgs.erase (.ackCS r a)) (ackCSHandler (s₂.node r), []),
      Network.step_deliver hack rfl, ?_⟩
    rw [Network.fire_node_self]
  have hacked : (s₃.node r).acked = true := by
    rw [hnode₃]
    rfl
  have hwaits : ⟨l, rest⟩ ∈ (s₃.node r).resetting := by
    rw [hnode₃]
    show _ ∈ (s₂.node r).resetting
    rw [hroot₂]
    exact List.mem_singleton_self _
  -- the loop goes on to its end
  obtain ⟨t, hfourth, hleave⟩ : ∃ t,
      step nodeList s₃ (.act r (.resumeReset ⟨l, rest⟩)) = some t ∧ .leaveCS l r ∈ t.msgs := by
    refine ⟨_, Network.step_act (if_pos ⟨hwaits, hacked⟩), ?_⟩
    rw [Network.fire_msgs]
    refine List.mem_append_right _ (leaveCS_mem_resetLoop ?_ rest)
    exact hacked
  refine ⟨s₁, t, hfirst, ?_, hleave⟩
  exact Network.run_cons_eq_some.mpr ⟨s₂, hsecond, Network.run_cons_eq_some.mpr
    ⟨s₃, hthird, Network.run_cons_eq_some.mpr ⟨t, hfourth, rfl⟩⟩⟩

/-- `LEAVE_CS` is sent only after every node of the list has answered if and only if the list has at
most one node. -/
theorem newRoot_barrier_iff {s : Net Node} (h : Announced r l s) :
    Barrier nodeList r l s ↔ (nodeList r).length ≤ 1 := by
  cases hlist : nodeList r with
  | nil =>
    refine iff_of_true ?_ (Nat.zero_le 1)
    intro s' es t _ _ _ _
    rw [hlist]
    exact List.nil_subperm
  | cons a rest =>
    cases rest with
    | nil => exact iff_of_true (barrier_of_single h hlist) le_rfl
    | cons b rest =>
      refine iff_of_false ?_ (by simp)
      intro hbarrier
      obtain ⟨s', t, hstep, hrun, hleave⟩ := exists_early_leave h hlist
      have hsub := hbarrier s' _ t hstep (by simp [firstAnswer]) hrun hleave
      have hacks : acksHandled r (firstAnswer r l a (b :: rest)) = [a] := by
        simp [firstAnswer, acksHandled]
      rw [hlist, hacks] at hsub
      have hlen := hsub.length_le
      simp at hlen

/-- The node 0 leaves through the node 1, which has the node 2 in its list. -/
theorem newRoot_barrier_one :
    ∃ s, Network.run (step fun _ => [2]) (initNet fun _ => 0) (leaves (0 : Fin 3) 1) = some s ∧
      Barrier (fun _ => [2]) 1 0 s := by
  have hrun : Network.run (step fun _ => [2]) (initNet fun _ => 0) (leaves (0 : Fin 3) 1) =
      some _ := rfl
  refine ⟨_, hrun, (newRoot_barrier_iff ?_).mpr le_rfl⟩
  constructor <;> decide

/-- With the nodes 1 and 2 in the list of the new root 0 the node 3 leaves after the answer of the
node 1. -/
theorem newRoot_leaves_early :
    ∃ s s' t, Network.run (step fun _ => [1, 2]) (initNet fun _ => 3) (leaves (3 : Fin 4) 0) =
        some s ∧ Announced 0 3 s ∧
      step (fun _ => [1, 2]) s (.deliver (.newRootCS 0 3)) = some s' ∧
      Network.run (step fun _ => [1, 2]) s' (firstAnswer 0 3 1 [2]) = some t ∧
      .leaveCS 3 0 ∈ t.msgs ∧ acksHandled 0 (firstAnswer (0 : Fin 4) 3 1 [2]) = [1] ∧
      ¬Barrier (fun _ => [1, 2]) 0 3 s := by
  refine ⟨_, _, _, rfl, ?_, rfl, rfl, by decide, rfl, ?_⟩
  · constructor <;> decide
  · intro hbarrier
    have hsub := hbarrier _ (firstAnswer 0 3 1 [2]) _ rfl (by decide) rfl (by decide)
    exact absurd hsub.length_le (by decide)

end NaimiTrehel
