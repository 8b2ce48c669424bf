import Psar.Membership.NodeCount
import Psar.Library.Proofs.NetworkProofs

/-!
# Proofs: the counter of the members

`add_to_nodes` and `remove_node` move the list and the counter together; `init_nodes` moves the list
alone. `leave_last` wakes up when one member is left.
-/

namespace NodeCount

variable {Node : Type} [DecidableEq Node]

/-! ## The counter over the lifetimes -/

omit [DecidableEq Node] in
theorem addToNodes_matches {s : State Node} (h : s.Matches) (n : Node) :
    (addToNodes s n).Matches ↔ s.nodeList.length + 1 < 2 ^ 32 := by
  have hlt := s.nbNodees.isLt
  unfold State.Matches at h ⊢
  show (s.nbNodees + 1).toNat = (n :: s.nodeList).length ↔ _
  rw [BitVec.toNat_add, List.length_cons, h]
  show (s.nodeList.length + 1) % 2 ^ 32 = s.nodeList.length + 1 ↔ _
  omega

/-- What `remove_node` does to the list and the counter. -/
theorem removeNode_eq (s : State Node) (n : Node) :
    (removeNode s n).nodeList = s.nodeList.erase n ∧
      (removeNode s n).nbNodees = if n ∈ s.nodeList then s.nbNodees - 1 else s.nbNodees := by
  unfold removeNode
  by_cases hn : n ∈ s.nodeList
  · rw [if_pos hn, if_pos hn]
    dsimp only
    split_ifs <;> exact ⟨rfl, rfl⟩
  · rw [if_neg hn, if_neg hn, List.erase_of_not_mem hn]
    exact ⟨rfl, rfl⟩

theorem removeNode_matches {s : State Node} (h : s.Matches) (n : Node) :
    (removeNode s n).Matches := by
  obtain ⟨hlist, hcount⟩ := removeNode_eq s n
  unfold State.Matches at h ⊢
  rw [hlist, hcount]
  by_cases hn : n ∈ s.nodeList
  · have hpos := List.length_pos_of_mem hn
    have hlt := s.nbNodees.isLt
    rw [if_pos hn, List.length_erase_of_mem hn, BitVec.toNat_sub, ← h]
    show (2 ^ 32 - 1 + s.nbNodees.toNat) % 2 ^ 32 = _
    omega
  · rw [if_neg hn, List.erase_of_not_mem hn]
    exact h

/-- Behind one call the counter is right if and only if the call is clean. -/
theorem step_matches {p p' : Process Node} {e : Event Node} (h : p.globals.Matches)
    (hstep : step p e = some p') : p'.globals.Matches ↔ clean p e := by
  cases e with
  | initNodes =>
    simp only [step] at hstep
    split_ifs at hstep
    cases hstep
    unfold State.Matches at h ⊢
    show p.globals.nbNodees.toNat = 0 ↔ p.globals.nodeList = []
    rw [h, List.length_eq_zero_iff]
  | addToNodes n =>
    simp only [step] at hstep
    split_ifs at hstep
    cases hstep
    exact addToNodes_matches h n
  | removeNode n =>
    simp only [step] at hstep
    split_ifs at hstep
    cases hstep
    exact iff_of_true (removeNode_matches h n) trivial
  | leaveLast =>
    simp only [step] at hstep
    split_ifs at hstep
    cases hstep
    exact iff_of_true h trivial
  | freeNodes =>
    simp only [step] at hstep
    split_ifs at hstep
    cases hstep
    exact iff_of_true h trivial

omit [DecidableEq Node] in
/-- A call that is not compared is clean. -/
theorem clean_of_not_counted {p : Process Node} {e : Event Node} (h : e.counted = false) :
    clean p e := by
  cases e with
  | initNodes | addToNodes | removeNode => cases h
  | leaveLast | freeNodes => trivial

/-- The states behind the calls of a run that are compared. -/
theorem forall_counted_cons {P : Process Node → Prop} {p : Process Node} {e : Event Node}
    {es : List (Event Node)} :
    (∀ es₁ e', es₁ ++ [e'] <+: e :: es → e'.counted →
        ∀ q, Network.run step p (es₁ ++ [e']) = some q → P q) ↔
      (∀ p', step p e = some p' → (e.counted → P p') ∧
        ∀ es₁ e', es₁ ++ [e'] <+: es → e'.counted →
          ∀ q, Network.run step p' (es₁ ++ [e']) = some q → P q) := by
  constructor
  · intro h p' hp'
    refine ⟨?_, ?_⟩
    · intro he
      exact h [] e (List.cons_prefix_cons.mpr ⟨rfl, List.nil_prefix⟩) he p'
        (Network.run_cons_eq_some.mpr ⟨p', hp', rfl⟩)
    · intro es₁ e' hprefix he' q hq
      exact h (e :: es₁) e' (List.cons_prefix_cons.mpr ⟨rfl, hprefix⟩) he' q
        (Network.run_cons_eq_some.mpr ⟨p', hp', hq⟩)
  · intro h es₁ e' hprefix he' q hq
    cases es₁ with
    | nil =>
      obtain ⟨rfl, -⟩ := List.cons_prefix_cons.mp hprefix
      obtain ⟨p', hp', hrun⟩ := Network.run_cons_eq_some.mp hq
      cases hrun
      exact (h _ hp').1 he'
    | cons e'' es₁ =>
      obtain ⟨rfl, hprefix'⟩ := List.cons_prefix_cons.mp hprefix
      obtain ⟨p', hp', hrun⟩ := Network.run_cons_eq_some.mp hq
      exact (h p' hp').2 es₁ e' hprefix' he' q hrun

theorem forall_counted_iff {p q : Process Node} (h : p.globals.Matches) {es : List (Event Node)}
    (hrun : Network.run step p es = some q) :
    (∀ es₁ e, es₁ ++ [e] <+: es → e.counted →
        ∀ q, Network.run step p (es₁ ++ [e]) = some q → q.globals.Matches) ↔
      Network.Meets step clean p es := by
  induction es generalizing p with
  | nil =>
    refine iff_of_true ?_ trivial
    intro es₁ e hprefix
    have hnil := List.prefix_nil.mp hprefix
    simp at hnil
  | cons e es ih =>
    obtain ⟨p', hp', hrun⟩ := Network.run_cons_eq_some.mp hrun
    have hstep := step_matches h hp'
    rw [forall_counted_cons]
    constructor
    · intro hall
      have hclean : clean p e := by
        cases he : e.counted with
        | true => exact hstep.mp ((hall p' hp').1 he)
        | false => exact clean_of_not_counted he
      refine ⟨hclean, ?_⟩
      intro p'' hp''
      exact (ih (step_matches h hp'' |>.mpr hclean)
        (Option.some.inj (hp'.symm.trans hp'') ▸ hrun)).mp (hall p'' hp'').2
    · rintro ⟨hclean, hmeets⟩ p'' hp''
      have hmatches := (step_matches h hp'').mpr hclean
      exact ⟨fun _ => hmatches, (ih hmatches
        (Option.some.inj (hp'.symm.trans hp'') ▸ hrun)).mpr (hmeets p'' hp'')⟩

/-- The counter is right behind every call if and only if every lifetime begins with the empty list
of the last one, and the list can be counted. -/
theorem nodeCount_matches_iff {es : List (Event Node)} {q : Process Node}
    (hrun : Network.run step initProcess es = some q) :
    AlwaysMatches es ↔ Network.Meets step clean initProcess es :=
  forall_counted_iff (p := initProcess) rfl hrun

/-- A node joins, and leaves as the last one. -/
theorem nodeCount_matches_twice :
    AlwaysMatches [.initNodes, .addToNodes 1, .removeNode 1, .leaveLast, .initNodes,
      .addToNodes (2 : ℕ)] :=
  (nodeCount_matches_iff (q := ⟨true, ⟨[2], 1, false, false⟩⟩) rfl).mpr (by decide)

/-- A node joins through 1, leaves, and starts a memory of its own: the counter is 1 and the list is
empty. -/
theorem nodeCount_stale :
    ¬AlwaysMatches [.initNodes, .addToNodes (1 : ℕ), .freeNodes, .initNodes] := by
  intro h
  have hcount : 1 = 0 := h [.initNodes, .addToNodes 1, .freeNodes] .initNodes List.prefix_rfl rfl
    ⟨true, ⟨[], 1, false, false⟩⟩ rfl
  omega

/-! ## `leave_last` -/

omit [DecidableEq Node] in
theorem leaveLast_waits (nodeList : List Node) : Waits (leaveLast (memberOf nodeList)) :=
  ⟨rfl, rfl, rfl⟩

omit [DecidableEq Node] in
/-- As long as `leave_last` waits, it should if there is an entry. -/
theorem Waits.exact_iff {s : State Node} (h : Waits s) : Exact s ↔ s.nodeList ≠ [] := by
  unfold Exact State.GoesOn
  rw [h.cv2]
  simp

omit [DecidableEq Node] in
theorem Waits.add {s : State Node} (h : Waits s) (n : Node) : Waits (addToNodes s n) := by
  refine ⟨?_, h.leaveAll, h.cv2⟩
  show s.nbNodees + 1 = BitVec.ofNat 32 (s.nodeList.length + 1)
  rw [h.count, BitVec.ofNat_add]
  rfl

omit [DecidableEq Node] in
/-- The counter when a node has gone. -/
theorem Waits.count_pred {s : State Node} (h : Waits s) {n : Node} (hn : n ∈ s.nodeList) :
    s.nbNodees - 1 = BitVec.ofNat 32 (s.nodeList.length - 1) := by
  have hpos := List.length_pos_of_mem hn
  apply BitVec.eq_of_toNat_eq
  rw [h.count, BitVec.toNat_sub, BitVec.toNat_ofNat, BitVec.toNat_ofNat]
  show (2 ^ 32 - 1 + s.nodeList.length % 2 ^ 32) % 2 ^ 32 = _
  omega

omit [DecidableEq Node] in
/-- The test in `remove_node`. -/
theorem Waits.signals_iff {s : State Node} (h : Waits s) {n : Node} (hn : n ∈ s.nodeList) :
    (s.nbNodees - 1 = 1 ∧ s.leaveAll = true) ↔ (s.nodeList.length - 1) % 2 ^ 32 = 1 := by
  rw [h.count_pred hn, ← BitVec.toNat_inj, BitVec.toNat_ofNat, h.leaveAll]
  exact and_iff_left rfl

/-- A node goes, and one is counted as left: `leave_last` goes on. -/
theorem Waits.remove_last {s : State Node} (h : Waits s) {n : Node} (hn : n ∈ s.nodeList)
    (hlast : (s.nodeList.length - 1) % 2 ^ 32 = 1) : (removeNode s n).GoesOn := by
  unfold removeNode State.GoesOn
  rw [if_pos hn]
  dsimp only
  rw [if_pos ((h.signals_iff hn).mpr hlast)]

/-- A node goes, and `leave_last` waits on. -/
theorem Waits.remove_more {s : State Node} (h : Waits s) {n : Node}
    (hmore : n ∈ s.nodeList → (s.nodeList.length - 1) % 2 ^ 32 ≠ 1) : Waits (removeNode s n) := by
  unfold removeNode
  by_cases hn : n ∈ s.nodeList
  · rw [if_pos hn]
    dsimp only
    rw [if_neg fun hsignal => hmore hn ((h.signals_iff hn).mp hsignal)]
    refine ⟨?_, h.leaveAll, h.cv2⟩
    show s.nbNodees - 1 = BitVec.ofNat 32 (s.nodeList.erase n).length
    rw [h.count_pred hn, List.length_erase_of_mem hn]
  · rw [if_neg hn]
    exact h

/-- While `leave_last` waits for the nodes of a list that is not empty, a step is exact if and only
if more than one node is left behind. -/
theorem waitStep_exact {s s' : State Node} {e : Event Node} (h : Waits s) (hne : s.nodeList ≠ [])
    (hstep : waitStep s e = some s') :
    (Exact s' ↔ leavesMore s e) ∧ (leavesMore s e → Waits s' ∧ s'.nodeList ≠ []) := by
  unfold waitStep at hstep
  rw [h.cv2, if_neg Bool.false_ne_true] at hstep
  cases e with
  | addToNodes n =>
    cases hstep
    have hwaits := h.add n
    have hcons : (addToNodes s n).nodeList ≠ [] := List.cons_ne_nil n s.nodeList
    exact ⟨iff_of_true (hwaits.exact_iff.mpr hcons) trivial, fun _ => ⟨hwaits, hcons⟩⟩
  | removeNode n =>
    cases hstep
    have hlist : (removeNode s n).nodeList = s.nodeList.erase n := (removeNode_eq s n).1
    by_cases hn : n ∈ s.nodeList
    · have hlength := List.length_erase_of_mem hn
      have hempty : (removeNode s n).nodeList = [] ↔ s.nodeList.length - 1 = 0 := by
        rw [hlist, ← List.length_eq_zero_iff, hlength]
      have hpos := List.length_pos_of_mem hn
      by_cases hlast : (s.nodeList.length - 1) % 2 ^ 32 = 1
      · have hgoes := h.remove_last hn hlast
        have hleft : (removeNode s n).nodeList ≠ [] := by
          rw [Ne, hempty]
          omega
        refine ⟨iff_of_false ?_ ?_, ?_⟩
        · exact fun hexact => hleft (hexact.mp hgoes)
        · exact fun hmore => (hmore hn).2 hlast
        · exact fun hmore => absurd hlast (hmore hn).2
      · have hwaits := h.remove_more (n := n) fun _ => hlast
        have hiff : (removeNode s n).nodeList ≠ [] ↔ leavesMore s (.removeNode n) := by
          rw [Ne, hempty]
          constructor
          · intro hzero _
            exact ⟨by omega, hlast⟩
          · intro hmore hzero
            exact (hmore hn).1 (by omega)
        exact ⟨hwaits.exact_iff.trans hiff, fun hmore => ⟨hwaits, hiff.mpr hmore⟩⟩
    · have hsame : (removeNode s n).nodeList = s.nodeList := by
        rw [hlist, List.erase_of_not_mem hn]
      have hwaits := h.remove_more fun hn' => absurd hn' hn
      rw [← hsame] at hne
      exact ⟨iff_of_true (hwaits.exact_iff.mpr hne) fun hn' => absurd hn' hn,
        fun _ => ⟨hwaits, hne⟩⟩
  | initNodes | leaveLast | freeNodes => cases hstep

theorem exact_iff_meets {s t : State Node} (h : Waits s) (hne : s.nodeList ≠ [])
    {es : List (Event Node)} (hrun : Network.run waitStep s es = some t) :
    (∀ es₁, es₁ <+: es → ∀ u, Network.run waitStep s es₁ = some u → Exact u) ↔
      Network.Meets waitStep leavesMore s es := by
  induction es generalizing s with
  | nil =>
    refine iff_of_true ?_ trivial
    intro es₁ hprefix u hu
    rw [List.prefix_nil.mp hprefix] at hu
    cases hu
    exact h.exact_iff.mpr hne
  | cons e es ih =>
    obtain ⟨s', hs', hrun⟩ := Network.run_cons_eq_some.mp hrun
    obtain ⟨hexact, hwaits⟩ := waitStep_exact h hne hs'
    rw [Network.forall_prefix_cons]
    constructor
    · rintro ⟨-, hall⟩
      have hmore := hexact.mp (hall s' hs' [] List.nil_prefix s' rfl)
      refine ⟨hmore, ?_⟩
      intro s'' hs''
      rw [Option.mem_def, hs'] at hs''
      cases hs''
      exact (ih (hwaits hmore).1 (hwaits hmore).2 hrun).mp (hall s' hs')
    · rintro ⟨hmore, hmeets⟩
      refine ⟨h.exact_iff.mpr hne, ?_⟩
      intro s'' hs''
      rw [hs'] at hs''
      cases hs''
      exact (ih (hwaits hmore).1 (hwaits hmore).2 hrun).mpr (hmeets s' hs')

/-- While nodes come and go, `leave_last` goes on exactly when the list is empty, if and only if
there is an entry at the call and no node leaves an empty list or one entry behind. -/
theorem leaveLast_exact_iff (nodeList : List Node) {es : List (Event Node)} {t : State Node}
    (hrun : Network.run waitStep (leaveLast (memberOf nodeList)) es = some t) :
    (∀ es₁, es₁ <+: es → ∀ s, Network.run waitStep (leaveLast (memberOf nodeList)) es₁ = some s →
        Exact s) ↔
      nodeList ≠ [] ∧ Network.Meets waitStep leavesMore (leaveLast (memberOf nodeList)) es := by
  by_cases hne : nodeList = []
  · subst hne
    refine iff_of_false ?_ fun h => h.1 rfl
    intro hall
    exact (leaveLast_waits []).exact_iff.mp (hall [] List.nil_prefix _ rfl) rfl
  · rw [exact_iff_meets (leaveLast_waits nodeList) hne hrun]
    exact (and_iff_right hne).symm

/-- Of three nodes one goes: `leave_last` waits for the other two. -/
theorem leaveLast_exact_three :
    Network.run waitStep (leaveLast (memberOf [1, 2, (3 : ℕ)])) [.removeNode 1] =
        some ⟨[2, 3], 2, true, false⟩ ∧
      ∀ es₁, es₁ <+: [Event.removeNode 1] → ∀ s,
        Network.run waitStep (leaveLast (memberOf [1, 2, (3 : ℕ)])) es₁ = some s → Exact s := by
  have hrun : Network.run waitStep (leaveLast (memberOf [1, 2, (3 : ℕ)])) [.removeNode 1] =
      some ⟨[2, 3], 2, true, false⟩ := rfl
  refine ⟨hrun, (leaveLast_exact_iff [1, 2, 3] hrun).mpr ⟨by simp, ?_⟩⟩
  exact ⟨fun _ => ⟨by decide, by decide⟩, fun _ _ => trivial⟩

/-- On an empty list `leave_last` waits; and of two nodes one goes, and `leave_last` goes on with
the other one left. -/
theorem leaveLast_inexact :
    ¬Exact (leaveLast (memberOf ([] : List ℕ))) ∧
      ∃ s, Network.run waitStep (leaveLast (memberOf [1, (2 : ℕ)])) [.removeNode 1] = some s ∧
        s.GoesOn ∧ s.nodeList = [2] := by
  refine ⟨?_, ⟨[2], 1, true, true⟩, rfl, rfl, rfl⟩
  intro h
  have hfalse : false = true := h.mpr rfl
  cases hfalse

/-! ## The list in `Membership` and in `InfoDSM` -/

omit [DecidableEq Node] in
theorem ofPeer_addToNodes (p : Membership.Peer Node) (n : Node) :
    ofPeer (Membership.addToNodes p n) = addToNodes (ofPeer p) n := by
  unfold ofPeer addToNodes Membership.addToNodes
  rw [BitVec.ofNat_add]
  rfl

theorem ofPeer_removeNode {p : Membership.Peer Node} (hcount : p.nbNodees = p.nodeList.length)
    (n : Node) : ofPeer (Membership.removeNode p n) = removeNode (ofPeer p) n := by
  by_cases hn : n ∈ p.nodeList
  · have hpos := List.length_pos_of_mem hn
    have hpred : BitVec.ofNat 32 (p.nbNodees - 1) = BitVec.ofNat 32 p.nbNodees - 1 := by
      apply BitVec.eq_of_toNat_eq
      rw [BitVec.toNat_sub, BitVec.toNat_ofNat, BitVec.toNat_ofNat]
      show _ = (2 ^ 32 - 1 + p.nbNodees % 2 ^ 32) % 2 ^ 32
      omega
    simp [ofPeer, removeNode, Membership.removeNode, hn, hpred]
  · simp [ofPeer, removeNode, Membership.removeNode, hn]

theorem ofJoiner_addToNodes (j : InfoDSM.Joiner) (n : SendState.NodeId) :
    ofJoiner (InfoDSM.addToNodes j n) = addToNodes (ofJoiner j) n := rfl

end NodeCount
