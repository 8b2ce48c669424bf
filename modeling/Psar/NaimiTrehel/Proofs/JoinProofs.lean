import Psar.NaimiTrehel.Join
import Psar.NaimiTrehel.Proofs.LeaveProofs

/-!
# Proofs: the token with nodes that join

A run with joins is a run of the nodes together, so there is one token at every time.
-/

namespace NaimiTrehel

variable {Node : Type} [DecidableEq Node]

/-! ## Runs with joins -/

section Simulation

variable {nodeList : Node → List Node} {G : Node → Node} {s s' t : JoinNet Node}

omit [DecidableEq Node] in
theorem view_node_of_some {i : Node} {p : Peer Node} (h : s.node i = some p) :
    (view G s).node i = p := by
  simp [view, h]

/-- A node that has started moves. -/
theorem view_fire (i : Node) (rest : List (Msg Node)) (r : Peer Node × List (Msg Node)) :
    view G (s.fire i rest (started r)) = (view G s).fire i rest r := by
  unfold view Network.Net.fire started
  congr 1
  funext j
  by_cases hj : j = i
  · subst hj
    simp
  · simp [hj]

/-- A step of a thread or a handler is the same step of the nodes together. -/
theorem step_view {e : JoinEvent Node} {e' : Event Node} (he : plain e = some e')
    (h : joinStep nodeList s e = some s') (G : Node → Node) :
    step nodeList (view G s) e' = some (view G s') := by
  rcases Network.step_cases h with ⟨i, a, r, rfl, hr, rfl⟩ | ⟨m, r, rfl, hm, hr, rfl⟩
  · change joinAct i (s.node i) a = some r at hr
    cases a with
    | join contact => cases he
    | thread a =>
      cases he
      cases hp : s.node i with
      | none =>
        rw [hp] at hr
        cases hr
      | some p =>
        rw [hp] at hr
        obtain ⟨r', hr', rfl⟩ := Option.map_eq_some_iff.mp hr
        rw [view_fire]
        apply Network.step_act
        rw [view_node_of_some hp]
        exact hr'
  · cases he
    change (s.node m.dest).bind _ = some r at hr
    obtain ⟨p, hp, hr⟩ := Option.bind_eq_some_iff.mp hr
    obtain ⟨r', hr', rfl⟩ := Option.map_eq_some_iff.mp hr
    rw [view_fire]
    apply Network.step_deliver (P := protocol nodeList) (s := view G s) hm
    show handle nodeList m.dest ((view G s).node m.dest) m = some r'
    rw [view_node_of_some hp]
    exact hr'

theorem joinStep_join {i contact : Node}
    (h : joinStep nodeList s (.act i (.join contact)) = some s') :
    s.node i = none ∧
      s' = s.fire i s.msgs (some (initCS (some contact) false false), []) := by
  obtain ⟨r, hr, rfl⟩ := Option.map_eq_some_iff.mp h
  change joinAct i (s.node i) (.join contact) = some r at hr
  cases hp : s.node i with
  | none =>
    rw [hp] at hr
    cases hr
    exact ⟨rfl, rfl⟩
  | some p =>
    rw [hp] at hr
    cases hr

/-- A join is no step of the nodes together, if the node has pointed to its contact before. -/
theorem view_join {i contact : Node} (hi : s.node i = none) :
    view G (s.fire i s.msgs (some (initCS (some contact) false false), [])) =
      view (Function.update G i contact) s := by
  unfold view Network.Net.fire
  congr 1
  · funext j
    by_cases hj : j = i
    · subst hj
      simp [hi]
    · simp [hj]
  · simp

/-- A node that has started stays so. -/
theorem isSome_of_step {e : JoinEvent Node} (h : joinStep nodeList s e = some s') {i : Node}
    (hi : (s.node i).isSome) : (s'.node i).isSome := by
  have hfire : ∀ (j : Node) (rest : List (Msg Node)) (r : Option (Peer Node) × List (Msg Node)),
      r.1.isSome → ((s.fire j rest r).node i).isSome := by
    intro j rest r hr
    by_cases hij : i = j
    · subst hij
      rw [Network.fire_node_self]
      exact hr
    · rw [Network.fire_node_ne _ _ _ hij]
      exact hi
  rcases Network.step_cases h with ⟨j, a, r, rfl, hr, rfl⟩ | ⟨m, r, rfl, hm, hr, rfl⟩
  · apply hfire
    change joinAct j (s.node j) a = some r at hr
    unfold joinAct at hr
    split at hr
    · cases hr
      rfl
    · obtain ⟨r, -, rfl⟩ := Option.map_eq_some_iff.mp hr
      rfl
    · cases hr
  · apply hfire
    obtain ⟨p, -, hr⟩ := Option.bind_eq_some_iff.mp hr
    obtain ⟨r, -, rfl⟩ := Option.map_eq_some_iff.mp hr
    rfl

theorem isSome_of_run {es : List (JoinEvent Node)} {i : Node} (hi : (s.node i).isSome)
    (h : Network.run (joinStep nodeList) s es = some t) : (t.node i).isSome := by
  induction es generalizing s with
  | nil =>
    cases h
    exact hi
  | cons e es ih =>
    obtain ⟨s', hs', hrun⟩ := Network.run_cons_eq_some.mp h
    exact ih (isSome_of_step hs' hi) hrun

/-- The father chosen for a node that has started does not matter. -/
theorem view_update {i : Node} (hi : (s.node i).isSome) (contact : Node) :
    view (Function.update G i contact) s = view G s := by
  unfold view
  congr 1
  funext j
  by_cases hj : j = i
  · subst hj
    obtain ⟨p, hp⟩ := Option.isSome_iff_exists.mp hi
    simp [hp]
  · simp [hj]

/-- The steps considered are the steps with one thread per node and without a leave. -/
theorem ok_view {e : JoinEvent Node} {e' : Event Node} (he : plain e = some e')
    (hok : joinOk s e = true) (h : joinStep nodeList s e = some s') :
    (noLeave e' && oneThread (view G s) e') = true := by
  cases e with
  | deliver m =>
    cases he
    rfl
  | act i a =>
    cases a with
    | join contact => cases he
    | thread a =>
      cases he
      cases a with
      | requestCS =>
        cases hp : s.node i with
        | none =>
          obtain ⟨r, hr, -⟩ := Option.map_eq_some_iff.mp h
          change joinAct i (s.node i) (.thread .requestCS) = some r at hr
          rw [hp] at hr
          cases hr
        | some p =>
          simp only [joinOk, hp, Option.all_some] at hok
          simpa [noLeave, oneThread, view_node_of_some hp] using hok
      | leaveCS newRoot => cases hok
      | _ => rfl

/-- A run with joins is a run of the nodes together; the nodes that join point to nodes that lead to
one that has started before. -/
theorem join_simulation {es : List (JoinEvent Node)} {root : Node} (hroot : (s.node root).isSome)
    (hrun : Network.run (joinStep nodeList) s es = some t)
    (hok : Network.Meets (joinStep nodeList) (fun s e => joinOk s e) s es) :
    ∃ G, (∀ i, ∃ j, (s.node j).isSome ∧ Pointers.Leads G i j) ∧
      Network.run (step nodeList) (view G s) (es.filterMap plain) = some (view G t) ∧
      Network.Meets (step nodeList) (fun s e => noLeave e && oneThread s e) (view G s)
        (es.filterMap plain) := by
  induction es generalizing s with
  | nil =>
    cases hrun
    exact ⟨fun _ => root, fun i => ⟨root, hroot, 1, rfl⟩, rfl, trivial⟩
  | cons e es ih =>
    obtain ⟨s', hs', hrun'⟩ := Network.run_cons_eq_some.mp hrun
    obtain ⟨G, hG, hrunG, hokG⟩ := ih (isSome_of_step hs' hroot) hrun' (hok.2 s' hs')
    cases he : plain e with
    | some e' =>
      rw [List.filterMap_cons_some he]
      have hstep := step_view he hs' G
      refine ⟨G, ?_, Network.run_cons_eq_some.mpr ⟨_, hstep, hrunG⟩, ok_view he hok.1 hs', ?_⟩
      · intro i
        obtain ⟨j, hj, hlead⟩ := hG i
        refine ⟨j, ?_, hlead⟩
        -- only a join starts a node
        by_contra hne
        rw [Option.not_isSome_iff_eq_none] at hne
        have hnode : s'.node j = s.node j := by
          rcases Network.step_cases hs' with ⟨k, a, r, rfl, hr, rfl⟩ | ⟨m, r, rfl, hm, hr, rfl⟩
          · apply Network.fire_node_ne
            rintro rfl
            change joinAct j (s.node j) a = some r at hr
            rw [hne] at hr
            cases a with
            | join contact => cases he
            | thread a => cases hr
          · apply Network.fire_node_ne
            rintro rfl
            change (s.node m.dest).bind _ = some r at hr
            change s.node m.dest = none at hne
            rw [hne] at hr
            cases hr
        rw [hnode, hne] at hj
        cases hj
      · intro u hu
        rw [hstep] at hu
        cases hu
        exact hokG
    | none =>
      rw [List.filterMap_cons_none he]
      obtain ⟨i, contact, rfl⟩ : ∃ i contact, e = .act i (.join contact) := by
        cases e with
        | deliver m => cases he
        | act i a =>
          cases a with
          | join contact => exact ⟨i, contact, rfl⟩
          | thread a => cases he
      obtain ⟨hi, rfl⟩ := joinStep_join hs'
      have hit : (t.node i).isSome := isSome_of_run (by simp) hrun'
      rw [view_join hi, ← view_update hit contact] at hrunG
      rw [view_join hi] at hokG
      have hcontact : (s.node contact).isSome := hok.1
      refine ⟨Function.update G i contact, ?_, hrunG, hokG⟩
      have hself : Pointers.Leads (Function.update G i contact) i contact := ⟨1, by simp⟩
      intro a
      obtain ⟨j, hj, k, hk⟩ := hG a
      induction k generalizing a with
      | zero =>
        obtain rfl : a = j := hk
        by_cases hai : a = i
        · exact ⟨contact, hcontact, hai ▸ hself⟩
        · rw [Network.fire_node_ne _ _ _ hai] at hj
          exact ⟨a, hj, Pointers.Leads.refl a⟩
      | succ k ihk =>
        by_cases hai : a = i
        · exact ⟨contact, hcontact, hai ▸ hself⟩
        · obtain ⟨b, hb, hlead⟩ := ihk (G a) hk
          refine ⟨b, hb, Pointers.Leads.of_step ?_⟩
          rw [Function.update_of_ne hai]
          exact hlead

end Simulation

/-! ## The start -/

section Start

variable {first : Finset Node} {f G : Node → Node} {root : Node}

/-- The pointers of the first nodes and of those that join later lead to the root. -/
theorem Start.root_of_contacts (h : Start first f root)
    (hG : ∀ i, ∃ j ∈ first, Pointers.Leads G i j) :
    Pointers.Root (fun i => if i ∈ first then f i else G i) (fun _ => True) root := by
  have hfirst : ∀ i ∈ first, Pointers.Leads (fun i => if i ∈ first then f i else G i) i root := by
    intro i hi
    obtain ⟨k, hk⟩ := h.root.leads i hi
    induction k generalizing i with
    | zero => exact ⟨0, hk⟩
    | succ k ih =>
      apply Pointers.Leads.of_step
      rw [if_pos hi]
      exact ih (f i) (h.closed i hi) hk
  refine ⟨trivial, ?_, ?_, ?_⟩
  · show (if root ∈ first then f root else G root) = root
    rw [if_pos h.root.mem, h.root.self]
  · intro i _ hi
    by_cases hif : i ∈ first
    · rw [if_pos hif] at hi
      exact h.root.unique i hif hi
    · rw [if_neg hif] at hi
      obtain ⟨j, hj, k, hk⟩ := hG i
      rw [Function.iterate_fixed hi] at hk
      exact absurd (hk ▸ hj) hif
  · intro i _
    obtain ⟨j, hj, k, hk⟩ := hG i
    induction k generalizing i with
    | zero =>
      obtain rfl : i = j := hk
      exact hfirst i hj
    | succ k ih =>
      by_cases hif : i ∈ first
      · exact hfirst i hif
      · apply Pointers.Leads.of_step
        rw [if_neg hif]
        exact ih (G i) hk

theorem view_joinNet (hG : ∀ i, ∃ j ∈ first, Pointers.Leads G i j) :
    view G (joinNet first f) = initNet fun i => if i ∈ first then f i else G i := by
  unfold view joinNet initNet
  congr 1
  funext i
  by_cases hi : i ∈ first
  · simp [hi]
  · have hne : G i ≠ i := by
      intro hfix
      obtain ⟨j, hj, k, hk⟩ := hG i
      rw [Function.iterate_fixed hfix] at hk
      exact hi (hk ▸ hj)
    simp [hi, hne]

end Start

/-! ## One thread per node -/

section OneThread

variable [Fintype Node] {nodeList : Node → List Node} {s s' : Net Node}

/-- With one thread per node, every node has one request at a time. -/
theorem OneInv.oneRequest (h : OneInv s) {e : Event Node} (hok : oneThread s e = true)
    (hstep : step nodeList s e = some s') : oneRequest s e = true := by
  cases e with
  | deliver m => rfl
  | act i a =>
    have hsingle := h.single i
    cases a with
    | requestCS =>
      simp only [oneThread, Bool.and_eq_true, decide_eq_true_eq] at hok
      rw [hok.1, hok.2] at hsingle
      have hreq : (s.node i).requesting = false := by
        cases hr : (s.node i).requesting with
        | false => rfl
        | true => simp [hr] at hsingle
      simp [NaimiTrehel.oneRequest, hreq]
    | wake =>
      obtain ⟨r, hr, -⟩ := Option.map_eq_some_iff.mp hstep
      obtain ⟨p, hp, -⟩ := Option.map_eq_some_iff.mp hr
      obtain ⟨hw, -, -⟩ := wake_eq_some hp
      show (s.node i).requesting = true
      cases hr : (s.node i).requesting with
      | true => rfl
      | false =>
        simp only [hr, Bool.toNat_false] at hsingle
        omega
    | _ => rfl

omit [Fintype Node] [DecidableEq Node] in
/-- The node keeps its threads. -/
theorem single_of_eq {p p' : Peer Node}
    (h : p.waiting + p.inside = p.requesting.toNat)
    (heq : p'.waiting = p.waiting ∧ p'.inside = p.inside ∧ p'.requesting = p.requesting) :
    p'.waiting + p'.inside = p'.requesting.toNat := by
  rw [heq.1, heq.2.1, heq.2.2]
  exact h

theorem oneInv_step {e : Event Node} (h : OneInv s) (hl : noLeave e = true)
    (hok : oneThread s e = true) (hstep : step nodeList s e = some s') : OneInv s' := by
  refine ⟨inv_step h.toInv hl (h.oneRequest hok hstep) hstep, ?_⟩
  rcases Network.step_cases hstep with ⟨i, a, r, rfl, hr, rfl⟩ | ⟨m, r, rfl, hm, hr, rfl⟩
  · have hsingle := h.single i
    have husers := (h.local_ i).users
    refine Network.forall_node_fire
      (L := fun _ (p : Peer Node) => p.waiting + p.inside = p.requesting.toNat) h.single ?_
    change act i (s.node i) a = some r at hr
    cases a with
    | requestCS =>
      cases hr
      simp only [oneThread, Bool.and_eq_true, decide_eq_true_eq] at hok
      rcases requestCS_cases i (s.node i) with ⟨-, heq⟩ | ⟨-, -, heq⟩ | ⟨f, -, -, heq⟩ <;>
        rw [heq] <;> simp [hok.1, hok.2]
    | wake =>
      obtain ⟨p', hp', rfl⟩ := Option.map_eq_some_iff.mp hr
      obtain ⟨hw, -, rfl⟩ := wake_eq_some hp'
      show (s.node i).waiting - 1 + ((s.node i).inside + 1) = (s.node i).requesting.toNat
      omega
    | releaseCS =>
      obtain ⟨hin, hcases⟩ := releaseCS_cases hr
      have hle : (s.node i).requesting.toNat ≤ 1 := Bool.toNat_le _
      rcases hcases with ⟨hne, rfl⟩ | ⟨-, -, rfl⟩ | ⟨n, -, -, rfl⟩
      · omega
      · show (s.node i).waiting + ((s.node i).inside - 1) = 0
        omega
      · show (s.node i).waiting + ((s.node i).inside - 1) = 0
        omega
    | leaveCS n => simp [noLeave] at hl
    | resumeReset x => simp [act, (h.stays i).2] at hr
  · have hmsg := h.msgs m hm
    refine Network.forall_node_fire
      (L := fun _ (p : Peer Node) => p.waiting + p.inside = p.requesting.toNat) h.single ?_
    refine single_of_eq (h.single m.dest) ?_
    change handle nodeList m.dest (s.node m.dest) m = some r at hr
    cases m with
    | requestCS d sender y =>
      cases hr
      rcases requestCSHandler_cases d (s.node d) y with ⟨-, heq⟩ | ⟨-, -, -, heq⟩ | ⟨-, -, -, heq⟩ |
        ⟨f, -, -, heq⟩ <;> exact heq ▸ ⟨rfl, rfl, rfl⟩
    | getCS d sender =>
      cases hr
      exact ⟨rfl, rfl, rfl⟩
    | _ => exact hmsg.elim

theorem oneInv_initNet {f : Node → Node} {root : Node}
    (hf : Pointers.Root f (fun _ => True) root) : OneInv (initNet f) where
  toInv := inv_initNet hf
  single := by
    intro i
    by_cases hi : f i = i <;> simp [initNet, hi, initCS]

end OneThread

/-! ## The token -/

section Token

variable [Fintype Node] {nodeList : Node → List Node} {s s' : JoinNet Node}
  {first : Finset Node} {f : Node → Node} {root : Node} {es : List (JoinEvent Node)}

omit [Fintype Node] in
/-- A run with joins from the start is a run of all nodes together from `init_CS`. -/
theorem Start.simulation (h : Start first f root)
    (hrun : Network.run (joinStep nodeList) (joinNet first f) es = some s)
    (hok : Network.Meets (joinStep nodeList) (fun s e => joinOk s e) (joinNet first f) es) :
    ∃ F G, Pointers.Root F (fun _ => True) root ∧
      Network.run (step nodeList) (initNet F) (es.filterMap plain) = some (view G s) ∧
      Network.Meets (step nodeList) (fun s e => noLeave e && oneThread s e) (initNet F)
        (es.filterMap plain) := by
  have hroot : ((joinNet first f).node root).isSome := by simp [joinNet, h.root.mem]
  obtain ⟨G, hG, hrunG, hokG⟩ := join_simulation hroot hrun hok
  have hG' : ∀ i, ∃ j ∈ first, Pointers.Leads G i j := by
    intro i
    obtain ⟨j, hj, hlead⟩ := hG i
    refine ⟨j, ?_, hlead⟩
    by_contra hne
    simp [joinNet, hne] at hj
  rw [view_joinNet hG'] at hrunG hokG
  exact ⟨_, G, h.root_of_contacts hG', hrunG, hokG⟩

theorem oneInv_run {F : Node → Node} (hF : Pointers.Root F (fun _ => True) root) {t : Net Node}
    {es : List (Event Node)} (hrun : Network.run (step nodeList) (initNet F) es = some t)
    (hok : Network.Meets (step nodeList) (fun s e => noLeave e && oneThread s e) (initNet F) es) :
    OneInv t := by
  refine Network.run_invariant (fun s e s' h hok hstep => ?_) (oneInv_initNet hF) hok hrun
  simp only [Bool.and_eq_true] at hok
  exact oneInv_step h hok.1 hok.2 hstep

omit [DecidableEq Node] in
/-- The weight of the token counts the nodes that have it and the messages that carry it. -/
theorem weight_tokenAt (G : Node → Node) (s : JoinNet Node) :
    (view G s).weight tokenAt tokenMsg = tokens s + tokensInFlight s := by
  have h1 : ∑ i, tokenAt i ((view G s).node i) = tokens s := by
    simp only [tokens, Finset.card_filter, tokenAt]
    apply Finset.sum_congr rfl
    intro i _
    cases hp : s.node i with
    | none => simp [view, hp, initCS]
    | some p => cases htok : p.token <;> simp [view, hp, htok]
  have h2 : ∀ q : List (Msg Node), (q.map tokenMsg).sum = tokensInFlight ⟨s.node, q⟩ := by
    intro q
    unfold tokensInFlight
    induction q with
    | nil => rfl
    | cons m q ih =>
      rw [List.map_cons, List.sum_cons, List.countP_cons, ih]
      cases m <;> simp [tokenMsg, Nat.add_comm]
  rw [Network.Net.weight, h1, h2]
  rfl

/-- A step of a node that remembers `next` keeps it, or passes the token on to it. -/
theorem next_of_step {s s' : Net Node} {e : Event Node} (h : OneInv s) (hl : noLeave e = true)
    (hstep : step nodeList s e = some s') {i y : Node} (hn : (s.node i).next = some y) :
    (s'.node i).next = some y ∨
      (e = .act i .releaseCS ∧ (s'.node i).next = none ∧ Msg.getCS y i ∈ s'.msgs) := by
  have hother : ∀ (j : Node) (rest : List (Msg Node)) (r : Peer Node × List (Msg Node)),
      r.1.next = (s.node j).next → ((s.fire j rest r).node i).next = some y := by
    intro j rest r hr
    by_cases hij : i = j
    · subst hij
      rw [Network.fire_node_self, hr, hn]
    · rw [Network.fire_node_ne _ _ _ hij, hn]
  rcases Network.step_cases hstep with ⟨j, a, r, rfl, hr, rfl⟩ | ⟨m, r, rfl, hm, hr, rfl⟩
  · change act j (s.node j) a = some r at hr
    cases a with
    | requestCS =>
      cases hr
      left
      apply hother
      rcases requestCS_cases j (s.node j) with ⟨-, heq⟩ | ⟨-, -, heq⟩ | ⟨f, -, -, heq⟩ <;> rw [heq]
    | wake =>
      obtain ⟨p', hp', rfl⟩ := Option.map_eq_some_iff.mp hr
      obtain ⟨-, -, rfl⟩ := wake_eq_some hp'
      exact Or.inl (hother j _ _ rfl)
    | releaseCS =>
      rcases (releaseCS_cases hr).2 with ⟨-, rfl⟩ | ⟨-, -, rfl⟩ | ⟨n, -, hnext, rfl⟩
      · exact Or.inl (hother j _ _ rfl)
      · exact Or.inl (hother j _ _ rfl)
      · by_cases hij : i = j
        · subst hij
          rw [hn] at hnext
          cases hnext
          exact Or.inr ⟨rfl, by simp, by simp⟩
        · rw [Network.fire_node_ne _ _ _ hij]
          exact Or.inl hn
    | leaveCS n => simp [noLeave] at hl
    | resumeReset x => simp [act, (h.stays j).2] at hr
  · have hmsg := h.msgs m hm
    change handle nodeList m.dest (s.node m.dest) m = some r at hr
    cases m with
    | requestCS d sender z =>
      cases hr
      left
      rcases requestCSHandler_cases d (s.node d) z with ⟨-, heq⟩ | ⟨-, hf, -, heq⟩ | ⟨-, -, -, heq⟩ |
        ⟨f, -, -, heq⟩
      · exact hother d _ _ (by rw [Msg.dest, heq])
      · -- only a root takes a requester in, and a root has no `next`
        have hid : i ≠ d := by
          rintro rfl
          exact ((h.local_ i).queue (by simp [hn])).2 hf
        change ((s.fire d _ _).node i).next = some y
        rw [Network.fire_node_ne _ _ _ hid, hn]
      · exact hother d _ _ (by rw [Msg.dest, heq])
      · exact hother d _ _ (by rw [Msg.dest, heq])
    | getCS d sender =>
      cases hr
      exact Or.inl (hother d _ _ rfl)
    | _ => exact hmsg.elim

/-- Token conservation: in every run with one thread per node in which nodes join through nodes that
have started, there is one token among the nodes and the `GET_CS` in flight, a node that has no
father and does not ask for the token has it, and a node that remembers `next` keeps it until
`release_CS` passes the token on to it. -/
theorem token_conserved (h : Start first f root)
    (hrun : Network.run (joinStep nodeList) (joinNet first f) es = some s)
    (hok : Network.Meets (joinStep nodeList) (fun s e => joinOk s e) (joinNet first f) es) :
    tokens s + tokensInFlight s = 1 ∧
    (∀ i p, s.node i = some p → p.father = none → p.requesting = false → p.token = true) ∧
    ∀ e s', joinOk s e = true → joinStep nodeList s e = some s' →
      ∀ i p y, s.node i = some p → p.next = some y → ∃ p', s'.node i = some p' ∧
        (p'.next = some y ∨
          (e = .act i (.thread .releaseCS) ∧ p'.next = none ∧ Msg.getCS y i ∈ s'.msgs)) := by
  obtain ⟨F, G, hF, hrunF, hokF⟩ := h.simulation hrun hok
  have hinv : OneInv (view G s) := oneInv_run hF hrunF hokF
  refine ⟨?_, ?_, ?_⟩
  · rw [← weight_tokenAt G s]
    exact hinv.token
  · intro i p hp hf hreq
    have hlocal := hinv.local_ i
    rw [view_node_of_some hp] at hlocal
    by_contra hne
    have hasking := hlocal.asking (by simpa using hne) hf
    simp [hreq] at hasking
  · intro e s' hok' hstep i p y hp hn
    have hsome := isSome_of_step hstep (i := i) (by simp [hp])
    obtain ⟨p', hp'⟩ := Option.isSome_iff_exists.mp hsome
    refine ⟨p', hp', ?_⟩
    cases he : plain e with
    | some e' =>
      have hok'' := ok_view (G := G) he hok' hstep
      simp only [Bool.and_eq_true] at hok''
      have hnext := next_of_step hinv hok''.1 (step_view he hstep G) (i := i) (y := y)
        (by rw [view_node_of_some hp, hn])
      rw [view_node_of_some hp'] at hnext
      rcases hnext with hkeep | ⟨hrel, hnone, hmsg⟩
      · exact Or.inl hkeep
      · refine Or.inr ⟨?_, hnone, hmsg⟩
        cases e with
        | deliver m =>
          subst hrel
          cases he
        | act j a =>
          cases a with
          | join contact => cases he
          | thread a =>
            subst hrel
            cases he
            rfl
    | none =>
      left
      -- a node joins: the others do not move
      cases e with
      | deliver m => cases he
      | act j a =>
        cases a with
        | thread a => cases he
        | join contact =>
          obtain ⟨hj, rfl⟩ := joinStep_join hstep
          have hij : i ≠ j := by
            rintro rfl
            rw [hp] at hj
            cases hj
          rw [Network.fire_node_ne _ _ _ hij, hp] at hp'
          cases hp'
          exact hn

end Token

/-- The node `c` joins through the node `b` while the request of `b` is on its way to `a`, and asks
for the token too. -/
def joinRun (a b c : Node) : List (JoinEvent Node) :=
  [.act b (.thread .requestCS), .act c (.join b), .act c (.thread .requestCS),
    .deliver (.requestCS b c c), .deliver (.requestCS a b b)]

theorem token_conserved_joinRun :
    ∃ s, Network.run (joinStep fun _ => []) (joinNet {0, 1} fun _ => 0) (joinRun (0 : Fin 3) 1 2) =
      some s ∧ (s.node 1).map Peer.next = some (some 2) ∧ tokens s = 0 ∧ tokensInFlight s = 1 ∧
      tokens s + tokensInFlight s = 1 := by
  have hstart : Start ({0, 1} : Finset (Fin 3)) (fun _ => 0) 0 :=
    ⟨by decide, by decide, rfl, fun _ _ h => h.symm, fun _ _ => ⟨1, rfl⟩⟩
  have hrun : Network.run (joinStep fun _ => []) (joinNet {0, 1} fun _ => 0)
      (joinRun (0 : Fin 3) 1 2) = some _ := rfl
  exact ⟨_, hrun, by decide, by decide, by decide,
    (token_conserved hstart hrun (by decide)).1⟩

end NaimiTrehel
