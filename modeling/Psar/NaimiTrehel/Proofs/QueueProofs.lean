import Psar.NaimiTrehel.Queue
import Psar.NaimiTrehel.Proofs.JoinProofs
import Psar.Library.Proofs.QueueProofs

/-!
# Proofs: nobody waits for ever

A request is handled at most once by every node, and a node that waits while nothing is in flight
stands in a queue whose head has the token.
-/

namespace NaimiTrehel

variable {Node : Type} [DecidableEq Node]

section Fire

theorem nexts_fire (s : Net Node) (i : Node) (rest : List (Msg Node))
    (r : Peer Node × List (Msg Node)) :
    nexts (s.fire i rest r) = Function.update (nexts s) i r.1.next := by
  funext j
  by_cases hj : j = i
  · subst hj
    simp [nexts]
  · simp [nexts, Network.fire_node_ne _ _ _ hj, hj]

theorem requests_fire (s : Net Node) (i : Node) (rest : List (Msg Node))
    (r : Peer Node × List (Msg Node)) :
    requests (s.fire i rest r) = rest.filterMap Msg.request ++ r.2.filterMap Msg.request := by
  simp [requests]

theorem fathers_fire_of_eq {s : Net Node} {i : Node} {rest : List (Msg Node)}
    {r : Peer Node × List (Msg Node)} (h : r.1.father = (s.node i).father) :
    fathers (s.fire i rest r) = fathers s := by
  rw [fathers_fire, h]
  exact Function.update_eq_self i (fathers s)

theorem nexts_fire_of_eq {s : Net Node} {i : Node} {rest : List (Msg Node)}
    {r : Peer Node × List (Msg Node)} (h : r.1.next = (s.node i).next) :
    nexts (s.fire i rest r) = nexts s := by
  rw [nexts_fire, h]
  exact Function.update_eq_self i (nexts s)

omit [DecidableEq Node] in
theorem mem_requests {s : Net Node} {d y : Node} :
    (d, y) ∈ requests s ↔ ∃ sender, Msg.requestCS d sender y ∈ s.msgs := by
  unfold requests
  rw [List.mem_filterMap]
  constructor
  · rintro ⟨m, hm, heq⟩
    cases m with
    | requestCS d' sender y' =>
      cases heq
      exact ⟨sender, hm⟩
    | _ => cases heq
  · rintro ⟨sender, hm⟩
    exact ⟨_, hm, rfl⟩

end Fire

/-! ## Every request is known -/

section Known

attribute [local simp] pendingAt pendingMsg

variable [Fintype Node] {nodeList : Node → List Node} {s s' : Net Node}

/-- No step with one thread per node loses a request. -/
theorem pending_le_step {e : Event Node} (h : OneInv s) (hl : noLeave e = true)
    (hok : oneThread s e = true) (hstep : step nodeList s e = some s') (z : Node) :
    s.weight (pendingAt z) (pendingMsg z) ≤ s'.weight (pendingAt z) (pendingMsg z) := by
  rcases Network.step_cases hstep with ⟨i, a, r, rfl, hr, rfl⟩ | ⟨m, r, rfl, hm, hr, rfl⟩
  · have hp := h.local_ i
    have hweight := Network.weight_fire (pendingAt z) (pendingMsg z) (i := i)
      (Network.perm_act s.msgs) r
    suffices hkept : pendingAt z i (s.node i) ≤ pendingAt z i r.1 + (r.2.map (pendingMsg z)).sum by
      simp only [List.map_nil, List.sum_nil] at hweight
      omega
    change act i (s.node i) a = some r at hr
    cases a with
    | requestCS =>
      cases hr
      rcases requestCS_cases i (s.node i) with ⟨htok, heq⟩ | ⟨htok, hf, heq⟩ | ⟨f, -, -, heq⟩
      · rw [heq]
        simp [htok]
      · have hreq := hp.asking htok hf
        rw [heq]
        simp [htok, hreq]
      · rw [heq]
        by_cases hiz : i = z
        · subst hiz
          simp only [pendingAt, pendingMsg, List.map_cons, List.map_nil, List.sum_cons,
            List.sum_nil, if_true]
          split <;> split <;> split <;> omega
        · simp [hiz]
    | wake =>
      obtain ⟨p', hp', rfl⟩ := Option.map_eq_some_iff.mp hr
      obtain ⟨-, -, rfl⟩ := wake_eq_some hp'
      simp
    | releaseCS =>
      obtain ⟨hin, hcases⟩ := releaseCS_cases hr
      obtain ⟨htok, -⟩ := hp.inside hin
      rcases hcases with ⟨-, rfl⟩ | ⟨-, hn, rfl⟩ | ⟨n, -, hn, rfl⟩
      · simp
      · simp [hn, htok]
      · by_cases hnz : n = z
        · simp [hn, hnz, htok]
          omega
        · simp [hn, hnz, htok]
    | leaveCS n => simp [noLeave] at hl
    | resumeReset x => simp [act, (h.stays i).2] at hr
  · have hp := h.local_ m.dest
    have hmsg := h.msgs m hm
    have hweight := Network.weight_fire (pendingAt z) (pendingMsg z) (i := m.dest)
      (Network.perm_deliver hm) r
    suffices hkept : pendingAt z m.dest (s.node m.dest) + pendingMsg z m ≤
        pendingAt z m.dest r.1 + (r.2.map (pendingMsg z)).sum by
      simp only [List.map_cons, List.map_nil, List.sum_cons, List.sum_nil] at hweight
      change s.weight _ _ ≤ (s.fire m.dest _ r).weight _ _
      omega
    change handle nodeList m.dest (s.node m.dest) m = some r at hr
    cases m with
    | requestCS d sender y =>
      cases hr
      rcases requestCSHandler_cases d (s.node d) y with ⟨hl', -⟩ | ⟨-, hf, -, heq⟩ |
        ⟨-, hf, hreq, heq⟩ | ⟨f, -, hf, heq⟩
      · exact absurd ((h.stays d).1.symm.trans hl') (by simp)
      · -- a root has no `next` that could be lost
        have hn : (s.node d).next = none := by
          by_contra hne
          exact (hp.queue hne).2 hf
        simp only [Msg.dest, heq]
        by_cases hyz : y = z <;> simp [hn, hyz]
      · simp only [Msg.dest, heq]
        by_cases hyz : y = z <;> simp [hyz, hreq]
      · simp only [Msg.dest, heq]
        by_cases hyz : y = z <;> simp [hyz]
    | getCS d sender =>
      cases hr
      -- the node that gets the token has asked for it
      have hone := h.pending z
      have hle := Network.le_weight_msg (pendingAt z) (pendingMsg z) s d hm
      simp only [Msg.dest, getCSHandler]
      by_cases hdz : d = z
      · subst hdz
        have hzero : pendingAt d d (s.node d) = 0 := by
          simp only [pendingMsg, if_true] at hle
          omega
        rw [hzero]
        simp
      · simp [hdz]
    | _ => exact hmsg.elim

end Known

/-! ## The queues -/

section Tree

variable [Fintype Node] {nodeList : Node → List Node} {s s' : Net Node} {y : Node} {S : Set Node}

/-- A node keeps its father and `next`, and no request is consumed or sent. -/
theorem QueueTree.of_eq (h : QueueTree y S s) {i : Node} {ms rest : List (Msg Node)}
    (hp : s.msgs.Perm (ms ++ rest)) (hms : ms.filterMap Msg.request = [])
    {r : Peer Node × List (Msg Node)} (hf : r.1.father = (s.node i).father)
    (hn : r.1.next = (s.node i).next) (hout : r.2.filterMap Msg.request = []) :
    QueueTree y S (s.fire i rest r) := by
  obtain ⟨att, c, hatt, htraced, hqueued⟩ := h
  refine ⟨att, c, ?_, ?_, ?_⟩
  · rw [fathers_fire_of_eq hf, requests_fire, hout, List.append_nil]
    apply hatt.perm
    have hperm := hp.filterMap Msg.request
    rwa [List.filterMap_append, hms, List.nil_append] at hperm
  · rw [fathers_fire_of_eq hf]
    exact htraced
  · rw [nexts_fire_of_eq hn]
    exact hqueued

/-- A node that does not ask for the token yet sends a request to its father. -/
theorem queueTree_requestCS (h : QueueTree y S s) {i : Node} (hlocal : LocalInv (s.node i))
    (hreq : (s.node i).requesting = false) (hy : i = y → S = ∅) :
    QueueTree y S (s.fire i s.msgs (requestCS i (s.node i))) := by
  rcases requestCS_cases i (s.node i) with ⟨-, heq⟩ | ⟨-, -, heq⟩ | ⟨f, -, hf, heq⟩
  · rw [heq]
    exact h.of_eq (Network.perm_act _) rfl rfl rfl rfl
  · rw [heq]
    exact h.of_eq (Network.perm_act _) rfl rfl rfl rfl
  · obtain ⟨att, c, hatt, htraced, hqueued⟩ := h
    rw [heq]
    refine ⟨Function.update att i (some (f, i)), c, ?_, ?_, ?_⟩
    · rw [fathers_fire, requests_fire]
      exact (hatt.send hf).perm (List.perm_append_singleton _ _).symm
    · rw [fathers_fire]
      exact htraced.send hf hy
    · rw [nexts_fire_of_eq rfl]
      exact hqueued.send (hlocal.next_of_requesting hreq)

/-- A request that is attached somewhere is in flight. -/
theorem mem_msgs_of_att {att : Node → Option (Node × Node)} {c r d z : Node}
    (hatt : Pointers.Attached (fathers s) (requests s) att c) (hr : att r = some (d, z)) :
    ∃ sender, Msg.requestCS d sender z ∈ s.msgs := by
  rw [← mem_requests, ← List.count_pos_iff, hatt.count]
  have hle := Finset.single_le_sum (f := fun a => if att a = some (d, z) then 1 else 0)
    (fun _ _ => Nat.zero_le _) (Finset.mem_univ r)
  simp only [hr, if_true] at hle
  omega

/-- A node that has the token, or does not ask for it, is nobody's `next` and has no request in
flight. -/
theorem OneInv.not_pending (h : OneInv s) {i : Node}
    (hi : (s.node i).token = true ∨ (s.node i).requesting = false) :
    (∀ a, (s.node a).next ≠ some i) ∧ ∀ d sender, Msg.requestCS d sender i ∉ s.msgs := by
  have hone := h.pending i
  constructor
  · intro a ha
    by_cases hai : a = i
    · subst hai
      have hle := Network.le_weight_node (pendingAt a) (pendingMsg a) s a
      simp only [pendingAt, ha, hi, and_self, if_true] at hle
      omega
    · have hle := Network.le_weight_pair (pendingAt i) (pendingMsg i) s hai
      simp only [pendingAt, ha, hi, and_self, if_true] at hle
      omega
  · intro d sender hm
    have hle := Network.le_weight_msg (pendingAt i) (pendingMsg i) s i hm
    simp only [pendingAt, pendingMsg, hi, and_self, if_true] at hle
    omega

/-- The last thread leaves and passes the token on. -/
theorem queueTree_releaseCS (h : OneInv s) (htree : QueueTree y S s) {i : Node}
    {r : Peer Node × List (Msg Node)} (hr : releaseCS i (s.node i) = some r) :
    QueueTree y S (s.fire i s.msgs r) := by
  obtain ⟨hin, hcases⟩ := releaseCS_cases hr
  obtain ⟨htok, -⟩ := (h.local_ i).inside hin
  obtain ⟨hnext, hmsg⟩ := h.not_pending (Or.inl htok)
  rcases hcases with ⟨-, rfl⟩ | ⟨-, -, rfl⟩ | ⟨n, -, -, rfl⟩
  · exact htree.of_eq (Network.perm_act _) rfl rfl rfl rfl
  · exact htree.of_eq (Network.perm_act _) rfl rfl rfl rfl
  · obtain ⟨att, c, hatt, htraced, hqueued⟩ := htree
    refine ⟨att, c, ?_, ?_, ?_⟩
    · rw [fathers_fire_of_eq rfl, requests_fire, List.filterMap_cons_none rfl, List.filterMap_nil,
        List.append_nil]
      exact hatt
    · rw [fathers_fire_of_eq rfl]
      exact htraced
    · rw [nexts_fire]
      refine hqueued.pop hnext ?_
      intro q d hq
      obtain ⟨sender, hm⟩ := mem_msgs_of_att hatt hq
      exact hmsg d sender hm

/-- A root with a request of its own asks for the token and does not have it. -/
theorem OneInv.asks_of_att (h : OneInv s) {att : Node → Option (Node × Node)} {c r d z : Node}
    (hatt : Pointers.Attached (fathers s) (requests s) att c)
    (hqueued : Pointers.Queued (nexts s) att) (hr : att r = some (d, z)) :
    (s.node r).requesting = true := by
  by_contra hne
  obtain ⟨hnext, hmsg⟩ := h.not_pending (i := r) (Or.inr (by simpa using hne))
  rcases (hqueued.tail r d z hr).1.eq_or_pred with rfl | ⟨a, ha⟩
  · obtain ⟨sender, hm⟩ := mem_msgs_of_att hatt hr
    exact hmsg d sender hm
  · exact hnext a ha

/-- Two requests of one node are not in flight at the same time. -/
theorem OneInv.att_unique (h : OneInv s) {att : Node → Option (Node × Node)} {c q r d k z : Node}
    (hatt : Pointers.Attached (fathers s) (requests s) att c) (hr : att r = some (d, z))
    (hq : att q = some (k, z)) : q = r := by
  by_contra hne
  obtain ⟨sender, hm⟩ := mem_msgs_of_att hatt hr
  have hperm : (requests s).Perm
      ((d, z) :: (s.msgs.erase (.requestCS d sender z)).filterMap Msg.request) :=
    (Network.perm_deliver hm).filterMap Msg.request
  -- without the request at `r`, the one at `q` is still there
  have hmem : (k, z) ∈ (s.msgs.erase (.requestCS d sender z)).filterMap Msg.request := by
    rw [← List.count_pos_iff]
    have hcount := hatt.count (k, z)
    rw [hperm.count_eq, List.count_cons] at hcount
    have hle := Finset.add_le_sum (f := fun a => if att a = some (k, z) then 1 else 0)
      (fun _ _ => Nat.zero_le _) (Finset.mem_univ q) (Finset.mem_univ r) hne
    simp only [hq, hr, if_true, Option.some.injEq] at hle
    simp only [beq_iff_eq] at hcount
    omega
  obtain ⟨m, hm', heq⟩ := List.mem_filterMap.mp hmem
  have hsum := ((Network.perm_deliver hm).map (pendingMsg z)).sum_eq
  have hle := List.single_le_sum (fun _ _ => Nat.zero_le _) _
    (List.mem_map_of_mem (f := pendingMsg z) hm')
  have hone := h.pending z
  have hweight : (s.msgs.map (pendingMsg z)).sum ≤ s.weight (pendingAt z) (pendingMsg z) :=
    Nat.le_add_left _ _
  cases m with
  | requestCS k' sender' z' =>
    cases heq
    simp only [List.singleton_append, List.map_cons, List.sum_cons, pendingMsg, if_true] at hsum hle
    omega
  | _ => cases heq

/-- A node handles a request. -/
theorem queueTree_requestCSHandler (h : OneInv s) (htree : QueueTree y S s) {d sender z : Node}
    (hm : Msg.requestCS d sender z ∈ s.msgs) :
    QueueTree y (if z = y then insert d S else S)
        (s.fire d (s.msgs.erase (.requestCS d sender z)) (requestCSHandler d (s.node d) z)) ∧
      d ≠ z ∧ (z = y → d ∉ S) := by
  obtain ⟨att, c, hatt, htraced, hqueued⟩ := htree
  obtain ⟨r, hr⟩ := hatt.seen (mem_requests.mpr ⟨sender, hm⟩)
  have hseen := hatt.seen_of_att hr
  have hperm : (requests s).Perm
      ((d, z) :: (s.msgs.erase (.requestCS d sender z)).filterMap Msg.request) :=
    (Network.perm_deliver hm).filterMap Msg.request
  have hatt' := hatt.perm hperm
  have hnew : z = y → d ∉ S := by
    rintro rfl
    exact htraced.notMem hatt hr
  refine ⟨?_, hseen.requester_ne, hnew⟩
  have hone : ∀ q k, att q = some (k, z) → q = r := fun q k hq => h.att_unique hatt hr hq
  -- at a root, the request of `z` is gone
  have hroot : fathers s d = none →
      Pointers.Traced (Function.update (fathers s) d (some z)) (Pointers.inherit att r d) y
        (if z = y then insert d S else S) := by
    intro hf
    split
    · rename_i hzy
      subst hzy
      intro q k hq
      exfalso
      by_cases hqd : q = d
      · rw [hqd, Pointers.inherit_self] at hq
        cases hq
      · by_cases hqr : q = r
        · rw [hqr, Pointers.inherit_root _ hseen.root_ne] at hq
          exact hseen.root_ne (hone d k hq).symm
        · rw [Pointers.inherit_of_ne hqr hqd] at hq
          exact hqr (hone q k hq)
    · exact htraced.receive_root hatt hf hr
  rcases requestCSHandler_cases d (s.node d) z with ⟨hl, -⟩ | ⟨-, hf, hreq, heq⟩ |
    ⟨-, hf, hreq, heq⟩ | ⟨f, -, hf, heq⟩
  · exact absurd ((h.stays d).1.symm.trans hl) (by simp)
  · have hn : nexts s d = none := by
      by_contra hne
      exact ((h.local_ d).queue hne).2 hf
    rw [heq]
    refine ⟨Pointers.inherit att r d, if d = c then r else c, ?_, ?_, ?_⟩
    · rw [fathers_fire, requests_fire, List.filterMap_nil, List.append_nil]
      exact hatt'.receive_root hf hr
    · rw [fathers_fire]
      exact hroot hf
    · rw [nexts_fire]
      exact hqueued.append hseen.root_ne hr hn
  · have hattd : att d = none := by
      cases hd : att d with
      | none => rfl
      | some q =>
        have hreq' := h.asks_of_att hatt hqueued (d := q.1) (z := q.2) hd
        simp [hreq] at hreq'
    rw [heq]
    refine ⟨Pointers.inherit att r d, if d = c then r else c, ?_, ?_, ?_⟩
    · rw [fathers_fire, requests_fire, List.filterMap_cons_none rfl, List.filterMap_nil,
        List.append_nil]
      exact hatt'.receive_root hf hr
    · rw [fathers_fire]
      exact hroot hf
    · rw [nexts_fire_of_eq rfl]
      exact hqueued.answer hseen.root_ne hattd
  · rw [heq]
    refine ⟨Function.update att r (some (f, z)), c, ?_, ?_, ?_⟩
    · rw [fathers_fire, requests_fire]
      exact (hatt'.receive_forward hf hr).perm (List.perm_append_singleton _ _).symm
    · rw [fathers_fire]
      have hkeep := htraced.receive_forward hatt hf hr
      split
      · rename_i hzy
        subst hzy
        exact hkeep.insert_forward hatt hf hr hone
      · exact hkeep
    · rw [nexts_fire_of_eq rfl]
      exact hqueued.forward hr

end Tree

/-! ## Steps and runs -/

section Run

variable [Fintype Node] {nodeList : Node → List Node} {s s' t : Net Node} {y : Node} {S : Set Node}

theorem QueueInv.mono (h : QueueInv y S s) {S' : Set Node} (hS : S' ⊆ S) : QueueInv y S' s := by
  obtain ⟨att, c, hatt, htraced, hqueued⟩ := h.tree
  exact ⟨h.toOneInv, ⟨att, c, hatt, fun r j hr a ha => htraced r j hr a (hS ha), hqueued⟩, h.known⟩

/-- Every step keeps the queues; a node that handles the request of `y` has not handled it before,
and is not `y`. -/
theorem queueInv_step {e : Event Node} (h : QueueInv y S s) (hl : noLeave e = true)
    (hok : oneThread s e = true) (hy : e = .act y .requestCS → S = ∅)
    (hstep : step nodeList s e = some s') :
    QueueInv y ((handled y e).elim S (insert · S)) s' ∧
      ∀ d, handled y e = some d → d ∉ S ∧ d ≠ y := by
  have hone := oneInv_step h.toOneInv hl hok hstep
  have hknown : ∀ z, 1 ≤ s'.weight (pendingAt z) (pendingMsg z) := fun z =>
    (h.known z).trans (pending_le_step h.toOneInv hl hok hstep z)
  suffices htree : QueueTree y ((handled y e).elim S (insert · S)) s' ∧
      ∀ d, handled y e = some d → d ∉ S ∧ d ≠ y from
    ⟨⟨hone, htree.1, hknown⟩, htree.2⟩
  rcases Network.step_cases hstep with ⟨i, a, r, rfl, hr, rfl⟩ | ⟨m, r, rfl, hm, hr, rfl⟩
  · refine ⟨?_, fun d hd => by cases hd⟩
    show QueueTree y S _
    change act i (s.node i) a = some r at hr
    cases a with
    | requestCS =>
      cases hr
      have hsingle := h.single i
      simp only [oneThread, Bool.and_eq_true, decide_eq_true_eq] at hok
      rw [hok.1, hok.2] at hsingle
      have hreq : (s.node i).requesting = false := by
        cases hr : (s.node i).requesting with
        | false => rfl
        | true => simp [hr] at hsingle
      exact queueTree_requestCS h.tree (h.local_ i) hreq fun hiy => hy (by rw [hiy])
    | wake =>
      obtain ⟨p', hp', rfl⟩ := Option.map_eq_some_iff.mp hr
      obtain ⟨-, -, rfl⟩ := wake_eq_some hp'
      exact h.tree.of_eq (Network.perm_act _) rfl rfl rfl rfl
    | releaseCS => exact queueTree_releaseCS h.toOneInv h.tree hr
    | leaveCS n => simp [noLeave] at hl
    | resumeReset x => simp [act, (h.stays i).2] at hr
  · have hmsg := h.msgs m hm
    change handle nodeList m.dest (s.node m.dest) m = some r at hr
    cases m with
    | requestCS d sender z =>
      cases hr
      obtain ⟨htree, hdz, hnew⟩ := queueTree_requestCSHandler h.toOneInv h.tree hm
      by_cases hzy : z = y
      · subst hzy
        rw [if_pos rfl] at htree
        refine ⟨?_, ?_⟩
        · have helim : (handled z (.deliver (.requestCS d sender z) : Event Node)).elim S
              (insert · S) = insert d S := by simp [handled]
          rw [helim]
          exact htree
        · intro d' hd'
          simp only [handled, if_true, Option.some.injEq] at hd'
          subst hd'
          exact ⟨hnew rfl, hdz⟩
      · rw [if_neg hzy] at htree
        refine ⟨?_, ?_⟩
        · have helim : (handled y (.deliver (.requestCS d sender z) : Event Node)).elim S
              (insert · S) = S := by simp [handled, hzy]
          rw [helim]
          exact htree
        · intro d' hd'
          simp [handled, hzy] at hd'
    | getCS d sender =>
      cases hr
      refine ⟨?_, fun d hd => by cases hd⟩
      exact h.tree.of_eq (Network.perm_deliver hm) rfl rfl rfl rfl
    | _ => exact hmsg.elim

theorem queueInv_initNet {f : Node → Node} {root : Node}
    (hf : Pointers.Root f (fun _ => True) root) (y : Node) : QueueInv y ∅ (initNet f) where
  toOneInv := oneInv_initNet hf
  tree := by
    have hnexts : nexts (initNet f) = fun _ => none := by
      funext i
      by_cases hi : f i = i <;> simp [nexts, initNet, hi, initCS]
    refine ⟨fun _ => none, root, ?_, ?_, ?_, ?_⟩
    · rw [fathers_initNet]
      exact Pointers.attached_of_root hf
    · intro r j hr
      cases hr
    · intro r j z hr
      cases hr
    · intro a
      rw [hnexts]
      exact ⟨a, Pointers.Ends.refl rfl⟩
  known := by
    intro z
    have hle := Network.le_weight_node (pendingAt z) (pendingMsg z) (initNet f) z
    have hz : pendingAt z z ((initNet f).node z) = 1 := by
      by_cases hi : f z = z <;> simp [initNet, hi, initCS, pendingAt]
    omega

theorem queueInv_run {f : Node → Node} {root : Node} (hf : Pointers.Root f (fun _ => True) root)
    {es : List (Event Node)} (hrun : Network.run (step nodeList) (initNet f) es = some s)
    (hok : Network.Meets (step nodeList) (fun s e => noLeave e && oneThread s e) (initNet f) es)
    (y : Node) : QueueInv y ∅ s := by
  refine Network.run_invariant (fun s e s' h hok hstep => ?_) (queueInv_initNet hf y) hok hrun
  simp only [Bool.and_eq_true] at hok
  exact (queueInv_step h hok.1 hok.2 (fun _ => rfl) hstep).1.mono (Set.empty_subset _)

omit [Fintype Node] in
theorem handledBy_append_singleton {A : Type} (y : Node)
    (es : List (Network.Event Node (Msg Node) A)) (e : Network.Event Node (Msg Node) A) :
    handledBy y (es ++ [e]) = handledBy y es ++ (handled y e).toList := by
  unfold handledBy
  rw [List.filterMap_append]
  cases h : handled y e <;> simp [h]

/-- While `y` makes no other request, no node handles its request twice, nor `y` itself. -/
theorem handledBy_nodup (h : QueueInv y ∅ s) {es : List (Event Node)}
    (hrun : Network.run (step nodeList) s es = some t)
    (hok : Network.Meets (step nodeList)
      (fun s e => (noLeave e && oneThread s e) ∧ e ≠ .act y .requestCS) s es) :
    (y :: handledBy y es).Nodup := by
  have hhist : QueueInv y {d | d ∈ handledBy y es} t ∧ (y :: handledBy y es).Nodup := by
    refine Network.run_history
      (R := fun s es => QueueInv y {d | d ∈ handledBy y es} s ∧ (y :: handledBy y es).Nodup)
      ?_ ⟨h.mono (by simp [handledBy]), by simp [handledBy]⟩ hok hrun
    rintro s es e s' ⟨hinv, hnodup⟩ ⟨hok, hne⟩ hstep
    simp only [Bool.and_eq_true] at hok
    obtain ⟨hinv', hnew⟩ := queueInv_step hinv hok.1 hok.2 (fun he => absurd he hne) hstep
    rw [handledBy_append_singleton]
    cases hd : handled y e with
    | none =>
      rw [hd] at hinv'
      rw [Option.toList_none, List.append_nil]
      exact ⟨hinv', hnodup⟩
    | some d =>
      obtain ⟨hdS, hdy⟩ := hnew d hd
      rw [hd] at hinv'
      refine ⟨hinv'.mono ?_, ?_⟩
      · intro a ha
        simp only [Option.toList_some, List.mem_append, List.mem_singleton,
          Set.mem_ofPred_eq] at ha
        exact ha.symm
      · rw [Option.toList_some, ← List.cons_append]
        apply List.Nodup.append hnodup (List.nodup_singleton d)
        simpa [List.disjoint_singleton] using ⟨hdy, hdS⟩
  exact hhist.2

/-- While nothing is in flight and nobody is inside, a node waits only if a node that has the token
has not left the waiting loop yet. -/
theorem QueueInv.exists_woken (h : QueueInv y S s)
    (hrequest : ∀ d sender z, Msg.requestCS d sender z ∉ s.msgs)
    (hget : ∀ d sender, Msg.getCS d sender ∉ s.msgs) (hin : ∀ i, (s.node i).inside = 0) {i : Node}
    (hi : 0 < (s.node i).waiting) : ∃ j, (s.node j).token = true ∧ 0 < (s.node j).waiting := by
  by_contra hnone
  have htoken : ∀ j, 0 < (s.node j).waiting → (s.node j).token = false := by
    intro j hj
    by_contra hne
    exact hnone ⟨j, by simpa using hne, hj⟩
  have hmsgs : ∀ z, (s.msgs.map (pendingMsg z)).sum = 0 := by
    intro z
    apply List.sum_eq_zero
    intro n hn
    obtain ⟨m, hm, rfl⟩ := List.mem_map.mp hn
    have hmsg := h.msgs m hm
    cases m with
    | requestCS d sender z => exact absurd hm (hrequest d sender z)
    | getCS d sender => exact absurd hm (hget d sender)
    | _ => exact hmsg.elim
  -- a node that waits is `next` of another node that waits
  have hpred : ∀ b ∈ {j | 0 < (s.node j).waiting}, ∃ a ∈ {j | 0 < (s.node j).waiting},
      nexts s a = some b := by
    intro b hb
    have hreq : (s.node b).requesting = true := by
      have hsingle := h.single b
      cases hr : (s.node b).requesting with
      | true => rfl
      | false =>
        simp only [hr, Bool.toNat_false] at hsingle
        have hb' : 0 < (s.node b).waiting := hb
        omega
    have hknown := h.known b
    rw [Network.Net.weight, hmsgs b, Nat.add_zero] at hknown
    obtain ⟨a, -, ha⟩ := Finset.exists_ne_zero_of_sum_ne_zero (Nat.one_le_iff_ne_zero.mp hknown)
    have hnext : (s.node a).next = some b := by
      by_contra hne
      apply ha
      unfold pendingAt
      rw [if_neg hne, if_neg, Nat.add_zero]
      rintro ⟨rfl, htok | hr⟩
      · rw [htoken a hb] at htok
        cases htok
      · rw [hreq] at hr
        cases hr
    refine ⟨a, ?_, hnext⟩
    have hreqa := ((h.local_ a).queue (by simp [hnext])).1
    have hsingle := h.single a
    rw [hin a, hreqa] at hsingle
    show 0 < (s.node a).waiting
    simp only [Bool.toNat_true] at hsingle
    omega
  obtain ⟨att, c, -, -, hqueued⟩ := h.tree
  obtain ⟨e, he⟩ := hqueued.ends i
  exact Pointers.not_ends_of_pred hpred hi e he

end Run

/-! ## Runs with joins -/

section Join

variable [Fintype Node] {nodeList : Node → List Node} {s : JoinNet Node}
  {first : Finset Node} {f : Node → Node} {root : Node} {es : List (JoinEvent Node)}

omit [Fintype Node] in
theorem handledBy_plain (y : Node) (es : List (JoinEvent Node)) :
    handledBy y (es.filterMap plain) = handledBy y es := by
  unfold handledBy
  rw [List.filterMap_filterMap]
  congr 1
  funext e
  cases e with
  | deliver m => cases m <;> rfl
  | act i a => cases a <;> rfl

/-- Nobody is stranded: in every run with one thread per node in which nodes join through nodes that
have started, a request is handled by fewer nodes than there are, each of them once, and never by
its requester; and when no request and no token is in flight and nobody is inside the critical
section, a node is in the waiting loop of `request_CS` only if a node that has got the token is in
it too. -/
theorem request_not_stranded (h : Start first f root)
    (hrun : Network.run (joinStep nodeList) (joinNet first f) es = some s)
    (hok : Network.Meets (joinStep nodeList) (fun s e => joinOk s e) (joinNet first f) es) :
    (∀ y es₁ es₂, es = es₁ ++ es₂ → (∀ e ∈ es₂, e ≠ .act y (.thread .requestCS)) →
      (handledBy y es₂).Nodup ∧ (handledBy y es₂).length < Fintype.card Node) ∧
    (∀ d sender y, Msg.requestCS d sender y ∈ s.msgs → d ≠ y) ∧
    ((∀ d sender y, Msg.requestCS d sender y ∉ s.msgs) → (∀ d sender, Msg.getCS d sender ∉ s.msgs) →
      (∀ i p, s.node i = some p → p.inside = 0) → ∀ i p, s.node i = some p → 0 < p.waiting →
      ∃ j q, s.node j = some q ∧ q.token = true ∧ 0 < q.waiting) := by
  obtain ⟨F, G, hF, hrunF, hokF⟩ := h.simulation hrun hok
  refine ⟨?_, ?_, ?_⟩
  · rintro y es₁ es₂ rfl hy
    rw [List.filterMap_append] at hrunF hokF
    obtain ⟨hok₁, hok₂⟩ := Network.meets_append.mp hokF
    rw [Network.run_append] at hrunF
    obtain ⟨s₁, hrun₁, hrun₂⟩ := Option.bind_eq_some_iff.mp hrunF
    have hinv := queueInv_run hF hrun₁ hok₁ y
    have hne : ∀ e ∈ es₂.filterMap plain, e ≠ .act y .requestCS := by
      intro e he
      obtain ⟨e', he', heq⟩ := List.mem_filterMap.mp he
      rintro rfl
      apply hy e' he'
      cases e' with
      | deliver m => cases heq
      | act i a =>
        cases a with
        | join contact => cases heq
        | thread a =>
          cases heq
          rfl
    have hnodup := handledBy_nodup hinv hrun₂
      ((hok₂ s₁ hrun₁).and (Network.meets_of_forall hne s₁))
    rw [handledBy_plain] at hnodup
    have hlen := hnodup.length_le_card
    simp only [List.length_cons] at hlen
    exact ⟨(List.nodup_cons.mp hnodup).2, hlen⟩
  · intro d sender y hm
    obtain ⟨att, c, hatt, -, -⟩ := (queueInv_run hF hrunF hokF y).tree
    exact Pointers.Forest.requester_ne ⟨att, c, hatt⟩ (mem_requests.mpr ⟨sender, hm⟩)
  · intro hrequest hget hin i p hp hw
    have hinv := queueInv_run hF hrunF hokF i
    have hin' : ∀ j, ((view G s).node j).inside = 0 := by
      intro j
      cases hq : s.node j with
      | none => simp [view, hq, initCS]
      | some q =>
        rw [view_node_of_some hq]
        exact hin j q hq
    obtain ⟨j, htok, hwj⟩ := hinv.exists_woken hrequest hget hin' (i := i)
      (by rwa [view_node_of_some hp])
    cases hq : s.node j with
    | none =>
      simp only [view, hq, Option.getD_none, initCS] at hwj
      omega
    | some q =>
      rw [view_node_of_some hq] at htok hwj
      exact ⟨j, q, hq, htok, hwj⟩

end Join

/-- The node `b` has got the token, and its thread has not tested `token` again yet. -/
def wokenRun (a b : Node) : List (JoinEvent Node) :=
  [.act b (.thread .requestCS), .deliver (.requestCS a b b), .deliver (.getCS b a)]

/-- The request of the node 2 is handled by the node 1 only; the two requests in flight are not on
their way to the nodes that sent them; and when the node 1 waits with nothing in flight, a node that
waits has the token. -/
theorem request_not_stranded_joinRun :
    ∃ s t u, Network.run (joinStep fun _ => []) (joinNet {0, 1} fun _ => 0)
        (joinRun (0 : Fin 3) 1 2) = some s ∧
      handledBy 2 ((joinRun (0 : Fin 3) 1 2).drop 3) = [1] ∧
      (handledBy 2 ((joinRun (0 : Fin 3) 1 2).drop 3)).length < Fintype.card (Fin 3) ∧
      Network.run (joinStep fun _ => []) (joinNet {0, 1} fun _ => 0)
        ((joinRun (0 : Fin 3) 1 2).take 3) = some t ∧
      t.msgs = [.requestCS 0 1 1, .requestCS 1 2 2] ∧
      (∀ d sender y, Msg.requestCS d sender y ∈ t.msgs → d ≠ y) ∧
      Network.run (joinStep fun _ => []) (joinNet {0, 1} fun _ => 0) (wokenRun (0 : Fin 3) 1) =
        some u ∧
      ∃ j q, u.node j = some q ∧ q.token = true ∧ 0 < q.waiting := by
  have hstart : Start ({0, 1} : Finset (Fin 3)) (fun _ => 0) 0 :=
    ⟨by decide, by decide, rfl, fun _ _ h => h.symm, fun _ _ => ⟨1, rfl⟩⟩
  have hrun : Network.run (joinStep fun _ => []) (joinNet {0, 1} fun _ => 0)
      (joinRun (0 : Fin 3) 1 2) = some _ := rfl
  have hflight : Network.run (joinStep fun _ => []) (joinNet {0, 1} fun _ => 0)
      ((joinRun (0 : Fin 3) 1 2).take 3) = some _ := rfl
  have hwoken : Network.run (joinStep fun _ => []) (joinNet {0, 1} fun _ => 0)
      (wokenRun (0 : Fin 3) 1) = some _ := rfl
  have hhandled := ((request_not_stranded hstart hrun (by decide)).1 2
    ((joinRun (0 : Fin 3) 1 2).take 3) ((joinRun (0 : Fin 3) 1 2).drop 3) rfl (by decide)).2
  have hother := (request_not_stranded hstart hflight (by decide)).2.1
  have hwaits := (request_not_stranded hstart hwoken (by decide)).2.2
  refine ⟨_, _, _, hrun, by decide, hhandled, hflight, rfl, hother, hwoken, ?_⟩
  refine hwaits (fun _ _ _ h => by cases h) (fun _ _ h => by cases h) ?_ 1 _ rfl (by decide)
  intro i p hp
  fin_cases i <;> cases hp <;> rfl

/-- Nothing is in flight and nobody is inside, but the thread is still in `request_CS`. -/
theorem woken_node_waits :
    Start (Finset.univ : Finset (Fin 2)) (fun _ => 0) 0 ∧
    ∃ s, Network.run (joinStep fun _ => []) (joinNet Finset.univ fun _ => 0)
        (wokenRun (0 : Fin 2) 1) = some s ∧
      Network.Meets (joinStep fun _ => []) (fun s e => joinOk s e)
        (joinNet Finset.univ fun _ => 0) (wokenRun (0 : Fin 2) 1) ∧
      s.msgs = [] ∧ (∀ i, (s.node i).all fun p => p.inside = 0) ∧
      (s.node 1).any fun p => 0 < p.waiting := by
  exact ⟨⟨by decide, by decide, rfl, fun _ _ h => h.symm, fun _ _ => ⟨1, rfl⟩⟩,
    _, rfl, by decide, by decide, by decide, by decide⟩

end NaimiTrehel
