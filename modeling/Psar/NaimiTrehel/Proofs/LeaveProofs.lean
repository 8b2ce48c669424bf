import Psar.NaimiTrehel.Leave
import Psar.NaimiTrehel.Proofs.ExclusionProofs
import Psar.Library.Proofs.PointersProofs

/-!
# Proofs: leaving the critical section

The handlers are an instance of path reversal, so a node is never its own `next`. During a leave,
the token is at one of the remaining nodes, in flight, or still to be made.
-/

namespace NaimiTrehel

variable {Node : Type} [DecidableEq Node]

/-! ## The tree of the fathers -/

section Tree

theorem fathers_fire (s : Net Node) (i : Node) (rest : List (Msg Node))
    (r : Peer Node × List (Msg Node)) :
    fathers (s.fire i rest r) = Function.update (fathers s) i r.1.father := by
  funext j
  by_cases hj : j = i
  · subst hj
    simp [fathers]
  · simp [fathers, Network.fire_node_ne _ _ _ hj, hj]

variable [Fintype Node] {nodeList : Node → List Node} {s s' : Net Node}

theorem treeInv_fire (h : TreeInv s) {i : Node} {ms rest : List (Msg Node)}
    (hp : s.msgs.Perm (ms ++ rest)) {r : Peer Node × List (Msg Node)}
    (hstays : r.1.leaving = (s.node i).leaving ∧ r.1.resetting = (s.node i).resetting)
    (hmsgs : ∀ m ∈ r.2, MsgInv m)
    (hforest : Pointers.Forest (Function.update (fathers s) i r.1.father)
      (rest.filterMap Msg.request ++ r.2.filterMap Msg.request))
    (hnext : r.1.next ≠ some i) : TreeInv (s.fire i rest r) where
  stays := Network.forall_node_fire
    (L := fun _ (p : Peer Node) => p.leaving = false ∧ p.resetting = []) h.stays
    ⟨hstays.1.trans (h.stays i).1, hstays.2.trans (h.stays i).2⟩
  msgs := Network.forall_msgs_fire h.msgs hp hmsgs
  forest := by
    rw [fathers_fire, Network.fire_msgs, List.filterMap_append]
    exact hforest
  next := Network.forall_node_fire (L := fun j (p : Peer Node) => p.next ≠ some j) h.next hnext

/-- A node keeps its father, and no request is consumed or sent. -/
theorem TreeInv.forest_of_father (h : TreeInv s) {i : Node} {ms rest : List (Msg Node)}
    (hp : s.msgs.Perm (ms ++ rest)) (hms : ms.filterMap Msg.request = [])
    {r : Peer Node × List (Msg Node)} (hf : r.1.father = (s.node i).father)
    (hout : r.2.filterMap Msg.request = []) :
    Pointers.Forest (Function.update (fathers s) i r.1.father)
      (rest.filterMap Msg.request ++ r.2.filterMap Msg.request) := by
  have heq : Function.update (fathers s) i r.1.father = fathers s := by
    rw [hf]
    exact Function.update_eq_self i (fathers s)
  rw [heq, hout, List.append_nil]
  apply h.forest.perm
  have hperm := hp.filterMap Msg.request
  rwa [List.filterMap_append, hms, List.nil_append] at hperm

/-- `request_CS` sends a request to the father, or keeps the father. -/
theorem treeInv_requestCS (h : TreeInv s) (i : Node) :
    TreeInv (s.fire i s.msgs (requestCS i (s.node i))) := by
  rcases requestCS_cases i (s.node i) with ⟨-, heq⟩ | ⟨-, -, heq⟩ | ⟨f, -, hf, heq⟩
  · rw [heq]
    exact treeInv_fire h (Network.perm_act _) ⟨rfl, rfl⟩ (by simp)
      (h.forest_of_father (Network.perm_act _) rfl rfl rfl) (h.next i)
  · rw [heq]
    exact treeInv_fire h (Network.perm_act _) ⟨rfl, rfl⟩ (by simp)
      (h.forest_of_father (Network.perm_act _) rfl rfl rfl) (h.next i)
  · rw [heq]
    refine treeInv_fire h (Network.perm_act _) ⟨rfl, rfl⟩ (by simp [MsgInv]) ?_ (h.next i)
    exact (h.forest.send hf).perm (List.perm_append_singleton _ _).symm

/-- `REQUEST_CS_handler` is the step of path reversal. -/
theorem treeInv_requestCSHandler (h : TreeInv s) {j sender y : Node}
    (hm : Msg.requestCS j sender y ∈ s.msgs) :
    TreeInv (s.fire j (s.msgs.erase (.requestCS j sender y))
      (requestCSHandler j (s.node j) y)) := by
  have hperm := Network.perm_deliver hm
  have hforest : Pointers.Forest (fathers s)
      ((j, y) :: (s.msgs.erase (.requestCS j sender y)).filterMap Msg.request) :=
    h.forest.perm (hperm.filterMap Msg.request)
  have hjy : y ≠ j := (hforest.requester_ne List.mem_cons_self).symm
  rcases requestCSHandler_cases j (s.node j) y with ⟨hl, -⟩ | ⟨-, hf, -, heq⟩ | ⟨-, hf, -, heq⟩ |
    ⟨f, -, hf, heq⟩
  · exact absurd ((h.stays j).1.symm.trans hl) (by simp)
  · rw [heq]
    refine treeInv_fire h hperm ⟨rfl, rfl⟩ (by simp) ?_ (by simpa using hjy)
    rw [List.filterMap_nil, List.append_nil]
    exact hforest.receive_root hf
  · rw [heq]
    refine treeInv_fire h hperm ⟨rfl, rfl⟩ (by simp [MsgInv]) ?_ (h.next j)
    rw [List.filterMap_cons_none rfl, List.filterMap_nil, List.append_nil]
    exact hforest.receive_root hf
  · rw [heq]
    refine treeInv_fire h hperm ⟨rfl, rfl⟩ (by simp [MsgInv]) ?_ (h.next j)
    exact (hforest.receive_forward hf).perm (List.perm_append_singleton _ _).symm

/-- Every step but `leave_CS` keeps the tree of the fathers. -/
theorem treeInv_step {e : Event Node} (h : TreeInv s) (hl : noLeave e = true)
    (hstep : step nodeList s e = some s') : TreeInv s' := by
  rcases Network.step_cases hstep with ⟨i, a, r, rfl, hr, rfl⟩ | ⟨m, r, rfl, hm, hr, rfl⟩
  · change act i (s.node i) a = some r at hr
    cases a with
    | requestCS =>
      cases hr
      exact treeInv_requestCS h i
    | wake =>
      obtain ⟨p', hp', rfl⟩ := Option.map_eq_some_iff.mp hr
      obtain ⟨-, -, rfl⟩ := wake_eq_some hp'
      exact treeInv_fire h (Network.perm_act _) ⟨rfl, rfl⟩ (by simp)
        (h.forest_of_father (Network.perm_act _) rfl rfl rfl) (h.next i)
    | releaseCS =>
      rcases (releaseCS_cases hr).2 with ⟨-, rfl⟩ | ⟨-, -, rfl⟩ | ⟨n, -, -, rfl⟩
      · exact treeInv_fire h (Network.perm_act _) ⟨rfl, rfl⟩ (by simp)
          (h.forest_of_father (Network.perm_act _) rfl rfl rfl) (h.next i)
      · exact treeInv_fire h (Network.perm_act _) ⟨rfl, rfl⟩ (by simp)
          (h.forest_of_father (Network.perm_act _) rfl rfl rfl) (h.next i)
      · exact treeInv_fire h (Network.perm_act _) ⟨rfl, rfl⟩ (by simp [MsgInv])
          (h.forest_of_father (Network.perm_act _) rfl rfl rfl) (by simp)
    | leaveCS n => simp [noLeave] at hl
    | resumeReset x => simp [act, (h.stays i).2] at hr
  · have hmsg := h.msgs m hm
    change handle nodeList m.dest (s.node m.dest) m = some r at hr
    cases m with
    | requestCS d sender y =>
      cases hr
      exact treeInv_requestCSHandler h hm
    | getCS d sender =>
      cases hr
      exact treeInv_fire h (Network.perm_deliver hm) ⟨rfl, rfl⟩ (by simp)
        (h.forest_of_father (Network.perm_deliver hm) rfl rfl rfl) (h.next d)
    | _ => exact hmsg.elim

omit [Fintype Node] in
theorem fathers_initNet (f : Node → Node) :
    fathers (initNet f) = fun i => if f i = i then none else some (f i) := by
  funext i
  by_cases hi : f i = i <;> simp [fathers, initNet, hi, initCS]

theorem treeInv_initNet {f : Node → Node} {root : Node}
    (hf : Pointers.Root f (fun _ => True) root) : TreeInv (initNet f) where
  stays := (inv_initNet hf).stays
  msgs := by simp [initNet]
  forest := by
    rw [fathers_initNet]
    exact Pointers.forest_of_root hf
  next := by
    intro i
    by_cases hi : f i = i <;> simp [initNet, hi, initCS]

end Tree

/-! ## The token during a leave -/

/-- The node `i`, not the leaver `l`, moves from `p` to `p'`, consumes the messages `ms` and sends
`out`. -/
structure LeaveMove (l : Node) (p : Peer Node) (ms : List (Msg Node)) (p' : Peer Node)
    (out : List (Msg Node)) : Prop where
  local_ : LeaveLocal l p'
  msgs : ∀ m ∈ out, LeaveMsg l m
  token : p'.token.toNat + (out.map newTokenMsg).sum = p.token.toNat + (ms.map newTokenMsg).sum

section Moves

variable {l i : Node} {p : Peer Node}

/-- A `Move` that adds no request for `l` is one of the leave. -/
theorem leaveMove_of_move (hp : LeaveLocal l p) {ms : List (Msg Node)} {p' : Peer Node}
    {out : List (Msg Node)} (hm : Move i p ms p' out) (hms : ∀ m ∈ ms, MsgInv m)
    (hnext : p'.next ≠ some l) (hmsgs : ∀ m ∈ out, LeaveMsg l m) : LeaveMove l p ms p' out where
  local_ := ⟨hm.local_, hm.stays.1.trans hp.stays, hnext, hm.stays.2 ▸ hp.resetting⟩
  msgs := hmsgs
  token := by
    have heq : ∀ ms : List (Msg Node), (∀ m ∈ ms, MsgInv m) →
        (ms.map newTokenMsg).sum = (ms.map tokenMsg).sum := by
      intro ms hms
      refine congrArg List.sum (List.map_congr_left ?_)
      intro m hm
      have hmsg := hms m hm
      cases m with
      | requestCS d sender y => rfl
      | getCS d sender => rfl
      | _ => exact hmsg.elim
    rw [heq out hm.msgs, heq ms hms]
    exact hm.token

theorem leaveMove_requestCS (hp : LeaveLocal l p) (hi : i ≠ l)
    (h : p.token = true ∨ p.requesting = false ∨ p.father = none) :
    LeaveMove l p [] (requestCS i p).1 (requestCS i p).2 := by
  refine leaveMove_of_move hp (move_requestCS hp.toLocalInv h) (by simp) ?_ ?_
  · rcases requestCS_cases i p with ⟨-, heq⟩ | ⟨-, -, heq⟩ | ⟨f, -, -, heq⟩ <;>
      simpa [heq] using hp.next
  · rcases requestCS_cases i p with ⟨-, heq⟩ | ⟨-, -, heq⟩ | ⟨f, -, -, heq⟩ <;>
      simp [heq, LeaveMsg, hi]

theorem leaveMove_releaseCS (hp : LeaveLocal l p) {r : Peer Node × List (Msg Node)}
    (h : releaseCS i p = some r) : LeaveMove l p [] r.1 r.2 := by
  refine leaveMove_of_move hp (move_releaseCS hp.toLocalInv h) (by simp) ?_ ?_
  · rcases (releaseCS_cases h).2 with ⟨-, rfl⟩ | ⟨-, -, rfl⟩ | ⟨n, -, -, rfl⟩
    · exact hp.next
    · exact hp.next
    · simp
  · rcases (releaseCS_cases h).2 with ⟨-, rfl⟩ | ⟨-, -, rfl⟩ | ⟨n, -, hn, rfl⟩
    · simp
    · simp
    · -- the token goes to `next`, which is not the leaver
      have hnl : n ≠ l := by
        rintro rfl
        exact hp.next hn
      simpa [LeaveMsg] using hnl

theorem leaveMove_requestCSHandler (hp : LeaveLocal l p) {d sender y : Node} (hy : y ≠ l) :
    LeaveMove l p [.requestCS d sender y] (requestCSHandler i p y).1
      (requestCSHandler i p y).2 := by
  refine leaveMove_of_move hp (move_requestCSHandler hp.toLocalInv hp.stays) (by simp [MsgInv]) ?_ ?_
  · rcases requestCSHandler_cases i p y with ⟨-, heq⟩ | ⟨-, -, -, heq⟩ | ⟨-, -, -, heq⟩ |
      ⟨f, -, -, heq⟩
    · simpa [heq] using hp.next
    · simpa [heq] using hy
    · simpa [heq] using hp.next
    · simpa [heq] using hp.next
  · rcases requestCSHandler_cases i p y with ⟨-, heq⟩ | ⟨-, -, -, heq⟩ | ⟨-, -, -, heq⟩ |
      ⟨f, -, -, heq⟩ <;> simp [heq, LeaveMsg, hy]

omit [DecidableEq Node] in
/-- `RESET_CS_handler` at a node without the token. -/
theorem leaveMove_resetCSHandler (hp : LeaveLocal l p) (hi : i ≠ l) (htok : p.token = false)
    {d sender : Node} : LeaveMove l p [.resetCS d sender] (resetCSHandler i p sender).1
      (resetCSHandler i p sender).2 := by
  have h0 := hp.inside_of_token htok
  rcases resetCSHandler_cases i p sender with ⟨hreq, heq⟩ | ⟨hreq, heq⟩
  · rw [heq]
    refine ⟨⟨⟨hp.users, ?_, fun _ _ => rfl, ?_⟩, rfl, ?_, hp.resetting⟩, ?_, ?_⟩
    · simp [initInternalData, h0]
    · simp [initInternalData]
    · simp [initInternalData]
    · simp [LeaveMsg, hi]
    · simp [initInternalData, newTokenMsg, htok]
  · rw [heq]
    refine ⟨⟨⟨hp.users, ?_, ?_, ?_⟩, rfl, ?_, hp.resetting⟩, ?_, ?_⟩
    · simp [initInternalData, h0]
    · simp [initInternalData]
    · simp [initInternalData]
    · simp [initInternalData]
    · simp [LeaveMsg]
    · simp [initInternalData, newTokenMsg, htok]

omit [DecidableEq Node] in
/-- The loop of `NEW_ROOT_CS_handler` over nodes other than the leaver. -/
theorem leaveMove_resetLoop (hp : LeaveLocal l p) {rest : List Node} (hrest : l ∉ rest)
    (i leaver : Node) :
    LeaveMove l p [] (resetLoop i p leaver rest).1 (resetLoop i p leaver rest).2 := by
  obtain ⟨⟨q, hq, hsub⟩, hmsgs⟩ := resetLoop_spec i p leaver rest
  have hzero : ((resetLoop i p leaver rest).2.map newTokenMsg).sum = 0 := by
    apply List.sum_eq_zero
    intro n hn
    obtain ⟨m, hm, rfl⟩ := List.mem_map.mp hn
    rcases hmsgs m hm with rfl | ⟨n, -, rfl⟩ <;> rfl
  refine ⟨?_, ?_, ?_⟩
  · rw [hq]
    refine ⟨⟨hp.users, hp.inside, hp.asking, hp.queue⟩, hp.stays, hp.next, ?_⟩
    intro x hx
    rcases List.mem_append.mp hx with hx | hx
    · exact fun hl => hrest (hsub x hx hl)
    · exact hp.resetting x hx
  · intro m hm
    rcases hmsgs m hm with rfl | ⟨n, hn, rfl⟩
    · trivial
    · rintro rfl
      exact hrest hn
  · rw [hzero, hq]
    simp

omit [DecidableEq Node] in
/-- `NEW_ROOT_CS_handler` makes the new token. -/
theorem leaveMove_newRootCSHandler (hp : LeaveLocal l p) (htok : p.token = false) {d sender : Node}
    {nodeList : List Node} (hrest : l ∉ nodeList) :
    LeaveMove l p [.newRootCS d sender] (newRootCSHandler i nodeList p sender).1
      (newRootCSHandler i nodeList p sender).2 := by
  have h0 := hp.inside_of_token htok
  have hinit : LeaveLocal l (initInternalData p none true p.requesting) :=
    ⟨⟨hp.users, by simp [initInternalData, h0], by simp [initInternalData],
      by simp [initInternalData]⟩, rfl, by simp [initInternalData], hp.resetting⟩
  have hloop := leaveMove_resetLoop hinit hrest i sender
  refine ⟨hloop.local_, hloop.msgs, ?_⟩
  have htoken := hloop.token
  simp only [initInternalData, Bool.toNat_true, List.map_nil, List.sum_nil] at htoken
  simp only [newRootCSHandler, initInternalData, htok, newTokenMsg, List.map_cons, List.map_nil,
    List.sum_cons, List.sum_nil, Bool.toNat_false]
  omega

end Moves

/-! ## Steps and runs of a leave -/

section Run

variable [Fintype Node] {nodeList : Node → List Node} {l : Node} {s s' t : Net Node}

theorem leaveInv_fire (h : LeaveInv l s) {i : Node} (hi : i ≠ l) {ms rest : List (Msg Node)}
    (hp : s.msgs.Perm (ms ++ rest)) {r : Peer Node × List (Msg Node)}
    (hm : LeaveMove l (s.node i) ms r.1 r.2) : LeaveInv l (s.fire i rest r) where
  local_ := Network.forall_node_fire (L := fun j p => j ≠ l → LeaveLocal l p) h.local_ fun _ =>
    hm.local_
  leaver := by
    rw [Network.fire_node_ne _ _ _ hi.symm]
    exact h.leaver
  msgs := Network.forall_msgs_fire h.msgs hp hm.msgs
  token := by
    have h1 := Network.weight_fire (tokenOf l) newTokenMsg (i := i) hp r
    have h2 := hm.token
    have h3 := h.token
    simp only [tokenOf, if_neg hi] at h1
    omega

/-- The leaver handles a message that is not about the token. -/
theorem leaveInv_leaver (h : LeaveInv l s) {ms rest : List (Msg Node)}
    (hp : s.msgs.Perm (ms ++ rest)) (hms : (ms.map newTokenMsg).sum = 0)
    {r : Peer Node × List (Msg Node)} (hreq : r.1.requesting = true)
    (hmsgs : ∀ m ∈ r.2, LeaveMsg l m) (hout : (r.2.map newTokenMsg).sum = 0) :
    LeaveInv l (s.fire l rest r) where
  local_ := Network.forall_node_fire (L := fun j p => j ≠ l → LeaveLocal l p) h.local_ fun hne =>
    absurd rfl hne
  leaver := by
    rw [Network.fire_node_self]
    exact hreq
  msgs := Network.forall_msgs_fire h.msgs hp hmsgs
  token := by
    have h1 := Network.weight_fire (tokenOf l) newTokenMsg (i := l) hp r
    have h2 := h.token
    simp only [tokenOf, if_true] at h1
    omega

/-- While the token is in flight, no remaining node has it. -/
theorem LeaveInv.token_of_msg (h : LeaveInv l s) {m : Msg Node} (hm : m ∈ s.msgs)
    (htoken : newTokenMsg m = 1) {i : Node} (hi : i ≠ l) : (s.node i).token = false := by
  have h1 := Network.le_weight_msg (tokenOf l) newTokenMsg s i hm
  have h2 := h.token
  by_contra hne
  simp only [tokenOf, if_neg hi, (by simpa using hne : (s.node i).token = true), htoken,
    Bool.toNat_true] at h1
  omega

theorem leaveInv_step (hl : ∀ n, l ∉ nodeList n) {e : Event Node} (h : LeaveInv l s)
    (he : leaveEvent l e = true) (hone : oneRequest s e = true)
    (hreset : resetWithoutToken s e = true) (hstep : step nodeList s e = some s') :
    LeaveInv l s' := by
  rcases Network.step_cases hstep with ⟨i, a, r, rfl, hr, rfl⟩ | ⟨m, r, rfl, hm, hr, rfl⟩
  · simp only [leaveEvent, Bool.and_eq_true, decide_eq_true_eq] at he
    have hi := he.1
    have hp := h.local_ i hi
    refine leaveInv_fire h hi (Network.perm_act _) ?_
    change act i (s.node i) a = some r at hr
    cases a with
    | requestCS =>
      cases hr
      apply leaveMove_requestCS hp hi
      simpa [oneRequest, or_assoc] using hone
    | wake =>
      obtain ⟨p', hp', rfl⟩ := Option.map_eq_some_iff.mp hr
      refine leaveMove_of_move (i := i) hp (move_wake hp.toLocalInv hone hp') (by simp) ?_ (by simp)
      obtain ⟨-, -, rfl⟩ := wake_eq_some hp'
      exact hp.next
    | releaseCS => exact leaveMove_releaseCS hp hr
    | leaveCS n => simp [noLeave] at he
    | resumeReset x =>
      simp only [act] at hr
      split at hr
      · rename_i hx
        cases hr
        have hp' : LeaveLocal l { s.node i with resetting := (s.node i).resetting.erase x } :=
          ⟨⟨hp.users, hp.inside, hp.asking, hp.queue⟩, hp.stays, hp.next, fun y hy =>
            hp.resetting y (List.mem_of_mem_erase hy)⟩
        have hloop := leaveMove_resetLoop hp' (hp.resetting x hx.1) i x.leaver
        exact ⟨hloop.local_, hloop.msgs, hloop.token⟩
      · cases hr
  · have hmsg := h.msgs m hm
    have hperm := Network.perm_deliver hm
    change handle nodeList m.dest (s.node m.dest) m = some r at hr
    by_cases hd : m.dest = l
    · show LeaveInv l (s.fire m.dest (s.msgs.erase m) r)
      rw [hd] at hr ⊢
      cases m with
      | requestCS d sender y =>
        cases hr
        -- the leaver never gives the token away
        rcases requestCSHandler_cases l (s.node l) y with ⟨-, heq⟩ | ⟨-, -, -, heq⟩ |
          ⟨-, -, hreq, -⟩ | ⟨f, -, -, heq⟩
        · exact leaveInv_leaver h hperm rfl (by simp [heq, h.leaver]) (by simp [heq]) (by simp [heq])
        · exact leaveInv_leaver h hperm rfl (by simp [heq, h.leaver]) (by simp [heq]) (by simp [heq])
        · exact absurd (h.leaver.symm.trans hreq) (by simp)
        · exact leaveInv_leaver h hperm rfl (by simp [heq, h.leaver])
            (by simpa [heq, LeaveMsg] using hmsg) (by simp [heq, newTokenMsg])
      | ackCS d sender =>
        cases hr
        exact leaveInv_leaver h hperm rfl h.leaver (by simp) rfl
      | leaveCS d sender =>
        cases hr
        exact leaveInv_leaver h hperm rfl h.leaver (by simp) rfl
      | _ => exact absurd hd hmsg
    · have hp := h.local_ m.dest hd
      apply leaveInv_fire h hd hperm
      cases m with
      | requestCS d sender y =>
        cases hr
        exact leaveMove_requestCSHandler hp hmsg
      | getCS d sender =>
        cases hr
        exact leaveMove_of_move hp (move_getCSHandler hp.toLocalInv (h.token_of_msg hm rfl hd))
          (by simp [MsgInv]) hp.next (by simp)
      | newRootCS d sender =>
        cases hr
        exact leaveMove_newRootCSHandler hp (h.token_of_msg hm rfl hd) (hl d)
      | resetCS d sender =>
        cases hr
        apply leaveMove_resetCSHandler hp hd
        simpa [resetWithoutToken, Msg.dest] using hreset
      | ackCS d sender =>
        cases hr
        exact ⟨⟨⟨hp.users, hp.inside, hp.asking, hp.queue⟩, hp.stays, hp.next, hp.resetting⟩,
          by simp, by simp [ackCSHandler, newTokenMsg]⟩
      | leaveCS d sender =>
        cases hr
        exact ⟨⟨⟨hp.users, hp.inside, hp.asking, hp.queue⟩, rfl, hp.next, hp.resetting⟩,
          by simp, by simp [leaveCSHandler, newTokenMsg]⟩

/-- The start of the leave of a node inside the critical section. -/
theorem leaveInv_start (h : Inv s) (htree : TreeInv s) {newRoot : Node} (hroot : newRoot ≠ l)
    (hstep : step nodeList s (.act l (.leaveCS newRoot)) = some t) : LeaveInv l t := by
  obtain ⟨r, hr, rfl⟩ := Option.map_eq_some_iff.mp hstep
  obtain ⟨hin, rfl⟩ := leaveCS_eq_some hr
  obtain ⟨htok, hreq⟩ := (h.local_ l).inside hin
  have hothers : ∀ i, i ≠ l → (s.node i).token = false := by
    intro i hi
    by_contra hne
    exact hi (h.token_unique (by simpa using hne) htok)
  -- a node that has the token has no request under way
  have hown : pendingAt l l (s.node l) = 1 := by
    simp [pendingAt, htok, htree.next l]
  have hnext : ∀ i, i ≠ l → (s.node i).next ≠ some l := by
    intro i hi hn
    have h1 := Network.le_weight_pair (pendingAt l) (pendingMsg l) s hi
    have h2 := h.pending l
    have h3 : 1 ≤ pendingAt l i (s.node i) := by simp [pendingAt, hn]
    omega
  have hmsgs : ∀ m ∈ s.msgs, LeaveMsg l m ∧ newTokenMsg m = 0 := by
    intro m hm
    have h1 := Network.le_weight_msg (pendingAt l) (pendingMsg l) s l hm
    have h2 := h.pending l
    have hmsg := h.msgs m hm
    cases m with
    | requestCS d sender y =>
      refine ⟨?_, rfl⟩
      rintro rfl
      simp only [pendingMsg, if_true] at h1
      omega
    | getCS d sender => exact absurd (htok.symm.trans (h.token_of_getCS hm l)) (by simp)
    | _ => exact hmsg.elim
  refine ⟨?_, ?_, ?_, ?_⟩
  · intro i hi
    rw [Network.fire_node_ne _ _ _ hi]
    exact ⟨h.local_ i, (h.stays i).1, hnext i hi, by simp [(h.stays i).2]⟩
  · rw [Network.fire_node_self]
    exact hreq
  · refine Network.forall_msgs_fire (fun m hm => (hmsgs m hm).1) (Network.perm_act _) ?_
    simp only [List.mem_singleton, forall_eq, LeaveMsg]
    cases hn : (s.node l).next with
    | none => simpa using hroot
    | some n =>
      have hne := htree.next l
      rw [hn] at hne
      simpa using hne
  · have h1 := Network.weight_fire (tokenOf l) newTokenMsg (i := l) (Network.perm_act s.msgs)
      (({ s.node l with leaving := true, inside := (s.node l).inside - 1 } : Peer Node),
        [Msg.newRootCS ((s.node l).next.getD newRoot) l])
    have h2 : s.weight (tokenOf l) newTokenMsg = 0 := by
      have hsum : (s.msgs.map newTokenMsg).sum = 0 := by
        apply List.sum_eq_zero
        intro n hn
        obtain ⟨m, hm, rfl⟩ := List.mem_map.mp hn
        exact (hmsgs m hm).2
      have hnode : ∀ i, tokenOf l i (s.node i) = 0 := by
        intro i
        by_cases hi : i = l
        · simp [tokenOf, hi]
        · simp [tokenOf, hi, hothers i hi]
      simp [Network.Net.weight, hsum, hnode]
    simp only [tokenOf, if_true, List.map_nil, List.sum_nil, List.map_cons, List.sum_cons,
      newTokenMsg] at h1
    omega

/-- The weight of the token counts the remaining nodes that have it and the messages that carry
it. -/
theorem weight_tokenOf (l : Node) (s : Net Node) (h : ∀ d sender, Msg.newRootCS d sender ∉ s.msgs) :
    s.weight (tokenOf l) newTokenMsg = tokensBut l s + getCSs s := by
  have h1 : ∑ i, tokenOf l i (s.node i) = tokensBut l s := by
    simp only [tokensBut, Finset.card_filter, tokenOf]
    apply Finset.sum_congr rfl
    intro i _
    by_cases hi : i = l <;> cases (s.node i).token <;> simp [hi]
  have h2 : (s.msgs.map newTokenMsg).sum = getCSs s := by
    unfold getCSs
    generalize s.msgs = q at h
    induction q with
    | nil => rfl
    | cons m q ih =>
      have hq := ih fun d sender hm => h d sender (List.mem_cons_of_mem _ hm)
      rw [List.map_cons, List.sum_cons, List.countP_cons, hq]
      cases m with
      | newRootCS d sender => exact absurd List.mem_cons_self (h d sender)
      | _ => simp [newTokenMsg, Nat.add_comm]
  rw [Network.Net.weight, h1, h2]

/-- Token conservation across a leave: the node `l` is inside the critical section and leaves. In
every run from there in which every node has one request at a time and `RESET_CS` is handled by
nodes without the token, once `NEW_ROOT_CS` has been handled there is one token among the remaining
nodes and the `GET_CS` in flight, and every thread inside the critical section has it. -/
theorem leave_conserves_token {f : Node → Node} {root : Node}
    (hf : Pointers.Root f (fun _ => True) root) {es₀ es : List (Event Node)}
    (hrun₀ : Network.run (step nodeList) (initNet f) es₀ = some s)
    (hok₀ : Network.Meets (step nodeList) (fun s e => noLeave e && oneRequest s e) (initNet f) es₀)
    {newRoot : Node} (hroot : newRoot ≠ l) (hl : ∀ n, l ∉ nodeList n)
    (hrun : Network.run (step nodeList) s (.act l (.leaveCS newRoot) :: es) = some t)
    (hok : ∀ s₁, step nodeList s (.act l (.leaveCS newRoot)) = some s₁ →
      Network.Meets (step nodeList)
        (fun s e => leaveEvent l e && oneRequest s e && resetWithoutToken s e) s₁ es)
    (hnew : ∀ d sender, Msg.newRootCS d sender ∉ t.msgs) :
    tokensBut l t + getCSs t = 1 ∧ ∀ i, i ≠ l → 0 < (t.node i).inside → (t.node i).token = true := by
  obtain ⟨s₁, hstart, hrun₁⟩ := Network.run_cons_eq_some.mp hrun
  have htree : TreeInv s := by
    refine Network.run_invariant (fun s e s' h hok hstep => ?_) (treeInv_initNet hf) hok₀ hrun₀
    simp only [Bool.and_eq_true] at hok
    exact treeInv_step h hok.1 hstep
  have h₁ : LeaveInv l s₁ := leaveInv_start (inv_run hf hrun₀ hok₀) htree hroot hstart
  have h : LeaveInv l t := by
    refine Network.run_invariant (fun s e s' h hok hstep => ?_) h₁ (hok s₁ hstart) hrun₁
    simp only [Bool.and_eq_true] at hok
    exact leaveInv_step hl h hok.1.1 hok.1.2 hok.2 hstep
  refine ⟨?_, fun i hi hin => ((h.local_ i hi).inside hin).1⟩
  rw [← weight_tokenOf l t hnew]
  exact h.token

end Run

/-! ## Leaves of three nodes -/

/-- Every node knows the others, and the node `l`, which leaves, is in no list any more. -/
def remainingNodes (l n : Fin 3) : List (Fin 3) :=
  (List.finRange 3).filter fun m => m ≠ l ∧ m ≠ n

/-- The node `b` is inside the critical section, and the request of the node `c` is on its way. -/
def requestedRun (a b c : Node) : List (Event Node) :=
  [.act b .requestCS, .act c .requestCS, .deliver (.requestCS a b b), .deliver (.getCS b a),
    .act b .wake]

/-- The node `c` is reset before its request is answered. -/
def resetFirst (a b c : Node) : List (Event Node) :=
  [.deliver (.newRootCS a b), .deliver (.resetCS c a), .deliver (.requestCS a c c)]

theorem leave_conserves_token_resetFirst :
    ∃ s t, Network.run (step (remainingNodes 1)) (initNet fun _ => 0) (requestedRun 0 1 2) = some s ∧
      Network.run (step (remainingNodes 1)) s (.act 1 (.leaveCS 0) :: resetFirst 0 1 2) = some t ∧
      Msg.requestCS 0 2 2 ∈ t.msgs ∧ tokensBut 1 t + getCSs t = 1 := by
  have hrun₀ : Network.run (step (remainingNodes 1)) (initNet fun _ => 0) (requestedRun 0 1 2) =
      some _ := rfl
  refine ⟨_, _, hrun₀, rfl, by decide, ?_⟩
  refine (@leave_conserves_token (Fin 3) _ _ (remainingNodes 1) 1 _ _ (fun _ => 0) 0
    (Pointers.root_const 0) (requestedRun 0 1 2) (resetFirst 0 1 2) hrun₀ (by decide) 0 (by decide)
    (by decide) rfl (fun s₁ hs₁ => ?_) (by decide)).1
  cases hs₁
  decide

/-- The request of the node `c` is answered before the node `c` is reset. -/
def resetLast (a b c : Node) : List (Event Node) :=
  [.deliver (.newRootCS a b), .deliver (.requestCS a c c), .deliver (.getCS c a),
    .deliver (.resetCS c a)]

/-- `RESET_CS` then destroys the only token. -/
theorem reset_destroys_token :
    ∃ s t, Network.run (step (remainingNodes 1)) (initNet fun _ => 0) (requestedRun 0 1 2) = some s ∧
      (s.node 1).inside = 1 ∧ (s.node 1).users = 1 ∧
      Network.run (step (remainingNodes 1)) s (.act 1 (.leaveCS 0) :: resetLast 0 1 2) = some t ∧
      (∀ d sender, Msg.newRootCS d sender ∉ t.msgs) ∧ tokensBut 1 t + getCSs t = 0 := by
  exact ⟨_, _, rfl, by decide, by decide, rfl, by decide, by decide⟩

end NaimiTrehel
