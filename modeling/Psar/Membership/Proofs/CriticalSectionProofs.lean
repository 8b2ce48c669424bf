import Psar.Membership.CriticalSection
import Psar.Membership.Proofs.JoinProofs
import Psar.NaimiTrehel.Proofs.ExclusionProofs
import Psar.Library.Proofs.SimulationProofs

/-!
# Proofs: joining over the critical section

A handler of `JOIN_DSM` between `request_CS` and `release_CS` is a thread inside the critical
section, so its node has the token; the members by themselves take steps in which `request_CS` keeps
different nodes apart.
-/

namespace Joining

open Membership (Handler Stage)

/-! ## The handlers of one node -/

section Peer

variable {Node : Type} [DecidableEq Node] {i : Node} {p : Peer Node} {q : Membership.Peer Node}
  {h : Handler Node}

/-- A handler that goes on enters the critical section in `request_CS` and leaves it in
`release_CS`. -/
theorem count_resume {m : Membership.Peer Node × List (Membership.Msg Node)}
    (hm : Membership.peerAct i q (.resume h) = some m) :
    m.1.handlers.countP Handler.inside + (if h.stage = .releaseCS then 1 else 0) =
        q.handlers.countP Handler.inside + (if h.stage = .requestCS then 1 else 0) ∧
      m.1.leave = q.leave := by
  obtain ⟨hh, hm⟩ := Option.ite_none_right_eq_some.mp hm
  refine ⟨?_, (Membership.joinDSMHandler_leave hm).1⟩
  have hcount : q.handlers.countP Handler.inside =
      (q.handlers.erase h).countP Handler.inside + if h.inside then 1 else 0 := by
    rw [(List.perm_cons_erase hh).countP_eq, List.countP_cons]
  obtain ⟨joiner, stage⟩ := h
  have hloop : ∀ (p : Membership.Peer Node) (l : List Node),
      (Membership.newNodeLoop i p joiner l).1.handlers.countP Handler.inside =
        p.handlers.countP Handler.inside + 1 := by
    intro p l
    cases l <;> simp [Membership.newNodeLoop, Handler.inside, List.countP_cons]
  rw [hcount]
  cases stage with
  | waitInDsm =>
    obtain ⟨-, heq⟩ := Option.ite_none_right_eq_some.mp hm
    obtain rfl := Option.some.inj heq
    simp [Handler.inside]
  | requestCS =>
    obtain rfl := Option.some.inj hm
    simp [Handler.inside, List.countP_cons]
  | lockUmtx =>
    obtain ⟨-, heq⟩ := Option.ite_none_right_eq_some.mp hm
    obtain rfl := Option.some.inj heq
    simp [hloop, Handler.inside]
  | waitAcked rest =>
    obtain ⟨-, heq⟩ := Option.ite_none_right_eq_some.mp hm
    obtain rfl := Option.some.inj heq
    simp [hloop, Handler.inside]
  | adding =>
    obtain rfl := Option.some.inj hm
    simp [Membership.addToNodes, Handler.inside, List.countP_cons]
  | releaseCS =>
    obtain rfl := Option.some.inj hm
    simp [Handler.inside]

omit [DecidableEq Node] in
theorem count_handle {m : Membership.Msg Node}
    {r : Membership.Peer Node × List (Membership.Msg Node)}
    (hr : Membership.peerHandle i q m = some r) :
    r.1.handlers.countP Handler.inside = q.handlers.countP Handler.inside ∧
      r.1.leave = q.leave := by
  cases m with
  | joinDSM d sender =>
    cases hr
    exact ⟨by simp [Handler.inside], rfl⟩
  | newNode d sender n =>
    obtain ⟨-, heq⟩ := Option.ite_none_right_eq_some.mp hr
    obtain rfl := Option.some.inj heq
    exact ⟨rfl, rfl⟩
  | ackNode d sender =>
    cases hr
    exact ⟨rfl, rfl⟩
  | infoDSM d sender k nodes =>
    obtain ⟨q', hq', rfl⟩ := Option.map_eq_some_iff.mp hr
    obtain ⟨-, heq⟩ := Option.ite_none_right_eq_some.mp hq'
    obtain rfl := Option.some.inj heq
    rw [Membership.foldl_addToNodes]
    exact ⟨rfl, rfl⟩
  | recvPageLeave d sender =>
    cases hr
    unfold Membership.leaveHandler
    split <;> exact ⟨rfl, rfl⟩
  | dtLeave d sender newOwner =>
    cases hr
    unfold Membership.leaveHandler
    split <;> exact ⟨rfl, rfl⟩
  | ackRecvPage d sender =>
    cases hr
    exact ⟨rfl, rfl⟩

theorem goOn_eq_some {r : NaimiTrehel.Peer Node × List (NaimiTrehel.Msg Node)}
    {x : Peer Node × List (Msg Node)} (hx : goOn i p h r = some x) :
    ∃ m, Membership.peerAct i p.member (.resume h) = some m ∧
      x = ({ p with member := m.1, cs := r.1 }, m.2.map .member ++ r.2.map .cs) := by
  obtain ⟨m, hm, rfl⟩ := Option.map_eq_some_iff.mp hx
  exact ⟨m, hm, rfl⟩

/-- The handler goes on while the threads inside change as it does. -/
theorem linked_goOn (hp : Linked p) {r : NaimiTrehel.Peer Node × List (NaimiTrehel.Msg Node)}
    {m : Membership.Peer Node × List (Membership.Msg Node)}
    (hm : Membership.peerAct i p.member (.resume h) = some m)
    (hr : r.1.inside + (if h.stage = .releaseCS then 1 else 0) =
      p.cs.inside + (if h.stage = .requestCS then 1 else 0)) (l : List Node) :
    Linked ⟨m.1, r.1, l⟩ := by
  obtain ⟨hcount, hleave⟩ := count_resume hm
  have hinside := hp.inside
  refine ⟨?_, hleave.trans hp.leave⟩
  show r.1.inside = m.1.handlers.countP Handler.inside
  omega

omit [DecidableEq Node] in
theorem Linked.inside_pos_iff (hp : Linked p) :
    0 < p.cs.inside ↔ ∃ x ∈ p.member.handlers, x.inside := by
  rw [hp.inside, List.countP_pos_iff]

omit [DecidableEq Node] in
/-- A node with a handler between `request_CS` and `release_CS` has a thread inside. -/
theorem Linked.inCS_iff (hp : Linked p) : Membership.inCS p.member = true ↔ 0 < p.cs.inside := by
  rw [hp.inside_pos_iff]
  simp [Membership.inCS, hp.leave]

end Peer

/-! ## The parts of a step -/

section Parts

variable {Node : Type} {ms : List (Membership.Msg Node)} {cs : List (NaimiTrehel.Msg Node)}

theorem filterMap_cs_member : (ms.map (Msg.member : _ → Msg Node)).filterMap Msg.cs? = [] := by
  simp [List.filterMap_map, Function.comp_def, Msg.cs?]

theorem filterMap_cs_cs : (cs.map (Msg.cs : _ → Msg Node)).filterMap Msg.cs? = cs := by
  simp [List.filterMap_map, Function.comp_def, Msg.cs?]

theorem filterMap_member_cs : (cs.map (Msg.cs : _ → Msg Node)).filterMap Msg.member? = [] := by
  simp [List.filterMap_map, Function.comp_def, Msg.member?]

theorem filterMap_member_member :
    (ms.map (Msg.member : _ → Msg Node)).filterMap Msg.member? = ms := by
  simp [List.filterMap_map, Function.comp_def, Msg.member?]

theorem filterMap_cs_append :
    (ms.map .member ++ cs.map .cs : List (Msg Node)).filterMap Msg.cs? = cs := by
  rw [List.filterMap_append, filterMap_cs_member, filterMap_cs_cs, List.nil_append]

theorem filterMap_member_append :
    (ms.map .member ++ cs.map .cs : List (Msg Node)).filterMap Msg.member? = ms := by
  rw [List.filterMap_append, filterMap_member_member, filterMap_member_cs, List.append_nil]

theorem separates_member : Network.Separates (Msg.member? : Msg Node → _) := by
  intro m m' x hm hm'
  cases m <;> cases m' <;> simp_all [Msg.member?]

theorem separates_cs : Network.Separates (Msg.cs? : Msg Node → _) := by
  intro m m' x hm hm'
  cases m <;> cases m' <;> simp_all [Msg.cs?]

variable [DecidableEq Node] {o i : Node} {s : Net Node} {p : Peer Node} {l : List (Msg Node)}

theorem csNet_fire (i : Node) (rest l : List (Msg Node)) (p : Peer Node) :
    csNet o (s.fire i rest (some p, l)) =
      (csNet o s).fire i (rest.filterMap Msg.cs?) (p.cs, l.filterMap Msg.cs?) :=
  Network.project_fire s i rest (some p, l)

theorem memberNet_fire (i : Node) (rest l : List (Msg Node)) (p : Peer Node) :
    memberNet (s.fire i rest (some p, l)) =
      (memberNet s).fire i (rest.filterMap Msg.member?)
        (some p.member, l.filterMap Msg.member?) :=
  Network.project_fire s i rest (some p, l)

omit [DecidableEq Node] in
theorem csNet_node (hi : s.node i = some p) : (csNet o s).node i = p.cs := by
  simp [csNet, csOf, hi]

/-- A step in which the entry of the critical section stays as it is. -/
theorem csNet_same (hi : s.node i = some p) (p' : Peer Node) (hcs : p'.cs = p.cs)
    (hl : l.filterMap Msg.cs? = []) {rest : List (Msg Node)}
    (hrest : rest.filterMap Msg.cs? = s.msgs.filterMap Msg.cs?) :
    csNet o (s.fire i rest (some p', l)) = csNet o s := by
  rw [csNet_fire, hcs, hl, hrest, ← csNet_node (o := o) hi]
  exact Network.fire_same (csNet o s) i

/-- A step in which the members stay as they are. -/
theorem memberNet_same (hi : s.node i = some p) (p' : Peer Node) (hm : p'.member = p.member)
    (hl : l.filterMap Msg.member? = []) {rest : List (Msg Node)}
    (hrest : rest.filterMap Msg.member? = s.msgs.filterMap Msg.member?) :
    memberNet (s.fire i rest (some p', l)) = memberNet s := by
  have hnode : (memberNet s).node i = some p.member := by simp [memberNet, hi]
  rw [memberNet_fire, hm, hl, hrest, ← hnode]
  exact Network.fire_same (memberNet s) i

/-- A handler goes on: a step of the members. -/
theorem member_resume (hi : s.node i = some p) {h : Handler Node}
    {m : Membership.Peer Node × List (Membership.Msg Node)}
    (hm : Membership.peerAct i p.member (.resume h) = some m) (cs : NaimiTrehel.Peer Node)
    (l : List Node) (out : List (NaimiTrehel.Msg Node)) :
    Membership.step (memberNet s) (.act i (.resume h)) =
      some (memberNet (s.fire i s.msgs (some ⟨m.1, cs, l⟩, m.2.map .member ++ out.map .cs))) := by
  have hnode : (memberNet s).node i = some p.member := by simp [memberNet, hi]
  have hstep := Network.step_act (P := Membership.protocol) (s := memberNet s) (i := i)
    (a := .resume h) (r := Membership.started m) (by
      rw [hnode]
      exact Option.map_eq_some_iff.mpr ⟨m, hm, rfl⟩)
  rw [memberNet_fire, filterMap_member_append]
  exact hstep

end Parts

/-! ## The invariant -/

section Step

variable {Node : Type} [DecidableEq Node] [Fintype Node] {o i : Node} {s s' : Net Node}
  {p p' : Peer Node} {e : Event Node}

theorem inv_fire (h : Inv o s) {rest l : List (Msg Node)}
    (hcs : NaimiTrehel.Inv (csNet o (s.fire i rest (some p', l)))) (hlinked : Linked p') :
    Inv o (s.fire i rest (some p', l)) where
  cs := hcs
  linked := Network.forall_node_fire (L := fun _ (x : Option (Peer Node)) => ∀ p ∈ x, Linked p)
    h.linked (by simpa using hlinked)

/-- A node joins: it does not matter whom it takes for its father. -/
theorem inv_joinDSM (h : Inv o s) (hi : s.node i = none) (contact : Node) :
    Inv o (s.fire i s.msgs (started (joinDSM i contact))) := by
  refine inv_fire h ?_ ⟨rfl, rfl⟩
  rw [csNet_fire]
  refine NaimiTrehel.inv_fire h.cs (Network.perm_act _) ?_
  have hnode : (csNet o s).node i = NaimiTrehel.initCS (some o) false false := by
    simp [csNet, csOf, hi]
  have hmsgs : (joinDSM i contact).2.filterMap Msg.cs? = [] := filterMap_cs_member
  rw [hnode, hmsgs]
  exact ⟨⟨rfl, by simp [joinDSM, NaimiTrehel.initCS], by simp [joinDSM, NaimiTrehel.initCS],
    by simp [joinDSM, NaimiTrehel.initCS]⟩, ⟨rfl, rfl⟩, by simp, rfl, fun y => by
      simp [joinDSM, NaimiTrehel.pendingAt, NaimiTrehel.initCS]⟩

/-- A thread of the node takes a step in `Naimi_Trehel.c`. -/
theorem inv_csAct (h : Inv o s) (hi : s.node i = some p) {a : NaimiTrehel.Action Node}
    (hl : NaimiTrehel.noLeave (.act i a) = true)
    (hok : NaimiTrehel.oneRequest (csNet o s) (.act i a) = true)
    {r : NaimiTrehel.Peer Node × List (NaimiTrehel.Msg Node)}
    (hr : NaimiTrehel.act i p.cs a = some r) {l : List (Msg Node)} (hcs : p'.cs = r.1)
    (hmsgs : l.filterMap Msg.cs? = r.2) (hlinked : Linked p') :
    Inv o (s.fire i s.msgs (some p', l)) := by
  refine inv_fire h ?_ hlinked
  rw [csNet_fire, hcs, hmsgs]
  have hstep : NaimiTrehel.step (fun _ => []) (csNet o s) (.act i a) =
      some ((csNet o s).fire i (csNet o s).msgs r) := by
    refine Network.step_act (P := NaimiTrehel.protocol fun _ => []) ?_
    rw [csNet_node hi]
    exact hr
  exact NaimiTrehel.inv_step h.cs hl hok hstep

theorem inv_resume (h : Inv o s) (hi : s.node i = some p) {x : Handler Node}
    (hx : x.stage ≠ .requestCS ∧ x.stage ≠ .releaseCS) {r : Peer Node × List (Msg Node)}
    (hr : goOn i p x (p.cs, []) = some r) : Inv o (s.fire i s.msgs (started r)) := by
  obtain ⟨m, hm, rfl⟩ := goOn_eq_some hr
  have hsame : csNet o (s.fire i s.msgs (some ⟨m.1, p.cs, p.inLoop⟩,
      m.2.map .member ++ [].map .cs)) = csNet o s :=
    csNet_same hi ⟨m.1, p.cs, p.inLoop⟩ rfl filterMap_cs_append rfl
  refine inv_fire h ?_ (linked_goOn (h.linked i p hi) hm (by simp [hx]) p.inLoop)
  exact hsame ▸ h.cs

theorem inv_requestCS (h : Inv o s) (hi : s.node i = some p) {joiner : Node}
    (hok : joinOk s (.act i (.requestCS joiner)) = true) {r : Peer Node × List (Msg Node)}
    (hr : requestCS i p joiner = some r) : Inv o (s.fire i s.msgs (started r)) := by
  have hone : NaimiTrehel.oneRequest (csNet o s) (.act i .requestCS) = true := by
    simpa [joinOk, NaimiTrehel.oneRequest, csNet_node hi, hi] using hok
  obtain ⟨-, hr⟩ := Option.ite_none_right_eq_some.mp hr
  have hlinked := h.linked i p hi
  rcases NaimiTrehel.requestCS_cases i p.cs with ⟨htok, heq⟩ | ⟨htok, -, heq⟩ | ⟨f, htok, -, heq⟩
  · simp only [htok, if_true] at hr
    obtain ⟨m, hm, rfl⟩ := goOn_eq_some hr
    refine inv_csAct h hi rfl hone rfl rfl filterMap_cs_append (linked_goOn hlinked hm ?_ p.inLoop)
    simp [heq]
  · simp only [htok, Bool.false_eq_true, if_false] at hr
    obtain rfl := Option.some.inj hr
    refine inv_csAct h hi rfl hone rfl rfl filterMap_cs_cs ⟨?_, hlinked.leave⟩
    simp [heq, hlinked.inside]
  · simp only [htok, Bool.false_eq_true, if_false] at hr
    obtain rfl := Option.some.inj hr
    refine inv_csAct h hi rfl hone rfl rfl filterMap_cs_cs ⟨?_, hlinked.leave⟩
    simp [heq, hlinked.inside]

theorem inv_wake (h : Inv o s) (hi : s.node i = some p) {joiner : Node}
    (hok : joinOk s (.act i (.wake joiner)) = true) {r : Peer Node × List (Msg Node)}
    (hr : wake i p joiner = some r) : Inv o (s.fire i s.msgs (started r)) := by
  have hone : NaimiTrehel.oneRequest (csNet o s) (.act i .wake) = true := by
    simpa [joinOk, NaimiTrehel.oneRequest, csNet_node hi, hi] using hok
  obtain ⟨-, hr⟩ := Option.ite_none_right_eq_some.mp hr
  obtain ⟨cs, hcs, hr⟩ := Option.bind_eq_some_iff.mp hr
  obtain ⟨m, hm, rfl⟩ := goOn_eq_some hr
  have hact : NaimiTrehel.act i p.cs .wake = some (cs, []) :=
    Option.map_eq_some_iff.mpr ⟨cs, hcs, rfl⟩
  obtain ⟨-, -, rfl⟩ := NaimiTrehel.wake_eq_some hcs
  exact inv_csAct h hi rfl hone hact rfl filterMap_cs_append
    (linked_goOn (p := p) (h.linked i p hi) hm (by simp) _)

theorem inv_releaseCS (h : Inv o s) (hi : s.node i = some p) {joiner : Node}
    {r : Peer Node × List (Msg Node)} (hr : releaseCS i p joiner = some r) :
    Inv o (s.fire i s.msgs (started r)) := by
  obtain ⟨x, hx, hr⟩ := Option.bind_eq_some_iff.mp hr
  obtain ⟨m, hm, rfl⟩ := goOn_eq_some hr
  have hinside : x.1.inside + 1 = p.cs.inside := by
    obtain ⟨hpos, ⟨-, rfl⟩ | ⟨-, -, rfl⟩ | ⟨n, -, -, rfl⟩⟩ := NaimiTrehel.releaseCS_cases hx <;>
      exact Nat.sub_add_cancel hpos
  exact inv_csAct (a := .releaseCS) h hi rfl rfl hx rfl filterMap_cs_append
    (linked_goOn (h.linked i p hi) hm (by simpa using hinside) p.inLoop)

theorem inv_peerAct (h : Inv o s) (hi : s.node i = some p) {a : Action Node}
    (hok : joinOk s (.act i a) = true) {r : Peer Node × List (Msg Node)}
    (hr : peerAct i p a = some r) : Inv o (s.fire i s.msgs (started r)) := by
  cases a with
  | joinDSM contact => cases hr
  | resume x =>
    obtain ⟨hx, hr⟩ := Option.ite_none_left_eq_some.mp hr
    exact inv_resume h hi (not_or.mp hx) hr
  | requestCS joiner => exact inv_requestCS h hi hok hr
  | wake joiner => exact inv_wake h hi hok hr
  | releaseCS joiner => exact inv_releaseCS h hi hr

omit [DecidableEq Node] [Fintype Node] in
/-- The messages of `request_CS` and `release_CS` leave the threads inside where they are. -/
theorem handle_inside {nodeList : Node → List Node} {c : NaimiTrehel.Peer Node}
    {m : NaimiTrehel.Msg Node} (hm : NaimiTrehel.MsgInv m)
    {r : NaimiTrehel.Peer Node × List (NaimiTrehel.Msg Node)}
    (hr : NaimiTrehel.handle nodeList i c m = some r) : r.1.inside = c.inside := by
  cases m with
  | requestCS d sender y =>
    cases hr
    rcases NaimiTrehel.requestCSHandler_cases i c y with ⟨-, h⟩ | ⟨-, -, -, h⟩ | ⟨-, -, -, h⟩ |
      ⟨f, -, -, h⟩ <;>
      rw [h]
  | getCS d sender =>
    cases hr
    rfl
  | _ => exact hm.elim

theorem inv_peerHandle (h : Inv o s) {m : Msg Node} (hm : m ∈ s.msgs) (hi : s.node m.dest = some p)
    {r : Peer Node × List (Msg Node)} (hr : peerHandle m.dest p m = some r) :
    Inv o (s.fire m.dest (s.msgs.erase m) (started r)) := by
  have hlinked := h.linked _ p hi
  cases m with
  | member m =>
    obtain ⟨x, hx, rfl⟩ := Option.map_eq_some_iff.mp hr
    obtain ⟨hcount, hleave⟩ := count_handle hx
    refine inv_fire h ?_ ⟨hlinked.inside.trans hcount.symm, hleave.trans hlinked.leave⟩
    have herase : (s.msgs.erase (.member m)).filterMap Msg.cs? = s.msgs.filterMap Msg.cs? :=
      Network.filterMap_erase_none rfl s.msgs
    have hsame : csNet o (s.fire m.dest (s.msgs.erase (.member m))
        (some { p with member := x.1 }, x.2.map .member)) = csNet o s :=
      csNet_same hi { p with member := x.1 } rfl filterMap_cs_member herase
    exact hsame ▸ h.cs
  | cs m =>
    obtain ⟨x, hx, rfl⟩ := Option.map_eq_some_iff.mp hr
    have hmem : m ∈ (csNet o s).msgs := Network.mem_project_msgs hm rfl
    have hinside := handle_inside (h.cs.msgs m hmem) hx
    refine inv_fire h ?_ ⟨hinside.trans hlinked.inside, hlinked.leave⟩
    rw [csNet_fire, Network.filterMap_erase_some separates_cs rfl, filterMap_cs_cs]
    have hnode : (csNet o s).node m.dest = p.cs := csNet_node hi
    have hstep : NaimiTrehel.step (fun _ => p.member.nodeList) (csNet o s) (.deliver m) =
        some ((csNet o s).fire m.dest ((csNet o s).msgs.erase m) x) := by
      refine Network.step_deliver (P := NaimiTrehel.protocol fun _ => p.member.nodeList) hmem ?_
      change NaimiTrehel.handle (fun _ => p.member.nodeList) m.dest ((csNet o s).node m.dest) m =
        some x
      rw [hnode]
      exact hx
    exact NaimiTrehel.inv_step h.cs rfl rfl hstep

omit [Fintype Node] in
theorem act_eq_some {x : Option (Peer Node)} {a : Action Node}
    {r : Option (Peer Node) × List (Msg Node)} (h : act i x a = some r) :
    (∃ contact, x = none ∧ a = .joinDSM contact ∧ r = started (joinDSM i contact)) ∨
    ∃ p r', x = some p ∧ peerAct i p a = some r' ∧ r = started r' := by
  cases x with
  | none =>
    cases a with
    | joinDSM contact =>
      cases h
      exact Or.inl ⟨contact, rfl, rfl, rfl⟩
    | _ => cases h
  | some p =>
    obtain ⟨r', hr', rfl⟩ := Option.map_eq_some_iff.mp h
    exact Or.inr ⟨p, r', rfl, hr', rfl⟩

theorem inv_step (h : Inv o s) (hok : joinOk s e = true) (hstep : step s e = some s') :
    Inv o s' := by
  rcases Network.step_cases hstep with ⟨i, a, r, rfl, hr, rfl⟩ | ⟨m, r, rfl, hm, hr, rfl⟩
  · rcases act_eq_some hr with ⟨contact, hi, rfl, rfl⟩ | ⟨p, r', hi, hr', rfl⟩
    · exact inv_joinDSM h hi contact
    · exact inv_peerAct h hi hok hr'
  · obtain ⟨p, hp, hr⟩ := Option.bind_eq_some_iff.mp hr
    obtain ⟨r', hr', rfl⟩ := Option.map_eq_some_iff.mp hr
    exact inv_peerHandle h hm hp hr'

end Step

/-! ## The members -/

section Members

variable {Node : Type} [DecidableEq Node] {o i : Node} {s s' : Net Node} {p : Peer Node}
  {e : Event Node} {rest l : List (Msg Node)}

theorem member_peerAct (hi : s.node i = some p) {a : Action Node} {r : Peer Node × List (Msg Node)}
    (hr : peerAct i p a = some r) : Network.run Membership.step (memberNet s)
      (memberEvents s (.act i a)) = some (memberNet (s.fire i s.msgs (started r))) := by
  cases a with
  | joinDSM contact => cases hr
  | resume x =>
    obtain ⟨-, hr⟩ := Option.ite_none_left_eq_some.mp hr
    obtain ⟨m, hm, rfl⟩ := goOn_eq_some hr
    exact Network.run_cons_eq_some.mpr ⟨_, member_resume hi hm p.cs p.inLoop [], rfl⟩
  | requestCS joiner =>
    obtain ⟨-, hr⟩ := Option.ite_none_right_eq_some.mp hr
    cases htok : p.cs.token with
    | true =>
      simp only [htok, if_true] at hr
      obtain ⟨m, hm, rfl⟩ := goOn_eq_some hr
      simp only [memberEvents, hi, Option.any_some, htok, if_true]
      exact Network.run_cons_eq_some.mpr ⟨_, member_resume hi hm _ p.inLoop _, rfl⟩
    | false =>
      simp only [htok, Bool.false_eq_true, if_false] at hr
      obtain rfl := Option.some.inj hr
      simp only [memberEvents, hi, Option.any_some, htok, Bool.false_eq_true, if_false]
      exact congrArg some (memberNet_same hi { p with
        cs := (NaimiTrehel.requestCS i p.cs).1
        inLoop := joiner :: p.inLoop } rfl filterMap_member_cs rfl).symm
  | wake joiner =>
    obtain ⟨-, hr⟩ := Option.ite_none_right_eq_some.mp hr
    obtain ⟨cs, -, hr⟩ := Option.bind_eq_some_iff.mp hr
    obtain ⟨m, hm, rfl⟩ := goOn_eq_some hr
    exact Network.run_cons_eq_some.mpr ⟨_, member_resume hi hm cs _ [], rfl⟩
  | releaseCS joiner =>
    obtain ⟨x, -, hr⟩ := Option.bind_eq_some_iff.mp hr
    obtain ⟨m, hm, rfl⟩ := goOn_eq_some hr
    exact Network.run_cons_eq_some.mpr ⟨_, member_resume hi hm x.1 p.inLoop x.2, rfl⟩

theorem member_peerHandle {m : Msg Node} (hm : m ∈ s.msgs) (hi : s.node m.dest = some p)
    {r : Peer Node × List (Msg Node)} (hr : peerHandle m.dest p m = some r) :
    Network.run Membership.step (memberNet s) (memberEvents s (.deliver m)) =
      some (memberNet (s.fire m.dest (s.msgs.erase m) (started r))) := by
  cases m with
  | member m =>
    obtain ⟨x, hx, rfl⟩ := Option.map_eq_some_iff.mp hr
    have hmem : m ∈ (memberNet s).msgs := Network.mem_project_msgs hm rfl
    have hnode : (memberNet s).node m.dest = some p.member :=
      (congrArg (Option.map Peer.member) hi : _)
    rw [started, memberNet_fire, Network.filterMap_erase_some separates_member rfl,
      filterMap_member_member]
    refine Network.run_cons_eq_some.mpr ⟨_, Network.step_deliver (P := Membership.protocol)
      (s := memberNet s) (r := Membership.started x) hmem ?_, rfl⟩
    change ((memberNet s).node m.dest).bind _ = _
    rw [hnode]
    exact Option.map_eq_some_iff.mpr ⟨x, hx, rfl⟩
  | cs m =>
    obtain ⟨x, hx, rfl⟩ := Option.map_eq_some_iff.mp hr
    have herase : (s.msgs.erase (.cs m)).filterMap Msg.member? = s.msgs.filterMap Msg.member? :=
      Network.filterMap_erase_none rfl s.msgs
    exact congrArg some (memberNet_same hi { p with cs := x.1 } rfl filterMap_member_cs herase).symm

/-- What a step is for the members by themselves. -/
theorem member_step (hstep : step s e = some s') :
    Network.run Membership.step (memberNet s) (memberEvents s e) = some (memberNet s') := by
  rcases Network.step_cases hstep with ⟨i, a, r, rfl, hr, rfl⟩ | ⟨m, r, rfl, hm, hr, rfl⟩
  · rcases act_eq_some hr with ⟨contact, hi, rfl, rfl⟩ | ⟨p, r', hi, hr', rfl⟩
    · refine Network.run_cons_eq_some.mpr ⟨_, Network.step_act (P := Membership.protocol)
        (s := memberNet s) (r := Membership.started (Membership.joinDSM i contact)) ?_, ?_⟩
      · have hnode : (memberNet s).node i = none := by simp [memberNet, hi]
        rw [hnode]
        rfl
      · have hmsgs : (joinDSM i contact).2.filterMap Msg.member? =
            (Membership.joinDSM i contact).2 := filterMap_member_member
        rw [started, memberNet_fire, hmsgs]
        rfl
    · exact member_peerAct hi hr'
  · obtain ⟨p, hp, hr⟩ := Option.bind_eq_some_iff.mp hr
    obtain ⟨r', hr', rfl⟩ := Option.map_eq_some_iff.mp hr
    exact member_peerHandle hm hp hr'

variable [Fintype Node]

/-- The threads inside the critical section are those of one node. -/
theorem Inv.alone (h : Inv o s) (hi : s.node i = some p) (hin : 0 < p.cs.inside) :
    ∀ j, j ≠ i → ∀ q ∈ s.node j, Membership.inCS q.member = false := by
  intro j hj q hq
  by_contra hne
  have hjin : 0 < q.cs.inside := (h.linked j q hq).inCS_iff.mp (by simpa using hne)
  have htok : ((csNet o s).node i).token = true :=
    ((h.cs.local_ i).inside (by rwa [csNet_node hi])).1
  have htok' : ((csNet o s).node j).token = true :=
    ((h.cs.local_ j).inside (by rwa [csNet_node hq])).1
  exact hj (h.cs.token_unique htok' htok)

/-- A node that has just entered was free to do so. -/
theorem Inv.free (h : Inv o (s.fire i rest (some p, l))) (hin : 0 < p.cs.inside) :
    ∀ j, j ≠ i → ((memberNet s).node j).all fun q => !Membership.inCS q := by
  intro j hj
  cases hq : s.node j with
  | none => simp [memberNet, hq]
  | some q =>
    have hout := h.alone (Network.fire_node_self ..) hin j hj q (by
      rw [Network.fire_node_ne s rest _ hj]
      exact hq)
    simp [memberNet, hq, hout]

omit [DecidableEq Node] [Fintype Node] in
theorem length_memberEvents_le (s : Net Node) (e : Event Node) : (memberEvents s e).length ≤ 1 := by
  rcases e with ⟨i, a⟩ | m
  · cases a with
    | requestCS joiner =>
      simp only [memberEvents]
      split <;> simp
    | _ => exact le_rfl
  · cases m <;> simp [memberEvents]

/-- The members take their steps as `stepOk` asks for: a handler returns from `request_CS` when no
other node has one inside. -/
theorem stepOk_peerAct (hi : s.node i = some p) {a : Action Node} {r : Peer Node × List (Msg Node)}
    (hr : peerAct i p a = some r) (h : Inv o (s.fire i s.msgs (started r))) :
    ∀ x ∈ memberEvents s (.act i a),
      Membership.stepOk (memberNet s) x ∧ Membership.noLeave x = true := by
  cases a with
  | joinDSM contact => cases hr
  | resume y =>
    obtain ⟨hy, -⟩ := Option.ite_none_left_eq_some.mp hr
    intro x hx
    obtain rfl := List.mem_singleton.mp hx
    exact ⟨fun hstage => absurd (Or.inl hstage) hy, rfl⟩
  | requestCS joiner =>
    obtain ⟨-, hr⟩ := Option.ite_none_right_eq_some.mp hr
    intro x hx
    cases htok : p.cs.token with
    | true =>
      simp only [memberEvents, hi, Option.any_some, htok, if_true] at hx
      obtain rfl := List.mem_singleton.mp hx
      simp only [htok, if_true] at hr
      obtain ⟨m, hm, rfl⟩ := goOn_eq_some hr
      have hin : 0 < (NaimiTrehel.requestCS i p.cs).1.inside := by
        simp [NaimiTrehel.requestCS, htok]
      exact ⟨fun _ => h.free hin, rfl⟩
    | false => simp [memberEvents, hi, htok] at hx
  | wake joiner =>
    obtain ⟨-, hr⟩ := Option.ite_none_right_eq_some.mp hr
    obtain ⟨cs, hcs, hr⟩ := Option.bind_eq_some_iff.mp hr
    obtain ⟨m, hm, rfl⟩ := goOn_eq_some hr
    intro x hx
    obtain rfl := List.mem_singleton.mp hx
    obtain ⟨-, -, rfl⟩ := NaimiTrehel.wake_eq_some hcs
    exact ⟨fun _ => h.free (Nat.succ_pos _), rfl⟩
  | releaseCS joiner =>
    intro x hx
    obtain rfl := List.mem_singleton.mp hx
    exact ⟨fun hstage => absurd hstage (by simp), rfl⟩

theorem stepOk_step (hstep : step s e = some s') (hok : joinOk s e = true) (h : Inv o s') :
    ∀ x ∈ memberEvents s e, Membership.stepOk (memberNet s) x ∧ Membership.noLeave x = true := by
  rcases Network.step_cases hstep with ⟨i, a, r, rfl, hr, rfl⟩ | ⟨m, r, rfl, hm, hr, rfl⟩
  · rcases act_eq_some hr with ⟨contact, hi, rfl, rfl⟩ | ⟨p, r', hi, hr', rfl⟩
    · intro x hx
      obtain rfl := List.mem_singleton.mp hx
      refine ⟨?_, rfl⟩
      show ((memberNet s).node contact).isSome
      simpa [memberNet, joinOk] using hok
    · exact stepOk_peerAct hi hr' h
  · intro x hx
    cases m with
    | member m =>
      obtain rfl := List.mem_singleton.mp hx
      exact ⟨trivial, rfl⟩
    | cs m => cases hx

end Members

/-! ## Runs -/

section Run

variable {Node : Type} [DecidableEq Node] [Fintype Node] {first : Node} {s : Net Node}

omit [Fintype Node] in
theorem csNet_initNet : csNet first (initNet first) = NaimiTrehel.initNet fun _ => first := by
  unfold csNet Network.Net.project NaimiTrehel.initNet
  congr 1
  funext i
  by_cases hi : i = first
  · subst hi
    simp [initNet, csOf]
  · simp [initNet, csOf, hi, Ne.symm hi]

omit [Fintype Node] in
theorem memberNet_initNet : memberNet (initNet first) = Membership.initNet first := by
  unfold memberNet Network.Net.project Membership.initNet
  congr 1
  funext i
  by_cases hi : i = first <;> simp [initNet, hi]

theorem inv_initNet : Inv first (initNet first) where
  cs := by
    rw [csNet_initNet]
    exact NaimiTrehel.inv_initNet (Pointers.root_const first)
  linked := by
    intro i p hp
    simp only [initNet] at hp
    split at hp
    · cases hp
      exact ⟨rfl, rfl⟩
    · cases hp

/-- Joining over the critical section of `Naimi_Trehel.c`: the members follow the protocol of
`Membership` by themselves, and that `request_CS` keeps different nodes apart, which is a condition
there, holds in every run; handlers of `JOIN_DSM` at different nodes are never between `request_CS`
and `release_CS` together. -/
theorem refines_membership {es : List (Event Node)}
    (hrun : Network.run step (initNet first) es = some s)
    (hok : Network.Meets step (fun s e => joinOk s e = true) (initNet first) es) :
    Network.run Membership.step (Membership.initNet first) (memberRun (initNet first) es) =
        some (memberNet s) ∧
      Network.Meets Membership.step
        (fun s e => Membership.stepOk s e ∧ Membership.noLeave e = true)
        (Membership.initNet first) (memberRun (initNet first) es) ∧
      ∀ i j, ∀ p ∈ s.node i, ∀ q ∈ s.node j, (∃ x ∈ p.member.handlers, x.inside) →
        (∃ x ∈ q.member.handlers, x.inside) → i = j := by
  have hsim : ∀ s t e s', (Inv first s ∧ t = memberNet s) → joinOk s e = true →
      step s e = some s' → ∃ t', Network.run Membership.step t (memberEvents s e) = some t' ∧
        Network.Meets Membership.step
          (fun s e => Membership.stepOk s e ∧ Membership.noLeave e = true) t (memberEvents s e) ∧
        Inv first s' ∧ t' = memberNet s' := by
    rintro s t e s' ⟨hinv, rfl⟩ hok hstep
    have hinv' := inv_step hinv hok hstep
    exact ⟨_, member_step hstep, Network.meets_of_length_le_one (length_memberEvents_le s e)
      (stepOk_step hstep hok hinv'), hinv', rfl⟩
  obtain ⟨t, ht, hmeets, hinv, rfl⟩ :=
    Network.run_translate hsim ⟨inv_initNet, memberNet_initNet.symm⟩ hok hrun
  refine ⟨ht, hmeets, ?_⟩
  intro i j p hp q hq hin hin'
  by_contra hne
  have hpos := (hinv.linked i p hp).inside_pos_iff.mpr hin
  have hpos' := (hinv.linked j q hq).inside_pos_iff.mpr hin'
  have hout := hinv.alone hp hpos j (Ne.symm hne) q hq
  exact Bool.false_ne_true (hout.symm.trans ((hinv.linked j q hq).inCS_iff.mpr hpos'))

end Run

/-- The node `b` joins through `a`, and `c` through `b`, which waits for the token of `a`. -/
def joinsRun {Node : Type} (a b c : Node) : List (Event Node) :=
  [.act b (.joinDSM a), .act c (.joinDSM b), .deliver (.member (.joinDSM b c)),
    .deliver (.member (.joinDSM a b)), .act a (.resume ⟨b, .waitInDsm⟩), .act a (.requestCS b),
    .act a (.resume ⟨b, .lockUmtx⟩), .deliver (.member (.infoDSM b a 0 [])),
    .act b (.resume ⟨c, .waitInDsm⟩), .act b (.requestCS c), .deliver (.cs (.requestCS a b b)),
    .act a (.resume ⟨b, .adding⟩), .act a (.releaseCS b), .deliver (.cs (.getCS b a)),
    .act b (.wake c), .act b (.resume ⟨c, .lockUmtx⟩), .deliver (.member (.newNode a b c)),
    .deliver (.member (.ackNode b a)), .act b (.resume ⟨c, .waitAcked []⟩),
    .deliver (.member (.infoDSM c b 1 [a]))]

theorem refines_membership_joinsRun :
    ∃ s, Network.run step (initNet 0) (joinsRun (0 : Fin 3) 1 2) = some s ∧
      Network.run Membership.step (Membership.initNet 0)
        (memberRun (initNet 0) (joinsRun (0 : Fin 3) 1 2)) = some (memberNet s) ∧
      ∀ p ∈ s.node 0, ∀ x ∈ p.member.handlers, x.inside = false := by
  have hrun : Network.run step (initNet 0) (joinsRun (0 : Fin 3) 1 2) = some _ := rfl
  obtain ⟨hmembers, -, hone⟩ := refines_membership hrun (by decide)
  refine ⟨_, hrun, hmembers, ?_⟩
  intro p hp x hx
  by_contra hin
  have hij := hone 0 1 p hp _ rfl ⟨x, hx, by simpa using hin⟩ ⟨⟨2, .adding⟩, by decide, rfl⟩
  exact absurd hij (by decide)

end Joining
