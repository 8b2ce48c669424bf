import Psar.NaimiTrehel.Exclusion
import Psar.NaimiTrehel.Proofs.CriticalSectionProofs
import Psar.Library.Pointers
import Psar.Library.Proofs.PointersProofs

/-!
# Proofs: mutual exclusion between the nodes

Each function moves one node; `Move` says that it keeps the state of the node in order and neither
creates nor loses the token or a request.
-/

namespace NaimiTrehel

variable {Node : Type} [DecidableEq Node]

/-- The node `i` moves from `p` to `p'`, consumes the messages `ms` and sends `out`. -/
structure Move (i : Node) (p : Peer Node) (ms : List (Msg Node)) (p' : Peer Node)
    (out : List (Msg Node)) : Prop where
  local_ : LocalInv p'
  stays : p'.leaving = p.leaving ∧ p'.resetting = p.resetting
  msgs : ∀ m ∈ out, MsgInv m
  token : tokenAt i p' + (out.map tokenMsg).sum = tokenAt i p + (ms.map tokenMsg).sum
  pending : ∀ y, pendingAt y i p' + (out.map (pendingMsg y)).sum ≤
    pendingAt y i p + (ms.map (pendingMsg y)).sum

section Moves

variable {i : Node} {p : Peer Node}

attribute [local simp] tokenAt tokenMsg pendingAt pendingMsg MsgInv

omit [DecidableEq Node] in
/-- A node without the token has no thread inside. -/
theorem LocalInv.inside_of_token (hp : LocalInv p) (htok : p.token = false) : p.inside = 0 := by
  by_contra hne
  have h := (hp.inside (Nat.pos_of_ne_zero hne)).1
  simp [htok] at h

omit [DecidableEq Node] in
/-- A node that does not ask for the token has no `next`. -/
theorem LocalInv.next_of_requesting (hp : LocalInv p) (hreq : p.requesting = false) :
    p.next = none := by
  by_contra hne
  have h := (hp.queue hne).1
  simp [hreq] at h

/-- `request_CS` of a node that has not asked for the token yet, or that waits for it as a root. -/
theorem move_requestCS (hp : LocalInv p)
    (h : p.token = true ∨ p.requesting = false ∨ p.father = none) :
    Move i p [] (requestCS i p).1 (requestCS i p).2 := by
  rcases requestCS_cases i p with ⟨htok, heq⟩ | ⟨htok, hf, heq⟩ | ⟨f, htok, hf, heq⟩
  · rw [heq]
    exact ⟨⟨by simp [hp.users], by simp [htok], by simp, fun hn => ⟨rfl, (hp.queue hn).2⟩⟩,
      ⟨rfl, rfl⟩, by simp, by simp, fun y => by simp [htok]⟩
  · have hreq := hp.asking htok hf
    rw [heq]
    exact ⟨⟨hp.users, by simp [hp.inside_of_token htok], by simp, fun hn => ⟨rfl, (hp.queue hn).2⟩⟩,
      ⟨rfl, rfl⟩, by simp, by simp, fun y => by simp [htok, hreq]⟩
  · have hreq : p.requesting = false := by simpa [htok, hf] using h
    have hnext := hp.next_of_requesting hreq
    rw [heq]
    refine ⟨⟨hp.users, by simp [hp.inside_of_token htok], by simp, by simp [hnext]⟩, ⟨rfl, rfl⟩,
      by simp, by simp, ?_⟩
    intro y
    by_cases hy : i = y <;> simp [htok, hreq, hnext, hy]

/-- A thread leaves the waiting loop. -/
theorem move_wake (hp : LocalInv p) (hreq : p.requesting = true) {p' : Peer Node}
    (h : wake p = some p') : Move i p [] p' [] := by
  obtain ⟨-, htok, rfl⟩ := wake_eq_some h
  exact ⟨⟨by simp [hp.users], by simp [htok, hreq], hp.asking, hp.queue⟩, ⟨rfl, rfl⟩, by simp,
    by simp, fun y => by simp⟩

/-- `release_CS`: the last thread passes the token on to `next`. -/
theorem move_releaseCS (hp : LocalInv p) {r : Peer Node × List (Msg Node)}
    (h : releaseCS i p = some r) : Move i p [] r.1 r.2 := by
  obtain ⟨hin, hcases⟩ := releaseCS_cases h
  obtain ⟨htok, hreq⟩ := hp.inside hin
  have husers := hp.users
  rcases hcases with ⟨-, rfl⟩ | ⟨h0, hn, rfl⟩ | ⟨n, h0, hn, rfl⟩
  · exact ⟨⟨by simp [husers], fun _ => ⟨htok, hreq⟩, hp.asking, hp.queue⟩, ⟨rfl, rfl⟩, by simp,
      by simp, fun y => by simp⟩
  · have hin0 : p.inside - 1 = 0 := by omega
    exact ⟨⟨hin0.symm, by simp [hin0], by simp [htok], by simp [hn]⟩, ⟨rfl, rfl⟩, by simp, by simp,
      fun y => by simp [hn, htok]⟩
  · have hin0 : p.inside - 1 = 0 := by omega
    have hfather := (hp.queue (by simp [hn])).2
    refine ⟨⟨hin0.symm, by simp [hin0], fun _ hf => absurd hf hfather, by simp⟩, ⟨rfl, rfl⟩,
      by simp, by simp [htok], ?_⟩
    intro y
    by_cases hy : n = y <;> simp [hn, hy, htok]

/-- `REQUEST_CS_handler`: the request is queued, answered or passed on. -/
theorem move_requestCSHandler (hp : LocalInv p) (hl : p.leaving = false) {d sender y : Node} :
    Move i p [.requestCS d sender y] (requestCSHandler i p y).1 (requestCSHandler i p y).2 := by
  rcases requestCSHandler_cases i p y with ⟨hl', -⟩ | ⟨-, hf, hreq, heq⟩ | ⟨-, hf, hreq, heq⟩ |
    ⟨f, -, hf, heq⟩
  · exact absurd (hl.symm.trans hl') (by simp)
  · rw [heq]
    refine ⟨⟨hp.users, hp.inside, by simp, fun _ => ⟨hreq, by simp⟩⟩, ⟨rfl, rfl⟩, by simp,
      by simp, ?_⟩
    intro z
    by_cases hz : y = z <;> simp [hz]
    omega
  · -- the node has the token and no thread inside
    have htok : p.token = true := by
      by_contra hne
      have h := hp.asking (by simpa using hne) hf
      simp [hreq] at h
    have h0 : p.inside = 0 := by
      by_contra hne
      have h := (hp.inside (Nat.pos_of_ne_zero hne)).2
      simp [hreq] at h
    have hnext := hp.next_of_requesting hreq
    rw [heq]
    refine ⟨⟨hp.users, by simp [h0], by simp, by simp [hnext]⟩, ⟨rfl, rfl⟩, by simp,
      by simp [htok], ?_⟩
    intro z
    by_cases hz : y = z <;> simp [hz, hreq, hnext]
  · rw [heq]
    exact ⟨⟨hp.users, hp.inside, by simp, fun hn => ⟨(hp.queue hn).1, by simp⟩⟩, ⟨rfl, rfl⟩, by simp,
      by simp, fun z => by simp⟩

/-- `GET_CS_handler` at a node without the token. -/
theorem move_getCSHandler (hp : LocalInv p) (htok : p.token = false) {sender : Node} :
    Move i p [.getCS i sender] (getCSHandler p) [] := by
  refine ⟨⟨hp.users, fun h => ⟨rfl, (hp.inside h).2⟩, by simp [getCSHandler], hp.queue⟩, ⟨rfl, rfl⟩,
    by simp, by simp [getCSHandler, htok], ?_⟩
  intro y
  by_cases hn : p.next = some y <;> by_cases hy : i = y <;> simp [getCSHandler, hn, hy]

end Moves

/-! ## Steps and runs -/

section Run

variable [Fintype Node] {nodeList : Node → List Node} {s s' : Net Node}

/-- A `Move` keeps the invariant. -/
theorem inv_fire (h : Inv s) {i : Node} {ms rest : List (Msg Node)}
    (hp : s.msgs.Perm (ms ++ rest)) {r : Peer Node × List (Msg Node)}
    (hm : Move i (s.node i) ms r.1 r.2) : Inv (s.fire i rest r) where
  local_ := Network.forall_node_fire h.local_ hm.local_
  stays := Network.forall_node_fire
    (L := fun _ (p : Peer Node) => p.leaving = false ∧ p.resetting = []) h.stays
    ⟨hm.stays.1.trans (h.stays i).1, hm.stays.2.trans (h.stays i).2⟩
  msgs := Network.forall_msgs_fire h.msgs hp hm.msgs
  token := by
    have h1 := Network.weight_fire tokenAt tokenMsg (i := i) hp r
    have h2 := hm.token
    have h3 := h.token
    omega
  pending := by
    intro y
    have h1 := Network.weight_fire (pendingAt y) (pendingMsg y) (i := i) hp r
    have h2 := hm.pending y
    have h3 := h.pending y
    omega

/-- While the token is in flight, no node has it. -/
theorem Inv.token_of_getCS (h : Inv s) {d sender : Node} (hm : Msg.getCS d sender ∈ s.msgs)
    (i : Node) : (s.node i).token = false := by
  have h1 := Network.le_weight_msg tokenAt tokenMsg s i hm
  have h2 := h.token
  by_contra hne
  simp only [tokenAt, tokenMsg, (by simpa using hne : (s.node i).token = true),
    Bool.toNat_true] at h1
  omega

/-- Two nodes cannot both have the token. -/
theorem Inv.token_unique (h : Inv s) {i j : Node} (hi : (s.node i).token = true)
    (hj : (s.node j).token = true) : i = j := by
  by_contra hij
  have h1 := Network.le_weight_pair tokenAt tokenMsg s hij
  have h2 := h.token
  simp only [tokenAt, hi, hj, Bool.toNat_true] at h1
  omega

/-- Every step with one request per node keeps the invariant. -/
theorem inv_step {e : Event Node} (h : Inv s) (hl : noLeave e = true) (hok : oneRequest s e = true)
    (hstep : step nodeList s e = some s') : Inv s' := by
  rcases Network.step_cases hstep with ⟨i, a, r, rfl, hr, rfl⟩ | ⟨m, r, rfl, hm, hr, rfl⟩
  · have hp := h.local_ i
    refine inv_fire h (Network.perm_act _) ?_
    change act i (s.node i) a = some r at hr
    cases a with
    | requestCS =>
      cases hr
      apply move_requestCS hp
      simpa [oneRequest, or_assoc] using hok
    | wake =>
      obtain ⟨p', hp', rfl⟩ := Option.map_eq_some_iff.mp hr
      exact move_wake hp hok hp'
    | releaseCS => exact move_releaseCS hp hr
    | leaveCS n => simp [noLeave] at hl
    | resumeReset x => simp [act, (h.stays i).2] at hr
  · have hp := h.local_ m.dest
    have hmsg := h.msgs m hm
    refine inv_fire h (Network.perm_deliver hm) ?_
    change handle nodeList m.dest (s.node m.dest) m = some r at hr
    cases m with
    | requestCS d sender y =>
      cases hr
      exact move_requestCSHandler hp (h.stays d).1
    | getCS d sender =>
      cases hr
      exact move_getCSHandler hp (h.token_of_getCS hm d)
    | _ => exact hmsg.elim

theorem inv_initNet {f : Node → Node} {root : Node} (hf : Pointers.Root f (fun _ => True) root) :
    Inv (initNet f) where
  local_ := by
    intro i
    by_cases hi : f i = i
    · simp only [initNet, hi, if_true]
      exact ⟨rfl, by simp [initCS], by simp [initCS], by simp [initCS]⟩
    · simp only [initNet, hi, if_false]
      exact ⟨rfl, by simp [initCS], by simp [initCS], by simp [initCS]⟩
  stays := by
    intro i
    by_cases hi : f i = i <;> simp [initNet, hi, initCS]
  msgs := by simp [initNet]
  token := by
    have h : ∀ i, tokenAt i ((initNet f).node i) = if i = root then 1 else 0 := by
      intro i
      by_cases hi : i = root
      · simp [initNet, hi, hf.self, initCS, tokenAt]
      · have hne : f i ≠ i := fun h => hi (hf.unique i trivial h)
        simp [initNet, hi, hne, initCS, tokenAt]
    simp only [Network.Net.weight, h]
    simp [initNet]
  pending := by
    intro y
    have h : ∀ i, pendingAt y i ((initNet f).node i) = if i = y then 1 else 0 := by
      intro i
      by_cases hi : f i = i <;> simp [initNet, hi, initCS, pendingAt]
    simp only [Network.Net.weight, h]
    simp [initNet]

theorem inv_run {f : Node → Node} {root : Node} (hf : Pointers.Root f (fun _ => True) root)
    {es : List (Event Node)} (hrun : Network.run (step nodeList) (initNet f) es = some s)
    (hok : Network.Meets (step nodeList) (fun s e => noLeave e && oneRequest s e) (initNet f) es) :
    Inv s := by
  refine Network.run_invariant (fun s e s' h hok hstep => ?_) (inv_initNet hf) hok hrun
  simp only [Bool.and_eq_true] at hok
  exact inv_step h hok.1 hok.2 hstep

/-- Mutual exclusion between the nodes: in every run with one request per node at a time, a node
with a thread inside the critical section has the token and is the only one. -/
theorem critical_section_exclusive {f : Node → Node} {root : Node}
    (hf : Pointers.Root f (fun _ => True) root) {es : List (Event Node)}
    (hrun : Network.run (step nodeList) (initNet f) es = some s)
    (hok : Network.Meets (step nodeList) (fun s e => noLeave e && oneRequest s e) (initNet f) es)
    {i : Node} (hi : 0 < (s.node i).inside) :
    (s.node i).token = true ∧ ∀ j, 0 < (s.node j).inside → j = i := by
  have h := inv_run hf hrun hok
  have htok := ((h.local_ i).inside hi).1
  refine ⟨htok, ?_⟩
  intro j hj
  exact h.token_unique ((h.local_ j).inside hj).1 htok

end Run

/-! ## Runs of two nodes -/

/-- A thread of the node `b` gets the token from `a`. -/
def enterRun (a b : Node) : List (Event Node) :=
  [.act b .requestCS, .deliver (.requestCS a b b), .deliver (.getCS b a), .act b .wake]

theorem critical_section_exclusive_enter :
    ∃ s, Network.run (step fun _ => []) (initNet fun _ => 0) (enterRun (0 : Fin 2) 1) = some s ∧
      0 < (s.node 1).inside ∧ (s.node 1).token = true ∧ (s.node 0).inside = 0 := by
  have hrun : Network.run (step fun _ => []) (initNet fun _ => 0) (enterRun (0 : Fin 2) 1) =
      some _ := rfl
  obtain ⟨htok, hone⟩ := critical_section_exclusive (Pointers.root_const 0) hrun (by decide)
    (i := 1) (by decide)
  refine ⟨_, hrun, by decide, htok, ?_⟩
  by_contra h0
  exact absurd (hone 0 (Nat.pos_of_ne_zero h0)) (by decide)

/-- A second thread of the node `b` enters and leaves before the first one has left the waiting
loop. -/
def twoThreadsRun (a b : Node) : List (Event Node) :=
  [.act b .requestCS, .deliver (.requestCS a b b), .act a .requestCS, .deliver (.getCS b a),
    .act b .requestCS, .act b .releaseCS, .act b .wake, .deliver (.requestCS b a a),
    .deliver (.getCS a b), .act a .wake]

/-- `requesting` is then false although a thread is inside, the token is given away and both nodes
have a thread inside. -/
theorem two_threads_break_exclusion :
    ∃ s, Network.run (step fun _ => []) (initNet fun _ => 0) (twoThreadsRun (0 : Fin 2) 1) = some s ∧
      (∀ e ∈ twoThreadsRun (0 : Fin 2) 1, noLeave e = true) ∧ 0 < (s.node 0).inside ∧
      0 < (s.node 1).inside ∧ (s.node 1).token = false := by
  exact ⟨_, rfl, by decide, by decide, by decide, by decide⟩

end NaimiTrehel
